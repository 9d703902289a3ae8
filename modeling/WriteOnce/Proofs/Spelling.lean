import WriteOnce.Proofs.NodeClasses
import WriteOnce.Proofs.ParallelTypes
import WriteOnce.Syntax.Fingerprint

/-!
# Trees told apart by their spelling

A tree is spelled out from its root on, every node in front of its parts. Nothing says how many
fields a node has or where it ends. The class of a node tells that, and so a tree of syntax can be
read back from its spelling, whichever code points are printable.
-/

namespace WriteOnce

namespace Tree

variable (printable : Nat → Bool)

mutual

/-- The encoding of a tree: the length of a list and its items, the class of a node and its fields,
and the representation of any other value. -/
def encoding : Tree → Text
  | node label fields => label ++ "(" ++ encodingFields fields
  | list items => "[" ++ Text.ofNat items.length ++ "]" ++ encodingItems items
  | place pos => "Pos(" ++ (Text.ofNat pos.line ++ ",") ++ (Text.ofNat pos.col ++ ",")
  | text value => Text.Quoted.encode printable value ++ ","
  | number value => Text.ofNat value ++ ","
  | flag true => "True" ++ ","
  | flag false => "False" ++ ","
  | absent => "None" ++ ","

def encodingFields : List (Text × Tree) → Text
  | [] => .empty
  | (_, t) :: fields => encoding t ++ encodingFields fields

def encodingItems : List Tree → Text
  | [] => .empty
  | t :: items => encoding t ++ encodingItems items

end

/-! ## Codes -/

section Codes

variable {printable} {r : List Nat}

theorem leaf_append (value : Text) : (value ++ ",").codes ++ r = value.codes ++ 0x2C :: r :=
  List.append_assoc ..

theorem encoding_node_append (label : Text) (fields : List (Text × Tree)) :
    (encoding printable (node label fields)).codes ++ r =
      label.codes ++ 0x28 :: ((encodingFields printable fields).codes ++ r) := by
  rw [encoding, Text.codes_append, Text.codes_append, List.append_assoc, List.append_assoc]
  rfl

theorem encoding_list_append (items : List Tree) :
    (encoding printable (list items)).codes ++ r =
      0x5B :: ((Text.ofNat items.length).codes ++
        0x5D :: ((encodingItems printable items).codes ++ r)) := by
  rw [encoding, Text.codes_append, Text.codes_append, Text.codes_append, List.append_assoc,
    List.append_assoc, List.append_assoc]
  rfl

theorem encoding_place_append (pos : Pos) :
    (encoding printable (place pos)).codes ++ r =
      Text.codes "Pos(" ++ ((Text.ofNat pos.line).codes ++
        0x2C :: ((Text.ofNat pos.col).codes ++ 0x2C :: r)) := by
  rw [encoding, Text.codes_append, Text.codes_append, List.append_assoc, List.append_assoc,
    leaf_append, leaf_append]

theorem encodingFields_cons_append (name : Text) (t : Tree) (fields : List (Text × Tree)) :
    (encodingFields printable ((name, t) :: fields)).codes ++ r =
      (encoding printable t).codes ++ ((encodingFields printable fields).codes ++ r) :=
  List.append_assoc ..

theorem encodingItems_cons_append (t : Tree) (items : List Tree) :
    (encodingItems printable (t :: items)).codes ++ r =
      (encoding printable t).codes ++ ((encodingItems printable items).codes ++ r) :=
  List.append_assoc ..

end Codes

mutual

theorem spell_eq : (t : Tree) → (r : List Nat) →
    spell t r = (encoding Text.isPrintable t).codes ++ r
  | node label fields, r => by
    rw [spell, spellFields_eq fields r, encoding_node_append]
  | list items, r => by
    rw [spell, spellItems_eq items r, encoding_list_append]
  | place pos, r => (encoding_place_append pos).symm
  | text value, r => (leaf_append _).symm
  | number value, r => (leaf_append _).symm
  | flag true, r => (leaf_append "True").symm
  | flag false, r => (leaf_append "False").symm
  | absent, r => (leaf_append "None").symm

theorem spellFields_eq : (fields : List (Text × Tree)) → (r : List Nat) →
    spellFields fields r = (encodingFields Text.isPrintable fields).codes ++ r
  | [], _ => rfl
  | (_, t) :: fields, r => by
    rw [spellFields, spell_eq t, spellFields_eq fields r, encodingFields_cons_append]

theorem spellItems_eq : (items : List Tree) → (r : List Nat) →
    spellItems items r = (encodingItems Text.isPrintable items).codes ++ r
  | [], _ => rfl
  | t :: items, r => by
    rw [spellItems, spell_eq t, spellItems_eq items r, encodingItems_cons_append]

end

/-- A tree is spelled out as its encoding with the code points that can be printed. -/
theorem spelling_eq (t : Tree) : t.spelling = t.encoding Text.isPrintable :=
  Text.ext ((spell_eq t []).trans (List.append_nil _))

/-! ## Beginnings -/

variable {printable}

/-- With what the encoding of a tree can begin. -/
def Begins : Tree → Nat → Prop
  | node .., c => c = 0x4A
  | list _, c => c = 0x5B
  | place _, c => c = 0x50
  | text _, c => c = 0x27 ∨ c = 0x22
  | number _, c => Text.IsDigit c
  | flag _, c => c = 0x54 ∨ c = 0x46
  | absent, c => c = 0x4E

theorem ofNat_codes_ne_nil (n : Nat) : (Text.ofNat n).codes ≠ [] := by
  change (Nat.toDigits 10 n).map Char.toNat ≠ []
  simp [Nat.toDigits_ne_nil]

theorem encoding_begins {t : Tree} (h : t.Signed) (r : List Nat) :
    ∃ c cs, (encoding printable t).codes ++ r = c :: cs ∧ t.Begins c := by
  cases t with
  | node label fields =>
    obtain ⟨⟨c, hc⟩, -⟩ := h
    have hhead := c.signature_label.1
    rw [hc] at hhead
    obtain ⟨cs, hcs⟩ := List.head?_eq_some_iff.1 hhead
    rw [encoding_node_append, hcs]
    exact ⟨_, _, rfl, rfl⟩
  | list items => exact ⟨_, _, encoding_list_append items, rfl⟩
  | place pos => exact ⟨_, _, encoding_place_append pos, rfl⟩
  | text value =>
    exact ⟨_, _, leaf_append _, Text.Quoted.isMark_mark value⟩
  | number value =>
    obtain ⟨c, cs, hcs⟩ := List.exists_cons_of_ne_nil (ofNat_codes_ne_nil value)
    rw [encoding, leaf_append, hcs]
    refine ⟨_, _, rfl, Text.isDigit_of_mem_ofNat (n := value) ?_⟩
    rw [hcs]
    exact .head _
  | flag value =>
    cases value with
    | true => exact ⟨_, _, rfl, .inl rfl⟩
    | false => exact ⟨_, _, rfl, .inr rfl⟩
  | absent => exact ⟨_, _, rfl, rfl⟩

/-- Which form a tree has. -/
def form : Tree → Nat
  | node .. => 0
  | list _ => 1
  | place _ => 2
  | text _ => 3
  | number _ => 4
  | flag _ => 5
  | absent => 6

theorem form_eq {t u : Tree} {c : Nat} (h : t.Begins c) (h' : u.Begins c) : t.form = u.form := by
  cases t <;> cases u <;> simp only [Begins, Text.IsDigit] at h h' <;> first | rfl | omega

theorem form_eq_of_encoding {t u : Tree} (ht : t.Signed) (hu : u.Signed) {r r' : List Nat}
    (h : (encoding printable t).codes ++ r = (encoding printable u).codes ++ r') :
    t.form = u.form := by
  obtain ⟨c, cs, hcs, hbegins⟩ := encoding_begins ht r
  obtain ⟨c', cs', hcs', hbegins'⟩ := encoding_begins hu r'
  rw [hcs, hcs'] at h
  obtain ⟨rfl, -⟩ := List.cons_eq_cons.1 h
  exact form_eq hbegins hbegins'

/-! ## Reading back -/

theorem not_isDigit_comma : ¬Text.IsDigit 0x2C := by
  unfold Text.IsDigit
  omega

theorem number_append_inj {m n : Nat} {r r' : List Nat}
    (h : (Text.ofNat m).codes ++ 0x2C :: r = (Text.ofNat n).codes ++ 0x2C :: r') :
    m = n ∧ r = r' := by
  obtain ⟨hmn, -, hr⟩ := Text.ofNat_stop_inj not_isDigit_comma not_isDigit_comma h
  exact ⟨hmn, hr⟩

section Parts

variable {r r' : List Nat}

/-- The name of a class tells which fields follow. -/
theorem node_append_inj {label label' : Text} {fields fields' : List (Text × Tree)}
    (hs : ∃ c : NodeClass, c.signature = (label, fields.map Prod.fst))
    (hs' : ∃ c : NodeClass, c.signature = (label', fields'.map Prod.fst))
    (h : (encoding printable (node label fields)).codes ++ r =
      (encoding printable (node label' fields')).codes ++ r') :
    label = label' ∧ fields.map Prod.fst = fields'.map Prod.fst ∧
      (encodingFields printable fields).codes ++ r =
        (encodingFields printable fields').codes ++ r' := by
  obtain ⟨c, hsignature⟩ := hs
  obtain ⟨c', hsignature'⟩ := hs'
  have hplain := c.signature_label.2
  have hplain' := c'.signature_label.2
  rw [hsignature] at hplain
  rw [hsignature'] at hplain'
  rw [encoding_node_append, encoding_node_append] at h
  obtain ⟨hlabel, -, hrest⟩ :=
    append_stop_inj (P := (· ≠ 0x28)) hplain hplain' (by simp) (by simp) h
  obtain rfl : label = label' := Text.ext hlabel
  obtain rfl : c = c' := NodeClass.signature_unique (by rw [hsignature, hsignature'])
  exact ⟨rfl, congrArg Prod.snd (hsignature.symm.trans hsignature'), hrest⟩

theorem list_append_inj {items items' : List Tree}
    (h : (encoding printable (list items)).codes ++ r =
      (encoding printable (list items')).codes ++ r') :
    items.length = items'.length ∧ (encodingItems printable items).codes ++ r =
      (encodingItems printable items').codes ++ r' := by
  rw [encoding_list_append, encoding_list_append] at h
  obtain ⟨hlength, -, hrest⟩ := Text.ofNat_stop_inj (by simp [Text.IsDigit])
    (by simp [Text.IsDigit]) (List.cons_eq_cons.1 h).2
  exact ⟨hlength, hrest⟩

theorem place_append_inj {pos pos' : Pos}
    (h : (encoding printable (place pos)).codes ++ r =
      (encoding printable (place pos')).codes ++ r') : pos = pos' ∧ r = r' := by
  rw [encoding_place_append, encoding_place_append] at h
  obtain ⟨hline, h⟩ := number_append_inj (List.append_cancel_left h)
  obtain ⟨hcol, hr⟩ := number_append_inj h
  exact ⟨Pos.mk.injEq .. ▸ ⟨hline, hcol⟩, hr⟩

theorem text_append_inj {value value' : Text} (hc : value.Coded) (hc' : value'.Coded)
    (h : (encoding printable (text value)).codes ++ r =
      (encoding printable (text value')).codes ++ r') : value = value' ∧ r = r' := by
  rw [encoding, encoding, leaf_append, leaf_append] at h
  obtain ⟨hvalue, hrest⟩ := Text.Quoted.encode_inj hc hc' h
  exact ⟨hvalue, (List.cons_eq_cons.1 hrest).2⟩

theorem flag_append_inj {value value' : Bool}
    (h : (encoding printable (flag value)).codes ++ r =
      (encoding printable (flag value')).codes ++ r') : value = value' ∧ r = r' := by
  cases value <;> cases value'
  · exact ⟨rfl, List.append_cancel_left h⟩
  · cases h
  · cases h
  · exact ⟨rfl, List.append_cancel_left h⟩

end Parts

mutual

/-- A tree ends by itself. -/
theorem encoding_inj : (t t' : Tree) → t.Signed → t'.Signed → t.Coded → t'.Coded →
    (r r' : List Nat) → (encoding printable t).codes ++ r = (encoding printable t').codes ++ r' →
    t = t' ∧ r = r'
  | .node label fields, t', hs, hs', hc, hc', r, r', h => by
    have hform := form_eq_of_encoding hs hs' h
    cases t' with
    | node label' fields' =>
      obtain ⟨rfl, hnames, hrest⟩ := node_append_inj hs.1 hs'.1 h
      obtain ⟨rfl, rfl⟩ := encodingFields_inj fields fields' hnames hs.2 hs'.2 hc hc' r r' hrest
      exact ⟨rfl, rfl⟩
    | _ => cases hform
  | .list items, t', hs, hs', hc, hc', r, r', h => by
    have hform := form_eq_of_encoding hs hs' h
    cases t' with
    | list items' =>
      obtain ⟨hlength, hrest⟩ := list_append_inj h
      obtain ⟨rfl, rfl⟩ := encodingItems_inj items items' hlength hs hs' hc hc' r r' hrest
      exact ⟨rfl, rfl⟩
    | _ => cases hform
  | .place pos, t', hs, hs', _, _, r, r', h => by
    have hform := form_eq_of_encoding hs hs' h
    cases t' with
    | place pos' =>
      obtain ⟨rfl, rfl⟩ := place_append_inj h
      exact ⟨rfl, rfl⟩
    | _ => cases hform
  | .text value, t', hs, hs', hc, hc', r, r', h => by
    have hform := form_eq_of_encoding hs hs' h
    cases t' with
    | text value' =>
      obtain ⟨rfl, rfl⟩ := text_append_inj hc hc' h
      exact ⟨rfl, rfl⟩
    | _ => cases hform
  | .number value, t', hs, hs', _, _, r, r', h => by
    have hform := form_eq_of_encoding hs hs' h
    cases t' with
    | number value' =>
      rw [encoding, encoding, leaf_append, leaf_append] at h
      obtain ⟨rfl, rfl⟩ := number_append_inj h
      exact ⟨rfl, rfl⟩
    | _ => cases hform
  | .flag value, t', hs, hs', _, _, r, r', h => by
    have hform := form_eq_of_encoding hs hs' h
    cases t' with
    | flag value' =>
      obtain ⟨rfl, rfl⟩ := flag_append_inj h
      exact ⟨rfl, rfl⟩
    | _ => cases hform
  | .absent, t', hs, hs', _, _, r, r', h => by
    have hform := form_eq_of_encoding hs hs' h
    cases t' with
    | absent => exact ⟨rfl, List.append_cancel_left h⟩
    | _ => cases hform
termination_by structural t => t

theorem encodingFields_inj : (fs fs' : List (Text × Tree)) → fs.map Prod.fst = fs'.map Prod.fst →
    SignedFields fs → SignedFields fs' → CodedFields fs → CodedFields fs' → (r r' : List Nat) →
    (encodingFields printable fs).codes ++ r = (encodingFields printable fs').codes ++ r' →
    fs = fs' ∧ r = r'
  | [], fs', hnames, _, _, _, _, r, r', h => by
    obtain rfl := List.map_eq_nil_iff.1 hnames.symm
    exact ⟨rfl, h⟩
  | (name, t) :: fs, fs', hnames, hs, hs', hc, hc', r, r', h => by
    obtain _ | ⟨⟨name', t'⟩, fs'⟩ := fs'
    · cases hnames
    · obtain ⟨hname, hothers⟩ := List.cons_eq_cons.1 hnames
      rw [encodingFields_cons_append, encodingFields_cons_append] at h
      obtain ⟨rfl, hrest⟩ := encoding_inj t t' hs.1 hs'.1 hc.1 hc'.1 _ _ h
      obtain ⟨rfl, rfl⟩ := encodingFields_inj fs fs' hothers hs.2 hs'.2 hc.2 hc'.2 r r' hrest
      cases hname
      exact ⟨rfl, rfl⟩
termination_by structural fs => fs

theorem encodingItems_inj : (ts ts' : List Tree) → ts.length = ts'.length →
    SignedItems ts → SignedItems ts' → CodedItems ts → CodedItems ts' → (r r' : List Nat) →
    (encodingItems printable ts).codes ++ r = (encodingItems printable ts').codes ++ r' →
    ts = ts' ∧ r = r'
  | [], ts', hlength, _, _, _, _, r, r', h => by
    obtain rfl := List.length_eq_zero_iff.1 hlength.symm
    exact ⟨rfl, h⟩
  | t :: ts, ts', hlength, hs, hs', hc, hc', r, r', h => by
    obtain _ | ⟨t', ts'⟩ := ts'
    · cases hlength
    · rw [encodingItems_cons_append, encodingItems_cons_append] at h
      obtain ⟨rfl, hrest⟩ := encoding_inj t t' hs.1 hs'.1 hc.1 hc'.1 _ _ h
      obtain ⟨rfl, rfl⟩ :=
        encodingItems_inj ts ts' (Nat.succ.inj hlength) hs.2 hs'.2 hc.2 hc'.2 r r' hrest
      exact ⟨rfl, rfl⟩
termination_by structural ts => ts

end

/-! ## Bytes -/

theorem coded_leaf {value : Text} (h : value.Coded) : (value ++ ",").Coded :=
  Text.coded_append h (Text.coded_ofString ",")

theorem coded_ofNat (n : Nat) : (Text.ofNat n).Coded := Text.coded_ofChars _

mutual

theorem coded_encoding : (t : Tree) → t.Signed → t.Coded → (encoding printable t).Coded
  | .node label fields, hs, hc => by
    obtain ⟨⟨c, hsignature⟩, hs⟩ := hs
    have hlabel := c.coded_signature
    rw [hsignature] at hlabel
    exact Text.coded_append (Text.coded_append hlabel (Text.coded_ofString "("))
      (coded_encodingFields fields hs hc)
  | .list items, hs, hc =>
    Text.coded_append (Text.coded_append (Text.coded_append (Text.coded_ofString "[")
      (coded_ofNat _)) (Text.coded_ofString "]")) (coded_encodingItems items hs hc)
  | .place _, _, _ => Text.coded_append (Text.coded_append (Text.coded_ofString "Pos(")
      (coded_leaf (coded_ofNat _))) (coded_leaf (coded_ofNat _))
  | .text _, _, hc => coded_leaf (Text.Quoted.isCodePoint_encode hc)
  | .number _, _, _ => coded_leaf (coded_ofNat _)
  | .flag true, _, _ => coded_leaf (Text.coded_ofString "True")
  | .flag false, _, _ => coded_leaf (Text.coded_ofString "False")
  | .absent, _, _ => coded_leaf (Text.coded_ofString "None")
termination_by structural t => t

theorem coded_encodingFields : (fs : List (Text × Tree)) → SignedFields fs → CodedFields fs →
    (encodingFields printable fs).Coded
  | [], _, _ => Text.coded_ofString ""
  | (_, t) :: fs, hs, hc =>
    Text.coded_append (coded_encoding t hs.1 hc.1) (coded_encodingFields fs hs.2 hc.2)
termination_by structural fs => fs

theorem coded_encodingItems : (ts : List Tree) → SignedItems ts → CodedItems ts →
    (encodingItems printable ts).Coded
  | [], _, _ => Text.coded_ofString ""
  | t :: ts, hs, hc =>
    Text.coded_append (coded_encoding t hs.1 hc.1) (coded_encodingItems ts hs.2 hc.2)
termination_by structural ts => ts

end

/-- The bytes of an encoding can be read back. -/
theorem encoding_bytes_inj {t u : Tree} (ht : t.Signed) (hu : u.Signed) (hct : t.Coded)
    (hcu : u.Coded) (h : (t.encoding printable).utf8 = (u.encoding printable).utf8) : t = u := by
  have hencoding := Text.utf8_inj (coded_encoding t ht hct) (coded_encoding u hu hcu) h
  exact (encoding_inj t u ht hu hct hcu [] [] (by rw [hencoding])).1

/-- Different trees have different bytes. -/
theorem bytes_inj {t u : Tree} (ht : t.Signed) (hu : u.Signed) (hct : t.Coded) (hcu : u.Coded)
    (h : t.spelling.utf8 = u.spelling.utf8) : t = u := by
  rw [spelling_eq, spelling_eq] at h
  exact encoding_bytes_inj ht hu hct hcu h

/-- Fingerprints are equal only if the digests are. -/
theorem digest_eq {t u : Tree} (h : t.fingerprint = u.fingerprint) :
    Sha256.digest t.spelling.utf8 = Sha256.digest u.spelling.utf8 := by
  have hdigits : SelfDelimiting (fun _ : UInt8 => True)
      fun byte => Text.Quoted.hexDigits 2 byte.toNat := by
    intro a b _ _ r r' h
    obtain ⟨hab, hr⟩ := Text.Quoted.hexDigits_append_inj (UInt8.toNat_lt a) (UInt8.toNat_lt b) h
    exact ⟨UInt8.toNat_inj.1 hab, hr⟩
  refine hdigits.flatMap_inj (fun a _ hnil => ?_) (fun _ _ => trivial) (fun _ _ => trivial)
    (congrArg Text.codes h)
  have hlength := Text.Quoted.length_hexDigits 2 a.toNat
  rw [hnil] at hlength
  cases hlength

end Tree

end WriteOnce
