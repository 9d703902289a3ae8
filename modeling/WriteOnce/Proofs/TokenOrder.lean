import Mathlib.Data.List.TakeWhile
import WriteOnce.Proofs.MovedLists
import WriteOnce.Proofs.ParallelTypes
import WriteOnce.Token.Lexer

/-!
# Where tokens stand

The tokens of a source stand one behind the other, and their texts are made of code points.
A quoted literal is longer than its text, so nothing ever touches the end of that text.
-/

namespace WriteOnce

/-! ## Distances -/

/-- The second place stands at least so many columns behind the first one, or on a later line. -/
def Pos.Past (columns : Nat) (p q : Pos) : Prop :=
  p.line < q.line ∨ (p.line = q.line ∧ p.col + columns ≤ q.col)

namespace Pos.Past

variable {m n : Nat} {p q r : Pos}

theorem refl (p : Pos) : Past 0 p p := .inr ⟨rfl, Nat.le_refl _⟩

theorem trans (h : Past m p q) (h' : Past n q r) : Past (m + n) p r := by
  unfold Past at *
  omega

theorem mono (h : Past m p q) (hn : n ≤ m) : Past n p q := by
  unfold Past at *
  omega

theorem ne (h : Past (n + 1) p q) : p ≠ q := by
  rintro rfl
  unfold Past at h
  omega

end Pos.Past

theorem Pos.past_after (p : Pos) (c : Char) : Past 1 p (p.after c) := by
  unfold Pos.after
  split_ifs
  · exact .inl (Nat.lt_succ_self _)
  · exact .inr ⟨rfl, Nat.le_refl _⟩

theorem Pos.past_afterAll (p : Pos) (cs : List Char) : Past cs.length p (p.afterAll cs) := by
  induction cs generalizing p with
  | nil => exact .refl p
  | cons c cs ih =>
    apply ((p.past_after c).trans (ih (p.after c))).mono
    rw [List.length_cons]
    omega

/-! ## Tokens in order -/

/-- How many columns a token takes at least. -/
def Token.width (t : Token) : Nat := if t.isQuoted then 2 else 1

/-- The tokens stand behind a place and behind each other, and the end of the input behind them. -/
inductive InOrder (stop : Pos) : Pos → List Token → Prop
  | nil {pos : Pos} (h : Pos.Past 0 pos stop) : InOrder stop pos []
  | cons {pos next : Pos} {t : Token} {ts : List Token} (h : Pos.Past 0 pos t.pos)
    (hcoded : t.text.Coded) (hnext : Pos.Past t.width t.pos next) (hts : InOrder stop next ts) :
    InOrder stop pos (t :: ts)

namespace InOrder

variable {stop pos : Pos} {ts : List Token}

theorem mono {earlier : Pos} (h : InOrder stop pos ts) (hpos : Pos.Past 0 earlier pos) :
    InOrder stop earlier ts := by
  cases h with
  | nil h => exact .nil (hpos.trans h)
  | cons h hcoded hnext hts => exact .cons (hpos.trans h) hcoded hnext hts

theorem coded (h : InOrder stop pos ts) : ∀ t ∈ ts, t.text.Coded := by
  induction h with
  | nil => exact fun t ht => nomatch ht
  | cons _ hcoded _ _ ih => exact List.forall_mem_cons.2 ⟨hcoded, ih⟩

theorem past (h : InOrder stop pos ts) :
    ∀ p ∈ ts.map Token.pos ++ [stop], Pos.Past 0 pos p := by
  induction h with
  | nil h => exact List.forall_mem_singleton.2 h
  | @cons pos next t ts h _ hnext _ ih =>
    exact List.forall_mem_cons.2 ⟨h, fun p hp =>
      (h.trans (hnext.trans (ih p hp))).mono (Nat.zero_le _)⟩

theorem width_pos (t : Token) : 1 ≤ t.width := by
  unfold Token.width
  split_ifs <;> decide

/-- Every token stands behind those in front of it. -/
theorem pairwise (h : InOrder stop pos ts) :
    (ts.map Token.pos ++ [stop]).Pairwise (Pos.Past 1) := by
  induction h with
  | nil => exact List.pairwise_singleton _ _
  | @cons pos next t ts _ _ hnext hts ih =>
    refine List.pairwise_cons.2 ⟨fun p hp => ?_, ih⟩
    exact (hnext.trans (hts.past p hp)).mono (width_pos t)

theorem nodup (h : InOrder stop pos ts) : (ts.map Token.pos ++ [stop]).Nodup :=
  h.pairwise.imp Pos.Past.ne

/-- Behind a token there is at least its width. -/
theorem past_next (h : InOrder stop pos ts) {before after : List Token} {t u : Token}
    (hts : ts = before ++ t :: u :: after) : Pos.Past t.width t.pos u.pos := by
  induction h generalizing before with
  | nil => simp at hts
  | @cons pos next t' ts' _ _ hnext hrest ih =>
    cases before with
    | nil =>
      obtain ⟨rfl, rfl⟩ := List.cons_eq_cons.1 hts
      exact hnext.trans (hrest.past u.pos (by simp))
    | cons v before =>
      obtain ⟨-, hts⟩ := List.cons_eq_cons.1 hts
      exact ih hts

end InOrder

/-! ## Texts of tokens -/

theorem exists_of_map_eq_ok {ε α β : Type} {x : Except ε α} {f : α → β} {b : β}
    (h : x.map f = .ok b) : ∃ a, x = .ok a ∧ f a = b := by
  cases x with
  | error e => cases h
  | ok a => exact ⟨a, rfl, Except.ok.inj h⟩

namespace Lexer

theorem hexValue_lt {c : Char} (h : isHexDigit c = true) : hexValue c < 16 := by
  simp only [isHexDigit, Bool.or_eq_true, Bool.and_eq_true, decide_eq_true_eq, Char.isDigit,
    Char.le_def, UInt32.le_iff_toNat_le, ge_iff_le] at h
  simp only [hexValue, Char.isDigit, Bool.and_eq_true, decide_eq_true_eq, Char.le_def,
    UInt32.le_iff_toNat_le, ge_iff_le, Char.toNat]
  have ha : ('a' : Char).val.toNat = 97 := rfl
  have hf : ('f' : Char).val.toNat = 102 := rfl
  have hA : ('A' : Char).val.toNat = 65 := rfl
  have hF : ('F' : Char).val.toNat = 70 := rfl
  have h0 : ('0' : Char).val.toNat = 48 := rfl
  have h9 : ('9' : Char).val.toNat = 57 := rfl
  split_ifs <;> omega

/-- Hexadecimal digits make a number of so many digits. -/
theorem foldl_hexValue_lt {digits : List Char} (h : digits.all isHexDigit = true) (n : Nat) :
    digits.foldl (fun n d => 16 * n + hexValue d) n < 16 ^ digits.length * (n + 1) := by
  induction digits generalizing n with
  | nil => simp
  | cons d digits ih =>
    obtain ⟨hd, hdigits⟩ : isHexDigit d = true ∧ digits.all isHexDigit = true := by
      simpa using h
    have hvalue := hexValue_lt hd
    calc digits.foldl (fun n d => 16 * n + hexValue d) (16 * n + hexValue d)
      _ < 16 ^ digits.length * (16 * n + hexValue d + 1) := ih hdigits _
      _ ≤ 16 ^ digits.length * (16 * (n + 1)) := Nat.mul_le_mul_left _ (by omega)
      _ = 16 ^ (d :: digits).length * (n + 1) := by
        rw [List.length_cons, Nat.pow_succ, Nat.mul_assoc]

theorem isCodePoint_simpleEscapes : ∀ e ∈ simpleEscapes, IsCodePoint e.2 := by
  simp [simpleEscapes, IsCodePoint]

theorem isCodePoint_escape {cs : List Char} {code length : Nat}
    (h : escape cs = .ok (code, length)) : IsCodePoint code := by
  obtain _ | ⟨c, cs⟩ := cs
  · cases h
  · rw [escape] at h
    split at h
    · rename_i code' hlookup
      cases h
      exact isCodePoint_simpleEscapes (c, code) (mem_of_lookup hlookup)
    · dsimp only at h
      split_ifs at h with hu hdigits
      cases h
      simp only [Bool.and_eq_true, decide_eq_true_eq] at hdigits
      have hlt := foldl_hexValue_lt hdigits.2 0
      rw [hdigits.1] at hlt
      exact Nat.lt_trans hlt (by decide)

theorem isCodePoint_char (c : Char) : IsCodePoint c.toNat :=
  Text.coded_ofChars [c] c.toNat (by simp)

theorem coded_stringContent {skip offset : Nat} {cs : List Char} {codes : List Nat} {length : Nat}
    (h : stringContent skip offset cs = .ok (codes, length)) : ∀ c ∈ codes, IsCodePoint c := by
  induction cs generalizing skip offset codes length with
  | nil => cases h
  | cons c cs ih =>
    cases skip with
    | succ skip => exact ih h
    | zero =>
      rw [stringContent] at h
      split_ifs at h with hclose hline hescape
      · cases h
        exact fun c hc => nomatch hc
      · split at h
        · cases h
        · rename_i code size hcode
          obtain ⟨⟨codes', length'⟩, hrest, heq⟩ := exists_of_map_eq_ok h
          cases heq
          exact List.forall_mem_cons.2 ⟨isCodePoint_escape hcode, ih hrest⟩
      · obtain ⟨⟨codes', length'⟩, hrest, heq⟩ := exists_of_map_eq_ok h
        cases heq
        exact List.forall_mem_cons.2 ⟨isCodePoint_char c, ih hrest⟩

theorem le_of_stringContent {skip offset : Nat} {cs : List Char} {codes : List Nat} {length : Nat}
    (h : stringContent skip offset cs = .ok (codes, length)) : offset ≤ length ∧ cs ≠ [] := by
  induction cs generalizing skip offset codes length with
  | nil => cases h
  | cons c cs ih =>
    refine ⟨?_, List.cons_ne_nil c cs⟩
    cases skip with
    | succ skip => exact (Nat.le_succ offset).trans (ih h).1
    | zero =>
      rw [stringContent] at h
      split_ifs at h with hclose hline hescape
      · cases h
        exact Nat.le_refl _
      · split at h
        · cases h
        · obtain ⟨⟨codes', length'⟩, hrest, heq⟩ := exists_of_map_eq_ok h
          cases heq
          exact (Nat.le_succ offset).trans (ih hrest).1
      · obtain ⟨⟨codes', length'⟩, hrest, heq⟩ := exists_of_map_eq_ok h
        cases heq
        exact (Nat.le_succ offset).trans (ih hrest).1

theorem of_closeChar {code length size : Nat} {cs : List Char} {code' : Nat}
    (h : closeChar code length cs = .ok (code', size)) : code' = code ∧ size = length + 1 := by
  unfold closeChar at h
  split_ifs at h
  cases h
  exact ⟨rfl, rfl⟩

/-- A character literal has one code point, and a closing mark. -/
theorem of_charContent {cs : List Char} {code length : Nat}
    (h : charContent cs = .ok (code, length)) : IsCodePoint code ∧ 1 ≤ length ∧ cs ≠ [] := by
  obtain _ | ⟨c, cs⟩ := cs
  · cases h
  · rw [charContent] at h
    split_ifs at h with hline hescape hmark
    · split at h
      · cases h
      · rename_i code' size hcode
        obtain ⟨rfl, rfl⟩ := of_closeChar h
        exact ⟨isCodePoint_escape hcode, Nat.le_add_left .., List.cons_ne_nil c cs⟩
    · obtain ⟨rfl, rfl⟩ := of_closeChar h
      exact ⟨isCodePoint_char c, Nat.le_add_left .., List.cons_ne_nil c cs⟩

theorem kind_number {cs : List Char} {kind : Token.Kind} {lexeme : List Char}
    (h : number cs = .ok (kind, lexeme)) : kind = .int ∨ kind = .float := by
  unfold number at h
  dsimp only at h
  split_ifs at h
  · cases h
    exact .inl rfl
  · unfold decimalNumber at h
    dsimp only at h
    split at h
    · cases h
    · split_ifs at h <;> cases h
      · exact .inl rfl
      · exact .inr rfl

theorem coded_longOperators : ∀ op ∈ Token.longOperators, op.Coded := by
  intro op hop
  obtain ⟨word, -, rfl⟩ := List.mem_map.1 hop
  exact Text.coded_ofString word

/-- How a token is read, from the character in front and what follows it. -/
inductive ReadsToken (c : Char) (cs : List Char) : Token.Kind → Text → Nat → Prop
  | number {kind : Token.Kind} {lexeme : List Char}
    (hfirst : c.isDigit = true ∨ c = '.' ∧ (cs.head?.map Char.isDigit).getD false = true)
    (h : number (c :: cs) = .ok (kind, lexeme)) :
    ReadsToken c cs kind (.ofChars lexeme) (lexeme.length - 1)
  | string {codes : List Nat} {length : Nat} (h : stringContent 0 1 cs = .ok (codes, length)) :
    ReadsToken c cs .string ⟨codes⟩ length
  | char {code length : Nat} (h : charContent cs = .ok (code, length)) :
    ReadsToken c cs .char ⟨[code]⟩ length
  | word {kind : Token.Kind} {letters : List Char} (hfirst : isLetter c = true)
    (hletters : ∀ d ∈ letters, isLetter d = true ∨ d.isDigit = true)
    (hkind : kind = .keyword ∨ kind = .ident ∧ Text.ofChars (c :: letters) ∉ Token.keywords) :
    ReadsToken c cs kind (.ofChars (c :: letters)) letters.length
  | longOperator {op : Text} (h : op ∈ Token.longOperators) :
    ReadsToken c cs .op op (op.codes.length - 1)
  | shortOperator : ReadsToken c cs .op (.ofChars [c]) 0

theorem readsToken {c : Char} {cs : List Char} {kind : Token.Kind} {text : Text} {length : Nat}
    (h : readPiece c cs = .ok (.token kind text, length)) : ReadsToken c cs kind text length := by
  unfold readPiece at h
  split_ifs at h with _ _ _ hnumber _ _ hletter
  · cases h
  · cases h
  · split at h <;> cases h
  · split at h
    · rename_i hlexeme
      cases h
      exact .number (by simpa using hnumber) hlexeme
    · cases h
  · obtain ⟨⟨codes, size⟩, hcontent, heq⟩ := exists_of_map_eq_ok h
    cases heq
    exact .string hcontent
  · obtain ⟨⟨code, size⟩, hcontent, heq⟩ := exists_of_map_eq_ok h
    cases heq
    exact .char hcontent
  · cases h
    refine .word hletter (fun d hd => by simpa using List.mem_takeWhile_imp hd) ?_
    split_ifs with hkeyword
    · exact .inl rfl
    · exact .inr ⟨rfl, hkeyword⟩
  all_goals
    dsimp only at h
    split at h <;> cases h
  · rename_i hop
    exact .longOperator (List.mem_of_find?_eq_some hop)
  · exact .shortOperator
  · rename_i hop
    exact .longOperator (List.mem_of_find?_eq_some hop)

/-- What a token is made of: code points, and at least two characters if it is quoted. -/
theorem of_readPiece {c : Char} {cs : List Char} {kind : Token.Kind} {text : Text} {length : Nat}
    (pos : Pos) (h : readPiece c cs = .ok (.token kind text, length)) :
    text.Coded ∧ (⟨kind, text, pos⟩ : Token).width ≤ (c :: cs.take length).length := by
  have hplain : kind ≠ .string → kind ≠ .char →
      (⟨kind, text, pos⟩ : Token).width ≤ (c :: cs.take length).length := by
    intro hstring hchar
    simp [Token.width, Token.isQuoted, hstring, hchar]
  have hquoted : 1 ≤ length → cs ≠ [] →
      (⟨kind, text, pos⟩ : Token).width ≤ (c :: cs.take length).length := by
    intro hlength hcs
    have hpos := List.length_pos_iff.2 hcs
    unfold Token.width
    rw [List.length_cons, List.length_take]
    split_ifs <;> omega
  cases readsToken h with
  | number hfirst hlexeme =>
    refine ⟨Text.coded_ofChars _, ?_⟩
    rcases kind_number hlexeme with rfl | rfl <;> exact hplain (by decide) (by decide)
  | string hcontent =>
    obtain ⟨hlength, hcs⟩ := le_of_stringContent hcontent
    exact ⟨coded_stringContent hcontent, hquoted hlength hcs⟩
  | char hcontent =>
    obtain ⟨hcode, hlength, hcs⟩ := of_charContent hcontent
    exact ⟨List.forall_mem_singleton.2 hcode, hquoted hlength hcs⟩
  | word hfirst hletters hkind =>
    refine ⟨Text.coded_ofChars _, ?_⟩
    rcases hkind with rfl | ⟨rfl, -⟩ <;> exact hplain (by decide) (by decide)
  | longOperator hop => exact ⟨coded_longOperators text hop, hplain (by decide) (by decide)⟩
  | shortOperator => exact ⟨Text.coded_ofChars _, hplain (by decide) (by decide)⟩

end Lexer

/-- The tokens of a source stand in order. -/
theorem inOrder_scan {skip : Nat} {pos : Pos} {cs : List Char} {s : TokenStream}
    (h : Lexer.scan skip pos cs = .ok s) : InOrder s.stop pos s.ahead := by
  induction cs generalizing skip pos s with
  | nil =>
    cases h
    exact .nil (.refl pos)
  | cons c cs ih =>
    cases skip with
    | succ skip => exact ih h
    | zero =>
      rw [Lexer.scan] at h
      split at h
      · cases h
      · rename_i piece length hpiece
        dsimp only at h
        cases piece with
        | token kind text =>
          obtain ⟨rest, hrest, rfl⟩ := exists_of_map_eq_ok h
          obtain ⟨hcoded, hwidth⟩ := Lexer.of_readPiece pos hpiece
          exact .cons (.refl pos) hcoded ((pos.past_afterAll _).mono hwidth) (ih hrest)
        | lineComment => exact ih h
        | _ => exact (ih h).mono ((pos.past_afterAll _).mono (Nat.zero_le _))

theorem inOrder_tokenize {source : List Char} {s : TokenStream} (h : tokenize source = .ok s) :
    InOrder s.stop Pos.start s.ahead := inOrder_scan h

end WriteOnce
