import Mathlib.Algebra.Group.Nat.Defs
import Mathlib.Data.List.Basic
import WriteOnce.Text.Quoted
import WriteOnce.Text.Utf8

/-!
# Codes that end by themselves

Numbers, quoted texts and the bytes of code points can be read off the front of any list
without knowing where they end.
-/

namespace WriteOnce

/-- Codes of two things under `P` are different however they go on. -/
def SelfDelimiting {α β : Type} (P : α → Prop) (code : α → List β) : Prop :=
  ∀ a b, P a → P b → ∀ r r', code a ++ r = code b ++ r' → a = b ∧ r = r'

namespace SelfDelimiting

variable {α β : Type} {P : α → Prop} {code : α → List β}

/-- A sequence of codes ends before an element with which no code begins. -/
theorem flatMap (h : SelfDelimiting P code) {stop : β}
    (hstop : ∀ a, P a → ∃ b bs, code a = b :: bs ∧ b ≠ stop) {as bs : List α}
    (has : ∀ a ∈ as, P a) (hbs : ∀ b ∈ bs, P b) {r r' : List β}
    (heq : as.flatMap code ++ stop :: r = bs.flatMap code ++ stop :: r') : as = bs ∧ r = r' := by
  induction as generalizing bs with
  | nil =>
    cases bs with
    | nil => exact ⟨rfl, (List.cons_eq_cons.1 heq).2⟩
    | cons b bs =>
      obtain ⟨x, xs, hcode, hx⟩ := hstop b (hbs b (.head _))
      rw [List.flatMap_cons, hcode] at heq
      exact absurd (List.cons_eq_cons.1 heq).1.symm hx
  | cons a as ih =>
    obtain ⟨ha, has⟩ := List.forall_mem_cons.1 has
    cases bs with
    | nil =>
      obtain ⟨x, xs, hcode, hx⟩ := hstop a ha
      rw [List.flatMap_cons, hcode] at heq
      exact absurd (List.cons_eq_cons.1 heq).1 hx
    | cons b bs =>
      obtain ⟨hb, hrest⟩ := List.forall_mem_cons.1 hbs
      rw [List.flatMap_cons, List.flatMap_cons, List.append_assoc, List.append_assoc] at heq
      obtain ⟨hab, heq⟩ := h a b ha hb _ _ heq
      obtain ⟨has, hr⟩ := ih has hrest heq
      exact ⟨List.cons_eq_cons.2 ⟨hab, has⟩, hr⟩

/-- Whole sequences of codes that are not empty. -/
theorem flatMap_inj (h : SelfDelimiting P code) (hne : ∀ a, P a → code a ≠ []) {as bs : List α}
    (has : ∀ a ∈ as, P a) (hbs : ∀ b ∈ bs, P b) (heq : as.flatMap code = bs.flatMap code) :
    as = bs := by
  induction as generalizing bs with
  | nil =>
    cases bs with
    | nil => rfl
    | cons b bs => exact absurd (List.append_eq_nil_iff.1 heq.symm).1 (hne b (hbs b (.head _)))
  | cons a as ih =>
    obtain ⟨ha, has⟩ := List.forall_mem_cons.1 has
    cases bs with
    | nil => exact absurd (List.append_eq_nil_iff.1 heq).1 (hne a ha)
    | cons b bs =>
      obtain ⟨hb, hrest⟩ := List.forall_mem_cons.1 hbs
      obtain ⟨hab, heq⟩ := h a b ha hb _ _ heq
      exact List.cons_eq_cons.2 ⟨hab, ih has hrest heq⟩

end SelfDelimiting

/-- What stands in front of the first element that is not under `P`. -/
theorem append_stop_inj {α : Type} {P : α → Prop} {as bs : List α} {x y : α} {r r' : List α}
    (has : ∀ a ∈ as, P a) (hbs : ∀ b ∈ bs, P b) (hx : ¬P x) (hy : ¬P y)
    (h : as ++ x :: r = bs ++ y :: r') : as = bs ∧ x = y ∧ r = r' := by
  induction as generalizing bs with
  | nil =>
    cases bs with
    | nil => exact ⟨rfl, List.cons_eq_cons.1 h⟩
    | cons b bs =>
      obtain ⟨rfl, -⟩ := List.cons_eq_cons.1 h
      exact absurd (hbs x (.head _)) hx
  | cons a as ih =>
    obtain ⟨ha, has⟩ := List.forall_mem_cons.1 has
    cases bs with
    | nil =>
      obtain ⟨rfl, -⟩ := List.cons_eq_cons.1 h
      exact absurd ha hy
    | cons b bs =>
      obtain ⟨rfl, hrest⟩ := List.cons_eq_cons.1 h
      obtain ⟨rfl, hxy, hr⟩ := ih has (List.forall_mem_cons.1 hbs).2 hrest
      exact ⟨rfl, hxy, hr⟩

/-- A code point of Unicode. -/
def IsCodePoint (code : Nat) : Prop := code < 0x110000

namespace Text

/-! ## Decimal numbers -/

def IsDigit (code : Nat) : Prop := 0x30 ≤ code ∧ code ≤ 0x39

theorem isDigit_of_mem_ofNat {n code : Nat} (h : code ∈ (ofNat n).codes) : IsDigit code := by
  obtain ⟨c, hc, rfl⟩ := List.mem_map.1 h
  have hdigit := Nat.isDigit_of_mem_toDigits (by decide) (Nat.le_refl 10) hc
  simpa [Char.isDigit, IsDigit, UInt32.le_iff_toNat_le] using hdigit

theorem ofNat_inj {m n : Nat} (h : ofNat m = ofNat n) : m = n := by
  have hcodes : (Nat.toDigits 10 m).map Char.toNat = (Nat.toDigits 10 n).map Char.toNat :=
    congrArg codes h
  have hdigits := (List.map_inj_right fun _ _ h => Char.toNat_inj.1 h).1 hcodes
  rw [← Nat.ofDigitChars_toDigits (by decide) (Nat.le_refl 10) (n := m), hdigits,
    Nat.ofDigitChars_toDigits (by decide) (Nat.le_refl 10)]

/-- A number ends before what is no digit. -/
theorem ofNat_stop_inj {m n x y : Nat} {r r' : List Nat} (hx : ¬IsDigit x) (hy : ¬IsDigit y)
    (h : (ofNat m).codes ++ x :: r = (ofNat n).codes ++ y :: r') : m = n ∧ x = y ∧ r = r' := by
  obtain ⟨hcodes, hrest⟩ := append_stop_inj (fun _ => isDigit_of_mem_ofNat)
    (fun _ => isDigit_of_mem_ofNat) hx hy h
  exact ⟨ofNat_inj (Text.ext hcodes), hrest⟩

/-! ## UTF-8 -/

theorem ofNat_byte_inj {m n : Nat} : UInt8.ofNat m = UInt8.ofNat n ↔ m % 256 = n % 256 := by
  rw [UInt8.ofNat_eq_iff_mod_eq_toNat, UInt8.toNat_ofNat']

theorem selfDelimiting_utf8Bytes : SelfDelimiting IsCodePoint utf8Bytes := by
  intro a b ha hb r r' h
  unfold IsCodePoint at ha hb
  unfold utf8Bytes continuationByte at h
  -- The first byte tells how many there are.
  split_ifs at h <;>
    simp only [List.cons_append, List.nil_append, List.cons.injEq, ofNat_byte_inj] at h <;>
    try omega
  · exact ⟨by omega, h.2⟩
  · exact ⟨by omega, h.2.2⟩
  · exact ⟨by omega, h.2.2.2⟩
  · exact ⟨by omega, h.2.2.2.2⟩

theorem utf8Bytes_ne_nil (code : Nat) : utf8Bytes code ≠ [] := by
  unfold utf8Bytes
  split_ifs <;> exact List.cons_ne_nil _ _

/-- Texts of code points have different bytes. -/
theorem utf8_inj {s t : Text} (hs : ∀ c ∈ s.codes, IsCodePoint c)
    (ht : ∀ c ∈ t.codes, IsCodePoint c) (h : s.utf8 = t.utf8) : s = t :=
  Text.ext (selfDelimiting_utf8Bytes.flatMap_inj (fun c _ => utf8Bytes_ne_nil c) hs ht h)

/-! ## Hexadecimal numbers -/

namespace Quoted

theorem length_hexDigits (width n : Nat) : (hexDigits width n).length = width := by
  induction width generalizing n with
  | zero => rfl
  | succ width ih => simp [hexDigits, ih]

theorem hexDigit_inj {m n : Nat} (hm : m < 16) (hn : n < 16) (h : hexDigit m = hexDigit n) :
    m = n := by
  unfold hexDigit at h
  split_ifs at h <;> omega

theorem hexDigits_inj {width m n : Nat} (hm : m < 16 ^ width) (hn : n < 16 ^ width)
    (h : hexDigits width m = hexDigits width n) : m = n := by
  induction width generalizing m n with
  | zero => omega
  | succ width ih =>
    obtain ⟨hhigh, hlow⟩ := List.append_inj' h rfl
    have hlow := hexDigit_inj (Nat.mod_lt m (by decide)) (Nat.mod_lt n (by decide))
      (List.cons_eq_cons.1 hlow).1
    have hhigh := ih (by omega) (by omega) hhigh
    omega

/-- Numbers of so many digits have different digits, whatever stands behind them. -/
theorem hexDigits_append_inj {width m n : Nat} (hm : m < 16 ^ width) (hn : n < 16 ^ width)
    {r r' : List Nat} (h : hexDigits width m ++ r = hexDigits width n ++ r') : m = n ∧ r = r' := by
  obtain ⟨hdigits, hr⟩ := List.append_inj h (by rw [length_hexDigits, length_hexDigits])
  exact ⟨hexDigits_inj hm hn hdigits, hr⟩

/-! ## Quoted texts -/

theorem isMark_mark (t : Text) : mark t = apostrophe ∨ mark t = doubleQuote := by
  unfold mark
  split_ifs
  · exact .inr rfl
  · exact .inl rfl

variable {printable : Nat → Bool} {quote : Nat}

/-- Characters that are escaped by one character behind a backslash. -/
def shortEscapes (quote : Nat) : List (Nat × Nat) :=
  [(quote, quote), (backslash, backslash), (0x0A, 0x6E), (0x0D, 0x72), (0x09, 0x74)]

/-- The marks of numeric escapes, with how many digits follow them. -/
def wideEscapes : List (Nat × Nat) := [(0x78, 2), (0x75, 4), (0x55, 8)]

/-- How a code point can stand between quotation marks. -/
inductive Stands (quote code : Nat) : List Nat → Prop
  | plain (hquote : code ≠ quote) (hback : code ≠ backslash) : Stands quote code [code]
  | short {letter : Nat} (h : (code, letter) ∈ shortEscapes quote) :
    Stands quote code [backslash, letter]
  | wide {letter width : Nat} (h : (letter, width) ∈ wideEscapes) (hcode : code < 16 ^ width) :
    Stands quote code (backslash :: letter :: hexDigits width code)

theorem stands_encodeCode (quote : Nat) {code : Nat} (hcode : IsCodePoint code) :
    Stands quote code (encodeCode printable quote code) := by
  unfold IsCodePoint at hcode
  unfold encodeCode numericEscape
  split_ifs with hspecial hnewline hreturn htab hprintable hbyte hpair
  · rcases Bool.or_eq_true_iff.1 hspecial with h | h <;> cases of_decide_eq_true h
    · exact .short (by simp [shortEscapes])
    · exact .short (by simp [shortEscapes])
  · cases hnewline
    exact .short (by simp [shortEscapes])
  · cases hreturn
    exact .short (by simp [shortEscapes])
  · cases htab
    exact .short (by simp [shortEscapes])
  · simp only [Bool.or_eq_true, decide_eq_true_eq, not_or] at hspecial
    exact .plain hspecial.1 hspecial.2
  · exact .wide (.head _) hbyte
  · exact .wide (.tail _ (.head _)) hpair
  · exact .wide (.tail _ (.tail _ (.head _))) (by omega)

variable {a b : Nat} {l l' r r' : List Nat}

/-- What stands for a code point ends by itself. -/
theorem Stands.inj (hquote : quote = apostrophe ∨ quote = doubleQuote) (ha : Stands quote a l)
    (hb : Stands quote b l') (h : l ++ r = l' ++ r') : a = b ∧ r = r' := by
  have hq : quote = 0x27 ∨ quote = 0x22 := hquote
  cases ha with
  | plain hqa hba =>
    cases hb with
    | plain => exact List.cons_eq_cons.1 h
    | short | wide => exact absurd (List.cons_eq_cons.1 h).1 hba
  | @short letter hletter =>
    cases hb with
    | plain hqb hbb => exact absurd (List.cons_eq_cons.1 h).1.symm hbb
    | @short letter' hletter' =>
      simp only [List.cons_append, List.nil_append, List.cons.injEq, true_and] at h
      simp only [shortEscapes, List.mem_cons, List.not_mem_nil, or_false, Prod.mk.injEq,
        backslash] at hletter hletter'
      exact ⟨by omega, h.2⟩
    | @wide letter' width hletter' hcode =>
      simp only [List.cons_append, List.nil_append, List.cons.injEq, true_and] at h
      simp only [shortEscapes, wideEscapes, List.mem_cons, List.not_mem_nil, or_false,
        Prod.mk.injEq, backslash] at hletter hletter'
      omega
  | @wide letter width hletter hcode =>
    cases hb with
    | plain hqb hbb => exact absurd (List.cons_eq_cons.1 h).1.symm hbb
    | @short letter' hletter' =>
      simp only [List.cons_append, List.nil_append, List.cons.injEq, true_and] at h
      simp only [shortEscapes, wideEscapes, List.mem_cons, List.not_mem_nil, or_false,
        Prod.mk.injEq, backslash] at hletter hletter'
      omega
    | @wide letter' width' hletter' hcode' =>
      simp only [List.cons_append, List.cons.injEq, true_and] at h
      simp only [wideEscapes, List.mem_cons, List.not_mem_nil, or_false, Prod.mk.injEq]
        at hletter hletter'
      have hwidth : width = width' := by omega
      subst hwidth
      exact hexDigits_append_inj hcode hcode' h.2

/-- What stands for a code point begins with no quotation mark. -/
theorem Stands.ne_quote (hquote : quote = apostrophe ∨ quote = doubleQuote)
    (ha : Stands quote a l) : ∃ x xs, l = x :: xs ∧ x ≠ quote := by
  have hback : backslash ≠ quote := by
    rcases hquote with rfl | rfl <;> decide
  cases ha with
  | plain hqa => exact ⟨a, [], rfl, hqa⟩
  | short | wide => exact ⟨_, _, rfl, hback⟩

theorem selfDelimiting_encodeCode (hquote : quote = apostrophe ∨ quote = doubleQuote) :
    SelfDelimiting IsCodePoint (encodeCode printable quote) := fun _ _ ha hb _ _ =>
  (stands_encodeCode quote ha).inj hquote (stands_encodeCode quote hb)

/-- A quoted text ends by itself. -/
theorem encode_inj {s t : Text} (hs : ∀ c ∈ s.codes, IsCodePoint c)
    (ht : ∀ c ∈ t.codes, IsCodePoint c) {r r' : List Nat}
    (h : (encode printable s).codes ++ r = (encode printable t).codes ++ r') : s = t ∧ r = r' := by
  change mark s :: (s.codes.flatMap _ ++ [mark s]) ++ r =
    mark t :: (t.codes.flatMap _ ++ [mark t]) ++ r' at h
  rw [List.cons_append, List.cons_append, List.append_assoc, List.append_assoc] at h
  obtain ⟨hmark, h⟩ := List.cons_eq_cons.1 h
  rw [hmark] at h
  have hquote := isMark_mark t
  obtain ⟨hcodes, hr⟩ := (selfDelimiting_encodeCode hquote).flatMap
    (fun c hc => (stands_encodeCode (mark t) hc).ne_quote hquote) hs ht h
  exact ⟨Text.ext hcodes, hr⟩

theorem isCodePoint_hexDigits {width n c : Nat} (h : c ∈ hexDigits width n) : IsCodePoint c := by
  induction width generalizing n with
  | zero => cases h
  | succ width ih =>
    rcases List.mem_append.1 h with h | h
    · exact ih h
    · rw [List.mem_singleton.1 h]
      unfold hexDigit IsCodePoint
      split_ifs <;> omega

theorem Stands.isCodePoint (hquote : quote = apostrophe ∨ quote = doubleQuote)
    (h : Stands quote a l) (ha : IsCodePoint a) : ∀ c ∈ l, IsCodePoint c := by
  have hq : IsCodePoint quote := by
    rcases hquote with rfl | rfl <;> simp [IsCodePoint, apostrophe, doubleQuote]
  have hback : IsCodePoint backslash := by simp [IsCodePoint, backslash]
  cases h with
  | plain => exact List.forall_mem_singleton.2 ha
  | @short letter hletter =>
    simp only [shortEscapes, List.mem_cons, List.not_mem_nil, or_false, Prod.mk.injEq] at hletter
    have hcode : IsCodePoint letter := by
      unfold IsCodePoint backslash at *
      omega
    exact List.forall_mem_cons.2 ⟨hback, List.forall_mem_singleton.2 hcode⟩
  | @wide letter width hletter =>
    simp only [wideEscapes, List.mem_cons, List.not_mem_nil, or_false, Prod.mk.injEq] at hletter
    have hcode : IsCodePoint letter := by
      unfold IsCodePoint
      omega
    exact List.forall_mem_cons.2 ⟨hback, List.forall_mem_cons.2 ⟨hcode, fun c =>
      isCodePoint_hexDigits⟩⟩

/-- A quoted text is made of code points if the text is. -/
theorem isCodePoint_encode {t : Text} (ht : ∀ c ∈ t.codes, IsCodePoint c) :
    ∀ c ∈ (encode printable t).codes, IsCodePoint c := by
  have hquote := isMark_mark t
  have hmark : IsCodePoint (mark t) := by
    rcases hquote with h | h <;> simp [h, IsCodePoint, apostrophe, doubleQuote]
  refine List.forall_mem_cons.2 ⟨hmark, List.forall_mem_append.2 ⟨fun c hc => ?_,
    List.forall_mem_singleton.2 hmark⟩⟩
  obtain ⟨code, hcode, hc⟩ := List.mem_flatMap.1 hc
  exact (stands_encodeCode (mark t) (ht code hcode)).isCodePoint hquote (ht code hcode) c hc

end Quoted

end Text

end WriteOnce
