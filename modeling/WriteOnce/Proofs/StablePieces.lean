import Mathlib.Data.Bool.AllAny
import WriteOnce.Proofs.Pieces

/-!
# Tokens in front of a blank

Where a token ends depends on what follows it. If what followed is taken away and a blank put in
its place, the token is read again and ends where it ended.
-/

namespace WriteOnce

namespace Lexer

variable {as old rest : List Char} {e : Char}

/-! ## Blanks -/

/-- The characters that go on with a number or make a comment of a slash. -/
def signs : List Char :=
  ['_', '.', '/', '*', 'x', 'X', 'e', 'E', '+', '-', 'L', 'l', 'f', 'F', 'd', 'D']

/-- A character that goes on with no word, number or comment. -/
structure Breaks (e : Char) : Prop where
  letter : isLetter e = false
  digit : e.isDigit = false
  hexDigit : isHexDigit e = false
  sign : e ∉ signs

def blanks : List Char := [' ', '\t', '\r', '\x0c', '\n']

theorem mem_blanks (he : isBlank e = true) : e ∈ blanks := by
  simpa [isBlank, blanks, or_assoc] using he

theorem breaks_of_isBlank (he : isBlank e = true) : Breaks e := by
  have hall : ∀ e ∈ blanks,
      isLetter e = false ∧ e.isDigit = false ∧ isHexDigit e = false ∧ e ∉ signs :=
    List.all_iff_forall_prop.1 (by decide)
  obtain ⟨hletter, hdigit, hhex, hsign⟩ := hall e (mem_blanks he)
  exact ⟨hletter, hdigit, hhex, hsign⟩

theorem Breaks.notMem (he : Breaks e) {choices : List Char} (h : choices ⊆ signs) :
    e ∉ choices := fun hmem => he.sign (h hmem)

theorem Breaks.ne (he : Breaks e) {m : Char} (h : m ∈ signs) : e ≠ m := fun heq => he.sign (heq ▸ h)

theorem Breaks.notDigit (he : Breaks e) : (e.isDigit || e = '_') = false := by
  have hne : e ≠ '_' := he.ne (by decide)
  simp [he.digit, hne]

/-! ## Runs and single characters -/

theorem takeWhile_before {p : Char → Bool} {run : List Char}
    (h : (as ++ old).takeWhile p = run) (hrun : run <+: as) (he : p e = false) :
    (as ++ e :: rest).takeWhile p = run := by
  obtain ⟨bs, rfl⟩ := hrun
  have hall : ∀ c ∈ run, p c = true := fun c hc => List.mem_takeWhile_imp (h ▸ hc)
  rw [List.append_assoc, List.takeWhile_append_of_pos hall] at h ⊢
  have hstop : (bs ++ old).takeWhile p = [] := List.append_right_eq_self.1 h
  have hagain : (bs ++ e :: rest).takeWhile p = [] := by
    cases bs with
    | nil => exact List.takeWhile_cons_of_neg (by simp [he])
    | cons b bs =>
      by_cases hb : p b = true
      · rw [List.cons_append, List.takeWhile_cons_of_pos hb] at hstop
        cases hstop
      · exact List.takeWhile_cons_of_neg hb
  rw [hagain, List.append_nil]

theorem oneOf_before {choices mark : List Char} (h : oneOf choices (as ++ old) = mark)
    (hmark : mark <+: as) (he : e ∉ choices) : oneOf choices (as ++ e :: rest) = mark := by
  cases as with
  | nil =>
    obtain rfl := List.prefix_nil.1 hmark
    simp [oneOf, he]
  | cons a as => exact h

/-! ## Numbers -/

theorem fraction_of_head {cs : List Char} (h : cs.head? ≠ some '.') : fraction cs = [] := by
  unfold fraction
  split
  · exact absurd rfl h
  · exact absurd rfl h
  · rfl

theorem fraction_before {part : List Char} (h : fraction (as ++ old) = part) (hpart : part <+: as)
    (hpoint : as = ['.'] → part ≠ []) (he : Breaks e) : fraction (as ++ e :: rest) = part := by
  match as, hpart, hpoint with
  | [], hpart, _ =>
    obtain rfl := List.prefix_nil.1 hpart
    exact fraction_of_head fun heq => he.ne (by decide) (Option.some.inj heq)
  | a :: as, hpart, hpoint =>
    by_cases ha : a = '.'
    · subst ha
      cases as with
      | nil =>
        obtain rfl : part = ['.'] := hpart.eq_of_length_le (List.length_pos_iff.2 (hpoint rfl))
        simp [fraction, he.digit, he.letter]
      | cons c as =>
        simp only [List.cons_append, fraction] at h ⊢
        split_ifs at h ⊢ with hdigit
        · obtain _ | ⟨b, run⟩ := part
          · cases h
          · obtain ⟨rfl, hrun⟩ := List.cons.inj h
            have hprefix := (List.prefix_cons_inj '.').1 hpart
            have hagain : (c :: as ++ e :: rest).takeWhile _ = run :=
              takeWhile_before hrun hprefix he.notDigit
            exact congrArg ('.' :: ·) hagain
        · exact h
        · exact h
    · have hhead : ∀ cs : List Char, (a :: cs).head? ≠ some '.' := fun _ heq =>
        ha (Option.some.inj heq)
      rw [List.cons_append, fraction_of_head (hhead _)] at h ⊢
      exact h

theorem exponent_before {power : List Char} (h : exponent? (as ++ old) = some power)
    (hpower : power <+: as) (he : Breaks e) : exponent? (as ++ e :: rest) = some power := by
  cases as with
  | nil =>
    obtain rfl := List.prefix_nil.1 hpower
    have hother : e ∉ ['e', 'E'] := he.notMem (by decide)
    have hnone : oneOf ['e', 'E'] (e :: rest) = [] := by simpa [oneOf] using hother
    rw [exponent?, List.nil_append, hnone]
    rfl
  | cons a as =>
    have hdrop : ∀ cs, (a :: (as ++ cs)).drop 1 = as ++ cs := fun _ => rfl
    have hcount : ∀ (n : Nat) cs, (a :: (as ++ cs)).drop (1 + n) = (as ++ cs).drop n := by
      intro n cs
      rw [Nat.add_comm, List.drop_succ_cons]
    by_cases ha : a ∈ ['e', 'E']
    · have hmarker : ∀ cs, oneOf ['e', 'E'] (a :: cs) = [a] := fun cs => by simp [oneOf, ha]
      simp only [exponent?, List.cons_append, hmarker, hdrop, hcount, List.isEmpty_cons,
        Bool.false_eq_true, if_false] at h ⊢
      split_ifs at h with hdigits
      obtain rfl := Option.some.inj h
      have hsigned := (List.prefix_cons_inj a).1 hpower
      obtain ⟨bs, hbs⟩ := (List.prefix_append _ _).trans hsigned
      have hsign : oneOf ['+', '-'] (as ++ e :: rest) = oneOf ['+', '-'] (as ++ old) :=
        oneOf_before rfl ⟨bs, hbs⟩ (he.notMem (by decide))
      rw [hsign]
      generalize oneOf ['+', '-'] (as ++ old) = sign at hbs hsigned hdigits
      subst hbs
      simp only [List.nil_append, List.append_assoc, List.drop_left] at hsigned hdigits ⊢
      have hrun := (List.prefix_append_right_inj sign).1 hsigned
      rw [takeWhile_before rfl hrun he.digit, if_neg hdigits]
    · have hmarker : ∀ cs, oneOf ['e', 'E'] (a :: cs) = [] := fun cs => by simp [oneOf, ha]
      simp only [exponent?, List.cons_append, hmarker, List.isEmpty_nil, if_true] at h ⊢
      exact h

/-- What a decimal number is made of. -/
structure DecimalParts (cs whole part power mark : List Char) : Prop where
  whole_eq : digitRun cs = whole
  part_eq : fraction (cs.drop whole.length) = part
  power_eq : exponent? (cs.drop (whole ++ part).length) = some power
  mark_eq : oneOf ['f', 'F', 'd', 'D'] (cs.drop (whole ++ part ++ power).length) = mark

theorem decimalNumber_eq_ok_iff {cs lexeme : List Char} {kind : Token.Kind} :
    decimalNumber cs = .ok (kind, lexeme) ↔ ∃ whole part power mark,
      DecimalParts cs whole part power mark ∧
      if part.isEmpty && power.isEmpty && mark.isEmpty then
        kind = .int ∧ lexeme = whole ++ oneOf ['L', 'l'] (cs.drop (whole ++ part ++ power).length)
      else kind = .float ∧ lexeme = whole ++ part ++ power ++ mark := by
  unfold decimalNumber
  simp only [List.drop_drop, ← List.length_append]
  constructor
  · intro h
    split at h
    · cases h
    · rename_i power hpower
      refine ⟨_, _, power, _, ⟨rfl, rfl, hpower, rfl⟩, ?_⟩
      split_ifs at h ⊢ <;> cases h <;> exact ⟨rfl, rfl⟩
  · rintro ⟨_, _, power, _, ⟨rfl, rfl, hpower, rfl⟩, h⟩
    rw [hpower]
    dsimp only
    split_ifs at h ⊢ <;> rw [h.1, h.2]

theorem DecimalParts.before {whole part power mark tail : List Char}
    (h : DecimalParts (whole ++ part ++ power ++ tail ++ old) whole part power mark)
    (hmark : mark <+: tail) (htail : tail ≠ ['.']) (he : Breaks e) :
    DecimalParts (whole ++ part ++ power ++ tail ++ e :: rest) whole part power mark := by
  obtain ⟨hwhole, hpart, hpower, hfloat⟩ := h
  have hdrop₁ : ∀ cs, (whole ++ part ++ power ++ tail ++ cs).drop whole.length =
      part ++ power ++ tail ++ cs := by simp
  have hdrop₂ : ∀ cs, (whole ++ part ++ power ++ tail ++ cs).drop (whole ++ part).length =
      power ++ tail ++ cs := by simp
  have hdrop₃ : ∀ cs, (whole ++ part ++ power ++ tail ++ cs).drop (whole ++ part ++ power).length =
      tail ++ cs := by simp
  rw [hdrop₁] at hpart
  rw [hdrop₂] at hpower
  rw [hdrop₃] at hfloat
  constructor
  · refine takeWhile_before hwhole ?_ he.notDigit
    simp only [List.append_assoc, List.prefix_append]
  · rw [hdrop₁]
    refine fraction_before hpart ?_ ?_ he
    · simp only [List.append_assoc, List.prefix_append]
    · -- A point that is no part of the number would be the beginning of an exponent or a mark.
      rintro hpoint rfl
      rw [List.nil_append] at hpoint
      rw [hpoint] at hpower
      obtain rfl : [] = power := Option.some.inj hpower
      exact htail hpoint
  · rw [hdrop₂]
    exact exponent_before hpower (List.prefix_append _ _) he
  · rw [hdrop₃]
    exact oneOf_before hfloat hmark (he.notMem (by decide))

theorem mem_oneOf {choices cs : List Char} {m : Char} (h : m ∈ oneOf choices cs) : m ∈ choices := by
  simpa using (List.mem_filter.1 h).2

theorem oneOf_ne_point {choices : List Char} (h : '.' ∉ choices) (cs : List Char) :
    oneOf choices cs ≠ ['.'] := fun heq => h (mem_oneOf (heq ▸ List.mem_singleton_self '.'))

theorem decimalNumber_before {kind : Token.Kind} {lexeme : List Char}
    (h : decimalNumber (lexeme ++ old) = .ok (kind, lexeme)) (he : Breaks e) :
    decimalNumber (lexeme ++ e :: rest) = .ok (kind, lexeme) := by
  obtain ⟨whole, part, power, mark, hparts, hlexeme⟩ := decimalNumber_eq_ok_iff.1 h
  refine decimalNumber_eq_ok_iff.2 ⟨whole, part, power, mark, ?_⟩
  split_ifs at hlexeme ⊢ with hint
  · obtain ⟨rfl, hlexeme⟩ := hlexeme
    simp only [Bool.and_eq_true, List.isEmpty_iff] at hint
    obtain ⟨⟨rfl, rfl⟩, rfl⟩ := hint
    obtain ⟨tail, htail⟩ :
        ∃ tail, oneOf ['L', 'l'] ((lexeme ++ old).drop (whole ++ [] ++ []).length) = tail :=
      ⟨_, rfl⟩
    rw [htail] at hlexeme
    subst hlexeme
    have hpoint : tail ≠ ['.'] := htail ▸ oneOf_ne_point (by decide) _
    have hparts : DecimalParts (whole ++ [] ++ [] ++ tail ++ old) whole [] [] [] := by
      simpa using hparts
    have hbefore : DecimalParts (whole ++ [] ++ [] ++ tail ++ e :: rest) whole [] [] [] :=
      hparts.before List.nil_prefix hpoint he
    rw [List.append_nil, List.append_nil] at hbefore htail ⊢
    rw [List.append_assoc, List.drop_left] at htail ⊢
    rw [oneOf_before htail List.prefix_rfl (he.notMem (by decide))]
    exact ⟨by simpa using hbefore, rfl, rfl⟩
  · obtain ⟨rfl, rfl⟩ := hlexeme
    refine ⟨hparts.before List.prefix_rfl ?_ he, rfl, rfl⟩
    rw [← hparts.mark_eq]
    exact oneOf_ne_point (by decide) _

theorem number_eq_ok_iff_of_hex {x : Char} (hx : x ∈ ['x', 'X']) {cs lexeme : List Char}
    {kind : Token.Kind} : number ('0' :: x :: cs) = .ok (kind, lexeme) ↔ ∃ digits mark,
      cs.takeWhile (fun c => isHexDigit c || c = '_') = digits ∧ digits ≠ [] ∧
      oneOf ['L', 'l'] (cs.drop digits.length) = mark ∧ kind = .int ∧
      lexeme = '0' :: x :: (digits ++ mark) := by
  have hlead : (['0', x] = ['0', 'x'] || ['0', x] = ['0', 'X']) = true := by
    simpa using hx
  have hdrop : ('0' :: x :: cs).drop 2 = cs := rfl
  have hdrop' : ∀ n, ('0' :: x :: cs).drop (2 + n) = cs.drop n := fun n => by
    rw [Nat.add_comm]
    rfl
  unfold number
  dsimp only [List.take_succ_cons, List.take_zero]
  rw [if_pos hlead, hdrop', hdrop]
  constructor
  · intro h
    split_ifs at h with hdigits
    cases h
    exact ⟨_, _, rfl, mt List.isEmpty_iff.2 hdigits, rfl, rfl, rfl⟩
  · rintro ⟨_, _, rfl, hdigits, rfl, rfl, rfl⟩
    rw [if_neg (mt List.isEmpty_iff.1 hdigits)]
    rfl

theorem number_eq_decimalNumber {cs : List Char} (h : ∀ x ∈ ['x', 'X'], cs.take 2 ≠ ['0', x]) :
    number cs = decimalNumber cs := if_neg (by simpa using h)

theorem number_before {kind : Token.Kind} {lexeme : List Char}
    (h : number (lexeme ++ old) = .ok (kind, lexeme)) (hne : lexeme ≠ []) (he : Breaks e) :
    number (lexeme ++ e :: rest) = .ok (kind, lexeme) := by
  by_cases hhex : ∃ x ∈ ['x', 'X'], ∃ cs, lexeme = '0' :: x :: cs
  · obtain ⟨x, hx, cs, rfl⟩ := hhex
    rw [List.cons_append, List.cons_append] at h ⊢
    obtain ⟨digits, mark, hdigits, hsome, hmark, rfl, heq⟩ := (number_eq_ok_iff_of_hex hx).1 h
    obtain rfl : cs = digits ++ mark := by simpa using heq
    rw [List.append_assoc, List.drop_left] at hmark
    refine (number_eq_ok_iff_of_hex hx).2 ⟨digits, mark, ?_, hsome, ?_, rfl, rfl⟩
    · have hstop : (isHexDigit e || e = '_') = false := by
        have hne : e ≠ '_' := he.ne (by decide)
        simp [he.hexDigit, hne]
      exact takeWhile_before hdigits (List.prefix_append _ _) hstop
    · rw [List.append_assoc, List.drop_left]
      exact oneOf_before hmark List.prefix_rfl (he.notMem (by decide))
  · have hold : ∀ x ∈ ['x', 'X'], (lexeme ++ old).take 2 ≠ ['0', x] := by
      intro x hx heq
      have hcs : lexeme ++ old = '0' :: x :: (lexeme ++ old).drop 2 := by
        conv_lhs => rw [← List.take_append_drop 2 (lexeme ++ old), heq]
        rfl
      rw [hcs] at h
      obtain ⟨digits, mark, -, -, -, -, heq⟩ := (number_eq_ok_iff_of_hex hx).1 h
      exact hhex ⟨x, hx, _, heq⟩
    have hnew : ∀ x ∈ ['x', 'X'], (lexeme ++ e :: rest).take 2 ≠ ['0', x] := by
      have hsigns : ['x', 'X'] ⊆ signs := by decide
      intro x hx heq
      match lexeme, hne with
      | [a], _ => exact he.ne (hsigns hx) (List.cons.inj (List.cons.inj heq).2).1
      | a :: b :: cs, _ =>
        have hzero : a = '0' := (List.cons.inj heq).1
        have hmark : b = x := (List.cons.inj (List.cons.inj heq).2).1
        exact hhex ⟨x, hx, cs, by rw [hzero, hmark]⟩
    rw [number_eq_decimalNumber hold] at h
    rw [number_eq_decimalNumber hnew]
    exact decimalNumber_before h he

/-! ## Literals between quotation marks -/

theorem escape_of_escaped {text : List Char} {code : Nat} (h : Escaped text code)
    (rest : List Char) : escape (text ++ rest) = .ok (code, text.length) := by
  cases h with
  | @simple c code h =>
    have hall : ∀ entry ∈ simpleEscapes, simpleEscapes.lookup entry.1 = some entry.2 := by decide
    rw [List.singleton_append, escape, hall _ h]
    rfl
  | @unicode marks digits hmarks hdigits hlength =>
    have hu : simpleEscapes.lookup 'u' = none := by decide
    obtain ⟨d, ds, rfl⟩ := List.exists_cons_of_length_eq_add_one hlength
    have hd : d ≠ 'u' := by
      rintro rfl
      exact absurd (hdigits 'u' (.head _)) (by decide)
    have htake : (marks ++ d :: ds ++ rest).takeWhile (· = 'u') = marks := by
      rw [List.append_assoc, List.takeWhile_append_of_pos (by simpa using hmarks),
        List.cons_append, List.takeWhile_cons_of_neg (by simpa using hd), List.append_nil]
    have hfour : ((marks ++ d :: ds ++ rest).drop marks.length).take 4 = d :: ds := by
      rw [List.append_assoc, List.drop_left, ← hlength, List.take_left]
    rw [List.cons_append, escape, hu]
    dsimp only
    have hgood : ((d :: ds).length = 4 && (d :: ds).all isHexDigit) = true := by
      rw [hlength, List.all_eq_true.2 hdigits]
      rfl
    rw [if_pos rfl, htake, hfour, if_pos hgood, foldl_hexValue, List.length_cons,
      List.length_append, hlength, Nat.add_comm 1, Nat.add_right_comm]

theorem stringContent_skip (skip offset : Nat) (cs : List Char) :
    stringContent skip offset cs = stringContent 0 (offset + skip) (cs.drop skip) := by
  induction cs generalizing skip offset with
  | nil => cases skip <;> rfl
  | cons c cs ih =>
    cases skip with
    | zero => rfl
    | succ skip =>
      rw [stringContent, ih, List.drop_succ_cons, Nat.add_assoc, Nat.add_comm 1]

/-- What is spelled between quotation marks is read, whatever follows. -/
theorem stringContent_of_spells {body : List Char} {codes : List Nat} (h : Spells '"' body codes)
    (offset : Nat) (rest : List Char) :
    stringContent 0 offset (body ++ '"' :: rest) = .ok (codes, offset + body.length) := by
  induction h generalizing offset with
  | nil => rfl
  | plain hmark hline hescape _ ih =>
    rw [List.cons_append, stringContent, if_neg hmark, if_neg hline, if_neg hescape, ih,
      List.length_cons, Nat.add_assoc, Nat.add_comm 1]
    rfl
  | @escaped escape body code codes hescape _ ih =>
    rw [List.cons_append, stringContent, if_neg (by decide), if_neg (by decide), if_pos rfl,
      List.append_assoc, escape_of_escaped hescape]
    dsimp only
    rw [stringContent_skip, List.drop_left, ih]
    simp only [Except.map, List.length_cons, List.length_append, Except.ok.injEq, Prod.mk.injEq,
      true_and]
    omega

theorem charContent_of_spells {body : List Char} {code : Nat} (h : Spells '\'' body [code])
    (rest : List Char) : charContent (body ++ '\'' :: rest) = .ok (code, body.length + 1) := by
  cases h with
  | plain hmark hline hescape h =>
    cases h
    rw [List.singleton_append, charContent, if_neg hline, if_neg hescape, if_neg hmark]
    rfl
  | escaped hescape h =>
    cases h
    rw [List.append_nil, List.cons_append, charContent, if_neg (by decide), if_pos rfl,
      escape_of_escaped hescape]
    dsimp only
    rw [closeChar, List.drop_succ_cons, List.drop_left]
    rfl

/-! ## Operators -/

theorem prefix_before {α : Type} {op as rest : List α} {e : α} (h : op <+: as ++ e :: rest)
    (he : e ∉ op) : op <+: as := by
  induction as generalizing op with
  | nil =>
    cases op with
    | nil => exact List.prefix_rfl
    | cons c op =>
      obtain ⟨rfl, -⟩ := List.cons_prefix_cons.1 h
      exact absurd (.head _) he
  | cons a as ih =>
    cases op with
    | nil => exact List.nil_prefix
    | cons c op =>
      obtain ⟨rfl, htail⟩ := List.cons_prefix_cons.1 h
      exact (List.prefix_cons_inj c).2 (ih htail fun hmem => he (.tail _ hmem))

/-- The operator that is found among the longer ones. -/
def longOperator? (cs : List Char) : Option Text :=
  Token.longOperators.find? fun op => op.codes.isPrefixOf ((cs.take 3).map Char.toNat)

theorem isPrefixOf_take_iff {op : Text} (hop : op ∈ Token.longOperators) {cs : List Char} :
    op.codes.isPrefixOf ((cs.take 3).map Char.toNat) = true ↔ op.codes <+: cs.map Char.toNat := by
  have hlength : ∀ op ∈ Token.longOperators, op.codes.length ≤ 3 := by decide
  rw [List.isPrefixOf_iff_prefix, List.map_take, List.prefix_take_iff]
  exact and_iff_left (hlength op hop)

/-- No operator goes on with a blank. -/
theorem longOperator_before {op : Text} (hop : op ∈ Token.longOperators) (he : isBlank e = true)
    (h : op.codes.isPrefixOf (((as ++ e :: rest).take 3).map Char.toNat) = true) :
    op.codes <+: as.map Char.toNat := by
  rw [isPrefixOf_take_iff hop, List.map_append, List.map_cons] at h
  refine prefix_before h ?_
  have hall : ∀ e ∈ blanks, ∀ op ∈ Token.longOperators, e.toNat ∉ op.codes :=
    List.all_iff_forall_prop.1 (by decide)
  exact hall e (mem_blanks he) op hop

theorem longOperator?_before_of_none (h : longOperator? (as ++ old) = none)
    (he : isBlank e = true) : longOperator? (as ++ e :: rest) = none := by
  rw [longOperator?, List.find?_eq_none] at h ⊢
  intro op hop hagain
  refine h op hop ((isPrefixOf_take_iff hop).2 ?_)
  rw [List.map_append]
  exact (longOperator_before hop he hagain).trans (List.prefix_append _ _)

theorem longOperator?_before {op : Text} (h : longOperator? (as ++ old) = some op)
    (has : op.codes = as.map Char.toNat) (he : isBlank e = true) :
    longOperator? (as ++ e :: rest) = some op := by
  rw [longOperator?, List.find?_eq_some_iff_append] at h ⊢
  obtain ⟨-, before, after, hsplit, hbefore⟩ := h
  refine ⟨?_, before, after, hsplit, fun other hother => ?_⟩
  · have hop : op ∈ Token.longOperators := hsplit ▸ List.mem_append_right _ (.head _)
    rw [isPrefixOf_take_iff hop, has, List.map_append]
    exact List.prefix_append _ _
  · have hmem : other ∈ Token.longOperators := hsplit ▸ List.mem_append_left _ hother
    have hnot := hbefore other hother
    rw [Bool.not_eq_true', Bool.eq_false_iff, ne_eq, isPrefixOf_take_iff hmem] at hnot
    rw [Bool.not_eq_true', Bool.eq_false_iff]
    intro hagain
    apply hnot
    rw [List.map_append]
    exact (longOperator_before hmem he hagain).trans (List.prefix_append _ _)

/-! ## Tokens -/

/-- The character behind the first one is the same as before, or a blank. -/
theorem head_before {m : Char} (h : (as ++ e :: rest).head? = some m) (hm : m ≠ e) :
    (as ++ old).head? = some m := by
  cases as with
  | nil => exact absurd (Option.some.inj h).symm hm
  | cons a as => exact h

/-- No blank and no comment begins here. -/
structure BeginsToken (c : Char) (cs : List Char) : Prop where
  blank : ¬isBlank c = true
  line : ¬(c = '/' && cs.head? = some '/') = true
  block : ¬(c = '/' && cs.head? = some '*') = true

/-- No number and no quoted literal begins here either. -/
structure BeginsBare (c : Char) (cs : List Char) : Prop extends BeginsToken c cs where
  number : ¬(c.isDigit || (c = '.' && (cs.head?.map Char.isDigit).getD false)) = true
  string : ¬c = '"'
  char : ¬c = '\''

theorem BeginsToken.before {c : Char} (h : BeginsToken c (as ++ old)) (he : Breaks e) :
    BeginsToken c (as ++ e :: rest) := by
  have hslash : ∀ m ∈ signs, ¬(c = '/' && (as ++ old).head? = some m) = true →
      ¬(c = '/' && (as ++ e :: rest).head? = some m) = true := by
    intro m hm h
    simp only [Bool.and_eq_true, decide_eq_true_eq] at h ⊢
    exact fun ⟨hc, hhead⟩ => h ⟨hc, head_before hhead (he.ne hm).symm⟩
  exact ⟨h.blank, hslash _ (by decide) h.line, hslash _ (by decide) h.block⟩

theorem BeginsBare.before {c : Char} (h : BeginsBare c (as ++ old)) (he : Breaks e) :
    BeginsBare c (as ++ e :: rest) := by
  refine ⟨h.toBeginsToken.before he, ?_, h.string, h.char⟩
  cases as with
  | nil =>
    intro hagain
    have hdigit : c.isDigit = true := by simpa [he.digit] using hagain
    exact h.number (by rw [hdigit, Bool.true_or])
  | cons a as => exact h.number

theorem readPiece_number {c : Char} {cs lexeme : List Char} {kind : Token.Kind}
    (h : BeginsToken c cs)
    (hnumber : (c.isDigit || (c = '.' && (cs.head?.map Char.isDigit).getD false)) = true)
    (hlexeme : number (c :: cs) = .ok (kind, lexeme)) :
    readPiece c cs = .ok (.token kind (.ofChars lexeme), lexeme.length - 1) := by
  rw [readPiece, if_neg h.blank, if_neg h.line, if_neg h.block, if_pos hnumber, hlexeme]

theorem readPiece_word {c : Char} {cs : List Char} (h : BeginsBare c cs)
    (hletter : isLetter c = true) {letters : List Char}
    (hletters : (cs.takeWhile fun c => isLetter c || c.isDigit) = letters) :
    readPiece c cs = .ok (.token
      (if Text.ofChars (c :: letters) ∈ Token.keywords then .keyword else .ident)
      (.ofChars (c :: letters)), letters.length) := by
  rw [readPiece, if_neg h.blank, if_neg h.line, if_neg h.block, if_neg h.number, if_neg h.string,
    if_neg h.char, if_pos hletter, hletters]

theorem readPiece_operator {c : Char} {cs : List Char} (h : BeginsBare c cs)
    (hletter : ¬isLetter c = true) :
    readPiece c cs = match longOperator? (c :: cs) with
      | some op => .ok (.token .op op, op.codes.length - 1)
      | none =>
        if Text.ofChars [c] ∈ Token.shortOperators then .ok (.token .op (.ofChars [c]), 0)
        else .error (.unexpectedCharacter c, 0) := by
  rw [readPiece, if_neg h.blank, if_neg h.line, if_neg h.block, if_neg h.number, if_neg h.string,
    if_neg h.char, if_neg hletter]
  rfl

/-- A point in front of a digit is not all of a number. -/
theorem number_ne_point {d : Char} {kind : Token.Kind} (hd : d.isDigit = true) :
    number ('.' :: d :: old) ≠ .ok (kind, ['.']) := by
  intro h
  rw [number_eq_decimalNumber (by simp), decimalNumber_eq_ok_iff] at h
  obtain ⟨whole, part, power, mark, hparts, hlexeme⟩ := h
  obtain rfl : [] = whole := hparts.whole_eq
  have hpart := hparts.part_eq
  rw [List.length_nil, List.drop_zero, fraction, if_pos hd, digitRun,
    List.takeWhile_cons_of_pos (by simp [hd])] at hpart
  rw [← hpart] at hlexeme
  simp at hlexeme

/-- What is read again if a blank follows. -/
def Stays (kind : Token.Kind) (text : Text) (slice : List Char) : Prop :=
  ∃ c as, slice = c :: as ∧ ∀ e rest, isBlank e = true →
    readPiece c (as ++ e :: rest) = .ok (.token kind text, as.length)

theorem readPiece_doubleQuote (cs : List Char) : readPiece '"' cs =
    (stringContent 0 1 cs).map fun (codes, length) => (.token .string ⟨codes⟩, length) := rfl

theorem readPiece_apostrophe (cs : List Char) : readPiece '\'' cs =
    (charContent cs).map fun (code, length) => (.token .char ⟨[code]⟩, length) := rfl

theorem stays_string {body : List Char} {codes : List Nat} (h : Spells '"' body codes) :
    Stays .string ⟨codes⟩ ('"' :: (body ++ ['"'])) := by
  refine ⟨'"', body ++ ['"'], rfl, fun e rest _ => ?_⟩
  rw [readPiece_doubleQuote, List.append_assoc, List.singleton_append, stringContent_of_spells h,
    List.length_append, Nat.add_comm 1]
  rfl

theorem stays_char {body : List Char} {code : Nat} (h : Spells '\'' body [code]) :
    Stays .char ⟨[code]⟩ ('\'' :: (body ++ ['\''])) := by
  refine ⟨'\'', body ++ ['\''], rfl, fun e rest _ => ?_⟩
  rw [readPiece_apostrophe, List.append_assoc, List.singleton_append, charContent_of_spells h,
    List.length_append]
  rfl

theorem stays_number {c : Char} {cs lexeme : List Char} {kind : Token.Kind} (h : BeginsToken c cs)
    (hnumber : (c.isDigit || (c = '.' && (cs.head?.map Char.isDigit).getD false)) = true)
    (hlexeme : number (c :: cs) = .ok (kind, lexeme)) : Stays kind (.ofChars lexeme) lexeme := by
  obtain ⟨old, hold⟩ := number_isPrefix hlexeme
  obtain ⟨d, as, rfl⟩ := List.exists_cons_of_ne_nil (number_ne_nil hnumber hlexeme)
  obtain ⟨rfl, rfl⟩ := List.cons.inj hold
  refine ⟨d, as, rfl, fun e rest he => ?_⟩
  have hbreaks := breaks_of_isBlank he
  refine readPiece_number (h.before hbreaks) ?_
    (number_before hlexeme (List.cons_ne_nil d as) hbreaks)
  cases as with
  | cons a as => exact hnumber
  | nil =>
    rw [Bool.or_eq_true] at hnumber ⊢
    refine .inl (hnumber.resolve_right fun hpoint => ?_)
    simp only [Bool.and_eq_true, decide_eq_true_eq] at hpoint
    obtain ⟨rfl, hdigit⟩ := hpoint
    obtain _ | ⟨b, old⟩ := old
    · cases hdigit
    · exact number_ne_point hdigit hlexeme

theorem stays_word {c : Char} {cs : List Char} (h : BeginsBare c cs) (hletter : isLetter c = true)
    {letters : List Char} (hletters : (cs.takeWhile fun c => isLetter c || c.isDigit) = letters) :
    Stays (if Text.ofChars (c :: letters) ∈ Token.keywords then .keyword else .ident)
      (.ofChars (c :: letters)) (c :: letters) := by
  obtain ⟨old, rfl⟩ : letters <+: cs := hletters ▸ List.takeWhile_prefix _
  refine ⟨c, letters, rfl, fun e rest he => ?_⟩
  have hbreaks := breaks_of_isBlank he
  have hstop : (isLetter e || e.isDigit) = false := by
    rw [hbreaks.letter, hbreaks.digit, Bool.or_self]
  exact readPiece_word (h.before hbreaks) hletter
    (takeWhile_before hletters List.prefix_rfl hstop)

theorem stays_longOperator {c : Char} {op : Text} (h : BeginsBare c (as ++ old))
    (hletter : ¬isLetter c = true) (hop : longOperator? (c :: (as ++ old)) = some op)
    (has : op = .ofChars (c :: as)) : Stays .op op (c :: as) := by
  refine ⟨c, as, rfl, fun e rest he => ?_⟩
  have hcodes : op.codes = (c :: as).map Char.toNat := congrArg Text.codes has
  have hagain : longOperator? (c :: as ++ e :: rest) = some op := longOperator?_before hop hcodes he
  rw [List.cons_append] at hagain
  rw [readPiece_operator (h.before (breaks_of_isBlank he)) hletter, hagain]
  dsimp only
  rw [hcodes, List.length_map, List.length_cons, Nat.add_sub_cancel]

theorem stays_shortOperator {c : Char} {cs : List Char} (h : BeginsBare c cs)
    (hletter : ¬isLetter c = true) (hnone : longOperator? (c :: cs) = none)
    (hop : Text.ofChars [c] ∈ Token.shortOperators) : Stays .op (.ofChars [c]) [c] := by
  refine ⟨c, [], rfl, fun e rest he => ?_⟩
  have hagain : longOperator? ([c] ++ e :: rest) = none := longOperator?_before_of_none hnone he
  have hbare : BeginsBare c ([] ++ e :: rest) := h.before (breaks_of_isBlank he)
  rw [List.singleton_append] at hagain
  rw [readPiece_operator hbare hletter, List.nil_append, hagain]
  exact if_pos hop

theorem beginsToken_of_readPiece {c : Char} {cs : List Char} {kind : Token.Kind} {text : Text}
    {length : Nat} (h : readPiece c cs = .ok (.token kind text, length)) : BeginsToken c cs := by
  unfold readPiece at h
  split_ifs at h with hblank hline hblock
  · cases h
  · cases h
  · split at h <;> cases h
  all_goals exact ⟨hblank, hline, hblock⟩

/-- Every token that is read is read again if a blank follows its characters. -/
theorem stays_readPiece {c : Char} {cs : List Char} {kind : Token.Kind} {text : Text} {length : Nat}
    (h : readPiece c cs = .ok (.token kind text, length)) :
    Stays kind text (c :: cs.take length) := by
  have hbegins := beginsToken_of_readPiece h
  have hspans := spans_readPiece h ⟨0, 0⟩
  by_cases hop : BeginsBare c cs ∧ ¬isLetter c = true
  · obtain ⟨hbare, hletter⟩ := hop
    rw [readPiece_operator hbare hletter] at h
    split at h
    · rename_i hlong
      cases h
      obtain ⟨old, hold⟩ : ∃ old, cs.take (text.codes.length - 1) ++ old = cs :=
        ⟨_, List.take_append_drop _ cs⟩
      rw [← hold] at hbare hlong
      exact stays_longOperator hbare hletter hlong hspans
    · rename_i hnone
      split_ifs at h with hshort
      cases h
      exact stays_shortOperator hbare hletter hnone hshort
  · rw [readPiece, if_neg hbegins.blank, if_neg hbegins.line, if_neg hbegins.block] at h
    split_ifs at h with hnumber hstring hchar hletter
    · split at h
      · rename_i kind lexeme hlexeme
        cases h
        rw [cons_take_of_isPrefix (number_isPrefix hlexeme) (number_ne_nil hnumber hlexeme)]
        exact stays_number hbegins hnumber hlexeme
      · cases h
    · obtain ⟨⟨codes, length⟩, -, heq⟩ := exists_of_map_eq_ok h
      cases heq
      obtain ⟨body, hbody, hspells⟩ := hspans
      exact hbody ▸ stays_string hspells
    · obtain ⟨⟨code, length⟩, -, heq⟩ := exists_of_map_eq_ok h
      cases heq
      obtain ⟨body, hbody, hspells, -⟩ := hspans
      exact hbody ▸ stays_char hspells
    · cases h
      rw [← List.prefix_iff_eq_take.1 (List.takeWhile_prefix _)]
      exact stays_word ⟨hbegins, hnumber, hstring, hchar⟩ hletter rfl
    all_goals exact absurd ⟨⟨hbegins, hnumber, hstring, hchar⟩, hletter⟩ hop

end Lexer

end WriteOnce
