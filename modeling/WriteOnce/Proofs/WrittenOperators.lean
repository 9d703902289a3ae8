import Mathlib.Data.Bool.AllAny
import Mathlib.Tactic.SplitIfs
import WriteOnce.Proofs.Identifiers
import WriteOnce.Proofs.SourceSlices
import WriteOnce.Syntax.Basic

/-!
# Operators between operands, as they are written

Names and integers are joined by binary operators, with one space on either side of an operator and
a semicolon behind the last operand. Read as tokens, each operand is one token, and so is each
operator, except that a shift to the right is as many as it has arrows. The operands are all the
names and integers that can be tokens.
-/

namespace WriteOnce

open Lexer

/-- How an integer is written: in decimal or hexadecimal digits and underscores, maybe with the mark
of a long one. -/
inductive IsIntWord : List Char → Prop
  | decimal {d : Char} {ds mark : List Char} (hd : d.isDigit = true)
    (hds : ∀ c ∈ ds, c.isDigit = true ∨ c = '_') (hmark : mark ∈ [[], ['L'], ['l']]) :
    IsIntWord (d :: (ds ++ mark))
  | hex {x : Char} {ds mark : List Char} (hx : x ∈ ['x', 'X']) (hne : ds ≠ [])
    (hds : ∀ c ∈ ds, isHexDigit c = true ∨ c = '_') (hmark : mark ∈ [[], ['L'], ['l']]) :
    IsIntWord ('0' :: x :: (ds ++ mark))

/-- A name or an integer, as it is written. -/
inductive Operand
  | name (word : List Char) (h : (Text.ofChars word).IsIdentifier)
  | int (word : List Char) (h : IsIntWord word)

namespace Operand

def word : Operand → List Char
  | name word _ | int word _ => word

/-- How many columns the operand takes. -/
def width (a : Operand) : Nat := a.word.length

def kind : Operand → Token.Kind
  | name .. => .ident
  | int .. => .int

/-- The token of the operand in this column of the first line. -/
def token (a : Operand) (col : Nat) : Token := ⟨a.kind, .ofChars a.word, ⟨1, col⟩⟩

end Operand

namespace BinaryOp

def sign : BinaryOp → List Char
  | or => ['|', '|']
  | and => ['&', '&']
  | bitOr => ['|']
  | bitXor => ['^']
  | bitAnd => ['&']
  | equal => ['=', '=']
  | notEqual => ['!', '=']
  | less => ['<']
  | greater => ['>']
  | lessEqual => ['<', '=']
  | greaterEqual => ['>', '=']
  | shiftLeft => ['<', '<']
  | shiftRight => ['>', '>']
  | shiftRightZero => ['>', '>', '>']
  | add => ['+']
  | subtract => ['-']
  | multiply => ['*']
  | divide => ['/']
  | remainder => ['%']

/-- What is written is the symbol of the operator. -/
theorem ofChars_sign (op : BinaryOp) : Text.ofChars op.sign = op.symbol := by cases op <;> rfl

/-- How many columns the operator takes. -/
def width (op : BinaryOp) : Nat := op.sign.length

/-- An arrow stands alone unless an equals sign follows it. -/
def tokens (op : BinaryOp) (col : Nat) : List Token :=
  match op with
  | shiftRight => [⟨.op, ">", ⟨1, col⟩⟩, ⟨.op, ">", ⟨1, col + 1⟩⟩]
  | shiftRightZero =>
    [⟨.op, ">", ⟨1, col⟩⟩, ⟨.op, ">", ⟨1, col + 1⟩⟩, ⟨.op, ">", ⟨1, col + 2⟩⟩]
  | op => [⟨.op, op.symbol, ⟨1, col⟩⟩]

end BinaryOp

/-- Operators, each with the operand behind it. -/
abbrev Operations := List (BinaryOp × Operand)

namespace Operations

/-- What is written behind an operand. -/
def written : Operations → List Char
  | [] => [';']
  | (op, a) :: rest => ' ' :: (op.sign ++ ' ' :: (a.word ++ written rest))

/-- The tokens behind an operand that ends in front of this column. -/
def tokens (col : Nat) : Operations → List Token
  | [] => [⟨.op, ";", ⟨1, col⟩⟩]
  | (op, a) :: rest =>
    op.tokens (col + 1) ++ a.token (col + 2 + op.width) ::
      tokens (col + 2 + op.width + a.width) rest

/-- How many columns these take, without the semicolon. -/
def width : Operations → Nat
  | [] => 0
  | (op, a) :: rest => 2 + op.width + a.width + width rest

end Operations

namespace Lexer

/-! ## Reading words -/

theorem isLetter_ne {c d : Char} (h : isLetter c = true) (hd : isLetter d = false) : c ≠ d := by
  rintro rfl
  cases h.symm.trans hd

theorem isDigit_ne {c d : Char} (h : c.isDigit = true) (hd : d.isDigit = false) : c ≠ d := by
  rintro rfl
  cases h.symm.trans hd

theorem isDigit_eq_false_of_isLetter {c : Char} (h : isLetter c = true) : c.isDigit = false := by
  change (decide (c.val ≥ 'A'.val ∧ c.val ≤ 'Z'.val) || (c.val ≥ 'a'.val && c.val ≤ 'z'.val) ||
    c = '_' || c = '$') = true at h
  simp only [Bool.or_eq_true, Bool.and_eq_true, decide_eq_true_eq, ge_iff_le,
    UInt32.le_iff_toNat_le] at h
  have hA : 'A'.val.toNat = 65 := rfl
  have ha : 'a'.val.toNat = 97 := rfl
  have h9 : '9'.val.toNat = 57 := rfl
  simp only [Char.isDigit, Bool.eq_false_iff, ne_eq, Bool.and_eq_true, decide_eq_true_eq,
    ge_iff_le, UInt32.le_iff_toNat_le]
  rcases h with ((h | h) | rfl) | rfl
  · omega
  · omega
  · decide
  · decide

/-- The signs that can follow an operand. -/
def closers : List Char := [' ', ';']

variable {rest : List Char} {e : Char}

theorem takeWhile_word {p : Char → Bool} {word : List Char} (hword : ∀ c ∈ word, p c = true)
    {e : Char} (he : p e = false) (rest : List Char) :
    (word ++ e :: rest).takeWhile p = word := by
  rw [List.takeWhile_append_of_pos hword, List.takeWhile_cons_of_neg (by simp [he]),
    List.append_nil]

theorem readPiece_name {c : Char} {cs : List Char} (h : (Text.ofChars (c :: cs)).IsIdentifier)
    (he : e ∈ closers) :
    readPiece c (cs ++ e :: rest) = .ok (.token .ident (.ofChars (c :: cs)), cs.length) := by
  obtain ⟨c', cs', heq, hletter, hletters, hkeyword⟩ := h
  obtain ⟨rfl, rfl⟩ := List.cons.inj (Text.ofChars_injective heq)
  have hsigns : ∀ d ∈ [' ', '\t', '\r', '\x0c', '\n', '/', '.', '"', '\''], c ≠ d := by
    have hnone : ∀ d ∈ [' ', '\t', '\r', '\x0c', '\n', '/', '.', '"', '\''],
        isLetter d = false :=
      List.all_iff_forall_prop.1 (by decide)
    exact fun d hd => isLetter_ne hletter (hnone d hd)
  simp only [List.forall_mem_cons, List.not_mem_nil, false_implies, implies_true, and_true]
    at hsigns
  have hword : (cs ++ e :: rest).takeWhile (fun c => isLetter c || c.isDigit) = cs := by
    have hclosers : ∀ d ∈ closers, (isLetter d || d.isDigit) = false :=
      List.all_iff_forall_prop.1 (by decide)
    exact takeWhile_word (fun c hc => by simpa using hletters c hc) (hclosers e he) rest
  simp only [readPiece, isBlank, hsigns, isDigit_eq_false_of_isLetter hletter, hletter, hword,
    hkeyword, decide_false, Bool.or_self, Bool.false_and, Bool.false_eq_true, if_false, if_true]

/-- The characters that can follow the digits of an integer. -/
def digitEnds : List Char := ['L', 'l', ' ', ';']

/-- Behind the digits of an integer comes its mark, or what follows the operand. -/
theorem exists_digitEnd {mark : List Char} (hmark : mark ∈ [[], ['L'], ['l']]) (he : e ∈ closers)
    (rest : List Char) : oneOf ['L', 'l'] (mark ++ e :: rest) = mark ∧
      ∃ m more, mark ++ e :: rest = m :: more ∧ m ∈ digitEnds := by
  have hclosers : ∀ e ∈ closers, oneOf ['L', 'l'] [e] = [] ∧ e ∈ digitEnds :=
    List.all_iff_forall_prop.1 (by decide)
  simp only [List.mem_cons, List.not_mem_nil, or_false] at hmark
  rcases hmark with rfl | rfl | rfl
  · exact ⟨(hclosers e he).1, e, rest, rfl, (hclosers e he).2⟩
  · exact ⟨rfl, 'L', e :: rest, rfl, by decide⟩
  · exact ⟨rfl, 'l', e :: rest, rfl, by decide⟩

theorem number_decimal {d : Char} {ds mark : List Char} (hd : d.isDigit = true)
    (hds : ∀ c ∈ ds, c.isDigit = true ∨ c = '_') (hmark : mark ∈ [[], ['L'], ['l']])
    (he : e ∈ closers) :
    number (d :: (ds ++ (mark ++ e :: rest))) = .ok (.int, d :: (ds ++ mark)) := by
  obtain ⟨hone, m, more, htail, hm⟩ := exists_digitEnd hmark he rest
  rw [htail] at hone ⊢
  have hends : ∀ m ∈ digitEnds, (m.isDigit || m = '_') = false ∧ m ≠ '.' ∧ m ∉ ['x', 'X'] ∧
      oneOf ['e', 'E'] [m] = [] ∧ oneOf ['f', 'F', 'd', 'D'] [m] = [] :=
    List.all_iff_forall_prop.1 (by decide)
  obtain ⟨hdigit, hpoint, hx, hpower, hfloat⟩ := hends m hm
  have hdigits : ∀ c ∈ d :: ds, (c.isDigit || c = '_') = true := by
    simpa [hd] using hds
  have hlead : ∀ x ∈ ['x', 'X'], (d :: (ds ++ m :: more)).take 2 ≠ ['0', x] := by
    have hother : ∀ x ∈ ['x', 'X'], (x.isDigit || x = '_') = false :=
      List.all_iff_forall_prop.1 (by decide)
    intro x hx' heq
    cases ds with
    | nil => exact hx ((List.cons.inj (List.cons.inj heq).2).1 ▸ hx')
    | cons c ds =>
      obtain rfl : c = x := (List.cons.inj (List.cons.inj heq).2).1
      exact Bool.eq_false_iff.1 (hother c hx') (hdigits c (by simp))
  have hrun : digitRun (d :: (ds ++ m :: more)) = d :: ds := takeWhile_word hdigits hdigit more
  have hdrop : (d :: (ds ++ m :: more)).drop (d :: ds).length = m :: more := by simp
  have hfraction : fraction (m :: more) = [] := by
    unfold fraction
    split <;> simp_all
  have hexponent : exponent? (m :: more) = some [] := by
    have hmarker : oneOf ['e', 'E'] (m :: more) = [] := hpower
    rw [exponent?, hmarker]
    rfl
  have hfloat : oneOf ['f', 'F', 'd', 'D'] (m :: more) = [] := hfloat
  unfold number decimalNumber
  dsimp only
  rw [decide_eq_false (hlead 'x' (by decide)), decide_eq_false (hlead 'X' (by decide)), hrun, hdrop,
    hfraction, List.length_nil, List.drop_zero, hexponent]
  dsimp only
  rw [List.length_nil, List.drop_zero, hfloat, hone]
  rfl

theorem number_hex {x : Char} {ds mark : List Char} (hx : x ∈ ['x', 'X']) (hne : ds ≠ [])
    (hds : ∀ c ∈ ds, isHexDigit c = true ∨ c = '_') (hmark : mark ∈ [[], ['L'], ['l']])
    (he : e ∈ closers) :
    number ('0' :: x :: (ds ++ (mark ++ e :: rest))) = .ok (.int, '0' :: x :: (ds ++ mark)) := by
  obtain ⟨hone, m, more, htail, hm⟩ := exists_digitEnd hmark he rest
  rw [htail] at hone ⊢
  have hends : ∀ m ∈ digitEnds, (isHexDigit m || m = '_') = false :=
    List.all_iff_forall_prop.1 (by decide)
  have hrun : (('0' :: x :: (ds ++ m :: more)).drop 2).takeWhile
      (fun c => isHexDigit c || c = '_') = ds :=
    takeWhile_word (by simpa using hds) (hends m hm) more
  have hlead : ∀ x ∈ ['x', 'X'],
      (decide (['0', x] = ['0', 'x']) || decide (['0', x] = ['0', 'X'])) = true :=
    List.all_iff_forall_prop.1 (by decide)
  have hdrop : ('0' :: x :: (ds ++ m :: more)).drop (2 + ds.length) = m :: more := by
    rw [Nat.add_comm]
    simp
  unfold number
  dsimp only [List.take_succ_cons, List.take_zero]
  rw [hrun, hdrop, hone, if_pos (hlead x hx), if_neg (by simpa using hne)]
  rfl

theorem number_intWord {word : List Char} (h : IsIntWord word) (he : e ∈ closers) :
    number (word ++ e :: rest) = .ok (.int, word) := by
  cases h with
  | decimal hd hds hmark => simpa using number_decimal hd hds hmark he
  | hex hx hne hds hmark => simpa using number_hex hx hne hds hmark he

theorem exists_cons_intWord {word : List Char} (h : IsIntWord word) :
    ∃ c cs, word = c :: cs ∧ c.isDigit = true ∧ '\n' ∉ word := by
  have hmarks : ∀ mark ∈ [[], ['L'], ['l']], '\n' ∉ mark := by decide
  have hline : ('\n'.isDigit || isHexDigit '\n') = false ∧ '\n' ≠ '_' := by decide
  obtain ⟨hnone, hunderscore⟩ := hline
  obtain ⟨hdigit, hhex⟩ := Bool.or_eq_false_iff.1 hnone
  cases h with
  | @decimal d ds mark hd hds hmark =>
    refine ⟨d, ds ++ mark, rfl, hd, ?_⟩
    rw [List.mem_cons, List.mem_append]
    rintro (heq | hmem | hmem)
    · exact isDigit_ne hd hdigit heq.symm
    · exact (hds _ hmem).elim (fun h => Bool.eq_false_iff.1 hdigit h) hunderscore
    · exact hmarks mark hmark hmem
  | @hex x ds mark hx hne hds hmark =>
    have hprefix : ∀ x ∈ ['x', 'X'], '\n' ∉ ['0', x] := List.all_iff_forall_prop.1 (by decide)
    refine ⟨'0', x :: (ds ++ mark), rfl, rfl, ?_⟩
    change '\n' ∉ ['0', x] ++ (ds ++ mark)
    rw [List.mem_append, List.mem_append]
    rintro (hmem | hmem | hmem)
    · exact hprefix x hx hmem
    · exact (hds _ hmem).elim (fun h => Bool.eq_false_iff.1 hhex h) hunderscore
    · exact hmarks mark hmark hmem

theorem readPiece_int {c : Char} {cs : List Char} (h : IsIntWord (c :: cs)) (he : e ∈ closers) :
    readPiece c (cs ++ e :: rest) = .ok (.token .int (.ofChars (c :: cs)), cs.length) := by
  obtain ⟨_, _, ⟨⟩, hdigit, -⟩ := exists_cons_intWord h
  have hnumber : number (c :: (cs ++ e :: rest)) = .ok (.int, c :: cs) := number_intWord h he
  have hsigns : ∀ d ∈ [' ', '\t', '\r', '\x0c', '\n', '/'], c ≠ d := by
    have hnone : ∀ d ∈ [' ', '\t', '\r', '\x0c', '\n', '/'], d.isDigit = false :=
      List.all_iff_forall_prop.1 (by decide)
    exact fun d hd => isDigit_ne hdigit (hnone d hd)
  simp only [List.forall_mem_cons, List.not_mem_nil, false_implies, implies_true, and_true]
    at hsigns
  simp only [readPiece, isBlank, hsigns, hdigit, hnumber, decide_false, Bool.or_self,
    Bool.false_and, Bool.true_or, Bool.false_eq_true, if_false, if_true, List.length_cons,
    Nat.add_sub_cancel]

/-! ## Reading on -/

theorem afterAll_of_notMem {cs : List Char} (h : '\n' ∉ cs) (line col : Nat) :
    Pos.afterAll ⟨line, col⟩ cs = ⟨line, col + cs.length⟩ := by
  induction cs generalizing col with
  | nil => rfl
  | cons c cs ih =>
    obtain ⟨hc, hcs⟩ := not_or.1 (List.mem_cons.not.1 h)
    have hafter : Pos.after ⟨line, col⟩ c = ⟨line, col + 1⟩ := if_neg (Ne.symm hc)
    change Pos.afterAll (Pos.after ⟨line, col⟩ c) cs = _
    rw [hafter, ih hcs, List.length_cons, Nat.add_assoc, Nat.add_comm 1]

/-- A token that is read within a line is put in front of those that follow. -/
theorem scan_token {c : Char} (cs : List Char) {rest : List Char} {kind : Token.Kind} {text : Text}
    (hpiece : readPiece c (cs ++ rest) = .ok (.token kind text, cs.length))
    (hline : '\n' ∉ c :: cs) (line col : Nat) :
    scan 0 ⟨line, col⟩ (c :: cs ++ rest) =
      (scan 0 ⟨line, col + (c :: cs).length⟩ rest).map fun s =>
        ⟨⟨kind, text, ⟨line, col⟩⟩ :: s.ahead, s.stop⟩ := by
  rw [List.cons_append, scan, hpiece]
  dsimp only [Piece.next]
  rw [List.take_left, afterAll_of_notMem hline, scan_skip, List.drop_left]

theorem exists_readPiece_operand (a : Operand) : ∃ c cs, a.word = c :: cs ∧ '\n' ∉ a.word ∧
    ∀ e ∈ closers, ∀ rest,
      readPiece c (cs ++ e :: rest) = .ok (.token a.kind (.ofChars a.word), cs.length) := by
  cases a with
  | name word h =>
    have hname := h
    obtain ⟨c, cs, heq, hletter, hletters, -⟩ := h
    obtain rfl := Text.ofChars_injective heq
    refine ⟨c, cs, rfl, ?_, fun e he rest => readPiece_name hname he⟩
    have hline : isLetter '\n' = false ∧ '\n'.isDigit = false := by decide
    change '\n' ∉ c :: cs
    rw [List.mem_cons]
    rintro (rfl | hmem)
    · exact Bool.eq_false_iff.1 hline.1 hletter
    · exact (hletters _ hmem).elim (Bool.eq_false_iff.1 hline.1) (Bool.eq_false_iff.1 hline.2)
  | int word h =>
    obtain ⟨c, cs, rfl, -, hline⟩ := exists_cons_intWord h
    exact ⟨c, cs, rfl, hline, fun e he rest => readPiece_int h he⟩

theorem scan_operand (a : Operand) {e : Char} (he : e ∈ closers) (rest : List Char) (col : Nat) :
    scan 0 ⟨1, col⟩ (a.word ++ e :: rest) =
      (scan 0 ⟨1, col + a.width⟩ (e :: rest)).map fun s => ⟨a.token col :: s.ahead, s.stop⟩ := by
  obtain ⟨c, cs, hword, hline, hpiece⟩ := exists_readPiece_operand a
  have hscan := scan_token cs (hpiece e he rest) (hword ▸ hline) 1 col
  rwa [← hword] at hscan

theorem scan_operator (op : BinaryOp) (rest : List Char) (col : Nat) :
    scan 0 ⟨1, col⟩ (op.sign ++ ' ' :: rest) =
      (scan 0 ⟨1, col + op.width⟩ (' ' :: rest)).map fun s =>
        ⟨op.tokens col ++ s.ahead, s.stop⟩ := by
  have harrow : ∀ col, scan 0 ⟨1, col⟩ ('>' :: ' ' :: rest) =
      (scan 0 ⟨1, col + 1⟩ (' ' :: rest)).map fun s => ⟨⟨.op, ">", ⟨1, col⟩⟩ :: s.ahead, s.stop⟩ :=
    scan_token [] rfl (by decide) 1
  have harrows : ∀ more col, scan 0 ⟨1, col⟩ ('>' :: '>' :: more) =
      (scan 0 ⟨1, col + 1⟩ ('>' :: more)).map fun s => ⟨⟨.op, ">", ⟨1, col⟩⟩ :: s.ahead, s.stop⟩ :=
    fun more => scan_token [] rfl (by decide) 1
  cases op with
  | shiftRight =>
    change scan 0 ⟨1, col⟩ ('>' :: '>' :: ' ' :: rest) =
      (scan 0 ⟨1, col + 1 + 1⟩ (' ' :: rest)).map _
    rw [harrows, harrow]
    cases scan 0 ⟨1, col + 1 + 1⟩ (' ' :: rest) <;> rfl
  | shiftRightZero =>
    change scan 0 ⟨1, col⟩ ('>' :: '>' :: '>' :: ' ' :: rest) =
      (scan 0 ⟨1, col + 1 + 1 + 1⟩ (' ' :: rest)).map _
    rw [harrows, harrows, harrow]
    cases scan 0 ⟨1, col + 1 + 1 + 1⟩ (' ' :: rest) <;> rfl
  | _ => exact scan_token _ rfl (by decide) 1 col

theorem scan_space (rest : List Char) (col : Nat) :
    scan 0 ⟨1, col⟩ (' ' :: rest) = scan 0 ⟨1, col + 1⟩ rest := rfl

theorem exists_written (rest : Operations) : ∃ e more, rest.written = e :: more ∧ e ∈ closers := by
  cases rest with
  | nil => exact ⟨';', [], rfl, by decide⟩
  | cons => exact ⟨' ', _, rfl, by decide⟩

theorem scan_operand_written (a : Operand) (rest : Operations) (col : Nat) :
    scan 0 ⟨1, col⟩ (a.word ++ rest.written) =
      (scan 0 ⟨1, col + a.width⟩ rest.written).map fun s => ⟨a.token col :: s.ahead, s.stop⟩ := by
  obtain ⟨e, more, hwritten, he⟩ := exists_written rest
  rw [hwritten]
  exact scan_operand a he more col

theorem scan_written (rest : Operations) (col : Nat) :
    scan 0 ⟨1, col⟩ rest.written = .ok ⟨rest.tokens col, ⟨1, col + rest.width + 1⟩⟩ := by
  induction rest generalizing col with
  | nil => exact scan_token [] rfl (by decide) 1 col
  | cons x rest ih =>
    obtain ⟨op, a⟩ := x
    have hcol : col + 1 + op.width + 1 = col + 2 + op.width := by omega
    rw [Operations.written, scan_space, scan_operator, scan_space, scan_operand_written, ih,
      Operations.tokens, Operations.width, hcol]
    simp only [Except.map, Except.ok.injEq, TokenStream.mk.injEq, Pos.mk.injEq, true_and]
    omega

end Lexer

/-- The tokens of an operand and of what is written behind it. -/
theorem tokenize_written (first : Operand) (rest : Operations) :
    tokenize (first.word ++ rest.written) =
      .ok ⟨first.token 1 :: rest.tokens (1 + first.width), ⟨1, first.width + rest.width + 2⟩⟩ := by
  rw [tokenize, Pos.start, Lexer.scan_operand_written, Lexer.scan_written]
  simp only [Except.map, Except.ok.injEq, TokenStream.mk.injEq, Pos.mk.injEq, true_and]
  omega

/-! ## The tokens that are operands -/

namespace Lexer

theorem oneOf_mark (cs : List Char) : oneOf ['L', 'l'] cs ∈ [[], ['L'], ['l']] := by
  cases cs with
  | nil => decide
  | cons c cs =>
    by_cases hc : c ∈ ['L', 'l']
    · simp only [List.mem_cons, List.not_mem_nil, or_false] at hc
      rcases hc with rfl | rfl
      · exact .tail _ (.head _)
      · exact .tail _ (.tail _ (.head _))
    · simp [oneOf, hc]

/-- An integer that is read from a first digit on is written as an operand can be. -/
theorem isIntWord_of_number {c : Char} {cs word : List Char} (hc : c.isDigit = true)
    (h : number (c :: cs) = .ok (.int, word)) : IsIntWord word := by
  rw [number] at h
  dsimp only at h
  split_ifs at h with hlead hdigits
  · have hds : ∀ d ∈ ((c :: cs).drop 2).takeWhile fun c => isHexDigit c || c = '_',
        isHexDigit d = true ∨ d = '_' := fun d hd => by
      simpa using List.mem_takeWhile_imp hd
    have hne := mt List.isEmpty_iff.2 hdigits
    cases h
    simp only [Bool.or_eq_true, decide_eq_true_eq] at hlead
    rcases hlead with hlead | hlead <;> rw [hlead]
    · exact .hex (.head _) hne hds (oneOf_mark _)
    · exact .hex (.tail _ (.head _)) hne hds (oneOf_mark _)
  · rw [decimalNumber] at h
    split at h
    · cases h
    · dsimp only at h
      split_ifs at h
      · cases h
        have hrun : digitRun (c :: cs) = c :: digitRun cs :=
          List.takeWhile_cons_of_pos (by simp [hc])
        have hds : ∀ d ∈ digitRun cs, d.isDigit = true ∨ d = '_' := fun d hd => by
          simpa using List.mem_takeWhile_imp hd
        rw [hrun]
        exact .decimal hc hds (oneOf_mark _)
      · cases h

/-- A number that begins with a point is no integer. -/
theorem kind_number_point {cs word : List Char} {kind : Token.Kind}
    (hdigit : (cs.head?.map Char.isDigit).getD false = true)
    (h : number ('.' :: cs) = .ok (kind, word)) : kind = .float := by
  obtain _ | ⟨d, cs⟩ := cs
  · cases hdigit
  · have hdigit : d.isDigit = true := hdigit
    have hlead : (decide (('.' :: d :: cs).take 2 = ['0', 'x']) ||
        decide (('.' :: d :: cs).take 2 = ['0', 'X'])) = false := by
      simp
    have hwhole : digitRun ('.' :: d :: cs) = [] := rfl
    have hpart : fraction ('.' :: d :: cs) = '.' :: digitRun (d :: cs) := if_pos hdigit
    rw [number] at h
    dsimp only at h
    rw [hlead, if_neg Bool.false_ne_true, decimalNumber, hwhole, List.length_nil, List.drop_zero,
      hpart] at h
    split at h
    · cases h
    · cases h
      rfl

/-- An integer that is read is a word that an operand can have. -/
theorem exists_intWord_of_readPiece {c : Char} {cs : List Char} {text : Text} {length : Nat}
    (h : readPiece c cs = .ok (.token .int text, length)) :
    ∃ word, text = .ofChars word ∧ IsIntWord word := by
  cases readsToken h with
  | @number _ word hfirst hnumber =>
    obtain hdigit | ⟨rfl, hpoint⟩ := hfirst
    · exact ⟨word, rfl, isIntWord_of_number hdigit hnumber⟩
    · cases kind_number_point hpoint hnumber
  | word _ _ hkind =>
    obtain hkind | ⟨hkind, -⟩ := hkind <;> cases hkind

/-- Every name and every integer among the tokens of a source is an operand. -/
theorem exists_operand {source : List Char} {s : TokenStream} (h : tokenize source = .ok s)
    {t : Token} (ht : t ∈ s.ahead) (hkind : t.kind = .ident ∨ t.kind = .int) :
    ∃ a : Operand, t.kind = a.kind ∧ t.text = .ofChars a.word := by
  obtain ⟨c, cs, length, hpiece⟩ := exists_readPiece h t ht
  rcases hkind with hkind | hkind
  · rw [hkind] at hpiece ⊢
    obtain ⟨c, cs, heq, hword⟩ := isIdentifier_of_readPiece hpiece
    exact ⟨.name (c :: cs) ⟨c, cs, rfl, heq ▸ hword⟩, rfl, heq⟩
  · rw [hkind] at hpiece ⊢
    obtain ⟨word, heq, hword⟩ := exists_intWord_of_readPiece hpiece
    exact ⟨.int word hword, rfl, heq⟩

end Lexer

end WriteOnce
