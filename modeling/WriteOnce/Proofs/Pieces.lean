import Mathlib.Data.List.Infix
import Mathlib.Data.List.TakeWhile
import Mathlib.Data.Nat.Digits.Defs
import WriteOnce.Proofs.TokenOrder

/-!
# Pieces of a source

Gaps of a source hold blanks and complete comments alone. Tokens are written in slices: the text of
a token is its slice or, for a quoted literal, what the slice spells between its quotation marks.
Each piece that is read is such a gap or slice.
-/

namespace WriteOnce

/-! ## Gaps -/

/-- The text consists of blanks and complete comments, if it is followed by this rest. A line
comment goes on up to a newline or the end, a block comment up to the first `*/` behind its
beginning. -/
inductive Gap : List Char → List Char → Prop
  | nil {rest : List Char} : Gap [] rest
  | blank {c : Char} {gap rest : List Char} (hc : c ∈ [' ', '\t', '\r', '\x0c', '\n'])
    (h : Gap gap rest) : Gap (c :: gap) rest
  | line {body gap rest : List Char} (hbody : '\n' ∉ body)
    (hend : ∀ c ∈ (gap ++ rest).head?, c = '\n') (h : Gap gap rest) :
    Gap ('/' :: '/' :: (body ++ gap)) rest
  | block {body gap rest : List Char} (hbody : ¬ ['*', '/'] <:+: body ++ ['*'])
    (h : Gap gap rest) : Gap ('/' :: '*' :: (body ++ '*' :: '/' :: gap)) rest

theorem Gap.append {gap gap' rest : List Char} (h : Gap gap (gap' ++ rest)) (h' : Gap gap' rest) :
    Gap (gap ++ gap') rest := by
  generalize hrest : gap' ++ rest = rest' at h
  induction h with
  | nil => exact h'
  | blank hc _ ih => exact .blank hc (ih hrest)
  | line hbody hend _ ih =>
    subst hrest
    simp only [List.cons_append, List.append_assoc]
    exact .line hbody (by simpa using hend) (ih rfl)
  | block hbody _ ih =>
    simp only [List.cons_append, List.append_assoc]
    exact .block hbody (ih hrest)

/-! ## What is written in a slice -/

open Lexer in
/-- What stands behind a backslash, and the code point that it stands for. -/
inductive Escaped : List Char → Nat → Prop
  | simple {c : Char} {code : Nat} (h : (c, code) ∈ simpleEscapes) : Escaped [c] code
  | unicode {marks digits : List Char} (hmarks : ∀ c ∈ marks, c = 'u')
    (hdigits : ∀ c ∈ digits, isHexDigit c = true) (hlength : digits.length = 4) :
    Escaped ('u' :: (marks ++ digits)) (Nat.ofDigits 16 (digits.reverse.map hexValue))

/-- The code points that a text between two such quotation marks stands for: an escape is decoded,
and all other characters stand for themselves. -/
inductive Spells (mark : Char) : List Char → List Nat → Prop
  | nil : Spells mark [] []
  | plain {c : Char} {body : List Char} {codes : List Nat} (hmark : c ≠ mark) (hline : c ≠ '\n')
    (hescape : c ≠ '\\') (h : Spells mark body codes) : Spells mark (c :: body) (c.toNat :: codes)
  | escaped {escape body : List Char} {code : Nat} {codes : List Nat}
    (hescape : Escaped escape code) (h : Spells mark body codes) :
    Spells mark ('\\' :: (escape ++ body)) (code :: codes)

/-- The slice of a source that a token is written in. -/
def Token.Writes (t : Token) (slice : List Char) : Prop :=
  match t.kind with
  | .string => ∃ body, slice = '"' :: (body ++ ['"']) ∧ Spells '"' body t.text.codes
  | .char => ∃ body, slice = '\'' :: (body ++ ['\'']) ∧ Spells '\'' body t.text.codes ∧
      t.text.codes.length = 1
  | .endOfInput => False
  | .int | .float | .ident | .keyword | .op => t.text = .ofChars slice

/-! ## What is read as a piece -/

namespace Lexer

variable {cs : List Char}

theorem prefix_append_of_drop {as bs : List Char} {n : Nat} (ha : as <+: cs) (hn : as.length = n)
    (hb : bs <+: cs.drop n) : as ++ bs <+: cs := by
  obtain ⟨rest, rfl⟩ := ha
  rw [← hn, List.drop_left] at hb
  exact (List.prefix_append_right_inj as).2 hb

theorem oneOf_isPrefix (choices cs : List Char) : oneOf choices cs <+: cs := by
  cases cs with
  | nil => exact List.nil_prefix
  | cons c cs =>
    by_cases h : c ∈ choices
    · simp [oneOf, h]
    · simp [oneOf, h]

theorem digitRun_isPrefix (cs : List Char) : digitRun cs <+: cs := List.takeWhile_prefix _

theorem fraction_isPrefix (cs : List Char) : fraction cs <+: cs := by
  unfold fraction
  split
  · rename_i c cs
    split_ifs
    · exact (List.prefix_cons_inj '.').2 (digitRun_isPrefix (c :: cs))
    · exact List.nil_prefix
    · exact (List.prefix_cons_inj '.').2 List.nil_prefix
  · exact List.prefix_rfl
  · exact List.nil_prefix

theorem exponent_isPrefix {power : List Char} (h : exponent? cs = some power) : power <+: cs := by
  unfold exponent? at h
  dsimp only at h
  split_ifs at h with hmarker
  · cases h
    exact List.nil_prefix
  · cases h
    have hone : (oneOf ['e', 'E'] cs).length = 1 := by
      have hle : (oneOf ['e', 'E'] cs).length ≤ 1 :=
        (List.length_filter_le _ _).trans (by simp)
      have hpos := List.length_pos_iff.2 (mt List.isEmpty_iff.2 hmarker)
      omega
    have hsigned := prefix_append_of_drop (oneOf_isPrefix ['e', 'E'] cs) hone
      (oneOf_isPrefix ['+', '-'] (cs.drop 1))
    refine prefix_append_of_drop hsigned ?_ (List.takeWhile_prefix _)
    rw [List.length_append, hone]

/-- A number is read from the characters that stand here. -/
theorem number_isPrefix {kind : Token.Kind} {lexeme : List Char}
    (h : number cs = .ok (kind, lexeme)) : lexeme <+: cs := by
  unfold number at h
  dsimp only at h
  split_ifs at h with hlead hdigits
  · cases h
    have hlength : (cs.take 2).length = 2 := by
      simp only [Bool.or_eq_true, decide_eq_true_eq] at hlead
      rcases hlead with hlead | hlead <;> rw [hlead] <;> rfl
    have hhex := prefix_append_of_drop (List.take_prefix 2 cs) hlength
      (List.takeWhile_prefix fun c => isHexDigit c || c = '_')
    refine prefix_append_of_drop hhex ?_ (oneOf_isPrefix _ _)
    rw [List.length_append, hlength]
  · unfold decimalNumber at h
    dsimp only at h
    have hwhole := digitRun_isPrefix cs
    have hpart := prefix_append_of_drop hwhole rfl (fraction_isPrefix _)
    split at h
    · cases h
    · rename_i power hexponent
      rw [List.drop_drop] at hexponent
      have hpower := prefix_append_of_drop hpart List.length_append (exponent_isPrefix hexponent)
      split_ifs at h with hint
      · cases h
        simp only [Bool.and_eq_true, List.isEmpty_iff] at hint
        obtain ⟨⟨hpart, hpower⟩, -⟩ := hint
        simp only [hpart, hpower, List.length_nil, List.drop_zero]
        exact prefix_append_of_drop hwhole rfl (oneOf_isPrefix _ _)
      · cases h
        rw [List.drop_drop, List.drop_drop]
        refine prefix_append_of_drop hpower ?_ (oneOf_isPrefix _ _)
        simp only [List.length_append, Nat.add_assoc]

theorem number_ne_nil {c : Char} {kind : Token.Kind} {lexeme : List Char}
    (hc : (c.isDigit || (c = '.' && (cs.head?.map Char.isDigit).getD false)) = true)
    (h : number (c :: cs) = .ok (kind, lexeme)) : lexeme ≠ [] := by
  have hlead : digitRun (c :: cs) = [] → fraction (c :: cs) ≠ [] := by
    intro hwhole
    have hdigit : c.isDigit = false := by
      by_contra hdigit
      simp [digitRun, List.takeWhile_cons, hdigit] at hwhole
    obtain ⟨rfl, hnext⟩ : c = '.' ∧ (cs.head?.map Char.isDigit).getD false = true := by
      simpa [hdigit] using hc
    cases cs with
    | nil => cases hnext
    | cons d cs =>
      have hd : d.isDigit = true := by simpa using hnext
      simp [fraction, hd]
  unfold number at h
  dsimp only at h
  split_ifs at h
  · cases h
    simp
  · unfold decimalNumber at h
    dsimp only at h
    split at h
    · cases h
    · by_cases hwhole : digitRun (c :: cs) = []
      · have hpart := hlead hwhole
        rw [hwhole, List.length_nil, List.drop_zero] at h
        have hempty : (fraction (c :: cs)).isEmpty = false := by simpa using hpart
        rw [hempty, Bool.false_and, Bool.false_and, if_neg Bool.false_ne_true] at h
        cases h
        simp [hpart]
      · split_ifs at h <;> cases h <;> simp [hwhole]

theorem foldl_hexValue (digits : List Char) : digits.foldl (fun n d => 16 * n + hexValue d) 0 =
    Nat.ofDigits 16 (digits.reverse.map hexValue) := by
  rw [Nat.ofDigits_eq_foldr, List.foldr_map, List.foldr_reverse]
  simp only [Nat.cast_id, Nat.add_comm]

/-- What an escape stands for, and that it is complete. -/
theorem escaped_of_escape {code length : Nat} (h : escape cs = .ok (code, length)) :
    length ≤ cs.length ∧ Escaped (cs.take length) code := by
  cases cs with
  | nil => cases h
  | cons c cs =>
    rw [escape] at h
    split at h
    · rename_i code' hlookup
      cases h
      exact ⟨by simp, .simple (mem_of_lookup hlookup)⟩
    · dsimp only at h
      split_ifs at h with hu hdigits
      cases h
      simp only [Bool.and_eq_true, decide_eq_true_eq, List.all_eq_true] at hdigits
      obtain ⟨hlength, hhex⟩ := hdigits
      set marks := cs.takeWhile (· = 'u') with hmarks
      set digits := (cs.drop marks.length).take 4 with hdigits
      have htake : (c :: cs).take (1 + marks.length + 4) = 'u' :: (marks ++ digits) := by
        rw [hu, Nat.add_assoc, Nat.add_comm 1, List.take_succ_cons, List.take_add,
          ← List.prefix_iff_eq_take.1 (List.takeWhile_prefix _)]
      refine ⟨?_, ?_⟩
      · have := congrArg List.length htake
        simp only [List.length_take, List.length_cons, List.length_append, hlength] at this ⊢
        omega
      · rw [htake, foldl_hexValue]
        refine .unicode (fun d hd => ?_) hhex hlength
        simpa using List.mem_takeWhile_imp hd

/-- A string literal goes on up to its closing mark, and what stands in front of that is
decoded. -/
theorem spells_stringContent {skip offset : Nat} {codes : List Nat} {length : Nat}
    (h : stringContent skip offset cs = .ok (codes, length)) :
    ∃ body rest, cs.drop skip = body ++ '"' :: rest ∧ Spells '"' body codes ∧
      length = offset + skip + body.length := by
  induction cs generalizing skip offset codes length with
  | nil => cases h
  | cons c cs ih =>
    cases skip with
    | succ skip =>
      obtain ⟨body, rest, hcs, hspells, hlength⟩ := ih h
      exact ⟨body, rest, hcs, hspells, by omega⟩
    | zero =>
      rw [stringContent] at h
      split_ifs at h with hclose hline hescape
      · cases h
        exact ⟨[], cs, by simp [hclose], .nil, rfl⟩
      · split at h
        · cases h
        · rename_i code size hcode
          obtain ⟨⟨codes', length'⟩, hrest, heq⟩ := exists_of_map_eq_ok h
          cases heq
          obtain ⟨hsize, hescaped⟩ := escaped_of_escape hcode
          obtain ⟨body, rest, hcs, hspells, hlength⟩ := ih hrest
          refine ⟨'\\' :: (cs.take size ++ body), rest, ?_, .escaped hescaped hspells, ?_⟩
          · rw [List.drop_zero, hescape, List.cons_append, List.append_assoc, ← hcs,
              List.take_append_drop]
          · rw [List.length_cons, List.length_append, List.length_take]
            omega
      · obtain ⟨⟨codes', length'⟩, hrest, heq⟩ := exists_of_map_eq_ok h
        cases heq
        obtain ⟨body, rest, hcs, hspells, hlength⟩ := ih hrest
        refine ⟨c :: body, rest, ?_, .plain hclose hline hescape hspells, ?_⟩
        · simpa using hcs
        · rw [List.length_cons]
          omega

theorem take_of_closeChar {code length code' size : Nat}
    (h : closeChar code length cs = .ok (code', size)) :
    cs.take size = cs.take length ++ ['\''] := by
  unfold closeChar at h
  split_ifs at h with hclose
  cases h
  rw [List.take_add_one, ← List.head?_drop, hclose]
  rfl

/-- A character literal consists of one character or escape, and its closing mark. -/
theorem spells_charContent {code length : Nat} (h : charContent cs = .ok (code, length)) :
    ∃ body, cs.take length = body ++ ['\''] ∧ Spells '\'' body [code] := by
  cases cs with
  | nil => cases h
  | cons c cs =>
    rw [charContent] at h
    split_ifs at h with hline hescape hmark
    · split at h
      · cases h
      · rename_i code' size hcode
        obtain ⟨-, hescaped⟩ := escaped_of_escape hcode
        have hspells := Spells.escaped hescaped (.nil : Spells '\'' [] [])
        have htake : (c :: cs).take length = (c :: cs.take size) ++ ['\''] := take_of_closeChar h
        obtain ⟨rfl, -⟩ := of_closeChar h
        refine ⟨_, htake, ?_⟩
        rwa [List.append_nil, ← hescape] at hspells
    · have htake := take_of_closeChar h
      obtain ⟨rfl, -⟩ := of_closeChar h
      exact ⟨_, htake, .plain hmark hline hescape .nil⟩

/-- A block comment goes on up to the first `*/`. -/
theorem take_of_commentLength {length : Nat} (h : commentLength? cs = some length) :
    ∃ body, cs.take length = body ++ ['*', '/'] ∧ ¬ ['*', '/'] <:+: body ++ ['*'] := by
  induction cs generalizing length with
  | nil => cases h
  | cons c cs ih =>
    rw [commentLength?.eq_def] at h
    split at h
    · rename_i heq
      cases heq
    · rename_i heq
      cases heq
      cases h
      exact ⟨[], rfl, by decide⟩
    · rename_i c' cs' hopen heq
      cases heq
      obtain ⟨length', hlength', rfl⟩ := Option.map_eq_some_iff.1 h
      obtain ⟨body, htake, hbody⟩ := ih hlength'
      refine ⟨c :: body, by rw [List.take_succ_cons, htake, List.cons_append], ?_⟩
      rw [List.cons_append, List.infix_cons_iff]
      rintro (hbegins | hinfix)
      · obtain ⟨rfl, hnext⟩ := List.cons_prefix_cons.1 hbegins
        obtain _ | ⟨d, body⟩ := body
        · exact absurd hnext (by decide)
        · obtain ⟨rfl, -⟩ := List.cons_prefix_cons.1 hnext
          have hcs := List.take_append_drop length' cs
          rw [htake] at hcs
          exact hopen _ rfl hcs.symm
      · exact hbody hinfix

/-- What a piece is, when it is written so and the rest follows. -/
def Piece.Spans (piece : Piece) (slice rest : List Char) : Prop :=
  match piece with
  | .token kind text => ∀ pos, (⟨kind, text, pos⟩ : Token).Writes slice
  | _ => Gap slice rest

theorem cons_take_of_isPrefix {c : Char} {lexeme : List Char} (h : lexeme <+: c :: cs)
    (hne : lexeme ≠ []) : c :: cs.take (lexeme.length - 1) = lexeme := by
  obtain _ | ⟨d, lexeme⟩ := lexeme
  · exact absurd rfl hne
  · obtain ⟨rfl, hbegins⟩ := List.cons_prefix_cons.1 h
    rw [List.length_cons, Nat.add_sub_cancel, ← List.prefix_iff_eq_take.1 hbegins]

theorem of_lineComment {c : Char} {length : Nat} (h : readPiece c cs = .ok (.lineComment, length)) :
    (c = '/' ∧ cs.head? = some '/') ∧ cs.take length = cs.takeWhile (· ≠ '\n') ∧
      cs.drop length = cs.dropWhile (· ≠ '\n') := by
  unfold readPiece at h
  split_ifs at h with _ hslashes
  · cases h
  · cases h
    have htake := List.prefix_iff_eq_take.1 (cs.takeWhile_prefix (· ≠ '\n'))
    refine ⟨by simpa using hslashes, htake.symm, ?_⟩
    nth_rewrite 2 [← cs.takeWhile_append_dropWhile (p := (· ≠ '\n'))]
    exact List.drop_left
  · split at h <;> cases h
  · split at h <;> cases h
  · obtain ⟨_, _, heq⟩ := exists_of_map_eq_ok h
    cases heq
  · obtain ⟨_, _, heq⟩ := exists_of_map_eq_ok h
    cases heq
  · cases h
  all_goals
    dsimp only at h
    split at h <;> cases h

/-- Behind a line comment there is a newline or nothing. -/
theorem eq_newline_of_dropWhile (cs : List Char) {c : Char}
    (h : c ∈ (cs.dropWhile (· ≠ '\n')).head?) : c = '\n' := by
  have hstops := List.head?_dropWhile_not (· ≠ '\n') cs
  rw [Option.mem_def.1 h] at hstops
  simpa using hstops

theorem newline_notMem_takeWhile (cs : List Char) : '\n' ∉ cs.takeWhile (· ≠ '\n') := by
  intro h
  simpa using List.mem_takeWhile_imp h

theorem gap_lineComment {c : Char} {length : Nat}
    (h : readPiece c cs = .ok (.lineComment, length)) :
    Gap (c :: cs.take length) (cs.drop length) := by
  obtain ⟨⟨rfl, hnext⟩, htake, hdrop⟩ := of_lineComment h
  obtain ⟨cs, rfl⟩ := List.head?_eq_some_iff.1 hnext
  rw [List.takeWhile_cons_of_pos (by decide), ← List.append_nil (cs.takeWhile _)] at htake
  rw [htake, hdrop]
  refine .line (newline_notMem_takeWhile cs) (fun d hd => ?_) .nil
  exact eq_newline_of_dropWhile ('/' :: cs) hd

theorem gap_blockComment {c : Char} {length : Nat} (h : (c = '/' && cs.head? = some '*') = true)
    (hlength : commentLength? (cs.drop 1) = some length) :
    Gap (c :: cs.take (1 + length)) (cs.drop (1 + length)) := by
  simp only [Bool.and_eq_true, decide_eq_true_eq] at h
  obtain ⟨rfl, hnext⟩ := h
  obtain ⟨cs, rfl⟩ := List.head?_eq_some_iff.1 hnext
  obtain ⟨body, htake, hbody⟩ := take_of_commentLength hlength
  rw [Nat.add_comm, List.take_succ_cons, List.drop_one, List.tail_cons] at *
  rw [htake]
  exact .block hbody .nil

theorem ofChars_longOperator {c : Char} {op : Text}
    (h : Token.longOperators.find?
      (fun op => op.codes.isPrefixOf ((c :: cs.take 2).map Char.toNat)) = some op) :
    op = .ofChars (c :: cs.take (op.codes.length - 1)) := by
  have hne : ∀ op ∈ Token.longOperators, 1 ≤ op.codes.length := by decide
  have hpos := hne op (List.mem_of_find?_eq_some h)
  have hbegins : op.codes <+: (c :: cs.take 2).map Char.toNat :=
    List.isPrefixOf_iff_prefix.1 (List.find?_some (p := fun op : Text => op.codes.isPrefixOf _) h)
  have hle := hbegins.length_le
  have hcodes := List.prefix_iff_eq_take.1 hbegins
  obtain ⟨n, hn⟩ := Nat.exists_eq_add_of_le' hpos
  rw [hn] at hcodes hle ⊢
  simp only [List.length_map, List.length_cons, List.length_take] at hle
  rw [← List.map_take, List.take_succ_cons, List.take_take, Nat.min_eq_left (by omega)] at hcodes
  exact Text.ext hcodes

/-- Each piece is written in the characters that are counted for it. -/
theorem spans_readPiece {c : Char} {piece : Piece} {length : Nat}
    (h : readPiece c cs = .ok (piece, length)) :
    piece.Spans (c :: cs.take length) (cs.drop length) := by
  have hpiece := h
  unfold readPiece at h
  split_ifs at h with hblank hline hblock hnumber hstring hchar hword
  · cases h
    refine .blank ?_ .nil
    simpa [isBlank, or_assoc] using hblank
  · cases h
    exact gap_lineComment hpiece
  · split at h
    · rename_i hlength
      cases h
      exact gap_blockComment hblock hlength
    · cases h
  · split at h
    · rename_i kind lexeme hlexeme
      cases h
      intro pos
      rw [cons_take_of_isPrefix (number_isPrefix hlexeme) (number_ne_nil hnumber hlexeme)]
      obtain rfl | rfl := kind_number hlexeme <;> exact rfl
    · cases h
  · obtain ⟨⟨codes, length'⟩, hcontent, heq⟩ := exists_of_map_eq_ok h
    cases heq
    obtain ⟨body, rest, hcs, hspells, hlength⟩ := spells_stringContent hcontent
    rw [List.drop_zero] at hcs
    refine fun pos => ⟨body, ?_, hspells⟩
    rw [hstring, hcs, hlength, List.append_cons, List.take_left' (by simp; omega)]
  · obtain ⟨⟨code, length'⟩, hcontent, heq⟩ := exists_of_map_eq_ok h
    cases heq
    obtain ⟨body, htake, hspells⟩ := spells_charContent hcontent
    exact fun pos => ⟨body, by rw [hchar, htake], hspells, rfl⟩
  · cases h
    intro pos
    have hrest := List.prefix_iff_eq_take.1
      (cs.takeWhile_prefix fun c => isLetter c || c.isDigit)
    rw [← hrest]
    unfold Token.Writes
    split_ifs <;> exact rfl
  all_goals
    dsimp only at h
    split at h <;> cases h
  · rename_i hop
    exact fun pos => ofChars_longOperator hop
  · exact fun pos => rfl
  · rename_i hop
    exact fun pos => ofChars_longOperator hop

end Lexer

end WriteOnce
