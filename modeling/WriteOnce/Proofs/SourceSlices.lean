import WriteOnce.Proofs.PathsOfRoutines
import WriteOnce.Proofs.StablePieces

/-!
# Tokens as slices of a source

A source consists of the slices that its tokens are written in, with gaps in front of and behind
them. Each token is placed where its slice begins.
-/

namespace WriteOnce

/-! ## Places in a text -/

/-- The place behind a text: on the line with the number of its newlines, counted from one, and in
the column behind the characters that follow the last of them. -/
def Pos.behind (text : List Char) : Pos :=
  ⟨1 + text.count '\n', 1 + (text.reverse.takeWhile (· ≠ '\n')).length⟩

namespace Pos

theorem after_newline (pos : Pos) : pos.after '\n' = ⟨pos.line + 1, 1⟩ := if_pos rfl

theorem behind_append_singleton (text : List Char) (c : Char) :
    behind (text ++ [c]) = (behind text).after c := by
  unfold behind after
  by_cases hc : c = '\n'
  · simp [hc, Nat.add_assoc]
  · simp [hc]
    omega

theorem behind_append (text more : List Char) :
    behind (text ++ more) = (behind text).afterAll more := by
  induction more generalizing text with
  | nil => simp [afterAll]
  | cons c more ih =>
    rw [List.append_cons, ih, behind_append_singleton]
    rfl

end Pos

/-! ## Tokens in a text -/

/-- Behind a text, tokens are written one after the other in slices of what follows, with gaps in
front of and behind them. -/
inductive Laid : List Char → List Token → List (List Char) → List Char → Prop
  | done {before rest : List Char} (hgap : Gap rest []) : Laid before [] [] rest
  | token {before gap slice rest : List Char} {t : Token} {ts : List Token}
    {slices : List (List Char)} (hgap : Gap gap (slice ++ rest)) (hslice : slice ≠ [])
    (hplace : t.pos = .behind (before ++ gap)) (hwrites : t.Writes slice)
    (hrest : Laid (before ++ gap ++ slice) ts slices rest) :
    Laid before (t :: ts) (slice :: slices) (gap ++ slice ++ rest)

theorem Laid.write {before slice rest : List Char} {t : Token} {ts : List Token}
    {slices : List (List Char)} (hslice : slice ≠ []) (hplace : t.pos = .behind before)
    (hwrites : t.Writes slice) (hrest : Laid (before ++ slice) ts slices rest) :
    Laid before (t :: ts) (slice :: slices) (slice ++ rest) := by
  refine .token (.nil : Gap [] (slice ++ rest)) hslice ?_ hwrites ?_
  · rw [List.append_nil, hplace]
  · rwa [List.append_nil]

theorem Laid.pass {before gap rest : List Char} {ts : List Token} {slices : List (List Char)}
    (h : Laid (before ++ gap) ts slices rest) (hgap : Gap gap rest) :
    Laid before ts slices (gap ++ rest) := by
  cases h with
  | done hlast =>
    rw [← List.append_nil rest] at hgap
    exact .done (hgap.append hlast)
  | token hgap' hslice hplace hwrites hrest =>
    simp only [List.append_assoc] at hgap hplace hrest ⊢
    rw [← List.append_assoc, ← List.append_assoc]
    refine .token (hgap.append hgap') hslice ?_ hwrites ?_
    · exact hplace
    · simpa using hrest

/-! ## Reading on -/

namespace Lexer

variable {cs : List Char}

theorem scan_skip (skip : Nat) (pos : Pos) (cs : List Char) :
    scan skip pos cs = scan 0 pos (cs.drop skip) := by
  induction cs generalizing skip with
  | nil => cases skip <;> rfl
  | cons c cs ih =>
    cases skip with
    | zero => rfl
    | succ skip => exact ih skip

/-- The position is that behind a text, or a line comment is left out of its column and nothing
but a newline can follow. -/
structure Reached (pos : Pos) (before rest : List Char) : Prop where
  line : pos.line = (Pos.behind before).line
  col : ∀ c ∈ rest.head?, c ≠ '\n' → pos.col = (Pos.behind before).col

namespace Reached

variable {pos : Pos} {before : List Char} {c : Char}

theorem eq_behind (h : Reached pos before (c :: cs)) (hc : c ≠ '\n') : pos = .behind before :=
  Pos.mk.injEq .. ▸ ⟨h.line, h.col c rfl hc⟩

theorem of_eq {rest : List Char} (h : pos = .behind before) : Reached pos before rest :=
  ⟨congrArg Pos.line h, fun _ _ _ => congrArg Pos.col h⟩

/-- Each piece leads from its position to that of the rest. -/
theorem next {piece : Piece} {length : Nat} (h : Reached pos before (c :: cs))
    (hpiece : readPiece c cs = .ok (piece, length)) :
    Reached (piece.next pos (c :: cs.take length)) (before ++ c :: cs.take length)
      (cs.drop length) := by
  by_cases hc : c = '\n'
  · subst hc
    cases hpiece
    apply of_eq
    rw [List.take_zero, Pos.behind_append_singleton, Pos.after_newline, ← h.line]
    exact pos.after_newline
  · by_cases hcomment : piece = .lineComment
    · subst hcomment
      obtain ⟨-, htake, hdrop⟩ := of_lineComment hpiece
      constructor
      · have hnone : (c :: cs.take length).count '\n' = 0 := by
          rw [List.count_eq_zero, List.mem_cons, htake]
          exact not_or.2 ⟨Ne.symm hc, newline_notMem_takeWhile cs⟩
        calc pos.line
          _ = 1 + before.count '\n' := h.line
          _ = 1 + (before ++ c :: cs.take length).count '\n' := by
            rw [List.count_append, hnone, Nat.add_zero]
      · intro d hd hne
        rw [hdrop] at hd
        exact absurd (eq_newline_of_dropWhile cs hd) hne
    · apply of_eq
      rw [Pos.behind_append, ← h.eq_behind hc]
      cases piece <;> first | rfl | exact absurd rfl hcomment

end Reached

/-- The tokens that are read at a position are written there, and each of them is read again from
its slice if a blank follows. -/
theorem laid_stays_scan {pos : Pos} {before : List Char} {s : TokenStream}
    (hpos : Reached pos before cs) (h : scan 0 pos cs = .ok s) :
    ∃ slices, Laid before s.ahead slices cs ∧
      List.Forall₂ (fun t slice => Stays t.kind t.text slice) s.ahead slices := by
  induction hn : cs.length using Nat.strong_induction_on generalizing cs pos before s with
  | _ n ih =>
    cases cs with
    | nil =>
      cases h
      exact ⟨[], .done .nil, .nil⟩
    | cons c cs =>
      rw [scan] at h
      split at h
      · cases h
      · rename_i piece length hpiece
        have hspans := spans_readPiece hpiece
        have hnext := hpos.next hpiece
        have hsplit : c :: cs = c :: cs.take length ++ cs.drop length := by simp
        have hless : (cs.drop length).length < n := by
          rw [List.length_drop, ← hn, List.length_cons]
          omega
        rw [hsplit]
        cases piece with
        | token kind text =>
          obtain ⟨rest, hrest, rfl⟩ := exists_of_map_eq_ok h
          rw [scan_skip] at hrest
          obtain ⟨slices, hlaid, hstays⟩ := ih _ hless hnext hrest rfl
          have hc : c ≠ '\n' := by
            rintro rfl
            cases hpiece
          exact ⟨_, .write (List.cons_ne_nil c _) (hpos.eq_behind hc) (hspans pos) hlaid,
            .cons (stays_readPiece hpiece) hstays⟩
        | _ =>
          dsimp only at h
          rw [scan_skip] at h
          obtain ⟨slices, hlaid, hstays⟩ := ih _ hless hnext h rfl
          exact ⟨slices, hlaid.pass hspans, hstays⟩

theorem laid_scan {pos : Pos} {before : List Char} {s : TokenStream} (hpos : Reached pos before cs)
    (h : scan 0 pos cs = .ok s) : ∃ slices, Laid before s.ahead slices cs := by
  obtain ⟨slices, hlaid, -⟩ := laid_stays_scan hpos h
  exact ⟨slices, hlaid⟩

end Lexer

/-- The tokens of a source are written in slices of it, one after the other, each of them at its
place. There is nothing else in the source but blanks and complete comments. -/
theorem laid_tokenize {source : List Char} {s : TokenStream} (h : tokenize source = .ok s) :
    ∃ slices, Laid [] s.ahead slices source :=
  Lexer.laid_scan (.of_eq rfl) h

/-- `x = 0x1FL;` between comments, and `s = "\u0041\n" + 'q' >> 1.5e-3f;` in the line behind. -/
def commented : List Char :=
  "/* a\n * b */ x = 0x1FL; // c\n  s = \"\\u0041\\n\" + 'q' >> 1.5e-3f;".toList

theorem laid_tokenize_commented : ∃ s slices, tokenize commented = .ok s ∧
    s.ahead.map Token.pos = [⟨2, 9⟩, ⟨2, 11⟩, ⟨2, 13⟩, ⟨2, 18⟩, ⟨3, 3⟩, ⟨3, 5⟩, ⟨3, 7⟩, ⟨3, 18⟩,
      ⟨3, 20⟩, ⟨3, 24⟩, ⟨3, 25⟩, ⟨3, 27⟩, ⟨3, 34⟩] ∧
    Laid [] s.ahead slices commented := by
  obtain ⟨s, hs, hplaces⟩ := FlowGraph.exists_ok_of_any (x := tokenize commented)
    (p := fun s => s.ahead.map Token.pos = [⟨2, 9⟩, ⟨2, 11⟩, ⟨2, 13⟩, ⟨2, 18⟩, ⟨3, 3⟩, ⟨3, 5⟩,
      ⟨3, 7⟩, ⟨3, 18⟩, ⟨3, 20⟩, ⟨3, 24⟩, ⟨3, 25⟩, ⟨3, 27⟩, ⟨3, 34⟩])
    (by decide +kernel)
  obtain ⟨slices, hlaid⟩ := laid_tokenize hs
  exact ⟨s, slices, hs, of_decide_eq_true hplaces, hlaid⟩

end WriteOnce
