import WriteOnce.Proofs.Identifiers
import WriteOnce.Proofs.SourceSlices

/-!
# Respaced sources

The slices that the tokens of a source are written in are determined by the source. Written one
after the other with blanks between them, they are read as the same tokens again.
-/

namespace WriteOnce

open Lexer

/-! ## The slices of a source -/

theorem Pos.eq_nil_of_behind {text more : List Char} (h : behind (text ++ more) = behind text) :
    more = [] := by
  by_contra hne
  have hpast := (behind text).past_afterAll more
  obtain ⟨n, hn⟩ := Nat.exists_eq_add_one.2 (List.length_pos_iff.2 hne)
  rw [← behind_append, h, hn] at hpast
  exact hpast.ne rfl

/-- A place in a text tells how much of it is in front. -/
theorem Pos.gap_unique {before gap gap' rest rest' : List Char}
    (hplace : behind (before ++ gap) = behind (before ++ gap'))
    (h : gap ++ rest = gap' ++ rest') : gap = gap' := by
  rcases List.append_eq_append_iff.1 h with ⟨more, rfl, -⟩ | ⟨more, rfl, -⟩
  · rw [← List.append_assoc] at hplace
    rw [eq_nil_of_behind hplace.symm, List.append_nil]
  · rw [← List.append_assoc] at hplace
    rw [eq_nil_of_behind hplace, List.append_nil]

/-- A token is written in one slice of what follows at most. -/
theorem Token.Writes.unique {t : Token} {slice slice' rest rest' : List Char} (h : t.Writes slice)
    (h' : t.Writes slice') (heq : slice ++ rest = slice' ++ rest') : slice = slice' := by
  obtain ⟨kind, text, pos⟩ := t
  cases kind with
  | string =>
    obtain ⟨body, rfl, hspells⟩ := h
    obtain ⟨body', rfl, hspells'⟩ := h'
    have hread := stringContent_of_spells hspells 0 rest
    simp only [List.cons_append, List.append_assoc, List.nil_append, List.cons.injEq,
      true_and] at heq
    rw [heq, stringContent_of_spells hspells' 0 rest'] at hread
    have hlength : body'.length = body.length := by simpa using hread
    rw [(List.append_inj heq hlength.symm).1]
  | char =>
    obtain ⟨body, rfl, hspells, hone⟩ := h
    obtain ⟨body', rfl, hspells', -⟩ := h'
    obtain ⟨code, hcode⟩ := List.length_eq_one_iff.1 hone
    dsimp only at hcode hspells hspells'
    rw [hcode] at hspells hspells'
    have hread := charContent_of_spells hspells rest
    simp only [List.cons_append, List.append_assoc, List.nil_append, List.cons.injEq,
      true_and] at heq
    rw [heq, charContent_of_spells hspells' rest'] at hread
    have hlength : body'.length = body.length := by simpa using hread
    rw [(List.append_inj heq hlength.symm).1]
  | endOfInput => exact h.elim
  | _ => exact Text.ofChars_injective (h.symm.trans h')

theorem Laid.unique {before cs : List Char} {ts : List Token} {slices slices' : List (List Char)}
    (h : Laid before ts slices cs) (h' : Laid before ts slices' cs) : slices = slices' := by
  induction h generalizing slices' with
  | done => cases h'; rfl
  | @token before gap slice rest t ts slices _ _ hplace hwrites _ ih =>
    generalize hcs : gap ++ slice ++ rest = cs at h'
    cases h' with
    | @token _ gap' slice' rest' _ _ slices' _ _ hplace' hwrites' hrest' =>
      rw [List.append_assoc, List.append_assoc] at hcs
      obtain rfl := Pos.gap_unique (hplace.symm.trans hplace') hcs
      have hsame := List.append_cancel_left hcs
      obtain rfl := hwrites.unique hwrites' hsame
      obtain rfl := List.append_cancel_left hsame
      rw [ih hrest']

/-! ## Slices with blanks between them -/

/-- The slices one after the other, with a run of characters behind each of them. -/
def respaced (slices runs : List (List Char)) : List Char :=
  (List.zipWith (· ++ ·) slices runs).flatten

namespace Lexer

theorem exists_scan_blanks {run : List Char} (hrun : ∀ c ∈ run, isBlank c = true) (pos : Pos)
    (rest : List Char) : ∃ next, scan 0 pos (run ++ rest) = scan 0 next rest := by
  induction run generalizing pos with
  | nil => exact ⟨pos, rfl⟩
  | cons c run ih =>
    obtain ⟨hc, hrun⟩ := List.forall_mem_cons.1 hrun
    obtain ⟨next, hnext⟩ := ih hrun (Piece.blank.next pos [c])
    refine ⟨next, ?_⟩
    rw [List.cons_append, scan, readPiece, if_pos hc]
    exact hnext

theorem exists_scan_stays {kind : Token.Kind} {text : Text} {slice : List Char} {e : Char}
    (h : Stays kind text slice) (he : isBlank e = true) (rest : List Char) (pos : Pos) :
    ∃ next, scan 0 pos (slice ++ e :: rest) =
      (scan 0 next (e :: rest)).map fun s => ⟨⟨kind, text, pos⟩ :: s.ahead, s.stop⟩ := by
  obtain ⟨c, as, rfl, hagain⟩ := h
  rw [List.cons_append, scan, hagain e rest he]
  dsimp only
  rw [scan_skip, List.drop_left]
  exact ⟨_, rfl⟩

/-- The run lemma: the slices of tokens that stay are read as these tokens. -/
theorem exists_scan_respaced {ts : List Token} {slices runs : List (List Char)}
    (h : List.Forall₂ (fun t slice => Stays t.kind t.text slice) ts slices)
    (hlength : runs.length = ts.length)
    (hruns : ∀ run ∈ runs, run ≠ [] ∧ ∀ c ∈ run, isBlank c = true) (pos : Pos) :
    ∃ s, scan 0 pos (respaced slices runs) = .ok s ∧
      s.ahead.map (fun t => (t.typeName, t.text)) = ts.map fun t => (t.typeName, t.text) := by
  induction h generalizing runs pos with
  | nil => exact ⟨⟨[], pos⟩, by simp [respaced, scan], rfl⟩
  | @cons t slice ts slices hstays _ ih =>
    obtain _ | ⟨run, runs⟩ := runs
    · cases hlength
    · obtain ⟨⟨hne, hblank⟩, hothers⟩ := List.forall_mem_cons.1 hruns
      obtain ⟨e, run, rfl⟩ := List.exists_cons_of_ne_nil hne
      have hsplit : respaced (slice :: slices) ((e :: run) :: runs) =
          slice ++ e :: (run ++ respaced slices runs) := by simp [respaced]
      obtain ⟨next, hnext⟩ :=
        exists_scan_stays hstays (hblank e (.head _)) (run ++ respaced slices runs) pos
      obtain ⟨next', hnext'⟩ := exists_scan_blanks hblank next (respaced slices runs)
      obtain ⟨s, hs, hsame⟩ := ih (Nat.succ.inj hlength) hothers next'
      rw [hsplit, hnext, ← List.cons_append, hnext', hs]
      dsimp only [Except.map]
      refine ⟨_, rfl, ?_⟩
      rw [List.map_cons, List.map_cons, hsame]
      rfl

end Lexer

/-- Tokens are stable when their source is spaced anew. The slices of its tokens, strings and
characters with their quotation marks and escapes, are determined by the source. Whatever runs of
blanks are put behind them, none of them empty, the same types and texts of tokens are read. -/
theorem tokenize_respaced {source : List Char} {s : TokenStream} (h : tokenize source = .ok s) :
    (∃! slices, Laid [] s.ahead slices source) ∧
    ∀ slices runs, Laid [] s.ahead slices source → runs.length = s.ahead.length →
      (∀ run ∈ runs, run ≠ [] ∧ ∀ c ∈ run, c ∈ [' ', '\t', '\x0c', '\r', '\n']) →
      ∃ s', tokenize (respaced slices runs) = .ok s' ∧
        s'.toList.map (fun t => (t.typeName, t.text)) =
          s.toList.map fun t => (t.typeName, t.text) := by
  have hstart : Reached .start [] source := .of_eq rfl
  obtain ⟨slices, hlaid, hstays⟩ := laid_stays_scan hstart h
  refine ⟨⟨slices, hlaid, fun _ hlaid' => hlaid'.unique hlaid⟩, ?_⟩
  intro slices' runs hlaid' hlength hruns
  obtain rfl := hlaid'.unique hlaid
  have hblanks : ∀ run ∈ runs, run ≠ [] ∧ ∀ c ∈ run, isBlank c = true := by
    intro run hrun
    refine ⟨(hruns run hrun).1, fun c hc => ?_⟩
    have hall : ∀ c ∈ [' ', '\t', '\x0c', '\r', '\n'], isBlank c = true :=
      List.all_eq_true.1 (by decide)
    exact hall c ((hruns run hrun).2 c hc)
  obtain ⟨s', hs', hsame⟩ := exists_scan_respaced hstays hlength hblanks Pos.start
  refine ⟨s', hs', ?_⟩
  rw [TokenStream.toList, TokenStream.toList, List.map_append, List.map_append, hsame]
  rfl

/-- `a=1.;b>>=.5e1f/2+"\"x"/**/+'\n'.x` -/
def crowded : List Char := "a=1.;b>>=.5e1f/2+\"\\\"x\"/**/+'\\n'.x".toList

/-- Tokens that touch each other are read again with a blank and a new line between them. -/
theorem tokenize_respaced_crowded : ∃ s slices, tokenize crowded = .ok s ∧
    s.ahead.map Token.text = ["a", "=", "1.", ";", "b", ">", ">=", ".5e1f", "/", "2", "+", "\"x",
      "+", "\n", ".", "x"] ∧
    Laid [] s.ahead slices crowded ∧
    ∃ s', tokenize (respaced slices (List.replicate 16 [' ', '\n'])) = .ok s' ∧
      s'.toList.map (fun t => (t.typeName, t.text)) =
        s.toList.map fun t => (t.typeName, t.text) := by
  obtain ⟨s, hs, htexts⟩ := FlowGraph.exists_ok_of_any (x := tokenize crowded)
    (p := fun s => s.ahead.map Token.text = ["a", "=", "1.", ";", "b", ">", ">=", ".5e1f", "/", "2",
      "+", "\"x", "+", "\n", ".", "x"])
    (by decide +kernel)
  have htexts := of_decide_eq_true htexts
  have hlength : s.ahead.length = 16 := by simpa using congrArg List.length htexts
  obtain ⟨⟨slices, hlaid, -⟩, hagain⟩ := tokenize_respaced hs
  refine ⟨s, slices, hs, htexts, hlaid, hagain slices _ hlaid ?_ fun run hrun => ?_⟩
  · rw [hlength, List.length_replicate]
  · rw [List.eq_of_mem_replicate hrun]
    have hsubset : [' ', '\n'] ⊆ [' ', '\t', '\x0c', '\r', '\n'] := by decide
    exact ⟨by decide, fun c hc => hsubset hc⟩

end WriteOnce
