import Mathlib.Data.List.Nodup
import WriteOnce.Proofs.ParallelPrograms
import WriteOnce.Proofs.TokenOrder

/-!
# Parsed sources

What parsing has to do with the places of tokens: everything that was parsed declares its
variables at different places, and sources with the same tokens are parsed alike.
-/

namespace WriteOnce

open WriteOnce.Parser

variable {φ : Pos → Pos} {s : TokenStream}

theorem keepsArrows_id (ts : List Token) : Lookahead.KeepsArrows id ts := fun _ _ _ _ _ _ => rfl

variable {α : Type} {view : α → Tree} {p : Grammar → Parser α} {depth : Nat}

/-- A parser that reads the same tree wherever the tokens stand and whatever is quoted in them. -/
def SteadyParser (view : α → Tree) (p : Grammar → Parser α) : Prop :=
  ∀ {ρ : Recast} {whole : TokenStream} (depth : Nat), Readable ρ whole →
    Follows ρ whole whole (p (.ofDepth depth)) (p (.ofDepth depth)) (Reads ρ view whole)

theorem steady_program : SteadyParser Program.tree Grammar.program := fun depth hw =>
  Grammar.follows_program (steady_ofDepth hw depth)

theorem steady_wholeBlock : SteadyParser Block.tree Grammar.wholeBlock := fun depth hw =>
  Grammar.follows_wholeBlock (steady_ofDepth hw depth)

/-- What was parsed is made of code points and uses no token twice. -/
theorem SteadyParser.uses_of_tokens (hp : SteadyParser view p) {source : List Char} {a : α}
    (htokens : tokenize source = .ok s) (h : parseWith p depth source = .ok a) :
    (view a).Coded ∧ ∀ e, (view a).uses.count e ≤ s.uses.count e := by
  have hreadable : Readable (.still id) s :=
    ⟨(inOrder_tokenize htokens).coded, keepsArrows_id s.ahead⟩
  have hrun := hp depth hreadable (.refl s)
  unfold parseWith at h
  rw [htokens] at h
  dsimp only at h
  split at h
  · cases h
  · rename_i result s₁ hresult
    cases h
    rw [hresult] at hrun
    obtain ⟨b, -, -, hyields⟩ := hrun.of_ok
    exact ⟨hyields.coded, fun e => Nat.le_of_add_right_le (hyields.uses e)⟩

/-- What was parsed is made of code points and declares its variables at tokens of their own, which
are their names. -/
theorem SteadyParser.of_tokens (hp : SteadyParser view p) {source : List Char} {a : α}
    (htokens : tokenize source = .ok s) (h : parseWith p depth source = .ok a) :
    (view a).Coded ∧ (view a).declared.Subperm s.names := by
  obtain ⟨hcoded, huses⟩ := hp.uses_of_tokens htokens h
  refine ⟨hcoded, List.subperm_ext_iff.2 fun ⟨pos, name⟩ _ => ?_⟩
  rw [TokenStream.count_names]
  exact ((view a).count_declared pos name).trans (huses (pos, .name name))

/-- What was parsed is made of code points. -/
theorem SteadyParser.coded (hp : SteadyParser view p) {source : List Char} {a : α}
    (h : parseWith p depth source = .ok a) : (view a).Coded := by
  cases htokens : tokenize source with
  | error e =>
    unfold parseWith at h
    rw [htokens] at h
    cases h
  | ok s => exact (hp.of_tokens htokens h).1

variable (depth) in
/-- On the same tokens at other places, both parses give the same tree up to its places, or fail at
the same token. -/
theorem SteadyParser.parallel (hp : SteadyParser view p) {source source' : List Char}
    (h : tokenize source = .ok s) (h' : tokenize source' = .ok (s.move φ))
    (harrows : Lookahead.KeepsArrows φ s.ahead) :
    (∃ a b, parseWith p depth source = .ok a ∧ parseWith p depth source' = .ok b ∧
      view b = (view a).move φ) ∨
    (∃ fault pos, parseWith p depth source = .error (.grammar ⟨fault, pos⟩) ∧
      parseWith p depth source' = .error (.grammar ⟨fault, φ pos⟩) ∧ pos ∈ s.allPlaces) := by
  have hreadable : Readable (.still φ) s := ⟨(inOrder_tokenize h).coded, harrows⟩
  have hrun := hp depth hreadable (.refl s)
  rw [s.recast_still] at hrun
  unfold parseWith
  rw [h, h']
  dsimp only
  generalize p (.ofDepth depth) s = x, p (.ofDepth depth) (s.move φ) = y at hrun
  cases hrun with
  | error hpos hfault =>
    rw [hfault rfl]
    exact .inr ⟨_, _, rfl, rfl, hpos⟩
  | ok hok => exact .inl ⟨_, _, rfl, rfl, hok.2.moved.trans (Tree.recast_still φ _)⟩

end WriteOnce
