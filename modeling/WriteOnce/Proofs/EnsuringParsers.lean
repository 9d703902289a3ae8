import Mathlib.Tactic.SplitIfs
import WriteOnce.Grammar.Basic

/-!
# What parsers ensure

What holds of a value that a parser returns and of the tokens that it leaves. A production is gone
through as it is written, from what is known of the tokens in front of it. A loop keeps what each of
its steps keeps; if each step takes a token, the last one was declined, since the tokens never run
out before.
-/

namespace WriteOnce

namespace Parser

variable {α β σ : Type} {s : TokenStream}

/-- Behind a parser that returns, the next one begins with what is left. -/
theorem bind_of_ok {p : Parser α} {a : α} {s₁ : TokenStream} (h : p s = .ok (a, s₁))
    (f : α → Parser β) : (p >>= f) s = f a s₁ := by
  change Except.bind (p s) _ = _
  rw [h]
  rfl

theorem discard_of_ok {p : Parser α} {a : α} {s₁ : TokenStream} (h : p s = .ok (a, s₁)) :
    discard p s = .ok ((), s₁) := by
  change Except.bind (p s) _ = _
  rw [h]
  rfl

theorem expect_of_sees {word : Text} (h : s.sees word = true) :
    expect word s = .ok (s.current, s.skip 1) := if_pos h

theorem expectIdent_of_isIdent (h : s.current.isIdent = true) :
    expectIdent s = .ok (s.current, s.skip 1) := if_pos h

theorem look_of_eq {view : TokenStream → α} {a : α} (h : view s = a) :
    look view s = .ok (a, s) := by
  rw [← h]
  rfl

theorem pos_eq (s : TokenStream) : pos s = .ok (s.current.pos, s) := rfl

theorem current_eq (s : TokenStream) : current s = .ok (s.current, s) := rfl

theorem accept_of_not_sees {word : Text} (h : s.sees word = false) :
    accept word s = .ok (false, s) := if_neg (Bool.eq_false_iff.1 h)

/-- Steps that each take a token, up to one that is declined. -/
inductive Runs (step : σ → Parser (Option σ)) : σ → TokenStream → σ → TokenStream → Prop
  | stop {a : σ} {s s' : TokenStream} (h : step a s = .ok (none, s')) : Runs step a s a s'
  | next {a b c : σ} {s s₁ s' : TokenStream} (h : step a s = .ok (some b, s₁))
    (hless : s₁.ahead.length < s.ahead.length) (hruns : Runs step b s₁ c s') : Runs step a s c s'

theorem Runs.iterate_eq {step : σ → Parser (Option σ)} {a b : σ} {s s' : TokenStream}
    (h : Runs step a s b s') : iterate step a s = .ok (b, s') := by
  have hloop : ∀ fuel : List Token, s.ahead.length ≤ fuel.length →
      iterate.loop step fuel a s = .ok (b, s') := by
    induction h with
    | stop h => exact fun fuel _ => iterate.loop_stop h fuel
    | next h hless _ ih =>
      rintro (_ | ⟨t, fuel⟩) hfuel
      · exact absurd (Nat.lt_of_lt_of_le hless hfuel) (Nat.not_lt_zero _)
      · rw [iterate.loop_next h]
        exact ih fuel (Nat.le_of_lt_succ (Nat.lt_of_lt_of_le hless hfuel))
  exact hloop s.ahead (Nat.le_refl _)

/-- Whenever the parser returns here, this holds of its value and of what it leaves. -/
def Ensures (p : Parser α) (s : TokenStream) (Q : α → TokenStream → Prop) : Prop :=
  ∀ a s', p s = .ok (a, s') → Q a s'

namespace Ensures

variable {p q : Parser α} {Q : α → TokenStream → Prop} {f : α → Parser β}
  {R : β → TokenStream → Prop}

theorem mono {Q' : α → TokenStream → Prop} (h : Ensures p s Q) (himp : ∀ a s', Q a s' → Q' a s') :
    Ensures p s Q' :=
  fun a s' hrun => himp a s' (h a s' hrun)

theorem pure {a : α} (h : Q a s) : Ensures (pure a) s Q := by
  rintro _ _ ⟨⟩
  exact h

theorem bind (h : Ensures p s fun a s₁ => Ensures (f a) s₁ R) : Ensures (p >>= f) s R := by
  intro b s₂ hrun
  change Except.bind (p s) _ = _ at hrun
  cases hp : p s with
  | error e =>
    rw [hp] at hrun
    cases hrun
  | ok found =>
    obtain ⟨a, s₁⟩ := found
    rw [hp] at hrun
    exact h a s₁ hp b s₂ hrun

theorem ite {c : Prop} [Decidable c] (h : c → Ensures p s Q) (h' : ¬c → Ensures q s Q) :
    Ensures (if c then p else q) s Q := by
  split_ifs with hc
  · exact h hc
  · exact h' hc

theorem fail {fault : ParseFault} : Ensures (fail fault) s Q := fun _ _ hrun => nomatch hrun

theorem failWith {fault : Text → ParseFault} : Ensures (failWith fault) s Q :=
  fun _ _ hrun => nomatch hrun

theorem failAt {pos : Pos} {fault : ParseFault} : Ensures (failAt pos fault) s Q :=
  fun _ _ hrun => nomatch hrun

/-- A look at the tokens, after which the parser goes on where it stands. -/
theorem looking {view : TokenStream → α} (h : Ensures (f (view s)) s R) :
    Ensures (look view >>= f) s R := h

/-- A look that tells two ways to go on apart. -/
theorem seeing {view : TokenStream → Bool} (h : view s = true → Ensures p s Q)
    (h' : view s = false → Ensures q s Q) :
    Ensures (look view >>= fun found => if found = true then p else q) s Q :=
  looking (.ite h fun hne => h' (Bool.eq_false_iff.2 hne))

theorem skip {count : Nat} {Q : Unit → TokenStream → Prop} (h : Q () (s.skip count)) :
    Ensures (skip count) s Q := by
  rintro _ _ ⟨⟩
  exact h

theorem take {Q : Token → TokenStream → Prop} (h : Q s.current (s.skip 1)) : Ensures take s Q := by
  rintro _ _ ⟨⟩
  exact h

theorem expect {word : Text} {Q : Token → TokenStream → Prop}
    (h : s.sees word = true → Q s.current (s.skip 1)) : Ensures (expect word) s Q := by
  intro t s' hrun
  rw [Parser.expect] at hrun
  split_ifs at hrun with hseen
  · cases hrun
    exact h hseen
  · cases hrun

theorem expectIdent {Q : Token → TokenStream → Prop}
    (h : s.current.isIdent = true → Q s.current (s.skip 1)) : Ensures expectIdent s Q := by
  intro t s' hrun
  rw [Parser.expectIdent] at hrun
  split_ifs at hrun with hident
  · cases hrun
    exact h hident
  · cases hrun

/-- A word or operator that is taken begins one way to go on, and another one is left otherwise. -/
theorem accepting {word : Text} (h : s.sees word = true → Ensures p (s.skip 1) Q)
    (h' : s.sees word = false → Ensures q s Q) :
    Ensures (accept word >>= fun found => if found = true then p else q) s Q := by
  refine bind fun found s₁ hrun => ?_
  rw [accept] at hrun
  split_ifs at hrun with hseen
  · cases hrun
    exact h hseen
  · cases hrun
    exact h' (Bool.eq_false_iff.2 hseen)

theorem discard (h : Ensures p s fun _ s' => Q' () s') : Ensures (discard p) s Q' :=
  bind (h.mono fun _ _ hq => pure hq)

/-- A word or operator that must stand in front, and what follows it. -/
theorem closing {word : Text} (h : s.sees word = true → Ensures p (s.skip 1) Q) :
    Ensures (Functor.discard (Parser.expect word) >>= fun _ => p) s Q :=
  bind (discard (expect h))

theorem after {word : Text} {Q : Option α → TokenStream → Prop}
    (h : s.sees word = true → Ensures p (s.skip 1) fun a s' => Q (some a) s')
    (h' : s.sees word = false → Q none s) : Ensures (after word p) s Q :=
  accepting (fun hseen => bind ((h hseen).mono fun _ _ hq => pure hq)) fun hseen => pure (h' hseen)

/-! ### Loops -/

section

variable {step : σ → Parser (Option σ)} {I : σ → TokenStream → Prop} {a : σ}

/-- A loop keeps what each step keeps. -/
theorem loop (hstep : ∀ a s, I a s → Ensures (step a) s fun x s' => I (x.getD a) s')
    (fuel : List Token) (ha : I a s) : Ensures (iterate.loop step fuel a) s I := by
  induction fuel generalizing a s with
  | nil => exact bind ((hstep a s ha).mono fun x s' hx => pure hx)
  | cons t fuel ih =>
    refine bind ((hstep a s ha).mono fun x s' hx => ?_)
    cases x with
    | none => exact pure hx
    | some b => exact ih hx

theorem iterate (ha : I a s)
    (hstep : ∀ a s, I a s → Ensures (step a) s fun x s' => I (x.getD a) s') :
    Ensures (iterate step a) s I :=
  loop hstep s.ahead ha

/-- A loop whose first step is not declined keeps what each step keeps from there on. -/
theorem iterate_first (hfirst : Ensures (step a) s fun x s' => ∃ b, x = some b ∧ I b s')
    (hstep : ∀ a s, I a s → Ensures (step a) s fun x s' => I (x.getD a) s') :
    Ensures (Parser.iterate step a) s I := by
  have hloop : ∀ fuel, Ensures (iterate.loop step fuel a) s I := by
    rintro (_ | ⟨t, fuel⟩)
    · refine bind (hfirst.mono fun x s' hx => ?_)
      obtain ⟨b, rfl, hb⟩ := hx
      exact pure hb
    · refine bind (hfirst.mono fun x s' hx => ?_)
      obtain ⟨b, rfl, hb⟩ := hx
      exact loop hstep fuel hb
  exact hloop s.ahead

/-- A loop each of whose steps takes a token ends with a step that is declined. -/
theorem iterate_declined (ha : I a s) (hstep : ∀ a s, I a s → Ensures (step a) s fun x s' =>
      ∀ b, x = some b → I b s' ∧ s'.ahead.length < s.ahead.length) :
    Ensures (Parser.iterate step a) s fun b s' => ∃ s₁, I b s₁ ∧ step b s₁ = .ok (none, s') := by
  have hloop : ∀ fuel a s, I a s → s.ahead.length ≤ fuel.length →
      Ensures (iterate.loop step fuel a) s fun b s' =>
        ∃ s₁, I b s₁ ∧ step b s₁ = .ok (none, s') := by
    intro fuel
    induction fuel with
    | nil =>
      refine fun a s ha hfuel => bind fun x s' hx => pure ?_
      cases x with
      | none => exact ⟨s, ha, hx⟩
      | some b =>
        have hless := (hstep a s ha _ _ hx b rfl).2
        exact absurd (Nat.lt_of_lt_of_le hless hfuel) (Nat.not_lt_zero _)
    | cons t fuel ih =>
      refine fun a s ha hfuel => bind fun x s' hx => ?_
      cases x with
      | none => exact pure ⟨s, ha, hx⟩
      | some b =>
        obtain ⟨hb, hless⟩ := hstep a s ha _ _ hx b rfl
        exact ih b s' hb (Nat.le_of_lt_succ (Nat.lt_of_lt_of_le hless hfuel))
  exact hloop s.ahead a s ha (Nat.le_refl _)

end

/-- The values of a loop are what each step gives. -/
theorem many {p : Parser (Option α)} {I : TokenStream → Prop} {R : α → Prop} (hs : I s)
    (hstep : ∀ s, I s → Ensures p s fun x s' => I s' ∧ ∀ a ∈ x, R a) :
    Ensures (many p) s fun as s' => I s' ∧ ∀ a ∈ as, R a := by
  have hloop : ∀ fuel s, I s → Ensures (many.loop p fuel) s fun as s' => I s' ∧ ∀ a ∈ as, R a := by
    intro fuel
    induction fuel with
    | nil =>
      exact fun s hs => bind ((hstep s hs).mono fun x s' hx => pure (by simpa using hx))
    | cons t fuel ih =>
      refine fun s hs => bind ((hstep s hs).mono fun x s' hx => ?_)
      cases x with
      | none => exact pure ⟨hx.1, fun a ha => nomatch ha⟩
      | some a =>
        refine bind ((ih s' hx.1).mono fun as s₂ has => pure ⟨has.1, ?_⟩)
        exact List.forall_mem_cons.2 ⟨hx.2 a rfl, has.2⟩
  exact hloop s.ahead s hs

/-- A loop each of whose values takes a token ends where no further one is found. -/
theorem many_declined {p : Parser (Option α)} {I : TokenStream → Prop} (hs : I s)
    (hstep : ∀ s, I s → Ensures p s fun x s' =>
      x.isSome = true → I s' ∧ s'.ahead.length < s.ahead.length) :
    Ensures (Parser.many p) s fun _ s' => ∃ s₁, I s₁ ∧ p s₁ = .ok (none, s') := by
  have hloop : ∀ fuel s, I s → s.ahead.length ≤ fuel.length →
      Ensures (many.loop p fuel) s fun _ s' => ∃ s₁, I s₁ ∧ p s₁ = .ok (none, s') := by
    intro fuel
    induction fuel with
    | nil =>
      refine fun s hs hfuel => bind fun x s' hx => pure ?_
      cases x with
      | none => exact ⟨s, hs, hx⟩
      | some a =>
        have hless := (hstep s hs _ _ hx rfl).2
        exact absurd (Nat.lt_of_lt_of_le hless hfuel) (Nat.not_lt_zero _)
    | cons t fuel ih =>
      refine fun s hs hfuel => bind fun x s' hx => ?_
      cases x with
      | none => exact pure ⟨s, hs, hx⟩
      | some a =>
        obtain ⟨hs', hless⟩ := hstep s hs _ _ hx rfl
        exact bind ((ih s' hs' (Nat.le_of_lt_succ (Nat.lt_of_lt_of_le hless hfuel))).mono
          fun _ _ hend => pure hend)
  exact hloop s.ahead s hs (Nat.le_refl _)

theorem separatedBy {separator : Text} {p : Parser α} {I : TokenStream → Prop} {R : α → Prop}
    (h : ∀ s, I s → Ensures p s fun a s' => I s' ∧ R a) (hs : I s)
    (hseparator : ∀ s, I s → s.sees separator = true → I (s.skip 1)) :
    Ensures (separatedBy separator p) s fun as s' => I s' ∧ as ≠ [] ∧ ∀ a ∈ as, R a := by
  refine bind ((h s hs).mono fun first s₁ hfirst => bind ?_)
  refine (many (R := R) hfirst.1 fun s hs => after (fun hseen => ?_) fun _ =>
    ⟨hs, fun a ha => nomatch ha⟩).mono fun others s₂ hothers => pure ⟨hothers.1, ?_, ?_⟩
  · exact (h _ (hseparator s hs hseen)).mono fun a s' ha => ⟨ha.1, by simpa using ha.2⟩
  · exact List.cons_ne_nil first others
  · exact List.forall_mem_cons.2 ⟨hfirst.2, hothers.2⟩

end Ensures

end Parser

end WriteOnce
