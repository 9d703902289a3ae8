import Mathlib.Logic.Relation

/-!
# Runs without a choice

Where a state has at most one next state, a run that comes to an end comes to it
from every state on the way.
-/

namespace WriteOnce

variable {σ : Type} {a b c : σ}

/-- Of two states that come from the same one, the end is where the other one goes on to. -/
theorem onward_of_rightUnique {r : σ → σ → Prop} (hr : Relator.RightUnique r)
    (hb : Relation.ReflTransGen r a b) (hend : ∀ d, ¬ r b d) (hc : Relation.ReflTransGen r a c) :
    Relation.ReflTransGen r c b := by
  rcases Relation.ReflTransGen.total_of_right_unique hr hb hc with hback | hon
  · rcases hback.cases_head with rfl | ⟨d, hd, -⟩
    · exact .refl
    · exact absurd hd (hend d)
  · exact hon

/-- From the one state to the other in finitely many steps. -/
abbrev StepsTo (step? : σ → Option σ) : σ → σ → Prop :=
  Relation.ReflTransGen fun a b => step? a = some b

/-- However far a run from the first state has come, it goes on to the second one and stops. -/
structure EndsIn (step? : σ → Option σ) (a b : σ) : Prop where
  stops : step? b = none
  onward : ∀ c, StepsTo step? a c → StepsTo step? c b

theorem StepsTo.ends {step? : σ → Option σ} (h : StepsTo step? a b) (hb : step? b = none) :
    EndsIn step? a b := by
  have hunique : Relator.RightUnique fun a b => step? a = some b := by
    intro a b c hb hc
    exact Option.some.inj (hb.symm.trans hc)
  refine ⟨hb, fun c hc => onward_of_rightUnique hunique h ?_ hc⟩
  intro d hd
  cases hb.symm.trans hd

end WriteOnce
