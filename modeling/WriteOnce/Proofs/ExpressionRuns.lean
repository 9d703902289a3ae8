import WriteOnce.Proofs.BuilderFrames
import WriteOnce.Proofs.Runs
import WriteOnce.Proofs.StrayJumps

/-!
# Runs of the work on an expression

The stack of work on an expression is plain recursion. From whatever state it begins it comes to an
end, it fails nowhere on the way, and it never waits for an outcome that is not there. What it
drafts, and where it leaves the frontier, is what recursion on the expression says.
-/

namespace WriteOnce

namespace FlowGraph

/-! ## Machines without a choice -/

namespace Machine

variable {σ α : Type} {next : Machine σ} {b : σ} {d d' : Draft} {c c' c'' : σ × Draft}
  {m : Drafting α} {K : α → σ → Draft → Prop} {x : α}

theorem rightUnique_steps : Relator.RightUnique next.Steps := by
  rintro c c' c'' ⟨rest, hnext, hrest⟩ ⟨rest', hnext', hrest'⟩
  obtain rfl := Option.some.inj (hnext.symm.trans hnext')
  exact Except.ok.inj (hrest.symm.trans hrest')

/-- A machine that comes to an end comes to it from every state on the way. -/
theorem Reaches.onward (h : next.Reaches c c') (hend : next c'.1 = none)
    (hway : next.Reaches c c'') : next.Reaches c'' c' := by
  apply onward_of_rightUnique rightUnique_steps h _ hway
  rintro d ⟨rest, hnext, -⟩
  cases hend.symm.trans hnext

theorem Performs.exists_of_ok (h : next.Performs b d m K) (hm : m d = .ok (x, d')) :
    ∃ b', next.Reaches (b, d) (b', d') ∧ K x b' d' := by
  unfold Performs at h
  rwa [hm] at h

end Machine

/-! ## Outcomes that are waited for -/

/-- The pieces of work that take an outcome from the stack. -/
def Work.pops : Work → Bool
  | .not | .and _ | .andDone _ | .or _ | .orDone _ | .merge | .thenArm .. => true
  | _ => false

variable {r : Resolution} {s : Surroundings}

theorem Bench.pop_eq_none_iff {b : Bench} {use : Split → Bench → Bench} :
    b.pop use = none ↔ b.splits = [] := by
  unfold pop
  cases b.splits <;> simp

/-- Nothing but a missing outcome holds the work up. -/
theorem Work.perform_eq_none_iff (item : Work) (b : Bench) :
    item.perform r s b = none ↔ item.pops = true ∧ b.splits = [] := by
  cases item with
  | eval e => cases e <;> simp [perform, pops]
  | cond e => cases h : Split.ofLiteral? e b.frontier <;> simp [perform, pops, h]
  | _ => simp [perform, pops, Bench.pop_eq_none_iff]

/-- A run from one state to another, at which there is no work left: from every state on the way
the run goes on to there, and where an outcome is waited for there is one. -/
structure Bench.RunsTo (r : Resolution) (s : Surroundings) (c c' : Bench × Draft) : Prop where
  done : c'.1.work = []
  onward : ∀ c₁, (next r s).Reaches c c₁ → (next r s).Reaches c₁ c'
  served : ∀ c₁, (next r s).Reaches c c₁ → ∀ item ∈ c₁.1.work.head?, item.pops = true →
    c₁.1.splits ≠ []

theorem Bench.runsTo_of_reaches {c c' : Bench × Draft} (hdone : c'.1.work = [])
    (h : (next r s).Reaches c c') : RunsTo r s c c' := by
  have hend : next r s c'.1 = none := by simp [next, hdone]
  refine ⟨hdone, fun c₁ hc₁ => h.onward hend hc₁, fun c₁ hc₁ item hitem hpops hsplits => ?_⟩
  obtain ⟨work, hwork⟩ := List.head?_eq_some_iff.1 hitem
  rcases (Machine.Reaches.onward h hend hc₁).cases_head with rfl | ⟨_, ⟨rest, hnext, -⟩, -⟩
  · rw [hdone] at hwork
    cases hwork
  · have hnone : item.perform r s { c₁.1 with work := work } = none :=
      (item.perform_eq_none_iff _).2 ⟨hpops, hsplits⟩
    simp only [next, hwork, hnone] at hnext
    cases hnext

/-! ## Conditions -/

/-- The evaluation of a condition, and where it leaves the frontier: behind its last branch, or
where that would stand if it were not for a literal. -/
def draftTest (r : Resolution) (s : Surroundings) : Expr → Frontier → Drafting (Split × Frontier)
  | .literal _ (.bool value), ends => return (if value then ⟨ends, []⟩ else ⟨[], ends⟩, ends)
  | .unary _ .not operand, ends => do
    let (split, rest) ← draftTest r s operand ends
    return (split.swap, rest)
  | .binary _ .and left right, ends => do
    let (first, _) ← draftTest r s left ends
    let (second, rest) ← draftTest r s right first.onTrue
    return (⟨second.onTrue, first.onFalse ++ second.onFalse⟩, rest)
  | .binary _ .or left right, ends => do
    let (first, _) ← draftTest r s left ends
    let (second, rest) ← draftTest r s right first.onFalse
    return (⟨first.onTrue ++ second.onTrue, second.onFalse⟩, rest)
  | e, ends => do
    let ends := (← draftExpr r s false e ends).all
    let id ← emit s .branch (some e.pos) [] [] ends
    return (⟨[⟨id, .onTrue⟩], [⟨id, .onFalse⟩]⟩, [⟨id, .normal⟩])

theorem draftTest_of_plain {e : Expr} (he : plain e = true) (ends : Frontier) :
    draftTest r s e ends = (do
      let ends := (← draftExpr r s false e ends).all
      let id ← emit s .branch (some e.pos) [] [] ends
      return (⟨[⟨id, .onTrue⟩], [⟨id, .onFalse⟩]⟩, [⟨id, .normal⟩])) := by
  unfold draftTest
  split <;> first | rfl | cases he

theorem plain_of_forall_ne {e : Expr}
    (hliteral : ∀ pos value, e = .literal pos (.bool value) → False)
    (hnot : ∀ pos operand, e = .unary pos .not operand → False)
    (hand : ∀ pos left right, e = .binary pos .and left right → False)
    (hor : ∀ pos left right, e = .binary pos .or left right → False) : plain e = true := by
  unfold plain
  split <;> simp_all

/-- But for the frontier that is left this is the evaluation as a test. -/
theorem fst_draftTest (e : Expr) (ends : Frontier) :
    Prod.fst <$> draftTest r s e ends = draftExpr r s true e ends := by
  induction e, ends using draftTest.induct with
  | case1 pos value ends => cases value <;> simp [draftTest, draftExpr]
  | case2 ends pos operand ih => simp [draftTest, draftExpr, ← ih]
  | case3 ends pos left right hleft hright => simp [draftTest, draftExpr, ← hleft, ← hright]
  | case4 ends pos left right hleft hright => simp [draftTest, draftExpr, ← hleft, ← hright]
  | case5 e ends hliteral hnot hand hor =>
    have he := plain_of_forall_ne hliteral hnot hand hor
    rw [draftTest_of_plain he, draftExpr_true he]
    simp [settle]

/-- The stacks perform a condition, and leave the frontier as recursion does. -/
theorem Bench.performs_test (e : Expr) (ends : Frontier) (work : List Work) (splits : List Split)
    (d : Draft) : (Bench.next r s).Performs ⟨.cond e :: work, splits, ends⟩ d
      (draftTest r s e ends) fun x b _ => b = ⟨work, x.1 :: splits, x.2⟩ := by
  induction e, ends using draftTest.induct generalizing work splits d with
  | case1 pos value ends => cases value <;> exact .move rfl (.done rfl)
  | case2 ends pos operand ih =>
    rw [draftTest]
    refine .move rfl ((ih _ _ _).bind fun x b d' _ hb => ?_)
    subst hb
    exact .move rfl (.done rfl)
  | case3 ends pos left right hleft hright =>
    rw [draftTest]
    refine .move rfl ((hleft _ _ _).bind fun first b d₁ _ hb => ?_)
    subst hb
    refine .move rfl ((hright _ _ _ _).bind fun second b d₂ _ hb => ?_)
    subst hb
    exact .move rfl (.done rfl)
  | case4 ends pos left right hleft hright =>
    rw [draftTest]
    refine .move rfl ((hleft _ _ _).bind fun first b d₁ _ hb => ?_)
    subst hb
    refine .move rfl ((hright _ _ _ _).bind fun second b d₂ _ hb => ?_)
    subst hb
    exact .move rfl (.done rfl)
  | case5 e ends hliteral hnot hand hor =>
    have he := plain_of_forall_ne hliteral hnot hand hor
    rw [draftTest_of_plain he]
    have hvalue := (evaluates (r := r) (s := s) e).eval (.branch e.pos :: work) splits ends d
    refine .move (next_cond_of_plain he) (hvalue.bind fun split b d' _ hb => ?_)
    subst hb
    exact .step rfl (.bind fun id d' _ => .done (.done rfl))

/-- A condition that is built, its outcome, and the frontier it leaves. -/
theorem performs_test {H : List (List Nat)} {F : List JumpFrame} {G : List Frame}
    {tasks : List Task} {o : Split} {labels : List Text} (e : Expr) (ends : Frontier) (d : Draft) :
    (Builder.next r).Performs ⟨.cond e :: tasks, o, ends, H, F, labels⟩ d
      (draftTest r ⟨H.head?, G⟩ e ends)
      fun x b _ => b = ⟨tasks, x.1, x.2, H, F, labels⟩ := by
  rw [← bind_pure (draftTest _ _ _ _)]
  refine (performs_run (Bench.performs_test e ends [] [] d)).bind fun x b d' _ hb => ?_
  obtain ⟨_, rfl, rfl⟩ := hb
  exact .move rfl (.done rfl)

/-! ## Runs from any state -/

theorem exists_draftExpr_eq_ok (r : Resolution) (s : Surroundings) (test : Bool) (e : Expr)
    (ends : Frontier) (d : Draft) :
    ∃ split d', draftExpr r s test e ends d = .ok (split, d') := by
  have hfails := fails_draftExpr (P := False) r s test e ends d
  cases h : draftExpr r s test e ends d with
  | ok x => exact ⟨x.1, x.2, rfl⟩
  | error fault =>
    rw [h] at hfails
    exact hfails.1.elim

theorem exists_draftTest_eq_ok {e : Expr} {ends : Frontier} {d d' : Draft} {split : Split}
    (h : draftExpr r s true e ends d = .ok (split, d')) :
    ∃ rest, draftTest r s e ends d = .ok ((split, rest), d') := by
  rw [← fst_draftTest, map_eq_pure_bind] at h
  obtain ⟨⟨split, rest⟩, d', htest, h⟩ := bind_eq_ok.1 h
  cases pure_eq_ok.1 h
  exact ⟨rest, htest⟩

/-- From every state the work on an expression comes to its end, and on the way it fails nowhere
and waits for no outcome that is not there. As a value it leaves no outcome behind and as a
condition exactly one. The nodes, the edges, the frontier and the outcome are what recursion on the
expression drafts from that state. -/
theorem Bench.expressions_run (r : Resolution) (H : List (List Nat)) (G : List Frame) (e : Expr)
    (ends : Frontier) (d : Draft) :
    (∃ split d', draftExpr r ⟨H.head?, G⟩ false e ends d = .ok (split, d') ∧
      RunsTo r ⟨H.head?, G⟩ (⟨[.eval e], [], ends⟩, d) (⟨[], [], split.all⟩, d') ∧
      ∀ tasks o F labels, (Builder.next r).Reaches
        (⟨.expr e :: tasks, o, ends, H, F, labels⟩, d)
        (⟨tasks, o, split.all, H, F, labels⟩, d')) ∧
    ∃ split rest d', draftExpr r ⟨H.head?, G⟩ true e ends d = .ok (split, d') ∧
      draftTest r ⟨H.head?, G⟩ e ends d = .ok ((split, rest), d') ∧
      RunsTo r ⟨H.head?, G⟩ (⟨[.cond e], [], ends⟩, d) (⟨[], [split], rest⟩, d') ∧
      ∀ tasks o F labels, (Builder.next r).Reaches
        (⟨.cond e :: tasks, o, ends, H, F, labels⟩, d)
        (⟨tasks, split, rest, H, F, labels⟩, d') := by
  constructor
  · obtain ⟨split, d', hm⟩ := exists_draftExpr_eq_ok r ⟨H.head?, G⟩ false e ends d
    refine ⟨split, d', hm, ?_, fun tasks o F labels => ?_⟩
    · obtain ⟨_, hrun, rfl⟩ := ((evaluates e).eval [] [] ends d).exists_of_ok hm
      exact runsTo_of_reaches rfl hrun
    · obtain ⟨_, hrun, rfl⟩ := (performs_expr e ends d).exists_of_ok hm
      exact hrun
  · obtain ⟨split, d', hm⟩ := exists_draftExpr_eq_ok r ⟨H.head?, G⟩ true e ends d
    obtain ⟨rest, htest⟩ := exists_draftTest_eq_ok hm
    refine ⟨split, rest, d', hm, htest, ?_, fun tasks o F labels => ?_⟩
    · obtain ⟨_, hrun, rfl⟩ := (Bench.performs_test e ends [] [] d).exists_of_ok htest
      exact runsTo_of_reaches rfl hrun
    · obtain ⟨_, hrun, rfl⟩ := (FlowGraph.performs_test e ends d).exists_of_ok htest
      exact hrun

end FlowGraph

end WriteOnce
