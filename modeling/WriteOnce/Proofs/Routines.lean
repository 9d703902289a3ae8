import WriteOnce.Proofs.TryStatements

/-!
# Drafts of routines

The draft of every statement implements the statement, by induction on the syntax.
The surroundings change on the way: the body of a `try` has other handlers, and a
cleanup block is drafted in the surroundings of its `try` wherever it is copied to.
-/

namespace WriteOnce

open Execution Behavior

namespace FlowGraph

variable {rules : Rules} {r : Resolution}

theorem runClauses_eq (r : Resolution) (rules : Rules) (guarded : Bool)
    (clauses : List CatchClause) : runClauses r rules guarded clauses =
      clauseBehaviors r clauses fun clause => runBlock r rules guarded clause.body := by
  induction clauses with
  | nil => rfl
  | cons clause clauses ih =>
    obtain ⟨pos, param, types, body⟩ := clause
    exact congrArg (_ :: ·) ih

mutual

theorem Represents.block {s : Surroundings} {ctx : Context} (hs : Represents rules s ctx) :
    (b : Block) →
    Implements rules ctx (draftBlock r s b) (runBlock r rules s.guarded b)
  | ⟨_, stmts⟩ => hs.stmts stmts

theorem Represents.stmts {s : Surroundings} {ctx : Context} (hs : Represents rules s ctx) :
    (stmts : List Stmt) →
    Implements rules ctx (draftStmts r s stmts) (runAll r rules s.guarded stmts)
  | [] => .pass
  | stmt :: stmts => (hs.stmt [] stmt).seqFlow (hs.stmts stmts)

/-- The draft of a statement implements the statement. -/
theorem Represents.stmt {s : Surroundings} {ctx : Context} (hs : Represents rules s ctx)
    (labels : List Text) : (stmt : Stmt) →
    Implements rules ctx (draftStmt r s labels stmt) (run r rules s.guarded labels stmt)
  | .block body => hs.block body
  | .localDecl decl => (hs.declarators decl.declarators).through
  | .expr _ value => (hs.expr false value).effect
  | .ifElse _ cond onTrue onFalse =>
    (hs.expr true cond).ifElse (hs.stmt [] onTrue) (hs.branch onFalse)
  | .whileLoop pos cond body =>
    hs.whileLoop pos (hs.expr true cond) ((hs.inside (.loop labels)).stmt [] body)
  | .doLoop pos body cond =>
    hs.doLoop pos (hs.expr true cond) ((hs.inside (.loop labels)).stmt [] body)
  | .forLoop pos init cond update body =>
    (hs.forInit init).seqEnds <|
      hs.forLoop pos (hs.condition cond) ((hs.inside (.loop labels)).stmt [] body)
        (hs.exprs update)
  | .forEach pos param iterable body =>
    (hs.expr false iterable).seqSplit <|
      hs.forEach pos
        ((hs.inside (.loop labels)).step (some param.pos) rfl (Bool.or_false _) (.inr rfl)
          (List.append_nil _))
        ((hs.inside (.loop labels)).stmt [] body)
  | .switch pos selector groups =>
    (hs.expr false selector).seqSplit <|
      hs.switch pos (groups.any (·.isDefault)) ((hs.inside (.switch labels)).groups groups)
  | .tryCatch _ body clauses none => by
    rw [run, runClauses_eq]
    exact hs.tryCatch (fun hregion hguarded => hguarded ▸ hregion.block body)
      (D := fun s => draftClauses r s clauses) (hs.clauses clauses)
  | .tryCatch _ body clauses (some cleanup) => by
    rw [run, runClauses_eq]
    exact hs.tryFinally (fun hregion hguarded => hguarded ▸ hregion.block body)
      (D := fun s => draftClauses r s clauses)
      (fun hinner hguarded => hguarded ▸ hinner.clauses clauses)
      ((hs.block cleanup).risk fun h => (Bool.and_eq_true_iff.1 h).1) cleanup.pos
  | .returnValue pos value => (hs.option value).seqEnds (hs.returns pos value.isSome)
  | .throwValue pos value => (hs.expr false value).seqSplit (hs.throws pos)
  | .breakTo pos label => hs.jump pos .breakWord label
  | .continueTo pos label => hs.jump pos .continueWord label
  | .labeled pos label body => by
    by_cases h : takesLabels body = true
    · have hdraft : draftStmt r s labels (.labeled pos label body) =
          draftStmt r s (labels ++ [label]) body := by
        funext ends
        rw [draftStmt, if_pos h]
      rw [hdraft, run, if_pos h]
      exact hs.stmt (labels ++ [label]) body
    · have hdraft : draftStmt r s labels (.labeled pos label body) = fun ends => (do
          let flow ← draftStmt r (s.inside (.block (labels ++ [label]))) [] body ends
          return ⟨flow.next ++ flow.breaks s.depth, flow.passing s.depth⟩) := by
        funext ends
        rw [draftStmt, if_neg h]
      rw [hdraft, run, if_neg h]
      exact hs.labeled ((hs.inside (.block (labels ++ [label]))).stmt [] body)
  | .empty _ => .pass
  | .localClass .. => .pass

theorem Represents.branch {s : Surroundings} {ctx : Context} (hs : Represents rules s ctx) :
    (stmt : Option Stmt) →
    Implements rules ctx (draftBranch r s stmt) (runOption r rules s.guarded stmt)
  | none => .pass
  | some stmt => hs.stmt [] stmt

theorem Represents.groups {s : Surroundings} {ctx : Context} (hs : Represents rules s ctx) :
    (groups : List SwitchGroup) →
    ImplementsGroups rules ctx (fun test ends => draftGroups r s test groups ends)
      (runGroups r rules s.guarded groups) (enter r rules s.guarded groups)
  | [] => .nil
  | ⟨_, _, _, body⟩ :: groups => .cons (hs.stmts body) (hs.groups groups)

theorem Represents.clauses {s : Surroundings} {ctx : Context} (hs : Represents rules s ctx) :
    (clauses : List CatchClause) →
    ImplementsClauses rules ctx clauses (draftClauses r s clauses)
      fun clause => runBlock r rules s.guarded clause.body
  | [] => .nil
  | ⟨_, _, _, body⟩ :: clauses =>
    .cons (hs.block body) (hs.clauses clauses) fun _ _ => rfl

end

/-! ## The whole graph -/

theorem represents_outermost : Represents rules .outermost ⟨[exceptionExitId], []⟩ :=
  ⟨rfl, .nil⟩

theorem leads_outermost {i : Nat} :
    Context.Leads ⟨[exceptionExitId], []⟩ i ↔ i = exceptionExitId ∨ i = exitId := by
  simp [Context.Leads, Guard.Leads]

theorem implements_draftBody (body : LambdaBody) :
    Implements rules ⟨[exceptionExitId], []⟩ (draftBody r body) (runBody r rules body) := by
  cases body with
  | block body => exact represents_outermost.block body
  | expr body => exact (represents_outermost.expr false body).effect

def entryNode (routine : Routine) : Node :=
  ⟨entryId, .entry, some routine.site.pos, routine.params.map fun v => ⟨v, true⟩, []⟩

def exitNode : Node := ⟨exitId, .exit, none, [], []⟩

def exceptionExitNode : Node := ⟨exceptionExitId, .exceptionExit, none, [], []⟩

/-- The draft of the three nodes with which every graph begins. -/
def Draft.opened (routine : Routine) : Draft :=
  ⟨3, [exceptionExitNode, exitNode, entryNode routine], []⟩

theorem Draft.tidy_opened (routine : Routine) : (Draft.opened routine).Tidy := by
  constructor
  · rfl
  · intro e he
    cases he
  · intro n hn
    right
    simp only [Draft.opened, List.mem_cons, List.not_mem_nil, or_false] at hn
    rcases hn with rfl | rfl | rfl <;> rfl

/-- The three steps in which the graph of a routine is drafted: the nodes that every graph has, the
body, and the edges to the exit from what falls out of the body. -/
structure Drawn (r : Resolution) (routine : Routine) (d₁ d : Draft) (flow : Flow) : Prop where
  body : draftBody r routine.body [⟨entryId, .normal⟩] (.opened routine) = .ok (flow, d₁)
  closing : d = d₁.link (flow.next.map fun e => ⟨e.source, exitId, e.kind⟩)

/-- Behind the first three nodes, the graph of a routine is a draft of its body. -/
theorem draftRoutine_eq_ok {routine : Routine} {d : Draft}
    (h : draftRoutine r routine ⟨0, [], []⟩ = .ok ((), d)) :
    ∃ flow d₁, Drawn r routine d₁ d flow := by
  obtain ⟨entry, _, hentry, h⟩ := bind_eq_ok.1 h
  cases hentry
  obtain ⟨_, _, hexit, h⟩ := bind_eq_ok.1 h
  cases hexit
  obtain ⟨_, _, hexceptionExit, h⟩ := bind_eq_ok.1 h
  cases hexceptionExit
  obtain ⟨flow, d₁, hbody, h⟩ := bind_eq_ok.1 h
  cases (tie_eq flow.next exitId d₁).symm.trans h
  exact ⟨flow, d₁, hbody, rfl⟩

theorem ofRoutine_eq_ok {routine : Routine} {g : FlowGraph} (h : ofRoutine r routine = .ok g) :
    ∃ d, draftRoutine r routine ⟨0, [], []⟩ = .ok ((), d) ∧ g = ofDraft routine.label d := by
  unfold ofRoutine at h
  cases hdraft : draftRoutine r routine ⟨0, [], []⟩ with
  | error e =>
    rw [hdraft] at h
    cases h
  | ok p =>
    obtain ⟨u, d⟩ := p
    rw [hdraft] at h
    cases h
    exact ⟨d, rfl, rfl⟩

namespace Drawn

variable {routine : Routine} {d₁ d : Draft} {flow : Flow}

theorem draws (h : Drawn r routine d₁ d flow) (rules : Rules) :
    Draws rules ⟨[exceptionExitId], []⟩
      (Starts ⟨[exceptionExitId], []⟩ (runBody r rules routine.body) [⟨entryId, .normal⟩])
      (.opened routine) d₁ (exits flow) := by
  refine implements_draftBody routine.body _ _ _ _ h.body (Draft.tidy_opened routine) ?_ ?_
  · simp [Draft.opened, entryId]
  · intro i hi
    rcases leads_outermost.1 hi with rfl | rfl
    · simp [Draft.opened, exceptionExitId]
    · simp [Draft.opened, exitId]

theorem grows (h : Drawn r routine d₁ d flow) : (Draft.opened routine).Grows d := by
  have hdraws := h.draws ⟨false, false⟩
  apply hdraws.grows.trans
  rw [h.closing]
  apply hdraws.grows.after.link
  intro e he
  obtain ⟨loose, hloose, rfl⟩ := List.mem_map.1 he
  exact ⟨hdraws.below.onTrue loose hloose, hdraws.inside exitId (.inr (.inl rfl))⟩

end Drawn

end FlowGraph

end WriteOnce
