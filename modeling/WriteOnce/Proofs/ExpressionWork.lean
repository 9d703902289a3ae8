import WriteOnce.Proofs.Machines
import WriteOnce.FlowGraph.OfRoutine

/-!
# Expressions by a stack of work

An expression is drafted without recursion by a stack of small pieces of work. A
piece that waits for a condition takes the outcome of that condition from a second
stack. The stacks perform the recursive draft of the expression: a value leaves the
outcomes as they were, and a condition leaves one more.
-/

namespace WriteOnce

namespace FlowGraph

inductive Work
  | eval (e : Expr)
  | cond (e : Expr)
  | emit (kind : NodeKind) (pos : Pos)
  | write (pos : Pos) (v : Variable)
  | branch (pos : Pos)
  | not
  | and (right : Expr)
  | andDone (onFalse : Frontier)
  | or (right : Expr)
  | orDone (onTrue : Frontier)
  | merge
  | thenArm (onTrue onFalse : Expr)
  | elseArm (onFalse : Expr) (ends : Frontier)
  | join (ends : Frontier)

/-- What is left to do, topmost first, and the outcomes of conditions that are waited for. -/
structure Bench where
  work : List Work
  splits : List Split
  frontier : Frontier

def evalAll (es : List Expr) : List Work := es.map .eval

/-- What is evaluated in a target that is no variable. -/
def targetParts : Expr → List Expr
  | .field _ object _ => [object]
  | .index _ object position => [object, position]
  | _ => []

namespace Resolution

variable (r : Resolution)

def writeWork (pos : Pos) (target : Expr) (value : Option Expr) : List Work :=
  match r.target? target with
  | some v => evalAll value.toList ++ [.write pos v]
  | none => evalAll (targetParts target ++ value.toList)

/-- What there is to do for the value of an expression. -/
def evalWork : Expr → List Work
  | .literal .. | .name .. | .lambda .. => []
  | .field _ object _ | .methodRef _ object _ => evalAll [object]
  | .index _ object position => evalAll [object, position]
  | .call pos callee args => evalAll (callee :: args) ++ [.emit .call pos]
  | .newObject pos _ args | .newAnonymous pos _ args _ => evalAll args ++ [.emit .new pos]
  | .newArray pos _ sizes => evalAll sizes ++ [.emit .new pos]
  | .newArrayOf pos _ elementsPos elements =>
    evalAll [.arrayLit elementsPos elements] ++ [.emit .new pos]
  | .arrayLit _ elements => evalAll elements
  | .unary _ _ operand | .instanceOf _ operand _ | .cast _ _ operand => evalAll [operand]
  | .step pos _ _ target => r.writeWork pos target none
  | .binary pos op left right =>
    if op = .and || op = .or then [.cond (.binary pos op left right), .merge]
    else evalAll [left, right]
  | .conditional _ cond onTrue onFalse => [.cond cond, .thenArm onTrue onFalse]
  | .assign pos _ target value => r.writeWork pos target (some value)

end Resolution

/-- What there is to do for the outcome of a condition. -/
def condWork : Expr → List Work
  | .unary _ .not operand => [.cond operand, .not]
  | .binary _ .and left right => [.cond left, .and right]
  | .binary _ .or left right => [.cond left, .or right]
  | e => [.eval e, .branch e.pos]

/-- The outcome of a condition that is a literal. -/
def Split.ofLiteral? : Expr → Frontier → Option Split
  | .literal _ (.bool true), ends => some ⟨ends, []⟩
  | .literal _ (.bool false), ends => some ⟨[], ends⟩
  | _, _ => none

namespace Bench

def push (b : Bench) (work : List Work) : Bench := { b with work := work ++ b.work }

/-- Goes on with the last outcome, if there is one. -/
def pop (b : Bench) (use : Split → Bench → Bench) : Option (Drafting Bench) :=
  match b.splits with
  | [] => none
  | split :: splits => some (pure (use split { b with splits := splits }))

/-- Leaves the outcome of a condition. -/
def leave (b : Bench) (split : Split) : Bench := { b with splits := split :: b.splits }

def reach (b : Bench) (ends : Frontier) : Bench := { b with frontier := ends }

end Bench

variable (r : Resolution) (s : Surroundings)

def Work.perform : Work → Bench → Option (Drafting Bench)
  | .eval (.lambda pos _ _), b =>
    some do return b.reach (← step s .closure (some pos) [] (r.closureWrites pos) b.frontier)
  | .eval e, b => some (pure (b.push (r.evalWork e)))
  | .cond e, b =>
    match Split.ofLiteral? e b.frontier with
    | some split => some (pure (b.leave split))
    | none => some (pure (b.push (condWork e)))
  | .emit kind pos, b =>
    some do return b.reach (← step s kind (some pos) [] [] b.frontier)
  | .write pos v, b =>
    some do return b.reach (← step s .write (some pos) [] [v] b.frontier)
  | .branch pos, b => some do
    let id ← FlowGraph.emit s .branch (some pos) [] [] b.frontier
    return (b.reach [⟨id, .normal⟩]).leave ⟨[⟨id, .onTrue⟩], [⟨id, .onFalse⟩]⟩
  | .not, b => b.pop fun split b => b.leave split.swap
  | .and right, b => b.pop fun split b =>
    (b.reach split.onTrue).push [.cond right, .andDone split.onFalse]
  | .andDone onFalse, b => b.pop fun split b =>
    b.leave ⟨split.onTrue, onFalse ++ split.onFalse⟩
  | .or right, b => b.pop fun split b =>
    (b.reach split.onFalse).push [.cond right, .orDone split.onTrue]
  | .orDone onTrue, b => b.pop fun split b => b.leave ⟨onTrue ++ split.onTrue, split.onFalse⟩
  | .merge, b => b.pop fun split b => b.reach split.all
  | .thenArm onTrue onFalse, b => b.pop fun split b =>
    (b.reach split.onTrue).push [.eval onTrue, .elseArm onFalse split.onFalse]
  | .elseArm e ends, b => some (pure ((b.reach ends).push [.eval e, .join b.frontier]))
  | .join ends, b => some (pure (b.reach (ends ++ b.frontier)))

def Bench.next : Machine Bench := fun b =>
  match b.work with
  | [] => none
  | item :: work => item.perform r s { b with work := work }

/-- The stacks perform the draft of an expression, for its value and as a condition. -/
structure Evaluates (e : Expr) : Prop where
  eval : ∀ work splits ends d, (Bench.next r s).Performs ⟨.eval e :: work, splits, ends⟩ d
    (draftExpr r s false e ends) fun split b _ => b = ⟨work, splits, split.all⟩
  cond : ∀ work splits ends d, (Bench.next r s).Performs ⟨.cond e :: work, splits, ends⟩ d
    (draftExpr r s true e ends) fun split b _ => ∃ f, b = ⟨work, split :: splits, f⟩

variable {r s} {work : List Work} {splits : List Split} {ends : Frontier} {d : Draft}

/-! ## Values -/

@[simp] theorem settle_false (pos : Pos) (ends : Frontier) :
    settle s false pos ends = pure ⟨ends, []⟩ := rfl

@[simp] theorem Split.all_value (ends : Frontier) : Split.all ⟨ends, []⟩ = ends :=
  List.append_nil ends

theorem performs_settle (pos : Pos) : (Bench.next r s).Performs ⟨work, splits, ends⟩ d
    (settle s false pos ends) fun split b _ => b = ⟨work, splits, split.all⟩ :=
  .done (by rw [Split.all_value])

theorem performs_all {es : List Expr} (h : ∀ e ∈ es, Evaluates r s e) (work : List Work)
    (splits : List Split) (ends : Frontier) (d : Draft) : (Bench.next r s).Performs
      ⟨evalAll es ++ work, splits, ends⟩ d (draftExprs r s es ends)
      fun ends b _ => b = ⟨work, splits, ends⟩ := by
  induction es generalizing ends d with
  | nil => exact .done rfl
  | cons e es ih =>
    rw [draftExprs]
    refine ((h e List.mem_cons_self).eval _ _ _ _).bind fun split b d' _ hb => ?_
    subst hb
    exact ih (fun e' he' => h e' (List.mem_cons_of_mem _ he')) _ _

theorem draftExprs_append (es fs : List Expr) (ends : Frontier) :
    draftExprs r s (es ++ fs) ends = (do
      let ends ← draftExprs r s es ends
      draftExprs r s fs ends) := by
  induction es generalizing ends with
  | nil => simp [draftExprs]
  | cons e es ih => simp [draftExprs, ih]

/-- An expression that only a branch can decide. -/
def plain : Expr → Bool
  | .literal _ (.bool _) => false
  | .unary _ .not _ => false
  | .binary _ .and _ _ => false
  | .binary _ .or _ _ => false
  | _ => true

theorem draftExpr_true {e : Expr} (he : plain e = true) (ends : Frontier) :
    draftExpr r s true e ends = (do
      let split ← draftExpr r s false e ends
      settle s true e.pos split.all) := by
  cases e with
  | literal pos value => cases value <;> simp_all [draftExpr, plain, Expr.pos]
  | unary pos op operand => cases op <;> simp_all [draftExpr, plain, Expr.pos]
  | binary pos op left right => cases op <;> simp_all [draftExpr, plain, Expr.pos]
  | _ => simp [draftExpr, Expr.pos]

theorem next_cond_of_plain {e : Expr} (he : plain e = true) :
    Bench.next r s ⟨.cond e :: work, splits, ends⟩ =
      some (pure ⟨.eval e :: .branch e.pos :: work, splits, ends⟩) := by
  unfold plain at he
  split at he <;> simp_all [Bench.next, Work.perform, Split.ofLiteral?, condWork, Bench.push]

namespace Evaluates

theorem of_plain {e : Expr} (he : plain e = true)
    (heval : ∀ work splits ends d, (Bench.next r s).Performs ⟨.eval e :: work, splits, ends⟩ d
      (draftExpr r s false e ends) fun split b _ => b = ⟨work, splits, split.all⟩) :
    Evaluates r s e where
  eval := heval
  cond work splits ends d := by
    rw [draftExpr_true he]
    refine .move (next_cond_of_plain he) ((heval _ _ _ _).bind fun split b d' _ hb => ?_)
    subst hb
    exact .step rfl (.bind fun id d' _ => .done (.done ⟨_, rfl⟩))

/-- An expression whose operands are evaluated before something is done with them. -/
theorem of_operands {e : Expr} (he : plain e = true) (es : List Expr) (tail : List Work)
    (finish : Frontier → Drafting Frontier)
    (hwork : ∀ b, Work.perform r s (.eval e) b = some (pure (b.push (evalAll es ++ tail))))
    (hdraft : ∀ ends, draftExpr r s false e ends = (do
      let ends ← draftExprs r s es ends
      let ends ← finish ends
      settle s false e.pos ends))
    (hes : ∀ e ∈ es, Evaluates r s e)
    (hfinish : ∀ work splits ends d, (Bench.next r s).Performs ⟨tail ++ work, splits, ends⟩ d
      (finish ends) fun ends b _ => b = ⟨work, splits, ends⟩) : Evaluates r s e := by
  refine of_plain he fun work splits ends d => ?_
  rw [hdraft]
  refine .move (hwork _) ?_
  rw [Bench.push, List.append_assoc]
  refine (performs_all hes (tail ++ work) splits ends d).bind fun ends b d' _ hb => ?_
  subst hb
  refine (hfinish _ _ _ _).bind fun ends b d' _ hb => ?_
  subst hb
  exact performs_settle _

/-- An expression whose operands are all that there is to it. -/
theorem of_parts {e : Expr} (he : plain e = true) (es : List Expr)
    (hwork : ∀ b, Work.perform r s (.eval e) b = some (pure (b.push (evalAll es))))
    (hdraft : ∀ ends, draftExpr r s false e ends = (do
      let ends ← draftExprs r s es ends
      settle s false e.pos ends))
    (hes : ∀ e ∈ es, Evaluates r s e) : Evaluates r s e :=
  of_operands he es [] pure (by simpa using hwork) (by simpa using hdraft) hes
    fun _ _ _ _ => .done rfl

/-- An expression that is a node behind its operands. -/
theorem of_node {e : Expr} (he : plain e = true) (es : List Expr) {kind : NodeKind}
    (hwork : ∀ b, Work.perform r s (.eval e) b =
      some (pure (b.push (evalAll es ++ [.emit kind e.pos]))))
    (hdraft : ∀ ends, draftExpr r s false e ends = (do
      let ends ← draftExprs r s es ends
      let ends ← step s kind (some e.pos) [] [] ends
      settle s false e.pos ends))
    (hes : ∀ e ∈ es, Evaluates r s e) : Evaluates r s e :=
  of_operands he es _ _ hwork hdraft hes fun _ _ _ _ => .step rfl (.last fun _ _ => rfl)

theorem of_write {e target : Expr} (he : plain e = true) (value : Option Expr)
    (hwork : ∀ b, Work.perform r s (.eval e) b =
      some (pure (b.push (r.writeWork e.pos target value))))
    (hdraft : ∀ ends, draftExpr r s false e ends = (do
      let ends ← draftTarget r s target ends
      let ends ← draftOption r s value ends
      let ends ← draftWrite r s e.pos target ends
      settle s false e.pos ends))
    (htarget : ∀ e ∈ targetParts target, Evaluates r s e)
    (hvalue : ∀ e ∈ value, Evaluates r s e) : Evaluates r s e := by
  have hoption (ends : Frontier) :
      draftOption r s value ends = draftExprs r s value.toList ends := by
    cases value <;> simp [draftOption, draftExprs]
  have hparts (ends : Frontier) :
      draftTarget r s target ends = draftExprs r s (targetParts target) ends := by
    cases target <;> simp [draftTarget, draftExprs, targetParts]
  cases hv : r.target? target with
  | none =>
    refine of_parts he (targetParts target ++ value.toList) ?_ (fun ends => ?_) ?_
    · simpa [Resolution.writeWork, hv] using hwork
    · simp [hdraft, hoption, hparts, draftWrite, hv, draftExprs_append]
    · simpa [or_imp, forall_and] using ⟨htarget, hvalue⟩
  | some v =>
    have hname : targetParts target = [] := by
      cases target <;> simp_all [Resolution.target?, targetParts]
    refine of_operands he value.toList [.write e.pos v] (step s .write (some e.pos) [] [v]) ?_
      (fun ends => ?_) (by simpa using hvalue)
      fun _ _ _ _ => .step rfl (.last fun _ _ => rfl)
    · simpa [Resolution.writeWork, hv] using hwork
    · simp [hdraft, hoption, hparts, hname, draftWrite, hv, draftExprs]

theorem of_cond {e : Expr}
    (hwork : ∀ b, Work.perform r s (.eval e) b = some (pure (b.push [.cond e, .merge])))
    (hdraft : ∀ ends, draftExpr r s false e ends = draftExpr r s true e ends)
    (hcond : ∀ work splits ends d, (Bench.next r s).Performs ⟨.cond e :: work, splits, ends⟩ d
      (draftExpr r s true e ends) fun split b _ => ∃ f, b = ⟨work, split :: splits, f⟩) :
    Evaluates r s e where
  eval work splits ends d := by
    rw [hdraft, ← bind_pure (draftExpr r s true e ends)]
    refine .move (hwork _) ((hcond _ _ _ _).bind fun split b d' _ hb => ?_)
    obtain ⟨f, rfl⟩ := hb
    exact .move rfl (.done rfl)
  cond := hcond

theorem of_negation {pos : Pos} {operand : Expr} (h : Evaluates r s operand) :
    Evaluates r s (.unary pos .not operand) where
  eval work splits ends d := by
    rw [draftExpr]
    refine .move rfl ((h.eval _ _ _ _).bind fun split b d' _ hb => ?_)
    subst hb
    exact performs_settle pos
  cond work splits ends d := by
    rw [draftExpr]
    refine .move rfl ((h.cond _ _ _ _).bind fun split b d' _ hb => ?_)
    obtain ⟨f, rfl⟩ := hb
    exact .move rfl (.done ⟨f, rfl⟩)

/-- The second operand is only evaluated behind the first one's being true. -/
theorem conjunction {pos : Pos} {left right : Expr} (hleft : Evaluates r s left)
    (hright : Evaluates r s right) : Evaluates r s (.binary pos .and left right) := by
  refine of_cond (fun _ => rfl) (by simp [draftExpr]) fun work splits ends d => ?_
  rw [draftExpr]
  refine .move rfl ((hleft.cond _ _ _ _).bind fun first b d₁ _ hb => ?_)
  obtain ⟨f, rfl⟩ := hb
  refine .move rfl ((hright.cond _ _ _ _).bind fun second b d₂ _ hb => ?_)
  obtain ⟨f, rfl⟩ := hb
  exact .move rfl (.done ⟨f, rfl⟩)

/-- The second operand is only evaluated behind the first one's being false. -/
theorem disjunction {pos : Pos} {left right : Expr} (hleft : Evaluates r s left)
    (hright : Evaluates r s right) : Evaluates r s (.binary pos .or left right) := by
  refine of_cond (fun _ => rfl) (by simp [draftExpr]) fun work splits ends d => ?_
  rw [draftExpr]
  refine .move rfl ((hleft.cond _ _ _ _).bind fun first b d₁ _ hb => ?_)
  obtain ⟨f, rfl⟩ := hb
  refine .move rfl ((hright.cond _ _ _ _).bind fun second b d₂ _ hb => ?_)
  obtain ⟨f, rfl⟩ := hb
  exact .move rfl (.done ⟨f, rfl⟩)

/-- Both arms are built, each behind its outcome of the condition. -/
theorem conditional {pos : Pos} {cond onTrue onFalse : Expr} (hcond : Evaluates r s cond)
    (htrue : Evaluates r s onTrue) (hfalse : Evaluates r s onFalse) :
    Evaluates r s (.conditional pos cond onTrue onFalse) := by
  refine of_plain rfl fun work splits ends d => ?_
  rw [draftExpr]
  refine .move rfl ((hcond.cond _ _ _ _).bind fun split b d₁ _ hb => ?_)
  obtain ⟨f, rfl⟩ := hb
  refine .move rfl ((htrue.eval _ _ _ _).bind fun first b d₂ _ hb => ?_)
  subst hb
  refine .move rfl ((hfalse.eval _ _ _ _).bind fun second b d₃ _ hb => ?_)
  subst hb
  exact .move rfl (performs_settle pos)

end Evaluates

mutual

theorem evaluates : ∀ e, Evaluates r s e
  | .literal pos value => by
    have heval (work : List Work) (splits : List Split) (ends : Frontier) (d : Draft) :
        (Bench.next r s).Performs ⟨.eval (.literal pos value) :: work, splits, ends⟩ d
          (draftExpr r s false (.literal pos value) ends)
          fun split b _ => b = ⟨work, splits, split.all⟩ :=
      .move rfl (performs_settle pos)
    cases value with
    | bool value =>
      refine ⟨heval, fun work splits ends d => ?_⟩
      cases value <;> exact .move rfl (.done ⟨_, rfl⟩)
    | _ => exact .of_plain rfl heval
  | .name pos _ =>
    .of_parts rfl [] (fun _ => rfl) (by simp [draftExpr, draftExprs, Expr.pos]) (by simp)
  | .field _ operand _ | .instanceOf _ operand _ | .cast _ _ operand | .methodRef _ operand _ =>
    .of_parts rfl [operand] (fun _ => rfl) (by simp [draftExpr, draftExprs, Expr.pos])
      (by simpa using evaluates operand)
  | .index pos object position =>
    .of_parts rfl [object, position] (fun _ => rfl)
      (by simp [draftExpr, draftExprs, Expr.pos])
      (by simpa using ⟨evaluates object, evaluates position⟩)
  | .call pos callee args =>
    .of_node rfl (callee :: args) (fun _ => rfl)
      (by simp [draftExpr, draftExprs, Expr.pos])
      (by simpa using ⟨evaluates callee, evaluates_all args⟩)
  | .newObject _ _ args | .newAnonymous _ _ args _ | .newArray _ _ args =>
    .of_node rfl args (fun _ => rfl) (by simp [draftExpr, Expr.pos]) (evaluates_all args)
  | .newArrayOf pos _ elementsPos elements =>
    have helements : Evaluates r s (.arrayLit elementsPos elements) :=
      .of_parts rfl elements (fun _ => rfl) (by simp [draftExpr, Expr.pos])
        (evaluates_all elements)
    .of_node rfl [.arrayLit elementsPos elements] (fun _ => rfl)
      (by simp [draftExpr, draftExprs, Expr.pos]) (by simpa using helements)
  | .arrayLit pos elements =>
    .of_parts rfl elements (fun _ => rfl) (by simp [draftExpr, Expr.pos]) (evaluates_all elements)
  | .unary pos op operand => by
    have hoperand := evaluates operand
    by_cases hop : op = .not
    · subst hop
      exact .of_negation hoperand
    · refine .of_parts (by cases op <;> simp_all [plain]) [operand] (fun _ => rfl)
        (by simp [draftExpr, draftExprs, Expr.pos]) (by simpa using hoperand)
  | .step pos op before target =>
    .of_write rfl none (fun _ => rfl) (by simp [draftExpr, draftOption, Expr.pos])
      (evaluates_parts target) (by simp)
  | .binary pos op left right => by
    have hleft := evaluates left
    have hright := evaluates right
    cases op with
    | and => exact .conjunction hleft hright
    | or => exact .disjunction hleft hright
    | _ =>
      exact .of_parts rfl [left, right] (fun _ => rfl)
        (by simp [draftExpr, draftExprs, Expr.pos]) (by simpa using ⟨hleft, hright⟩)
  | .conditional pos cond onTrue onFalse =>
    .conditional (evaluates cond) (evaluates onTrue) (evaluates onFalse)
  | .assign pos op target value =>
    .of_write rfl (some value) (fun _ => rfl)
      (by simp [draftExpr, draftOption, Expr.pos]) (evaluates_parts target)
      (by simpa using evaluates value)
  | .lambda pos params body => .of_plain rfl fun work splits ends d => by
    rw [draftExpr]
    exact .step rfl (.bind fun ends d' _ => .done (performs_settle pos))

theorem evaluates_all : ∀ es : List Expr, ∀ e ∈ es, Evaluates r s e
  | [], _, h => by cases h
  | e :: es, e', h => by
    rcases List.mem_cons.1 h with he | h
    · exact he ▸ evaluates e
    · exact evaluates_all es e' h

theorem evaluates_parts : ∀ target : Expr, ∀ e ∈ targetParts target, Evaluates r s e
  | .field _ object _ => by simpa [targetParts] using evaluates object
  | .index _ object position => by
    simpa [targetParts] using ⟨evaluates object, evaluates position⟩
  | .name .. | .literal .. | .call .. | .newObject .. | .newAnonymous .. | .newArray ..
  | .newArrayOf .. | .arrayLit .. | .unary .. | .step .. | .binary .. | .instanceOf ..
  | .cast .. | .conditional .. | .assign .. | .lambda .. | .methodRef .. => by
    simp [targetParts]

end

end FlowGraph

end WriteOnce
