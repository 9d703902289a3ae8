import WriteOnce.FlowGraph.Draft
import WriteOnce.FlowGraph.Reach
import WriteOnce.Scope.Collection

/-!
# The flow graph of a routine

The graph follows the code by recursion on the syntax. Conditions split the
frontier in two: `&&`, `||`, `!` and the literals decide without a branch of their
own. The cleanup block of a `try` is drafted once for each way out of its region.
-/

namespace WriteOnce

namespace FlowGraph

/-- What the names and declarations of a routine stand for, and how often a lambda writes
variables from outside: once, or twice for any larger number. -/
structure Resolution where
  denoted : Pos → Option Variable
  declared : Pos → Option Variable
  summary : Pos → List (Variable × Nat)

namespace Resolution

/-- The variable that a target denotes, if it is a name that denotes one. -/
def target? (r : Resolution) : Expr → Option Variable
  | .name pos _ => r.denoted pos
  | _ => none

def binding (r : Resolution) (pos : Pos) (hasValue : Bool) : List Binding :=
  (r.declared pos).toList.map fun v => ⟨v, hasValue⟩

def closureWrites (r : Resolution) (pos : Pos) : List Variable :=
  (r.summary pos).flatMap fun (v, count) => List.replicate count v

end Resolution

/-- A frontier split by the outcome of a condition. Where only the value of an expression matters
the outcomes are taken together again. -/
structure Split where
  onTrue : Frontier
  onFalse : Frontier

namespace Split

def all (s : Split) : Frontier := s.onTrue ++ s.onFalse

def swap (s : Split) : Split := ⟨s.onFalse, s.onTrue⟩

end Split

/-- Splits the frontier behind an expression: at a branch, if the expression is a test. -/
def settle (s : Surroundings) (test : Bool) (pos : Pos) (ends : Frontier) : Drafting Split := do
  if test then
    let id ← emit s .branch (some pos) [] [] ends
    return ⟨[⟨id, .onTrue⟩], [⟨id, .onFalse⟩]⟩
  else
    return ⟨ends, []⟩

/-- The write to a target, if a variable is written there. -/
def draftWrite (r : Resolution) (s : Surroundings) (pos : Pos) (target : Expr)
    (ends : Frontier) : Drafting Frontier :=
  match r.target? target with
  | some v => step s .write (some pos) [] [v] ends
  | none => return ends

mutual

/-- The evaluation of an expression, as a test or for its value. -/
def draftExpr (r : Resolution) (s : Surroundings) (test : Bool) :
    Expr → Frontier → Drafting Split
  | .literal pos value, ends =>
    match test, value with
    | true, .bool true => return ⟨ends, []⟩
    | true, .bool false => return ⟨[], ends⟩
    | _, _ => settle s test pos ends
  | .name pos _, ends => settle s test pos ends
  | .field pos object _, ends => do
    let ends := (← draftExpr r s false object ends).all
    settle s test pos ends
  | .index pos object position, ends => do
    let ends := (← draftExpr r s false object ends).all
    let ends := (← draftExpr r s false position ends).all
    settle s test pos ends
  | .call pos callee args, ends => do
    let ends := (← draftExpr r s false callee ends).all
    let ends ← draftExprs r s args ends
    let ends ← step s .call (some pos) [] [] ends
    settle s test pos ends
  | .newObject pos _ args, ends => do
    let ends ← draftExprs r s args ends
    let ends ← step s .new (some pos) [] [] ends
    settle s test pos ends
  | .newAnonymous pos _ args _, ends => do
    let ends ← draftExprs r s args ends
    let ends ← step s .new (some pos) [] [] ends
    settle s test pos ends
  | .newArray pos _ sizes, ends => do
    let ends ← draftExprs r s sizes ends
    let ends ← step s .new (some pos) [] [] ends
    settle s test pos ends
  | .newArrayOf pos _ _ elements, ends => do
    let ends ← draftExprs r s elements ends
    let ends ← step s .new (some pos) [] [] ends
    settle s test pos ends
  | .arrayLit pos elements, ends => do
    let ends ← draftExprs r s elements ends
    settle s test pos ends
  | .unary pos op operand, ends => do
    if test && op = .not then
      return (← draftExpr r s true operand ends).swap
    else
      let ends := (← draftExpr r s false operand ends).all
      settle s test pos ends
  | .step pos _ _ target, ends => do
    let ends ← draftTarget r s target ends
    let ends ← draftWrite r s pos target ends
    settle s test pos ends
  | .binary pos op left right, ends => do
    match op with
    | .and =>
      let first ← draftExpr r s true left ends
      let second ← draftExpr r s true right first.onTrue
      return ⟨second.onTrue, first.onFalse ++ second.onFalse⟩
    | .or =>
      let first ← draftExpr r s true left ends
      let second ← draftExpr r s true right first.onFalse
      return ⟨first.onTrue ++ second.onTrue, second.onFalse⟩
    | _ =>
      let ends := (← draftExpr r s false left ends).all
      let ends := (← draftExpr r s false right ends).all
      settle s test pos ends
  | .instanceOf pos operand _, ends => do
    let ends := (← draftExpr r s false operand ends).all
    settle s test pos ends
  | .cast pos _ operand, ends => do
    let ends := (← draftExpr r s false operand ends).all
    settle s test pos ends
  | .conditional pos cond onTrue onFalse, ends => do
    let split ← draftExpr r s true cond ends
    let first := (← draftExpr r s false onTrue split.onTrue).all
    let second := (← draftExpr r s false onFalse split.onFalse).all
    settle s test pos (first ++ second)
  | .assign pos _ target value, ends => do
    let ends ← draftTarget r s target ends
    let ends := (← draftExpr r s false value ends).all
    let ends ← draftWrite r s pos target ends
    settle s test pos ends
  | .lambda pos _ _, ends => do
    let ends ← step s .closure (some pos) [] (r.closureWrites pos) ends
    settle s test pos ends
  | .methodRef pos object _, ends => do
    let ends := (← draftExpr r s false object ends).all
    settle s test pos ends

/-- What is evaluated in a target before it is written. -/
def draftTarget (r : Resolution) (s : Surroundings) : Expr → Frontier → Drafting Frontier
  | .field _ object _, ends => do return (← draftExpr r s false object ends).all
  | .index _ object position, ends => do
    let ends := (← draftExpr r s false object ends).all
    return (← draftExpr r s false position ends).all
  | _, ends => return ends

def draftExprs (r : Resolution) (s : Surroundings) : List Expr → Frontier → Drafting Frontier
  | [], ends => return ends
  | e :: es, ends => do
    let ends := (← draftExpr r s false e ends).all
    draftExprs r s es ends

end

def draftOption (r : Resolution) (s : Surroundings) : Option Expr → Frontier → Drafting Frontier
  | none, ends => return ends
  | some e, ends => do return (← draftExpr r s false e ends).all

/-- A missing condition always holds. -/
def draftCondition (r : Resolution) (s : Surroundings) : Option Expr → Frontier → Drafting Split
  | none, ends => return ⟨ends, []⟩
  | some e, ends => draftExpr r s true e ends

/-- A local is known to the collection of the body that it stands in. -/
def expectDeclared (r : Resolution) (d : Declarator) : Drafting Unit :=
  if (r.declared d.pos).isSome then return () else throw ⟨.undeclaredLocal d.name, d.pos⟩

/-- A local is bound behind its initial value. -/
def draftDeclarators (r : Resolution) (s : Surroundings) :
    List Declarator → Frontier → Drafting Frontier
  | [], ends => return ends
  | d :: ds, ends => do
    expectDeclared r d
    let ends ← draftOption r s d.init ends
    let ends ← step s .declare (some d.pos) (r.binding d.pos d.init.isSome) [] ends
    draftDeclarators r s ds ends

def draftForInit (r : Resolution) (s : Surroundings) : ForInit → Frontier → Drafting Frontier
  | .decl decl, ends => draftDeclarators r s decl.declarators ends
  | .exprs values, ends => draftExprs r s values ends

/-- A `return`, which runs the cleanup blocks around it and leaves by the exit. -/
def draftReturn (s : Surroundings) (pos : Pos) (ends : Frontier) : Drafting Flow := do
  let ends ← step s .returnValue (some pos) [] [] ends
  let flow ← draftAll (cleanups s.frames) ends
  tie flow.next exitId
  return ⟨[], flow.jumps⟩

/-- The branches of a statement come together, unless neither falls through. -/
def draftJoin (s : Surroundings) (pos : Pos) (flow : Flow) : Drafting Flow := do
  if flow.next.isEmpty then return flow
  else return ⟨← step s .join (some pos) [] [] flow.next, flow.jumps⟩

/-- Statements that hand the labels in front of them to the construct that they are. -/
def takesLabels : Stmt → Bool
  | .whileLoop .. | .doLoop .. | .forLoop .. | .forEach .. | .switch .. | .labeled .. => true
  | _ => false

/-- An exception goes on behind a cleanup block that falls through. -/
def draftRethrow (s : Surroundings) (ends : Frontier) : Drafting Unit := do
  if ends.isEmpty then return ()
  else discard (emit s .throwValue none [] [] ends)

/-- The nodes at which handlers begin. -/
def addHandlers (r : Resolution) (clauses : List CatchClause) : Drafting (List Nat) :=
  clauses.mapM fun clause =>
    addNode .handler (some clause.pos) (r.binding clause.param.pos true) []

mutual

def draftBlock (r : Resolution) (s : Surroundings) : Block → Frontier → Drafting Flow
  | ⟨_, stmts⟩, ends => draftStmts r s stmts ends

def draftStmts (r : Resolution) (s : Surroundings) : List Stmt → Frontier → Drafting Flow
  | [], ends => return .through ends
  | stmt :: stmts, ends => do
    let first ← draftStmt r s [] stmt ends
    let others ← draftStmts r s stmts first.next
    return ⟨others.next, first.jumps ++ others.jumps⟩

/-- `labels` are those in front of the statement, outermost first. -/
def draftStmt (r : Resolution) (s : Surroundings) (labels : List Text) :
    Stmt → Frontier → Drafting Flow
  | .block body, ends => draftBlock r s body ends
  | .localDecl decl, ends => do return .through (← draftDeclarators r s decl.declarators ends)
  | .expr _ value, ends => do return .through (← draftExpr r s false value ends).all
  | .ifElse pos cond onTrue onFalse, ends => do
    let split ← draftExpr r s true cond ends
    let first ← draftStmt r s [] onTrue split.onTrue
    let second ← draftBranch r s onFalse split.onFalse
    draftJoin s pos (first ++ second)
  | .whileLoop pos cond body, ends => do
    let head ← emit s .loop (some pos) [] [] ends
    let split ← draftExpr r s true cond [⟨head, .normal⟩]
    let flow ← draftStmt r (s.inside (.loop labels)) [] body split.onTrue
    tieAs .continueOn (flow.continues s.depth) head
    tieAs .loopBack flow.next head
    return ⟨split.onFalse ++ flow.breaks s.depth, flow.passing s.depth⟩
  | .doLoop pos body cond, ends => do
    let head ← emit s .loop (some pos) [] [] ends
    let flow ← draftStmt r (s.inside (.loop labels)) [] body [⟨head, .normal⟩]
    let split ← draftExpr r s true cond (flow.next ++ flow.continues s.depth)
    tieAs .loopBack split.onTrue head
    return ⟨split.onFalse ++ flow.breaks s.depth, flow.passing s.depth⟩
  | .forLoop pos init cond update body, ends => do
    let ends ← draftForInit r s init ends
    let head ← emit s .loop (some pos) [] [] ends
    let split ← draftCondition r s cond [⟨head, .normal⟩]
    let flow ← draftStmt r (s.inside (.loop labels)) [] body split.onTrue
    let ends ← draftExprs r s update (flow.next ++ flow.continues s.depth)
    tieAs .loopBack ends head
    return ⟨split.onFalse ++ flow.breaks s.depth, flow.passing s.depth⟩
  | .forEach pos param iterable body, ends => do
    let ends := (← draftExpr r s false iterable ends).all
    let head ← emit s .loop (some pos) [] [] ends
    let test ← emit s .branch (some pos) [] [] [⟨head, .normal⟩]
    let ends ← step s .bind (some param.pos) (r.binding param.pos true) [] [⟨test, .onTrue⟩]
    let flow ← draftStmt r (s.inside (.loop labels)) [] body ends
    tieAs .continueOn (flow.continues s.depth) head
    tieAs .loopBack flow.next head
    return ⟨⟨test, .onFalse⟩ :: flow.breaks s.depth, flow.passing s.depth⟩
  | .switch pos selector groups, ends => do
    let ends := (← draftExpr r s false selector ends).all
    let test ← emit s .switch (some pos) [] [] ends
    let flow ← draftGroups r (s.inside (.switch labels)) test groups []
    let skipped : Frontier := if groups.any (·.isDefault) then [] else [⟨test, .onFalse⟩]
    return ⟨flow.next ++ (skipped ++ flow.breaks s.depth), flow.passing s.depth⟩
  | .tryCatch pos body clauses none, ends => do
    let handlers ← addHandlers r clauses
    let region := s.handling (handlers ++ s.escapes)
    let ends ← step region .tryBody (some pos) [] [] ends
    let first ← draftBlock r region body ends
    let others ← draftClauses r s clauses handlers
    return first ++ others
  -- An exception that no handler takes runs the cleanup block from `escape` on and goes further.
  | .tryCatch pos body clauses (some cleanup), ends => do
    let escape ← addNode .join (some cleanup.pos) [] []
    let handlers ← addHandlers r clauses
    let inner := s.inside (.cleanup fun ends => draftBlock r s cleanup ends)
    let region := inner.handling (handlers ++ [escape])
    let ends ← step region .tryBody (some pos) [] [] ends
    let first ← draftBlock r region body ends
    let others ← draftClauses r (inner.handling [escape]) clauses handlers
    let flow := first ++ others
    let after ←
      if flow.next.isEmpty then pure Flow.stopped else draftBlock r s cleanup flow.next
    let escaped ← draftBlock r s cleanup [⟨escape, .normal⟩]
    draftRethrow s escaped.next
    return ⟨after.next, flow.jumps ++ (after.jumps ++ escaped.jumps)⟩
  | .returnValue pos value, ends => do draftReturn s pos (← draftOption r s value ends)
  | .throwValue pos value, ends => do
    let ends := (← draftExpr r s false value ends).all
    discard (emit s .throwValue (some pos) [] [] ends)
    return .stopped
  | .breakTo pos label, ends => draftJump s pos .breakWord label ends
  | .continueTo pos label, ends => draftJump s pos .continueWord label ends
  | .labeled _ label body, ends => do
    let labels := labels ++ [label]
    if takesLabels body then
      draftStmt r s labels body ends
    else
      let flow ← draftStmt r (s.inside (.block labels)) [] body ends
      return ⟨flow.next ++ flow.breaks s.depth, flow.passing s.depth⟩
  | .empty _, ends => return .through ends
  | .localClass .., ends => return .through ends

def draftBranch (r : Resolution) (s : Surroundings) : Option Stmt → Frontier → Drafting Flow
  | none, ends => return .through ends
  | some stmt, ends => draftStmt r s [] stmt ends

/-- Every group can be entered from the test, and from the group in front of it. -/
def draftGroups (r : Resolution) (s : Surroundings) (test : Nat) :
    List SwitchGroup → Frontier → Drafting Flow
  | [], ends => return .through ends
  | ⟨pos, _, _, body⟩ :: groups, ends => do
    let ends ← step s .join (some pos) [] [] (ends ++ [⟨test, .onTrue⟩])
    let first ← draftStmts r s body ends
    let others ← draftGroups r s test groups first.next
    return ⟨others.next, first.jumps ++ others.jumps⟩

/-- The bodies of handlers that begin at the given nodes. -/
def draftClauses (r : Resolution) (s : Surroundings) :
    List CatchClause → List Nat → Drafting Flow
  | ⟨_, _, _, body⟩ :: clauses, handler :: handlers => do
    let first ← draftBlock r s body [⟨handler, .normal⟩]
    let others ← draftClauses r s clauses handlers
    return first ++ others
  | _, _ => return .stopped

end

def draftBody (r : Resolution) : LambdaBody → Frontier → Drafting Flow
  | .block body, ends => draftBlock r .outermost body ends
  | .expr body, ends => do return .through (← draftExpr r .outermost false body ends).all

/-- The whole graph: the entry binds the parameters, and what falls out of the body leaves by the
exit. -/
def draftRoutine (r : Resolution) (routine : Routine) : Drafting Unit := do
  let params := routine.params.map fun v => Binding.mk v true
  let entry ← addNode .entry (some routine.site.pos) params []
  discard (addNode .exit none [] [])
  discard (addNode .exceptionExit none [] [])
  let flow ← draftBody r routine.body [⟨entry, .normal⟩]
  tie flow.next exitId

/-- The graph that was drafted, each edge once. -/
def ofDraft (label : Text) (d : Draft) : FlowGraph where
  label := label
  entry := entryId
  exit := some exitId
  exceptionExit := some exceptionExitId
  nodes := d.nodes.reverse
  edges := d.edges.reverse.eraseDups

/-- The graph of a routine with all its nodes. -/
def ofRoutine (r : Resolution) (routine : Routine) : Except AnalysisError FlowGraph := do
  let (_, draft) ← draftRoutine r routine ⟨0, [], []⟩
  return ofDraft routine.label draft

end FlowGraph

/-- How a collection resolves names, with the summaries of lambdas by the lambda's position. -/
def Collection.resolution (c : Collection) (summaries : List (Pos × List (Variable × Nat))) :
    FlowGraph.Resolution :=
  ⟨c.lookup?, c.declared?, fun pos => (summaries.lookup pos).getD []⟩

end WriteOnce
