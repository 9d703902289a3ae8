import WriteOnce.Proofs.ExpressionWork
import WriteOnce.Proofs.Surroundings

/-!
# Building a graph step by step

The builder takes one task after the other from a stack and changes what it knows
of the place that it is at: the frontier, where exceptions go, and the constructs
around it. A frame of a `try` keeps the cleanup block itself, and how many handlers
and constructs were around it. A jump or a `return` puts the cleanup blocks that it
passes back on the stack, and while such a block is built the builder has gone back
to what was around the `try`.
-/

namespace WriteOnce

open Execution (Target)

namespace FlowGraph

/-- A construct around the place that is built. The jumps that aim at it wait there. -/
inductive JumpFrame
  | construct (target : Target) (breaks continues : Frontier)
  | cleanup (body : Block) (handlerDepth jumpDepth : Nat)

def JumpFrame.opened (target : Target) : JumpFrame := .construct target [] []

def JumpFrame.isCleanup : JumpFrame → Bool
  | .construct .. => false
  | .cleanup .. => true

/-- The jumps to the construct at this depth wait there, behind those that came before them. -/
def JumpFrame.park (jumps : List Parked) (depth : Nat) : JumpFrame → JumpFrame
  | .construct target breaks continues =>
    .construct target (breaks ++ Flow.breaks ⟨[], jumps⟩ depth)
      (continues ++ Flow.continues ⟨[], jumps⟩ depth)
  | frame => frame

def parkAll (jumps : List Parked) : List JumpFrame → List JumpFrame
  | [] => []
  | frame :: frames => frame.park jumps frames.length :: parkAll jumps frames

/-- Where a jump goes, and the cleanup frames that it crosses, innermost first. -/
structure Course where
  depth : Nat
  isLoop : Bool
  crossed : List JumpFrame

def course? (word : JumpWord) (label : Option Text) : List JumpFrame → Option Course
  | [] => none
  | .cleanup body handlerDepth jumpDepth :: frames =>
    (course? word label frames).map fun c =>
      { c with crossed := .cleanup body handlerDepth jumpDepth :: c.crossed }
  | .construct target _ _ :: frames =>
    if target.frame.isTarget word label then some ⟨frames.length, target.frame.isLoop, []⟩
    else course? word label frames

inductive Task
  /-- The work on an expression, or on a condition, whose outcome is taken over at the end. -/
  | run (test : Bool) (work : List Work) (splits : List Split)
  | stmts (stmts : List Stmt)
  | stmt (stmt : Stmt)
  /-- A statement behind labels. -/
  | labels (labels : List Text) (body : Stmt)
  | closeBlock
  | declarators (ds : List Declarator)
  | declare (d : Declarator)
  | thenBranch (pos : Pos) (onTrue : Stmt) (onFalse : Option Stmt)
  | elseBranch (pos : Pos) (onFalse : Option Stmt) (ends : Frontier)
  | joinBranches (pos : Pos) (ends : Frontier)
  | whileBody (labels : List Text) (head : Nat) (body : Stmt)
  | doCond (head : Nat) (cond : Expr)
  | doEnd (head : Nat) (breaks : Frontier)
  | forHead (labels : List Text) (pos : Pos) (cond : Option Expr) (update : List Expr)
      (body : Stmt)
  | condition (cond : Option Expr)
  | forBody (labels : List Text) (head : Nat) (update : List Expr) (body : Stmt)
  | forUpdate (head : Nat) (update : List Expr) (exits : Frontier)
  | eachHead (labels : List Text) (pos : Pos) (param : Param) (body : Stmt)
  /-- Behind the body of a loop whose `continue`s go to its head. -/
  | closeRound (head : Nat) (exits : Frontier)
  | closeLoop (head : Nat) (exits : Frontier)
  | switchHead (labels : List Text) (pos : Pos) (groups : List SwitchGroup)
  | groups (test : Nat) (groups : List SwitchGroup)
  | closeSwitch (test : Nat) (hasDefault : Bool)
  /-- Behind the region that handlers guard. -/
  | endRegion (clauses : List CatchClause) (nodes : List Nat) (cleanup : Option (Nat × Block))
  /-- `tails` are the ends of the clauses in front, and of the region, but for the last of them. -/
  | clauses (clauses : List CatchClause) (nodes : List Nat) (tails : Frontier)
  | cleanup (escape : Nat) (body : Block)
  | escaped (escape : Nat) (body : Block)
  | rethrow (after : Frontier)
  | returnAt (pos : Pos)
  | throwAt (pos : Pos)
  /-- Copies of the cleanup blocks of these frames. -/
  | unwind (frames : List JumpFrame)
  | inline (frame : JumpFrame)
  /-- Back from a copy: the frames that it was outside of stand again inside the others. -/
  | restore (handlers : List (List Nat)) (inner : List JumpFrame)
  | leave
  | park (depth : Nat) (word : JumpWord)

namespace Task

def expr (e : Expr) : Task := .run false [.eval e] []

def cond (e : Expr) : Task := .run true [.cond e] []

end Task

/-- The tasks are topmost first, the handlers and frames innermost first. `outcome` is that of the
last condition, and `labels` are those that stand in front of the next statement. -/
structure Builder where
  tasks : List Task
  outcome : Split
  frontier : Frontier
  handlers : List (List Nat)
  frames : List JumpFrame
  labels : List Text

/-- The outermost elements of a stack. -/
def outermost (depth : Nat) (stack : List α) : List α := stack.drop (stack.length - depth)

/-- The elements of a stack that are not among the outermost. -/
def innermost (depth : Nat) (stack : List α) : List α := stack.take (stack.length - depth)

namespace Builder

def push (b : Builder) (tasks : List Task) : Builder := { b with tasks := tasks ++ b.tasks }

def reach (b : Builder) (ends : Frontier) : Builder := { b with frontier := ends }

/-- The labels have been taken over. -/
def unlabeled (b : Builder) : Builder := { b with labels := [] }

def enter (b : Builder) (frame : JumpFrame) : Builder := { b with frames := frame :: b.frames }

def guard (b : Builder) (handlers : List Nat) : Builder :=
  { b with handlers := handlers :: b.handlers }

def surroundings (b : Builder) : Surroundings := ⟨b.handlers.head?, []⟩

def emit (b : Builder) (kind : NodeKind) (pos : Option Pos) : Drafting Nat :=
  FlowGraph.emit b.surroundings kind pos [] [] b.frontier

def step (b : Builder) (kind : NodeKind) (pos : Option Pos) (binds : List Binding) :
    Drafting Frontier :=
  FlowGraph.step b.surroundings kind pos binds [] b.frontier

/-- Goes on without the innermost construct, if there is one. -/
def close (b : Builder) (use : Frontier → Frontier → Builder → Drafting Builder) :
    Option (Drafting Builder) :=
  match b.frames with
  | .construct _ breaks continues :: frames =>
    some (use breaks continues { b with frames := frames })
  | _ => none

/-- Goes on without the innermost handlers, if there are any. -/
def unguard (b : Builder) (use : Builder → Drafting Builder) : Option (Drafting Builder) :=
  match b.handlers with
  | [] => none
  | _ :: handlers => some (use { b with handlers := handlers })

end Builder

def ForInit.tasks : ForInit → List Task
  | .decl decl => [.stmt (.localDecl decl)]
  | .exprs values => values.map .expr

variable (r : Resolution)

def buildJump (pos : Pos) (word : JumpWord) (label : Option Text) (b : Builder) :
    Drafting Builder :=
  match course? word label b.frames with
  | none => throw ⟨.misplacedJump word, pos⟩
  | some course =>
    if word = .continueWord && !course.isLoop then throw ⟨.continueToNoLoop, pos⟩
    else do
      let ends ← b.step .jump (some pos) []
      return (b.reach ends).push [.unwind course.crossed, .park course.depth word]

def buildStmt (b : Builder) : Stmt → Drafting Builder
  | .block body => return b.push [.stmts body.stmts]
  | .localDecl decl => return b.push [.declarators decl.declarators]
  | .expr _ value => return b.push [.expr value]
  | .ifElse pos cond onTrue onFalse => return b.push [.cond cond, .thenBranch pos onTrue onFalse]
  | .whileLoop pos cond body => do
    let head ← b.emit .loop (some pos)
    return (b.reach [⟨head, .normal⟩]).unlabeled.push [.cond cond, .whileBody b.labels head body]
  | .doLoop pos body cond => do
    let head ← b.emit .loop (some pos)
    return ((b.reach [⟨head, .normal⟩]).unlabeled.enter (.opened (.loop b.labels))).push
      [.stmt body, .doCond head cond]
  | .forLoop pos init cond update body =>
    return b.unlabeled.push (ForInit.tasks init ++ [.forHead b.labels pos cond update body])
  | .forEach pos param iterable body =>
    return b.unlabeled.push [.expr iterable, .eachHead b.labels pos param body]
  | .switch pos selector groups =>
    return b.unlabeled.push [.expr selector, .switchHead b.labels pos groups]
  | .tryCatch pos body clauses none => do
    let nodes ← addHandlers r clauses
    let b := b.guard (nodes ++ b.surroundings.escapes)
    let ends ← b.step .tryBody (some pos) []
    return (b.reach ends).push [.stmts body.stmts, .endRegion clauses nodes none]
  | .tryCatch pos body clauses (some cleanup) => do
    let escape ← addNode .join (some cleanup.pos) [] []
    let nodes ← addHandlers r clauses
    let frame := .cleanup cleanup b.handlers.length b.frames.length
    let b := (b.enter frame).guard (nodes ++ [escape])
    let ends ← b.step .tryBody (some pos) []
    return (b.reach ends).push
      [.stmts body.stmts, .endRegion clauses nodes (some (escape, cleanup))]
  | .returnValue pos value => return b.push (value.toList.map .expr ++ [.returnAt pos])
  | .throwValue pos value => return b.push [.expr value, .throwAt pos]
  | .breakTo pos label => buildJump pos .breakWord label b
  | .continueTo pos label => buildJump pos .continueWord label b
  | .labeled _ label body => return b.push [.labels [label] body]
  | .empty _ => return b
  | .localClass .. => return b

/-- One task, unless it takes something from an empty stack. -/
def performTask : Task → Builder → Option (Drafting Builder)
  | .run test (item :: work) splits, b =>
    (item.perform r b.surroundings ⟨work, splits, b.frontier⟩).map fun rest => do
      let bench ← rest
      return (b.reach bench.frontier).push [.run test bench.work bench.splits]
  | .run true [] (split :: _), b => some (pure { b with outcome := split })
  | .run true [] [], _ => none
  | .run false [] _, b => some (pure b)
  | .stmts [], b => some (pure b)
  | .stmts (stmt :: stmts), b => some (pure (b.push [.stmt stmt, .stmts stmts]))
  | .stmt stmt, b => some (buildStmt r b stmt)
  | .labels labels (.labeled _ label body), b =>
    some (pure (b.push [.labels (labels ++ [label]) body]))
  | .labels labels body, b =>
    some (pure (
      if takesLabels body then { b with labels := labels }.push [.stmt body]
      else (b.enter (.opened (.block labels))).push [.stmt body, .closeBlock]))
  | .closeBlock, b => b.close fun breaks _ b => return b.reach (b.frontier ++ breaks)
  | .declarators [], b => some (pure b)
  | .declarators (d :: ds), b => some do
    expectDeclared r d
    return b.push (d.init.toList.map .expr ++ [.declare d, .declarators ds])
  | .declare d, b =>
    some do return b.reach (← b.step .declare (some d.pos) (r.binding d.pos d.init.isSome))
  | .thenBranch pos onTrue onFalse, b =>
    some (pure ((b.reach b.outcome.onTrue).push
      [.stmt onTrue, .elseBranch pos onFalse b.outcome.onFalse]))
  | .elseBranch pos onFalse ends, b =>
    some (pure ((b.reach ends).push (onFalse.toList.map .stmt ++ [.joinBranches pos b.frontier])))
  | .joinBranches pos ends, b =>
    let b := b.reach (ends ++ b.frontier)
    some (if b.frontier.isEmpty then pure b else do return b.reach (← b.step .join (some pos) []))
  | .whileBody labels head body, b =>
    some (pure (((b.reach b.outcome.onTrue).enter (.opened (.loop labels))).push
      [.stmt body, .closeRound head b.outcome.onFalse]))
  | .doCond head cond, b => b.close fun breaks continues b =>
    return (b.reach (b.frontier ++ continues)).push [.cond cond, .doEnd head breaks]
  | .doEnd head breaks, b =>
    some (pure ((b.reach b.outcome.onTrue).push [.closeLoop head (b.outcome.onFalse ++ breaks)]))
  | .forHead labels pos cond update body, b => some do
    let head ← b.emit .loop (some pos)
    return (b.reach [⟨head, .normal⟩]).push [.condition cond, .forBody labels head update body]
  | .condition none, b => some (pure { b with outcome := ⟨b.frontier, []⟩ })
  | .condition (some cond), b => some (pure (b.push [.cond cond]))
  | .forBody labels head update body, b =>
    some (pure (((b.reach b.outcome.onTrue).enter (.opened (.loop labels))).push
      [.stmt body, .forUpdate head update b.outcome.onFalse]))
  | .forUpdate head update exits, b => b.close fun breaks continues b =>
    return (b.reach (b.frontier ++ continues)).push
      (update.map .expr ++ [.closeLoop head (exits ++ breaks)])
  | .eachHead labels pos param body, b => some do
    let head ← b.emit .loop (some pos)
    let test ← (b.reach [⟨head, .normal⟩]).emit .branch (some pos)
    let ends ← (b.reach [⟨test, .onTrue⟩]).step .bind (some param.pos) (r.binding param.pos true)
    return ((b.reach ends).enter (.opened (.loop labels))).push
      [.stmt body, .closeRound head [⟨test, .onFalse⟩]]
  | .closeRound head exits, b => b.close fun breaks continues b => do
    tieAs .continueOn continues head
    return b.push [.closeLoop head (exits ++ breaks)]
  | .closeLoop head exits, b => some do
    tieAs .loopBack b.frontier head
    return b.reach exits
  | .switchHead labels pos groups, b => some do
    let test ← b.emit .switch (some pos)
    return ((b.reach []).enter (.opened (.switch labels))).push
      [.groups test groups, .closeSwitch test (groups.any (·.isDefault))]
  | .groups _ [], b => some (pure b)
  | .groups test (group :: groups), b => some do
    let ends ← (b.reach (b.frontier ++ [⟨test, .onTrue⟩])).step .join (some group.pos) []
    return (b.reach ends).push [.stmts group.body, .groups test groups]
  | .closeSwitch test hasDefault, b => b.close fun breaks _ b =>
    let skipped : Frontier := if hasDefault then [] else [⟨test, .onFalse⟩]
    return b.reach (b.frontier ++ skipped ++ breaks)
  | .endRegion clauses nodes none, b => b.unguard fun b =>
    return b.push [.clauses clauses nodes []]
  | .endRegion clauses nodes (some (escape, cleanup)), b => b.unguard fun b =>
    return (b.guard [escape]).push [.clauses clauses nodes [], .cleanup escape cleanup]
  | .clauses (clause :: clauses) (node :: nodes) tails, b =>
    some (pure ((b.reach [⟨node, .normal⟩]).push
      [.stmts clause.body.stmts, .clauses clauses nodes (tails ++ b.frontier)]))
  | .clauses _ _ tails, b => some (pure (b.reach (tails ++ b.frontier)))
  | .cleanup escape body, b =>
    match b.frames with
    | [] => none
    | _ :: frames => { b with frames := frames }.unguard fun b =>
      return if b.frontier.isEmpty then b.push [.escaped escape body]
        else b.push [.stmts body.stmts, .escaped escape body]
  | .escaped escape body, b => some do
    let d ← get
    if d.edges.any (·.target = escape) then
      return (b.reach [⟨escape, .normal⟩]).push [.stmts body.stmts, .rethrow b.frontier]
    else return b
  | .rethrow after, b => some do
    draftRethrow b.surroundings b.frontier
    return b.reach after
  | .returnAt pos, b => some do
    let ends ← b.step .returnValue (some pos) []
    return (b.reach ends).push [.unwind (b.frames.filter (·.isCleanup)), .leave]
  | .throwAt pos, b => some do
    discard (b.emit .throwValue (some pos))
    return b.reach []
  | .unwind [], b => some (pure b)
  | .unwind (frame :: frames), b => some (pure (b.push [.inline frame, .unwind frames]))
  | .inline (.construct ..), b => some (pure b)
  | .inline (.cleanup body handlerDepth jumpDepth), b =>
    some (pure ({ b with
      handlers := outermost handlerDepth b.handlers,
      frames := outermost jumpDepth b.frames }.push
        [.stmts body.stmts, .restore b.handlers (innermost jumpDepth b.frames)]))
  | .restore handlers inner, b =>
    some (pure { b with handlers := handlers, frames := inner ++ b.frames })
  | .leave, b => some do
    tie b.frontier exitId
    return b.reach []
  | .park depth word, b =>
    some (pure { b with
      frontier := [],
      frames := parkAll (b.frontier.map fun e => ⟨depth, word, e.source⟩) b.frames })

namespace Builder

def next : Machine Builder := fun b =>
  match b.tasks with
  | [] => none
  | task :: tasks => performTask r task { b with tasks := tasks }

def bodyTask : LambdaBody → Task
  | .block body => .stmts body.stmts
  | .expr body => .expr body

/-- At the entry of a routine, with its body before it. -/
def start (routine : Routine) : Drafting Builder := do
  let params := routine.params.map fun v => Binding.mk v true
  let entry ← addNode .entry (some routine.site.pos) params []
  discard (addNode .exit none [] [])
  discard (addNode .exceptionExit none [] [])
  return ⟨[bodyTask routine.body, .leave], ⟨[], []⟩, [⟨entry, .normal⟩], [], [], []⟩

/-- What has come of the graph of a routine after so many steps, if the builder has ended. -/
def build (routine : Routine) (steps : Nat) : Option (Except AnalysisError FlowGraph) :=
  match start routine ⟨0, [], []⟩ with
  | .ok c => ((next r).run (·.tasks.isEmpty) steps c).map (Except.map (ofDraft routine.label))
  | .error e => some (.error e)

end Builder

end FlowGraph

end WriteOnce
