import WriteOnce.FlowGraph.OfRoutine
import WriteOnce.Proofs.Behavior

/-!
# Executions of the source

What a routine may do, by recursion on its syntax and without any graph. The
literals `true` and `false`, `!`, `&&` and `||` decide a test; every other test may
go either way. A loop runs any number of times, and a switch is entered at any
group. Inside a `try` an exception may be raised behind every step, and it goes to
any clause of the innermost `try` or further out.
-/

namespace WriteOnce

open FlowGraph

namespace Execution

/-- Two points on which the rules for exceptions may differ. -/
structure Rules where
  /-- An exception may be raised where the cleanup block of an inner `try` begins. -/
  atCleanup : Bool
  /-- An exception may be raised behind a `return` without a value. -/
  atBareReturn : Bool

/-- A construct at which a jump can aim. -/
inductive Target
  | loop (labels : List Text)
  | switch (labels : List Text)
  | block (labels : List Text)

def Target.isLoop : Target → Bool
  | .loop _ => true
  | _ => false

/-- A jump with a label aims at the construct that has the label, one without at the next loop or,
for a `break`, switch. A `continue` aims only at loops. -/
def Target.takes : Target → JumpWord → Option Text → Bool
  | .loop labels, _, some label => labels.contains label
  | .loop _, _, none => true
  | .switch labels, .breakWord, some label => labels.contains label
  | .switch _, .breakWord, none => true
  | .block labels, .breakWord, some label => labels.contains label
  | _, _, _ => false

theorem Target.isLoop_of_takes {target : Target} {label : Option Text}
    (h : target.takes .continueWord label = true) : target.isLoop = true := by
  cases target <;> cases label <;> first | rfl | cases h

open Behavior

variable (r : Resolution)

/-- A value that is used as a test may go either way. -/
def decideOn (guarded test : Bool) : Behavior := if test then seq (act guarded []) either else skip

def write (guarded : Bool) (target : Expr) : Behavior :=
  match r.target? target with
  | some v => act guarded [.write v]
  | none => skip

mutual

/-- `guarded` says whether an exception is handled somewhere in the routine, `test` whether the
expression is a test. -/
def evaluate (guarded test : Bool) : Expr → Behavior
  | .literal _ value =>
    match test, value with
    | true, .bool way => leave (.fell way)
    | _, _ => decideOn guarded test
  | .name .. => decideOn guarded test
  | .field _ object _ => seq (evaluate guarded false object) (decideOn guarded test)
  | .index _ object position =>
    seq (evaluate guarded false object)
      (seq (evaluate guarded false position) (decideOn guarded test))
  | .call _ callee args =>
    seq (evaluate guarded false callee)
      (seq (evaluateAll guarded args) (seq (act true []) (decideOn guarded test)))
  | .newObject _ _ args | .newAnonymous _ _ args _ | .newArray _ _ args | .newArrayOf _ _ _ args =>
    seq (evaluateAll guarded args) (seq (act true []) (decideOn guarded test))
  | .arrayLit _ elements => seq (evaluateAll guarded elements) (decideOn guarded test)
  | .unary _ op operand =>
    if test && op = .not then swap (evaluate guarded true operand)
    else seq (evaluate guarded false operand) (decideOn guarded test)
  | .step _ _ _ target =>
    seq (evaluateTarget guarded target) (seq (write r guarded target) (decideOn guarded test))
  | .binary _ op left right =>
    match op with
    | .and =>
      branch (evaluate guarded true left) (evaluate guarded true right) (leave (.fell false))
    | .or => branch (evaluate guarded true left) skip (evaluate guarded true right)
    | _ =>
      seq (evaluate guarded false left)
        (seq (evaluate guarded false right) (decideOn guarded test))
  | .instanceOf _ operand _ | .cast _ _ operand | .methodRef _ operand _ =>
    seq (evaluate guarded false operand) (decideOn guarded test)
  | .conditional _ cond onTrue onFalse =>
    seq (branch (evaluate guarded true cond) (evaluate guarded false onTrue)
      (evaluate guarded false onFalse)) (decideOn guarded test)
  | .assign _ _ target value =>
    seq (evaluateTarget guarded target)
      (seq (evaluate guarded false value)
        (seq (write r guarded target) (decideOn guarded test)))
  | .lambda pos _ _ =>
    seq (act guarded ((r.closureWrites pos).map .write)) (decideOn guarded test)

/-- What is evaluated in a target before it is written. -/
def evaluateTarget (guarded : Bool) : Expr → Behavior
  | .field _ object _ => seq (evaluate guarded false object) skip
  | .index _ object position =>
    seq (evaluate guarded false object) (seq (evaluate guarded false position) skip)
  | _ => skip

def evaluateAll (guarded : Bool) : List Expr → Behavior
  | [] => skip
  | e :: es => seq (evaluate guarded false e) (evaluateAll guarded es)

end

def evaluateOption (guarded : Bool) : Option Expr → Behavior
  | none => skip
  | some e => seq (evaluate r guarded false e) skip

/-- A missing condition always holds. -/
def condition (guarded : Bool) : Option Expr → Behavior
  | none => skip
  | some e => evaluate r guarded true e

def bindAt (guarded : Bool) (pos : Pos) (hasValue : Bool) : Behavior :=
  act guarded ((r.binding pos hasValue).map Binding.event)

/-- A local is bound behind its initial value. -/
def declare (guarded : Bool) : List Declarator → Behavior
  | [] => skip
  | d :: ds =>
    seq (evaluateOption r guarded d.init)
      (seq (bindAt r guarded d.pos d.init.isSome) (declare guarded ds))

def forInit (guarded : Bool) : ForInit → Behavior
  | .decl decl => declare r guarded decl.declarators
  | .exprs values => evaluateAll r guarded values

variable (rules : Rules)

mutual

def runBlock (guarded : Bool) : Block → Behavior
  | ⟨_, stmts⟩ => runAll guarded stmts

def runAll (guarded : Bool) : List Stmt → Behavior
  | [] => skip
  | stmt :: stmts => seq (run guarded [] stmt) (runAll guarded stmts)

/-- `labels` are those in front of the statement. -/
def run (guarded : Bool) (labels : List Text) : Stmt → Behavior
  | .block body => runBlock guarded body
  | .localDecl decl => declare r guarded decl.declarators
  | .expr _ value => seq (evaluate r guarded false value) skip
  | .ifElse _ cond onTrue onFalse =>
    branch (evaluate r guarded true cond) (run guarded [] onTrue) (runOption guarded onFalse)
  | .whileLoop _ cond body =>
    loop (branch (evaluate r guarded true cond)
      (catching (Target.loop labels).takes (run guarded [] body)) (leave (.fell false)))
  | .doLoop _ body cond =>
    loop (branch (catching (Target.loop labels).takes (run guarded [] body))
      (evaluate r guarded true cond) (leave (.fell false)))
  | .forLoop _ init cond update body =>
    seq (forInit r guarded init) <|
      loop (branch (condition r guarded cond)
        (branch (catching (Target.loop labels).takes (run guarded [] body))
          (evaluateAll r guarded update) (leave (.fell false)))
        (leave (.fell false)))
  | .forEach _ param iterable body =>
    seq (evaluate r guarded false iterable) <|
      loop (branch (seq (act guarded []) either)
        (catching (Target.loop labels).takes
          (seq (bindAt r guarded param.pos true) (run guarded [] body)))
        (leave (.fell false)))
  | .switch _ selector groups =>
    seq (evaluate r guarded false selector) <| seq (act guarded []) <|
      seq (catching (Target.switch labels).takes
        (choice (enter guarded groups)
          (if groups.any (·.isDefault) then never else skip))) skip
  | .tryCatch _ body clauses none =>
    handling (seq (act true []) (runBlock true body)) (runClauses guarded clauses)
  -- The clauses run inside the `try` as far as the cleanup is concerned.
  | .tryCatch _ body clauses (some cleanup) =>
    ensuring (handling (seq (act true []) (runBlock true body)) (runClauses true clauses))
      (seq (risk (rules.atCleanup && guarded)) (runBlock guarded cleanup))
  | .returnValue _ value =>
    seq (evaluateOption r guarded value)
      (seq (act (guarded && (value.isSome || rules.atBareReturn)) []) (leave .returned))
  | .throwValue _ value => seq (evaluate r guarded false value) (seq (act true []) never)
  | .breakTo _ label => leave (.jumped .breakWord label)
  | .continueTo _ label => leave (.jumped .continueWord label)
  | .labeled _ label body =>
    if takesLabels body then run guarded (labels ++ [label]) body
    else seq (catching (Target.block (labels ++ [label])).takes (run guarded [] body)) skip
  | .empty _ => skip
  | .localClass .. => skip

def runOption (guarded : Bool) : Option Stmt → Behavior
  | none => skip
  | some stmt => run guarded [] stmt

/-- A group and those behind it, unless it is left before. -/
def runGroups (guarded : Bool) : List SwitchGroup → Behavior
  | [] => skip
  | ⟨_, _, _, body⟩ :: groups => seq (runAll guarded body) (runGroups guarded groups)

/-- The switch is entered at any group. -/
def enter (guarded : Bool) : List SwitchGroup → Behavior
  | [] => never
  | ⟨_, _, _, body⟩ :: groups =>
    choice (seq (runAll guarded body) (runGroups guarded groups)) (enter guarded groups)

/-- A clause binds its parameter in a step behind which no exception is raised. -/
def runClauses (guarded : Bool) : List CatchClause → List Behavior
  | [] => []
  | ⟨_, param, _, body⟩ :: clauses =>
    seq (bindAt r false param.pos true) (runBlock guarded body) :: runClauses guarded clauses

end

def runBody : LambdaBody → Behavior
  | .block body => runBlock r rules false body
  | .expr body => seq (evaluate r false false body) skip

/-- The parameters are bound before anything else happens. -/
def executes (routine : Routine) : Behavior :=
  seq (act false (routine.params.map fun v => .bind v true)) (runBody r rules routine.body)

end Execution

end WriteOnce
