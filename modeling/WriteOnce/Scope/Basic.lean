import WriteOnce.Syntax.Tree
import WriteOnce.Variable

/-!
# Scopes and routines

A scope is a region of source with the variables declared directly in it and the
scopes inside it. A routine is a body that is analyzed on its own: a method, an
initializer, a bare block or a lambda.
-/

namespace WriteOnce

namespace Scope

inductive Kind
  | methodBody
  | initializer
  | closureBody
  | loopBody
  | catchBlock
  | switchBlock
  | generic
  | other (name : Text)
  deriving DecidableEq

namespace Kind

def name : Kind → Text
  | methodBody => "MethodBody"
  | initializer => "Initializer"
  | closureBody => "ClosureBody"
  | loopBody => "LoopBody"
  | catchBlock => "CatchBlock"
  | switchBlock => "SwitchBlock"
  | generic => "Generic"
  | other name => name

def ofName (name : Text) : Kind :=
  match [methodBody, initializer, closureBody, loopBody, catchBlock, switchBlock, generic].find?
    (·.name = name) with
  | some kind => kind
  | none => other name

end Kind

end Scope

/-- A piece of syntax, known by its class and its position. -/
structure Site where
  className : Text
  pos : Pos
  deriving DecidableEq

/-- The variables that names denote, the innermost declaration first. -/
abbrev Env := List (Text × Variable)

namespace Env

def find? (env : Env) (name : Text) : Option Variable := env.lookup name

def bind (env : Env) (v : Variable) : Env := (v.name, v) :: env

/-- Every name with what it denotes, by name. -/
def entries (env : Env) : List (Text × Variable) :=
  let names := (sortBy Text.le (env.map Prod.fst)).eraseReps
  names.filterMap fun name => (env.find? name).map (name, ·)

end Env

structure Scope where
  kind : Scope.Kind
  site : Site
  vars : List Variable
  children : List Scope
  /-- For the body of a lambda: what names denoted where the lambda stands. -/
  captured : Env

/-- A variable with the kind of the scope that declares it. The scope is no part of what
identifies the variable. -/
structure Declaration where
  var : Variable
  scope : Option Scope.Kind

instance : BEq Declaration := ⟨fun d e => d.var == e.var⟩

namespace Scope

/-- The scopes of a tree in preorder, each with the number of its parent in this order. The
first scope gets the number `index`. -/
def number (parent : Option Nat) (index : Nat) : Scope → List (Scope × Option Nat)
  | ⟨kind, site, vars, children, captured⟩ =>
    (⟨kind, site, vars, children, captured⟩, parent)
      :: numberAll index (index + 1) children
where
  numberAll (parent index : Nat) : List Scope → List (Scope × Option Nat)
    | [] => []
    | s :: ss =>
      let first := number (some parent) index s
      first ++ numberAll parent (index + first.length) ss

def walk (s : Scope) : List (Scope × Option Nat) := s.number none 0

end Scope

/-- The class of a lambda's or routine's body. -/
def LambdaBody.className : LambdaBody → Text
  | .expr body => body.className
  | .block _ => "JBlock"

structure Routine where
  label : Text
  /-- The routine a lambda stands in. -/
  parent : Option Text
  site : Site
  body : LambdaBody
  params : List Variable
  /-- All variables that belong to the routine, in the order of their declaration. -/
  declarations : List Declaration

namespace Routine

def isClosure (r : Routine) : Bool := r.parent.isSome

def vars (r : Routine) : List Variable := r.declarations.map Declaration.var

end Routine

end WriteOnce
