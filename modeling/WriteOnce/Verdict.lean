import WriteOnce.Options
import WriteOnce.Scope.Basic
import WriteOnce.Table
import WriteOnce.WriteCount.Result

/-!
# Verdicts

A verdict says whether a variable could be declared `final`. What the write counts
say comes last: a variable that is final already, or that a rule about its kind
excludes, is not judged by its writes. Options hide verdicts and change no other.
-/

namespace WriteOnce

inductive Verdict
  | can
  | cannot (reason : Reason)
  deriving DecidableEq

/-- A name that is no reason's. -/
structure UnknownReason where
  name : Text
  deriving DecidableEq

def UnknownReason.message (e : UnknownReason) : Text := "unknown reason: " ++ e.name

namespace Verdict

def text : Verdict → Text
  | can => "CanBeImmutable"
  | cannot reason => "CannotBeImmutable(" ++ reason.name ++ ")"

def isCan : Verdict → Bool
  | can => true
  | cannot _ => false

/-- The negative verdict with the reason of this name. -/
def cannotNamed (name : Text) : Except UnknownReason Verdict :=
  match Reason.ofName? name with
  | some reason => .ok (cannot reason)
  | none => .error ⟨name⟩

/-- The verdict that an optional reason gives. -/
def ofReason : Option Reason → Verdict
  | none => can
  | some reason => cannot reason

/-- The same for the name of a reason. -/
def ofReasonNamed : Option Text → Except UnknownReason Verdict
  | none => .ok can
  | some name => cannotNamed name

end Verdict

namespace Declaration

variable (d : Declaration)

def isLambdaParameter : Bool := d.var.kind = .parameter && d.scope = some .closureBody

/-- Whether the construct that declares the variable also binds it anew. -/
def isRebound : Bool := d.var.kind = .catchParameter || d.var.kind = .forEachParameter

/-- Of all parameters only those of methods are candidates; of the variables that a construct
binds, those that nothing else writes. -/
def isExcluded (written : Bool) : Bool :=
  d.var.multi || d.isLambdaParameter || (d.isRebound && written)

/-- The verdict that is given whatever the write counts say. -/
def ruled? (written : Bool) : Option Verdict :=
  if d.var.isFinal then some (.cannot .alreadyImmutable)
  else if d.isExcluded written then some (.cannot .scopeRule)
  else none

/-- The verdict before options, from what the write counts say. -/
def judge (written : Bool) (reason : Option Reason) : Verdict :=
  (d.ruled? written).getD (.ofReason reason)

/-- The same for the name of a reason, which is looked up where it is needed. -/
def judgeNamed (written : Bool) (reason : Option Text) : Except UnknownReason Verdict :=
  match d.ruled? written with
  | some verdict => .ok verdict
  | none => Verdict.ofReasonNamed reason

/-- Whether the variable belongs to a family that is left out. -/
def isHidden (o : Options) : Bool :=
  if d.isLambdaParameter then false
  else
    match d.var.kind with
    | .parameter => !o.parameters
    | .localVariable | .catchParameter | .forEachParameter => !o.locals
    | .other _ => false

end Declaration

/-- Verdicts by declaration. -/
abbrev Verdicts := Table Declaration Verdict

namespace Verdicts

/-- Hides the verdicts of the families that are left out; without options none is hidden. -/
def hide (options : Option Options) (vs : Verdicts) : Verdicts :=
  match options with
  | none => vs
  | some o => vs.map fun (d, verdict) =>
    (d, if d.isHidden o then .cannot .configuration else verdict)

/-- By place; verdicts at one place keep their order. -/
def sort (vs : Verdicts) : Verdicts := sortBy (fun a b => a.1.var.notAfter b.1.var) vs

/-- By name: later declarations of a name win. -/
def byName (vs : Verdicts) : Table Text Verdict :=
  Table.ofList (vs.map fun (d, verdict) => (d.var.name, verdict))

end Verdicts

end WriteOnce
