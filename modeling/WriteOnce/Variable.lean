import WriteOnce.Pos
import WriteOnce.Sorting

/-!
# Variables

A variable is identified by its declaration: name, kind, place and the routine
that owns it. The same source read twice gives the same variables.
-/

namespace WriteOnce

namespace Variable

inductive Kind
  | localVariable
  | parameter
  | catchParameter
  | forEachParameter
  | other (name : Text)
  deriving DecidableEq

namespace Kind

def name : Kind → Text
  | localVariable => "Local"
  | parameter => "Parameter"
  | catchParameter => "CatchParameter"
  | forEachParameter => "ForEachParameter"
  | other name => name

def ofName (name : Text) : Kind :=
  match [localVariable, parameter, catchParameter, forEachParameter].find? (·.name = name) with
  | some kind => kind
  | none => other name

end Kind

end Variable

/-- The place is kept in integers: it is compared and shown, and never counted with. -/
structure Variable where
  name : Text
  kind : Variable.Kind
  line : Int
  col : Int
  owner : Text
  /-- Declared with the word `final`. -/
  isFinal : Bool
  /-- One of several declarators in the head of a loop. -/
  multi : Bool
  deriving DecidableEq

namespace Variable

/-- `name@line:col` -/
def ref (v : Variable) : Text :=
  v.name ++ "@" ++ Text.ofInt v.line ++ ":" ++ Text.ofInt v.col

/-- Order by place alone. -/
def notAfter (v w : Variable) : Bool := v.line < w.line || (v.line = w.line && v.col ≤ w.col)

/-- Order by place, then name, then owner. -/
def le (v w : Variable) : Bool :=
  if v.line = w.line && v.col = w.col then
    if v.name = w.name then v.owner.le w.owner else v.name.le w.name
  else v.notAfter w

def sort (vs : List Variable) : List Variable := sortBy le vs

end Variable

end WriteOnce
