import WriteOnce.Text.Lines
import WriteOnce.Variable

/-!
# Flow graphs

A node is a point of execution at which variables are bound and written; an edge
says what can come next and why. Nodes are known by number. The edges stand in
one list, in the order in which they were made, and the successors and
predecessors of a node are read off it.
-/

namespace WriteOnce

namespace FlowGraph

inductive NodeKind
  | entry
  | exit
  | exceptionExit
  | join
  | loop
  | declare
  | bind
  | write
  | branch
  | switch
  | call
  | new
  | closure
  | throwValue
  | returnValue
  | jump
  | tryBody
  | handler
  | other (name : Text)
  deriving DecidableEq

namespace NodeKind

def name : NodeKind → Text
  | entry => "entry"
  | exit => "exit"
  | exceptionExit => "exc_exit"
  | join => "join"
  | loop => "loop"
  | declare => "declare"
  | bind => "bind"
  | write => "write"
  | branch => "branch"
  | switch => "switch"
  | call => "call"
  | new => "new"
  | closure => "closure"
  | throwValue => "throw"
  | returnValue => "return"
  | jump => "jump"
  | tryBody => "try"
  | handler => "catch"
  | other name => name

def ofName (name : Text) : NodeKind :=
  match [entry, exit, exceptionExit, join, loop, declare, bind, write, branch, switch, call, new,
      closure, throwValue, returnValue, jump, tryBody, handler].find? (·.name = name) with
  | some kind => kind
  | none => other name

end NodeKind

inductive EdgeKind
  | normal
  | onTrue
  | onFalse
  | exception
  | loopBack
  | breakOut
  | continueOn
  | other (name : Text)
  deriving DecidableEq

namespace EdgeKind

def name : EdgeKind → Text
  | normal => "normal"
  | onTrue => "true"
  | onFalse => "false"
  | exception => "exception"
  | loopBack => "loop_back"
  | breakOut => "break"
  | continueOn => "continue"
  | other name => name

def ofName (name : Text) : EdgeKind :=
  match [normal, onTrue, onFalse, exception, loopBack, breakOut, continueOn].find?
    (·.name = name) with
  | some kind => kind
  | none => other name

end EdgeKind

/-- A variable begins its life anew, with a value or without one. -/
structure Binding where
  var : Variable
  hasValue : Bool
  deriving DecidableEq

/-- A variable stands in `writes` once for each time it is written; the writes follow the
bindings. -/
structure Node where
  id : Nat
  kind : NodeKind
  pos : Option Pos
  binds : List Binding
  writes : List Variable
  deriving DecidableEq

def Node.bindsVar (n : Node) (v : Variable) : Bool := n.binds.any (·.var = v)

structure Edge where
  source : Nat
  target : Nat
  kind : EdgeKind
  deriving DecidableEq

end FlowGraph

/-- The exits are missing where they cannot be reached. -/
structure FlowGraph where
  label : Text
  entry : Nat
  exit : Option Nat
  exceptionExit : Option Nat
  nodes : List FlowGraph.Node
  edges : List FlowGraph.Edge

namespace FlowGraph

variable (g : FlowGraph)

def successors (id : Nat) : List Edge := g.edges.filter (·.source = id)

def predecessors (id : Nat) : List Edge := g.edges.filter (·.target = id)

def node? (id : Nat) : Option Node := g.nodes.find? (·.id = id)

def written : List Variable := (g.nodes.flatMap Node.writes).eraseDups

def bound : List Variable := (g.nodes.flatMap fun n => n.binds.map Binding.var).eraseDups

/-- Every variable that is bound or written somewhere. -/
def vars : List Variable := (g.bound ++ g.written).eraseDups

/-- The kinds of nodes that occur, by name, each with its nodes in order. -/
def kinds : List (Text × List Nat) :=
  let names := sortBy Text.le (g.nodes.map (·.kind.name)).eraseDups
  names.map fun name => (name, (g.nodes.filter (·.kind.name = name)).map Node.id)

/-! ## The graph in text -/

def Node.describe (n : Node) : Text :=
  let names (vs : List Variable) : Text := Text.join "," (vs.map Variable.name)
  let place : List Text := n.pos.toList.map fun pos => "@" ++ pos.text
  let binds : List Text :=
    if n.binds.isEmpty then [] else ["binds=" ++ names (n.binds.map Binding.var)]
  let writes : List Text := if n.writes.isEmpty then [] else ["writes=" ++ names n.writes]
  Text.join " " (Text.ofNat n.id :: n.kind.name :: (place ++ binds ++ writes))

def Edge.describe (e : Edge) : Text := "-> " ++ Text.ofNat e.target ++ " " ++ e.kind.name

/-- One line for each node, followed by one for each edge that leaves it. A label or name that
spans lines does so here. -/
def dumpLines : List Text :=
  ("graph " ++ g.label) :: g.nodes.flatMap fun n =>
    ("  " ++ n.describe) :: (g.successors n.id).map fun e => "    " ++ e.describe

def dump : Text := .ofLines g.dumpLines

end FlowGraph

end WriteOnce
