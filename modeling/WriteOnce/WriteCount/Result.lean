import WriteOnce.Analysis.Error
import WriteOnce.FlowGraph.Reach
import WriteOnce.WriteCount.FixedPoint

/-!
# What the write counts say about variables

A variable is written more than once on some path exactly where a write can find
it written before. If such a write lies on a cycle without a new binding, the
loop is to blame; otherwise it is a matter of several writes.
-/

namespace WriteOnce

/-- Why a variable cannot be immutable. -/
inductive Reason
  | multipleWrites
  | writtenInLoop
  | alreadyImmutable
  | scopeRule
  | configuration
  deriving DecidableEq

namespace Reason

def name : Reason → Text
  | multipleWrites => "MultipleWritesOnSomePath"
  | writtenInLoop => "WrittenInLoopBody"
  | alreadyImmutable => "AlreadyImmutable"
  | scopeRule => "ExcludedByScopeRule"
  | configuration => "ExcludedByConfiguration"

def all : List Reason :=
  [multipleWrites, writtenInLoop, alreadyImmutable, scopeRule, configuration]

def ofName? (name : Text) : Option Reason := all.find? (·.name = name)

end Reason

/-- The write counts of a graph, all of whose nodes can be reached. The masks of a node follow
the order of `vars`. -/
structure WriteCount where
  graph : FlowGraph
  vars : List Variable
  sweep : Sweep

namespace WriteCount

/-- The first node that the sweep never came to. -/
def unreached? (g : FlowGraph) (s : Sweep) : Option FlowGraph.Node :=
  g.nodes.find? fun n => !s.behind.contains n.id

/-- The write counts that a finished sweep has found. -/
def ofSweep (g : FlowGraph) (vars : List Variable) (sweep : Sweep) :
    Except AnalysisError WriteCount :=
  match unreached? g sweep with
  | some n => .error ⟨.unreachableNode n.id n.kind.name, .nowhere⟩
  | none => .ok ⟨g, vars, sweep⟩

def ofGraph (g : FlowGraph) : Except AnalysisError WriteCount :=
  ofSweep g g.vars (.finish g g.vars)

variable (w : WriteCount)

/-- The counts behind a node, by variable. -/
def masks (id : Nat) : List (Variable × Mask) := w.vars.zip (w.sweep.behind.getD id [])

def maskAfter (id : Nat) (v : Variable) : Mask := ((w.masks id).lookup v).getD .zero

/-- The nodes that can write a variable written before. -/
def overwritesOf (v : Variable) : List Nat :=
  (w.sweep.overwrites.filter (·.1 = v)).map Prod.snd

/-- The variables for which there are such nodes. -/
def violating : List Variable := (w.sweep.overwrites.map Prod.fst).eraseDups

def reason? (v : Variable) : Option Reason :=
  match w.overwritesOf v with
  | [] => none
  | nodes => some (if w.graph.loopsWithout v nodes then .writtenInLoop else .multipleWrites)

/-- The counts that are possible behind some node, by variable. -/
def anywhere : List (Variable × Mask) :=
  w.vars.zip <| (w.graph.nodes.map fun n => w.sweep.behind.getD n.id []).foldl Counts.union
    (w.vars.map fun _ => Mask.empty)

/-- The variables among the given ones that are written, by place, with how often. -/
def summary (vars : List Variable) : List (Variable × Nat) :=
  let anywhere := w.anywhere
  let written := sortBy Variable.notAfter (vars.filter w.graph.written.contains)
  let counted := written.map fun v => (v, ((anywhere.lookup v).getD .empty).most)
  counted.filter fun (_, count) => 0 < count

end WriteCount

end WriteOnce
