import WriteOnce.FlowGraph.Reach
import WriteOnce.WriteCount.Mask

/-!
# The possible write counts at every node

Counts flow through a graph from its entry, where nothing has been written. A
queue holds the nodes whose counts have grown since they were last visited; a
visit passes the counts on to the successors, and a successor whose counts grow
is queued, unless it is queued already. Counts only grow, so the queue runs empty.
-/

namespace WriteOnce

namespace FlowGraph

namespace Node

/-- The counts of a variable behind the bindings of a node. -/
def rebound (n : Node) (v : Variable) (m : Mask) : Mask :=
  n.binds.foldl (fun m b => if b.var = v then (if b.hasValue then .one else .zero) else m) m

/-- The counts of a variable behind some writes. -/
def writtenBy (v : Variable) (writes : List Variable) (m : Mask) : Mask :=
  writes.foldl (fun m w => if w = v then m.written else m) m

/-- The counts of a variable behind a node: its bindings act before its writes. -/
def behind (n : Node) (v : Variable) (m : Mask) : Mask := writtenBy v n.writes (n.rebound v m)

/-- Whether one of these writes can find the variable written before. -/
def overwritesBy (v : Variable) : List Variable → Mask → Bool
  | [], _ => false
  | w :: ws, m =>
    if w = v then m.mayBeWritten || overwritesBy v ws m.written else overwritesBy v ws m

/-- Whether the node can write a variable that has been written before. -/
def overwrites (n : Node) (v : Variable) (m : Mask) : Bool :=
  overwritesBy v n.writes (n.rebound v m)

end Node

end FlowGraph

/-- How far an iteration has come: the nodes to visit, the counts in front of and behind nodes,
the writes that can find their variable written before, and the number of visits. -/
structure Sweep where
  queue : List Nat
  before : Std.TreeMap Nat Counts
  behind : Std.TreeMap Nat Counts
  overwrites : List (Variable × Nat)
  visits : Nat

namespace Sweep

def enqueue (queue : List Nat) (id : Nat) : List Nat :=
  if queue.contains id then queue else queue ++ [id]

/-- Passes counts on to a node. It is queued if it meets counts for the first time, or new ones. -/
def feed (counts : Counts) (s : Sweep) (id : Nat) : Sweep :=
  match s.before[id]? with
  | none => { s with before := s.before.insert id counts, queue := enqueue s.queue id }
  | some old =>
    let new := old.union counts
    if new = old then s
    else { s with before := s.before.insert id new, queue := enqueue s.queue id }

variable (g : FlowGraph) (links : FlowGraph.Links) (vars : List Variable)

/-- Counts behind a node, variable by variable. -/
def through (n : FlowGraph.Node) (counts : Counts) : Counts :=
  List.zipWith n.behind vars counts

/-- The writes of a node that can find their variable written before. -/
def found (n : FlowGraph.Node) (counts : Counts) : List (Variable × Nat) :=
  ((vars.zip counts).filter fun (v, m) => n.overwrites v m).map fun (v, _) => (v, n.id)

def visit (n : FlowGraph.Node) (s : Sweep) : Sweep :=
  let before := s.before.getD n.id []
  let behind := through vars n before
  let new := (found vars n before).filter fun hit => !s.overwrites.contains hit
  let s := { s with
    behind := s.behind.insert n.id behind
    overwrites := s.overwrites ++ new
    visits := s.visits + 1 }
  (links.targets n.id).foldl (feed behind) s

/-- Visits the node at the head of the queue. -/
def advance (s : Sweep) : Sweep :=
  match s.queue with
  | [] => s
  | id :: queue =>
    let s := { s with queue := queue }
    match g.node? id with
    | none => s
    | some n => visit links vars n s

def run : (fuel : Nat) → Sweep → Sweep
  | 0, s => s
  | fuel + 1, s => if s.queue.isEmpty then s else run fuel (advance g links vars s)

/-- At the entry nothing has been written. -/
def start : Sweep where
  queue := [g.entry]
  before := .ofList [(g.entry, vars.map fun _ => Mask.zero)]
  behind := ∅
  overwrites := []
  visits := 0

/-- A node is visited once, and again when the counts of a variable grow in front of it, which
happens at most twice for each variable. -/
def bound : Nat := g.nodes.length * (1 + 2 * vars.length)

/-- The sweep at its end. -/
def finish : Sweep := run g g.links vars (bound g vars) (start g vars)

end Sweep

end WriteOnce
