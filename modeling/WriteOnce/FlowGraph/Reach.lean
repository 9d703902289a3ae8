import Std.Data.TreeMap
import Std.Data.TreeSet
import WriteOnce.FlowGraph.Basic

/-!
# Reachable nodes

A search keeps a stack of nodes whose successors are still to be looked at, and
the set of all nodes it has met. Every node comes onto the stack once.
-/

namespace WriteOnce

namespace FlowGraph

/-- The edges of a graph, by the node they leave. -/
abbrev Links := Std.TreeMap Nat (List Edge)

def Links.ofEdges (edges : List Edge) : Links :=
  edges.foldr (fun e links => links.insert e.source (e :: links.getD e.source [])) ∅

def Links.targets (links : Links) (id : Nat) : List Nat := (links.getD id []).map Edge.target

/-- What can be reached from the stack, in addition to the nodes already seen. -/
def search (next : Nat → List Nat) :
    (fuel : Nat) → (stack : List Nat) → (seen : Std.TreeSet Nat) → Std.TreeSet Nat
  | 0, _, seen => seen
  | _, [], seen => seen
  | fuel + 1, id :: stack, seen =>
    let fresh := (next id).eraseDups.filter fun target => !seen.contains target
    search next fuel (fresh ++ stack) (seen.insertMany fresh)

variable (g : FlowGraph)

def links : Links := .ofEdges g.edges

theorem getD_links (id : Nat) : g.links.getD id [] = g.successors id := by
  unfold links successors Links.ofEdges
  induction g.edges with
  | nil => simp
  | cons e es ih =>
    rw [List.foldr_cons, Std.TreeMap.getD_insert]
    by_cases h : e.source = id
    · subst h
      simp [ih]
    · simp [h, ih]

theorem targets_links (id : Nat) : g.links.targets id = (g.successors id).map Edge.target := by
  rw [Links.targets, getD_links]

theorem mem_targets_links {i j : Nat} :
    j ∈ g.links.targets i ↔ ∃ kind, ⟨i, j, kind⟩ ∈ g.edges := by
  simp only [targets_links, successors, List.mem_map, List.mem_filter, decide_eq_true_eq]
  constructor
  · rintro ⟨e, ⟨he, rfl⟩, rfl⟩
    exact ⟨e.kind, he⟩
  · rintro ⟨kind, he⟩
    exact ⟨_, ⟨he, rfl⟩, rfl⟩

/-- What can be reached from some nodes if a path goes on only behind nodes that let it pass. Each
step of the search takes a node that was met at the start or is the target of an edge. -/
def reachFrom (links : Links) (passes : Nat → Bool) (start : List Nat) : Std.TreeSet Nat :=
  let start := start.eraseDups
  search (fun id => if passes id then links.targets id else []) (start.length + g.edges.length)
    start (.ofList start)

/-- The nodes that can be reached from the entry. -/
def reachable : Std.TreeSet Nat := g.reachFrom g.links (fun _ => true) [g.entry]

/-- The graph without the nodes that cannot be reached. -/
def prune : FlowGraph :=
  let reached := g.reachable
  { g with
    exit := g.exit.filter reached.contains
    exceptionExit := g.exceptionExit.filter reached.contains
    nodes := g.nodes.filter fun n => reached.contains n.id
    edges := g.edges.filter fun e => reached.contains e.source }

/-- The nodes that bind a variable. -/
def binders (v : Variable) : List Nat := (g.nodes.filter (·.bindsVar v)).map Node.id

/-- Whether, for one of the given nodes, a path leads from the node back to it and meets no node
that binds the variable before it is back. -/
def loopsWithout (v : Variable) (ids : List Nat) : Bool :=
  let links := g.links
  let binders := g.binders v
  ids.any fun id =>
    let passes (other : Nat) : Bool := other ≠ id && !binders.contains other
    (g.reachFrom links passes (links.targets id)).contains id

end FlowGraph

end WriteOnce
