import Mathlib.Data.List.Nodup
import WriteOnce.FlowGraph.Basic

/-!
# Paths through a flow graph

A path begins at the entry and follows edges. What its nodes do to variables, in
order, is its trace: at each node the bindings come first and the writes follow.
Along a trace every variable has a count of writes since its last binding.
-/

namespace WriteOnce

/-- What happens to a variable at one point of an execution. -/
inductive Event
  | bind (var : Variable) (hasValue : Bool)
  | write (var : Variable)
  deriving DecidableEq

abbrev Trace := List Event

namespace Trace

/-- The count of a variable after an event. A binding with a value counts as one write. -/
def tally (v : Variable) (count : Nat) : Event → Nat
  | .bind w hasValue => if w = v then (if hasValue then 1 else 0) else count
  | .write w => if w = v then count + 1 else count

/-- How often a variable has been written since its last binding; without a binding the count
begins with zero. -/
def count (v : Variable) (t : Trace) : Nat := t.foldl (tally v) 0

@[simp] theorem count_nil (v : Variable) : count v [] = 0 := rfl

theorem count_append (v : Variable) (t u : Trace) :
    count v (t ++ u) = u.foldl (tally v) (count v t) := by
  simp [count, List.foldl_append]

end Trace

namespace FlowGraph

def Binding.event (b : Binding) : Event := .bind b.var b.hasValue

/-- What happens at a node. -/
def Node.trace (n : Node) : Trace := n.binds.map Binding.event ++ n.writes.map .write

theorem Node.trace_eq_nil {n : Node} (hbinds : n.binds = []) (hwrites : n.writes = []) :
    n.trace = [] := by
  simp [trace, hbinds, hwrites]

theorem Node.write_mem_trace {n : Node} {v : Variable} : .write v ∈ n.trace ↔ v ∈ n.writes := by
  simp [trace, Binding.event]

theorem Node.bind_mem_trace {n : Node} {v : Variable} {hasValue : Bool} :
    .bind v hasValue ∈ n.trace ↔ ⟨v, hasValue⟩ ∈ n.binds := by
  simp only [trace, List.mem_append, List.mem_map, Binding.event, Event.bind.injEq, reduceCtorEq,
    and_false, exists_false, or_false]
  constructor
  · rintro ⟨b, hb, rfl, rfl⟩
    exact hb
  · intro h
    exact ⟨_, h, rfl, rfl⟩

variable (g : FlowGraph)

/-- Some path leads from the entry to the node and does this before it gets there. -/
inductive Arrives : Trace → Node → Prop
  | entry {n : Node} : n ∈ g.nodes → n.id = g.entry → Arrives [] n
  | step {t : Trace} {m n : Node} {kind : EdgeKind} :
    Arrives t m → ⟨m.id, n.id, kind⟩ ∈ g.edges → n ∈ g.nodes → Arrives (t ++ m.trace) n

/-- The trace of some path from the entry to the node, the node included. -/
def Performs (t : Trace) (n : Node) : Prop := ∃ u, g.Arrives u n ∧ t = u ++ n.trace

/-- Some path to the node performs one of the node's writes of the variable when the variable
has been written since its last binding. -/
def Overwrites (g : FlowGraph) (n : Node) (v : Variable) : Prop :=
  ∃ t pre post, g.Arrives t n ∧ n.trace = pre ++ .write v :: post ∧ 1 ≤ Trace.count v (t ++ pre)

def Reaches (n : Node) : Prop := ∃ t, g.Arrives t n

/-- Nodes are told apart by their numbers, and the entry and both ends of every edge are nodes. -/
structure WellFormed : Prop where
  nodup : (g.nodes.map Node.id).Nodup
  entry : ∃ n ∈ g.nodes, n.id = g.entry
  source : ∀ e ∈ g.edges, ∃ n ∈ g.nodes, n.id = e.source
  target : ∀ e ∈ g.edges, ∃ n ∈ g.nodes, n.id = e.target

variable {g}

theorem Arrives.mem {t : Trace} {n : Node} (h : g.Arrives t n) : n ∈ g.nodes := by
  cases h with
  | entry hn _ => exact hn
  | step _ _ hn => exact hn

theorem Performs.mem {t : Trace} {n : Node} (h : g.Performs t n) : n ∈ g.nodes := by
  obtain ⟨u, hu, _⟩ := h
  exact hu.mem

theorem Performs.step {t : Trace} {m n : Node} {kind : EdgeKind} (h : g.Performs t m)
    (he : ⟨m.id, n.id, kind⟩ ∈ g.edges) (hn : n ∈ g.nodes) : g.Performs (t ++ n.trace) n := by
  obtain ⟨u, hu, rfl⟩ := h
  exact ⟨u ++ m.trace, hu.step he hn, rfl⟩

/-- Bounds that grow along the paths bound how often an event happens on a path. -/
theorem Performs.count_le {e : Event} {before behind : Nat → Nat}
    (hnode : ∀ n ∈ g.nodes, before n.id + List.count e n.trace ≤ behind n.id)
    (hedge : ∀ edge ∈ g.edges, behind edge.source ≤ before edge.target) {t : Trace} {n : Node}
    (h : g.Performs t n) : List.count e t ≤ behind n.id := by
  obtain ⟨u, hu, rfl⟩ := h
  have hbefore : List.count e u ≤ before n.id := by
    induction hu with
    | entry => exact Nat.zero_le _
    | step hm he _ ih =>
      have hm := hnode _ hm.mem
      have he := hedge _ he
      rw [List.count_append]
      dsimp only at he
      omega
  have hn := hnode n hu.mem
  rw [List.count_append]
  omega

theorem WellFormed.eq_of_id (hg : g.WellFormed) {m n : Node} (hm : m ∈ g.nodes)
    (hn : n ∈ g.nodes) (h : m.id = n.id) : m = n :=
  List.inj_on_of_nodup_map hg.nodup hm hn h

/-- In a well-formed graph a look-up by number finds exactly the node. -/
theorem WellFormed.node?_eq (hg : g.WellFormed) {n : Node} (hn : n ∈ g.nodes) :
    g.node? n.id = some n := by
  cases h : g.node? n.id with
  | none =>
    have := List.find?_eq_none.1 h n hn
    simp at this
  | some m =>
    have hid : m.id = n.id := by simpa using List.find?_some h
    exact congrArg some (hg.eq_of_id (List.mem_of_find?_eq_some h) hn hid)

theorem mem_vars_of_binds {n : Node} (hn : n ∈ g.nodes) {b : Binding} (hb : b ∈ n.binds) :
    b.var ∈ g.vars := by
  simp only [vars, bound, List.mem_eraseDups, List.mem_append, List.mem_flatMap, List.mem_map]
  exact .inl ⟨n, hn, b, hb, rfl⟩

theorem mem_vars_of_writes {n : Node} (hn : n ∈ g.nodes) {v : Variable} (hv : v ∈ n.writes) :
    v ∈ g.vars := by
  simp only [vars, written, List.mem_eraseDups, List.mem_append, List.mem_flatMap]
  exact .inr ⟨n, hn, hv⟩

end FlowGraph

end WriteOnce
