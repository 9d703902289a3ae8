import Mathlib.Data.List.Find
import WriteOnce.Proofs.Masks
import WriteOnce.Proofs.Reach

/-!
# Pruned graphs

Pruning keeps what can be reached from the entry and nothing else. A sweep has counts behind a node
exactly if the node can be reached, so that it fails on a graph exactly where pruning would remove
a node, and never behind it.
-/

namespace WriteOnce

open FlowGraph Counts

variable {g : FlowGraph}

/-! ## What a sweep comes to -/

namespace Sweep

variable {s s' : Sweep}

/-- Counts in front of a node are never taken away again. -/
theorem exists_before_feed (b : Counts) (s : Sweep) (target : Nat) {id : Nat}
    (h : ∃ c, s.before[id]? = some c) : ∃ c, (feed b s target).before[id]? = some c := by
  rcases feed_cases b s target with ⟨heq, -⟩ | ⟨new, heq, -⟩
  · rwa [heq]
  · rw [heq, Std.TreeMap.getElem?_insert]
    split_ifs
    · exact ⟨new, rfl⟩
    · exact h

theorem exists_before_foldl_feed (b : Counts) (targets : List Nat) (s : Sweep) {id : Nat}
    (h : ∃ c, s.before[id]? = some c) : ∃ c, (targets.foldl (feed b) s).before[id]? = some c := by
  induction targets generalizing s with
  | nil => exact h
  | cons target targets ih => exact ih _ (exists_before_feed b s target h)

theorem behind_foldl_feed (b : Counts) (targets : List Nat) (s : Sweep) :
    (targets.foldl (feed b) s).behind = s.behind := by
  induction targets generalizing s with
  | nil => rfl
  | cons target targets ih =>
    rw [List.foldl_cons, ih]
    rcases feed_cases b s target with ⟨heq, -⟩ | ⟨new, heq, -⟩ <;> rw [heq]

/-- A node that was visited has counts in front of it. -/
def Fed (s : Sweep) : Prop := ∀ id ∈ s.behind, ∃ c, s.before[id]? = some c

theorem Step.fed (h : Step g s s') (hqueued : ∀ id ∈ s.queue, ∃ c, s.before[id]? = some c)
    (hs : s.Fed) : s'.Fed := by
  obtain ⟨-, hq⟩ := h
  intro id hid
  unfold Sweep.visit at hid ⊢
  dsimp only at hid ⊢
  rw [behind_foldl_feed, Std.TreeMap.mem_insert] at hid
  refine exists_before_foldl_feed _ _ _ ?_
  rcases hid with heq | hid
  · rw [← compare_eq_iff_eq.1 heq]
    exact hqueued _ hq
  · exact hs id hid

theorem Comes.fed (hg : g.WellFormed) (h : Comes g s) : s.Fed := by
  induction h with
  | refl => exact fun id hid => absurd hid Std.TreeMap.not_mem_emptyc
  | tail hcomes hstep ih => exact hstep.fed (Comes.invariant hg hcomes).queued ih

/-- Counts in front of a node come from some path to it. -/
theorem Invariant.reaches {pending : Edge → Prop} (h : Invariant g pending s) {n : Node}
    (hn : n ∈ g.nodes) {c : Counts} (hc : s.before[n.id]? = some c) : g.Reaches n := by
  have v : Variable := ⟨.empty, .localVariable, 0, 0, .empty, false, false⟩
  obtain ⟨k, hk⟩ := ((h.fits _ _ hc).proper v).exists_has
  obtain ⟨t, ht, -⟩ := h.realized n hn c hc v k hk
  exact ⟨t, ht⟩

/-- A sweep that has ended has visited the nodes that can be reached and no others. -/
theorem Comes.mem_behind (hg : g.WellFormed) (h : Comes g s) (hq : s.queue = []) {n : Node}
    (hn : n ∈ g.nodes) : n.id ∈ s.behind ↔ g.Reaches n := by
  constructor
  · intro hbehind
    obtain ⟨c, hc⟩ := Comes.fed hg h _ hbehind
    exact (h.invariant hg).reaches hn hc
  · intro hr
    obtain ⟨c, -, hsettled⟩ := WriteCount.Comes.reached_settled hg h hq hr
    exact Std.TreeMap.mem_iff_isSome_getElem?.2 (hsettled.behind ▸ rfl)

end Sweep

/-! ## The first node that cannot be reached -/

namespace WriteCount

open Classical in
theorem unreached?_finish (hg : g.WellFormed) :
    unreached? g (Sweep.finish g g.vars) = g.nodes.find? fun n => ¬ g.Reaches n := by
  obtain ⟨hcomes, hq⟩ := Sweep.comes_finish hg
  unfold unreached?
  refine List.find?_congr fun n hn => ?_
  rw [Bool.eq_iff_iff, Bool.not_eq_true', Bool.eq_false_iff, ne_eq, Std.TreeMap.contains_iff_mem,
    hcomes.mem_behind hg hq hn, decide_eq_true_iff]

theorem ofGraph_eq_error_iff_unreached? {e : AnalysisError} :
    ofGraph g = .error e ↔ ∃ n, unreached? g (Sweep.finish g g.vars) = some n ∧
      e = ⟨.unreachableNode n.id n.kind.name, .nowhere⟩ := by
  unfold ofGraph ofSweep
  cases unreached? g (Sweep.finish g g.vars) <;> simp [eq_comm]

/-- A graph is refused for the first of its nodes that cannot be reached. -/
theorem ofGraph_eq_error_iff (hg : g.WellFormed) {e : AnalysisError} :
    ofGraph g = .error e ↔
      ∃ before n after, g.nodes = before ++ n :: after ∧ (∀ m ∈ before, g.Reaches m) ∧
        ¬ g.Reaches n ∧ e = ⟨.unreachableNode n.id n.kind.name, .nowhere⟩ := by
  rw [ofGraph_eq_error_iff_unreached?, unreached?_finish hg]
  simp only [List.find?_eq_some_iff_append, decide_eq_true_eq, Bool.not_eq_true',
    decide_eq_false_iff_not, not_not]
  constructor
  · rintro ⟨n, ⟨hn, before, after, hnodes, hbefore⟩, rfl⟩
    exact ⟨before, n, after, hnodes, hbefore, hn, rfl⟩
  · rintro ⟨before, n, after, hnodes, hbefore, hn, rfl⟩
    exact ⟨n, ⟨hn, before, after, hnodes, hbefore⟩, rfl⟩

theorem exists_ofGraph_eq_error_iff (hg : g.WellFormed) :
    (∃ e, ofGraph g = .error e) ↔ ∃ n ∈ g.nodes, ¬ g.Reaches n := by
  constructor
  · rintro ⟨e, he⟩
    obtain ⟨before, n, after, hnodes, -, hn, -⟩ := (ofGraph_eq_error_iff hg).1 he
    exact ⟨n, hnodes ▸ by simp, hn⟩
  · rintro ⟨n, hn, hunreached⟩
    obtain ⟨m, hm⟩ : ∃ m, unreached? g (Sweep.finish g g.vars) = some m := by
      rw [unreached?_finish hg, ← Option.isSome_iff_exists, List.find?_isSome]
      exact ⟨n, hn, by simpa using hunreached⟩
    exact ⟨_, ofGraph_eq_error_iff_unreached?.2 ⟨m, hm, rfl⟩⟩

end WriteCount

/-! ## What is kept -/

namespace FlowGraph

/-- One graph is what can be reached in another: its nodes and the edges between them, all in
their old order. -/
structure KeepsReached (g p : FlowGraph) : Prop where
  label : p.label = g.label
  entry : p.entry = g.entry
  order : p.nodes.Sublist g.nodes
  mem_nodes (n : Node) : n ∈ p.nodes ↔ g.Reaches n
  successors : ∀ n ∈ p.nodes, p.successors n.id = g.successors n.id
  predecessors : ∀ n ∈ p.nodes, p.predecessors n.id =
    (g.predecessors n.id).filter fun e => ∃ m ∈ p.nodes, m.id = e.source
  exit (id : Nat) : p.exit = some id ↔ g.exit = some id ∧ ∃ n, g.Reaches n ∧ n.id = id
  exceptionExit (id : Nat) :
    p.exceptionExit = some id ↔ g.exceptionExit = some id ∧ ∃ n, g.Reaches n ∧ n.id = id

/-- Every number that can be reached is the number of a node. -/
theorem mem_reachable_iff (hg : g.WellFormed) {id : Nat} :
    id ∈ g.reachable ↔ ∃ n, g.Reaches n ∧ n.id = id := by
  constructor
  · intro h
    obtain ⟨n, hn, rfl⟩ : ∃ n ∈ g.nodes, n.id = id := by
      rw [reachable, mem_reachFrom] at h
      simp only [List.mem_singleton, exists_eq_left] at h
      cases h with
      | refl => exact hg.entry
      | tail _ hstep =>
        obtain ⟨-, e, he, -, rfl⟩ := hstep
        exact hg.target e he
    exact ⟨n, (mem_reachable hg hn).1 h, rfl⟩
  · rintro ⟨n, ⟨t, ht⟩, rfl⟩
    exact (mem_reachable hg ht.mem).2 ⟨t, ht⟩

theorem keepsReached_prune (hg : g.WellFormed) : g.KeepsReached g.prune where
  label := rfl
  entry := rfl
  order := List.filter_sublist
  mem_nodes n := by
    rw [mem_prune_nodes hg]
    exact ⟨And.right, fun ⟨t, ht⟩ => ⟨ht.mem, t, ht⟩⟩
  successors n hn := by
    obtain ⟨hn, hr⟩ := (mem_prune_nodes hg).1 hn
    rw [FlowGraph.successors, FlowGraph.successors, prune, List.filter_filter]
    refine List.filter_congr fun e _ => ?_
    by_cases h : e.source = n.id
    · simp [h, Std.TreeSet.contains_iff_mem, (mem_reachable hg hn).2 hr]
    · simp [h]
  predecessors n hn := by
    rw [FlowGraph.predecessors, FlowGraph.predecessors, prune, List.filter_filter,
      List.filter_filter]
    refine List.filter_congr fun e _ => ?_
    have hsource : e.source ∈ g.reachable ↔ ∃ m ∈ g.prune.nodes, m.id = e.source := by
      rw [mem_reachable_iff hg]
      refine exists_congr fun m => and_congr_left' ?_
      rw [mem_prune_nodes hg]
      exact ⟨fun ⟨t, ht⟩ => ⟨ht.mem, t, ht⟩, And.right⟩
    rw [Bool.eq_iff_iff]
    simp only [Bool.and_eq_true, decide_eq_true_eq, Std.TreeSet.contains_iff_mem, hsource]
    exact and_comm
  exit id := by
    simp only [prune, Option.filter_eq_some_iff, Std.TreeSet.contains_iff_mem,
      mem_reachable_iff hg]
  exceptionExit id := by
    simp only [prune, Option.filter_eq_some_iff, Std.TreeSet.contains_iff_mem,
      mem_reachable_iff hg]

theorem contains_reachable_prune (hg : g.WellFormed) :
    g.prune.reachable.contains = g.reachable.contains := by
  funext id
  rw [Bool.eq_iff_iff, Std.TreeSet.contains_iff_mem, Std.TreeSet.contains_iff_mem,
    mem_reachable_iff hg.prune, mem_reachable_iff hg]
  simp only [reaches_prune hg]

theorem prune_prune (hg : g.WellFormed) : g.prune.prune = g.prune := by
  rw [prune, contains_reachable_prune hg]
  simp only [prune, Option.filter_filter, List.filter_filter, Bool.and_self]

end FlowGraph

namespace WriteCount

/-- Pruning keeps exactly what can be reached, and a second time it changes nothing. The write
counts are refused exactly if a node cannot be reached, for the first such node, and so they are
never refused behind pruning. -/
theorem prune_exact (hg : g.WellFormed) :
    g.KeepsReached g.prune ∧ g.prune.prune = g.prune ∧
    (∀ e, ofGraph g = .error e ↔
      ∃ before n after, g.nodes = before ++ n :: after ∧ (∀ m ∈ before, g.Reaches m) ∧
        ¬ g.Reaches n ∧ e = ⟨.unreachableNode n.id n.kind.name, .nowhere⟩) ∧
    ((∃ e, ofGraph g = .error e) ↔ ∃ n ∈ g.nodes, ¬ g.Reaches n) ∧
    ∃ w, ofGraph g.prune = .ok w :=
  ⟨keepsReached_prune hg, prune_prune hg, fun _ => ofGraph_eq_error_iff hg,
    exists_ofGraph_eq_error_iff hg,
    ⟨_, ofGraph_eq_ok hg.prune fun _ hn => reaches_of_mem_prune hg hn⟩⟩

/-- A node that nothing leads to stands in front of one that can be reached, and leads to it. -/
def stranded : FlowGraph where
  label := "f"
  entry := 0
  exit := some 1
  exceptionExit := some 2
  nodes := [⟨0, .entry, none, [], []⟩, ⟨2, .exceptionExit, none, [], []⟩, ⟨1, .exit, none, [], []⟩]
  edges := [⟨2, 1, .normal⟩, ⟨0, 1, .normal⟩]

theorem prune_exact_stranded :
    stranded.WellFormed ∧
    stranded.prune.nodes.map Node.id = [0, 1] ∧ stranded.prune.predecessors 1 = [⟨0, 1, .normal⟩] ∧
    stranded.prune.exit = some 1 ∧ stranded.prune.exceptionExit = none ∧
    ofGraph stranded = .error ⟨.unreachableNode 2 "exc_exit", .nowhere⟩ ∧
    ∃ w, ofGraph stranded.prune = .ok w := by
  have hg : stranded.WellFormed := ⟨by decide, by decide, by decide, by decide⟩
  obtain ⟨-, -, herror, -, hpruned⟩ := prune_exact hg
  refine ⟨hg, by decide +kernel, by decide +kernel, by decide +kernel, by decide +kernel,
    (herror _).2 ⟨[⟨0, .entry, none, [], []⟩], ⟨2, .exceptionExit, none, [], []⟩,
      [⟨1, .exit, none, [], []⟩], rfl, ?_, ?_, rfl⟩, hpruned⟩
  · intro m hm
    obtain rfl := List.mem_singleton.1 hm
    exact ⟨[], .entry (by decide) rfl⟩
  · rw [← mem_reachable hg (by decide)]
    decide +kernel

end WriteCount

end WriteOnce
