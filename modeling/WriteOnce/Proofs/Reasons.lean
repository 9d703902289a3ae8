import WriteOnce.Proofs.Masks
import WriteOnce.Proofs.Reach

/-!
# Reasons as properties of paths

A node that writes a variable and lies on a cycle without a binding of the variable
is met a second time with the count that its own write has left. Such a write is
therefore always among those that overwrite the variable, and looking for cycles
only there misses none.
-/

namespace WriteOnce

namespace Trace

/-- Without a binding the count does not fall. -/
theorem le_foldl_tally {v : Variable} {t : Trace} (ht : ∀ hasValue, .bind v hasValue ∉ t)
    (count : Nat) : count ≤ t.foldl (tally v) count := by
  induction t generalizing count with
  | nil => exact le_rfl
  | cons e t ih =>
    have hstep : count ≤ tally v count e := by
      cases e with
      | bind w hasValue =>
        have hne : w ≠ v := by
          rintro rfl
          exact ht hasValue (.head _)
        rw [tally, if_neg hne]
      | write w =>
        rw [tally]
        split_ifs <;> omega
    exact hstep.trans (ih (fun hasValue h => ht hasValue (.tail _ h)) _)

theorem lt_foldl_tally {v : Variable} {t : Trace} (ht : ∀ hasValue, .bind v hasValue ∉ t)
    (hv : .write v ∈ t) (count : Nat) : count < t.foldl (tally v) count := by
  obtain ⟨pre, post, rfl⟩ := List.append_of_mem hv
  have hpre : count ≤ pre.foldl (tally v) count :=
    le_foldl_tally (fun hasValue h => ht hasValue (List.mem_append_left _ h)) count
  have hpost : pre.foldl (tally v) count + 1 ≤
      post.foldl (tally v) (pre.foldl (tally v) count + 1) :=
    le_foldl_tally (fun hasValue h => ht hasValue (List.mem_append_right _ (.tail _ h))) _
  rw [List.foldl_append, List.foldl_cons, tally, if_pos rfl]
  omega

end Trace

namespace FlowGraph

variable {g : FlowGraph} {v : Variable} {n : Node}

def Binds (g : FlowGraph) (v : Variable) : Prop := ∃ n, g.Reaches n ∧ n.bindsVar v

def Writes (g : FlowGraph) (v : Variable) : Prop := ∃ n, g.Reaches n ∧ v ∈ n.writes

/-- A node that can be reached writes the variable and lies on a cycle none of whose nodes binds
it. -/
def WritesInLoop (g : FlowGraph) (v : Variable) : Prop :=
  ∃ n, g.Reaches n ∧ v ∈ n.writes ∧ g.Cycles v n

/-- Some path writes the variable when it has been written since its last binding. -/
def WritesAgain (g : FlowGraph) (v : Variable) : Prop := ∃ n, g.Overwrites n v

theorem Reaches.mem (h : g.Reaches n) : n ∈ g.nodes := by
  obtain ⟨t, ht⟩ := h
  exact ht.mem

theorem Overwrites.reaches (h : g.Overwrites n v) : g.Reaches n := by
  obtain ⟨t, _, _, ht, _⟩ := h
  exact ⟨t, ht⟩

theorem Overwrites.mem_writes (h : g.Overwrites n v) : v ∈ n.writes := by
  obtain ⟨_, pre, post, _, htrace, _⟩ := h
  exact Node.write_mem_trace.1 (htrace ▸ List.mem_append_right _ (.head _))

theorem mem_bound (hr : ∀ n ∈ g.nodes, g.Reaches n) : v ∈ g.bound ↔ g.Binds v := by
  simp only [bound, List.mem_eraseDups, List.mem_flatMap, List.mem_map, Binds, Node.bindsVar,
    List.any_eq_true, decide_eq_true_eq]
  constructor
  · rintro ⟨n, hn, b, hb, rfl⟩
    exact ⟨n, hr n hn, b, hb, rfl⟩
  · rintro ⟨n, hn, b, hb, rfl⟩
    exact ⟨n, hn.mem, b, hb, rfl⟩

theorem mem_written (hr : ∀ n ∈ g.nodes, g.Reaches n) : v ∈ g.written ↔ g.Writes v := by
  simp only [written, List.mem_eraseDups, List.mem_flatMap, Writes]
  constructor
  · rintro ⟨n, hn, hv⟩
    exact ⟨n, hr n hn, hv⟩
  · rintro ⟨n, hn, hv⟩
    exact ⟨n, hn.mem, hv⟩

theorem Node.bind_not_mem_trace (h : n.bindsVar v = false) (hasValue : Bool) :
    .bind v hasValue ∉ n.trace := by
  intro hmem
  have hbinds : n.bindsVar v = true :=
    List.any_eq_true.2 ⟨_, Node.bind_mem_trace.1 hmem, decide_eq_true rfl⟩
  rw [h] at hbinds
  cases hbinds

/-- Behind a write that is followed by no binding, the count stays above zero. -/
theorem arrives_of_leads {m : Node} (hn : g.Reaches n) (hv : v ∈ n.writes)
    (h : Relation.TransGen (g.Leads v) n m) : ∃ t, g.Arrives t m ∧ 1 ≤ Trace.count v t := by
  induction h with
  | single hlead =>
    obtain ⟨-, hm, hfree, kind, he⟩ := hlead
    obtain ⟨t, ht⟩ := hn
    refine ⟨_, ht.step he hm, ?_⟩
    have hlt := Trace.lt_foldl_tally (Node.bind_not_mem_trace hfree)
      (Node.write_mem_trace.2 hv) (Trace.count v t)
    rw [Trace.count_append]
    omega
  | tail _ hlead ih =>
    obtain ⟨-, hm, hfree, kind, he⟩ := hlead
    obtain ⟨t, ht, hcount⟩ := ih
    refine ⟨_, ht.step he hm, ?_⟩
    rw [Trace.count_append]
    exact hcount.trans (Trace.le_foldl_tally (Node.bind_not_mem_trace hfree) _)

theorem Cycles.bindsVar_eq_false (h : g.Cycles v n) : n.bindsVar v = false := by
  obtain ⟨_, hlead, _⟩ := Relation.TransGen.head'_iff.1 h
  exact hlead.2.2.1

/-- A write on a cycle without a binding overwrites the variable in the second round. -/
theorem overwrites_of_cycles (hn : g.Reaches n) (hv : v ∈ n.writes) (h : g.Cycles v n) :
    g.Overwrites n v := by
  obtain ⟨t, ht, hcount⟩ := arrives_of_leads hn hv h
  obtain ⟨pre, post, htrace⟩ := List.append_of_mem (Node.write_mem_trace.2 hv)
  refine ⟨t, pre, post, ht, htrace, ?_⟩
  rw [Trace.count_append]
  refine hcount.trans (Trace.le_foldl_tally (fun hasValue hmem => ?_) _)
  apply Node.bind_not_mem_trace h.bindsVar_eq_false hasValue
  rw [htrace]
  exact List.mem_append_left _ hmem

/-- No node both binds and writes. -/
def Exclusive (g : FlowGraph) : Prop := ∀ n ∈ g.nodes, n.binds = [] ∨ n.writes = []

theorem Exclusive.bindsVar_eq_false (hg : g.Exclusive) (hn : n ∈ g.nodes) (hv : v ∈ n.writes) :
    n.bindsVar v = false := by
  rcases hg n hn with hbinds | hwrites
  · simp [Node.bindsVar, hbinds]
  · rw [hwrites] at hv
    cases hv

end FlowGraph

namespace WriteCount

open FlowGraph Sweep

variable {g : FlowGraph} {w : WriteCount}

open Classical in
/-- What the program finds to be the reason is one by the paths of the graph. -/
theorem reason?_eq (hg : g.WellFormed) (hr : ∀ n ∈ g.nodes, g.Reaches n) (he : g.Exclusive)
    (hw : ofGraph g = .ok w) (v : Variable) : w.reason? v =
      if g.WritesInLoop v then some .writtenInLoop
      else if g.WritesAgain v then some .multipleWrites else none := by
  cases (ofGraph_eq_ok hg hr).symm.trans hw
  obtain ⟨hcomes, hq⟩ := comes_finish hg
  have hmem := Comes.mem_overwritesOf hg hcomes hq v
  unfold reason?
  cases hids : (mk g g.vars (finish g g.vars)).overwritesOf v with
  | nil =>
    have hnone : ¬g.WritesAgain v := by
      rintro ⟨n, hn⟩
      have := (hmem n.id).2 ⟨n, hn.reaches.mem, rfl, hn⟩
      rw [hids] at this
      cases this
    have hloop : ¬g.WritesInLoop v := by
      rintro ⟨n, hn, hv, hcycle⟩
      exact hnone ⟨n, overwrites_of_cycles hn hv hcycle⟩
    rw [if_neg hloop, if_neg hnone]
  | cons id ids =>
    rw [hids] at hmem
    have hagain : g.WritesAgain v := by
      obtain ⟨n, _, _, hn⟩ := (hmem id).1 (.head _)
      exact ⟨n, hn⟩
    have hloops : g.loopsWithout v (id :: ids) ↔ g.WritesInLoop v := by
      rw [loopsWithout_iff hg]
      · constructor
        · rintro ⟨n, hn, hid, hcycle⟩
          obtain ⟨m, hm, hmn, hover⟩ := (hmem n.id).1 hid
          cases hg.eq_of_id hm hn hmn
          exact ⟨n, hr n hn, hover.mem_writes, hcycle⟩
        · rintro ⟨n, hn, hv, hcycle⟩
          exact ⟨n, hn.mem, (hmem n.id).2 ⟨n, hn.mem, rfl, overwrites_of_cycles hn hv hcycle⟩,
            hcycle⟩
      · intro i hi
        obtain ⟨n, hn, hid, hover⟩ := (hmem i).1 hi
        exact ⟨n, hn, hid, he.bindsVar_eq_false hn hover.mem_writes⟩
    rw [if_pos hagain]
    by_cases h : g.WritesInLoop v
    · rw [if_pos h]
      exact congrArg some (if_pos (hloops.2 h))
    · rw [if_neg h]
      exact congrArg some (if_neg fun hl => h (hloops.1 hl))

end WriteCount

end WriteOnce
