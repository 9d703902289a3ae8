import Mathlib.Data.Finset.Card
import Mathlib.Logic.Relation
import WriteOnce.FlowGraph.Reach
import WriteOnce.Proofs.Path

/-!
# The search finds what can be reached

Every node comes onto the stack once, so the number of nodes that have not been
seen pays for the fuel. When the stack is empty, what was seen is closed under the
successor function. Pruning therefore keeps exactly the paths from the entry.
-/

namespace WriteOnce

theorem nodup_eraseDups {α : Type} [DecidableEq α] (as : List α) : as.eraseDups.Nodup := by
  induction h : as.length using Nat.strong_induction_on generalizing as with
  | _ k ih =>
    cases as with
    | nil => simp
    | cons a as =>
      rw [List.eraseDups_cons]
      refine List.nodup_cons.2 ⟨by simp, ih _ ?_ _ rfl⟩
      have := List.length_filter_le (fun b => !b == a) as
      simp only [List.length_cons] at h
      omega

namespace FlowGraph

section Search

variable {next : Nat → List Nat}

/-- What holds of a search: what is on the stack has been seen, and so have the successors of
everything seen that is not on the stack. -/
structure Searching (next : Nat → List Nat) (stack : List Nat) (seen : Std.TreeSet Nat) : Prop where
  stacked : ∀ i ∈ stack, i ∈ seen
  closed : ∀ i ∈ seen, i ∉ stack → ∀ j ∈ next i, j ∈ seen

/-- The part of some nodes that has not been seen. -/
def unseen (nodes : Finset Nat) (seen : Std.TreeSet Nat) : Finset Nat := nodes.filter (· ∉ seen)

/-- The successors of a node that are met for the first time. -/
def fresh (next : Nat → List Nat) (i : Nat) (seen : Std.TreeSet Nat) : List Nat :=
  (next i).eraseDups.filter fun j => !seen.contains j

theorem mem_fresh {i j : Nat} {seen : Std.TreeSet Nat} :
    j ∈ fresh next i seen ↔ j ∈ next i ∧ j ∉ seen := by
  simp [fresh, List.mem_eraseDups, ← Std.TreeSet.contains_iff_mem]

theorem mem_insertMany_fresh {i j : Nat} {seen : Std.TreeSet Nat} :
    j ∈ seen.insertMany (fresh next i seen) ↔ j ∈ seen ∨ j ∈ next i := by
  rw [Std.TreeSet.mem_insertMany_list]
  simp only [List.contains_iff_mem, mem_fresh]
  by_cases h : j ∈ seen <;> simp [h]

theorem Searching.step {i : Nat} {stack : List Nat} {seen : Std.TreeSet Nat}
    (h : Searching next (i :: stack) seen) :
    Searching next (fresh next i seen ++ stack) (seen.insertMany (fresh next i seen)) where
  stacked j hj := by
    rw [mem_insertMany_fresh]
    rcases List.mem_append.1 hj with hj | hj
    · exact .inr (mem_fresh.1 hj).1
    · exact .inl (h.stacked j (List.mem_cons_of_mem i hj))
  closed j hj hstack k hk := by
    rw [mem_insertMany_fresh] at hj ⊢
    rw [List.mem_append, not_or, mem_fresh] at hstack
    have hseen : j ∈ seen := by
      by_contra hn
      exact hstack.1 ⟨hj.resolve_left hn, hn⟩
    by_cases hij : j = i
    · exact .inr (hij ▸ hk)
    · exact .inl (h.closed j hseen (by simp [hij, hstack.2]) k hk)

theorem card_unseen_fresh {nodes : Finset Nat} (hnext : ∀ i, ∀ j ∈ next i, j ∈ nodes) (i : Nat)
    (seen : Std.TreeSet Nat) :
    (fresh next i seen).length + (unseen nodes (seen.insertMany (fresh next i seen))).card ≤
      (unseen nodes seen).card := by
  have hnodup : (fresh next i seen).Nodup := (nodup_eraseDups (next i)).filter _
  have hcard : (fresh next i seen).length = (fresh next i seen).toFinset.card :=
    (List.toFinset_card_of_nodup hnodup).symm
  have hdisjoint : Disjoint (fresh next i seen).toFinset
      (unseen nodes (seen.insertMany (fresh next i seen))) := by
    rw [Finset.disjoint_left]
    intro j hj hu
    have := (Finset.mem_filter.1 hu).2
    rw [mem_insertMany_fresh, not_or] at this
    exact this.2 (mem_fresh.1 (List.mem_toFinset.1 hj)).1
  rw [hcard, ← Finset.card_union_of_disjoint hdisjoint]
  apply Finset.card_le_card
  intro j hj
  rcases Finset.mem_union.1 hj with hj | hj
  · obtain ⟨hj, hseen⟩ := mem_fresh.1 (List.mem_toFinset.1 hj)
    exact Finset.mem_filter.2 ⟨hnext i j hj, hseen⟩
  · obtain ⟨hj, hseen⟩ := Finset.mem_filter.1 hj
    exact Finset.mem_filter.2 ⟨hj, fun h => hseen (mem_insertMany_fresh.2 (.inl h))⟩

/-- With enough fuel a search ends with a closed set, in which everything was seen before or is
reached from the stack. -/
theorem search_spec {nodes : Finset Nat} (hnext : ∀ i, ∀ j ∈ next i, j ∈ nodes) (fuel : Nat)
    (stack : List Nat) (seen : Std.TreeSet Nat) (h : Searching next stack seen)
    (hfuel : stack.length + (unseen nodes seen).card ≤ fuel) :
    (∀ i ∈ seen, i ∈ search next fuel stack seen) ∧
    (∀ i ∈ search next fuel stack seen, ∀ j ∈ next i, j ∈ search next fuel stack seen) ∧
    ∀ i ∈ search next fuel stack seen,
      i ∈ seen ∨ ∃ j ∈ stack, Relation.ReflTransGen (fun a b => b ∈ next a) j i := by
  induction fuel generalizing stack seen with
  | zero =>
    obtain rfl : stack = [] := List.length_eq_zero_iff.1 (by omega)
    exact ⟨fun _ hi => hi, fun i hi => h.closed i hi (by simp), fun _ hi => .inl hi⟩
  | succ fuel ih =>
    cases stack with
    | nil => exact ⟨fun _ hi => hi, fun i hi => h.closed i hi (by simp), fun _ hi => .inl hi⟩
    | cons i stack =>
      have hcard := card_unseen_fresh hnext i seen
      obtain ⟨hkeep, hclosed, hfrom⟩ := ih (fresh next i seen ++ stack)
        (seen.insertMany (fresh next i seen)) h.step (by
          simp only [List.length_append, List.length_cons] at hfuel ⊢
          omega)
      refine ⟨fun k hk => hkeep k (mem_insertMany_fresh.2 (.inl hk)), hclosed, fun k hk => ?_⟩
      rcases hfrom k hk with hk | ⟨j, hj, hpath⟩
      · rcases mem_insertMany_fresh.1 hk with hk | hk
        · exact .inl hk
        · exact .inr ⟨i, by simp, .single hk⟩
      · rcases List.mem_append.1 hj with hj | hj
        · exact .inr ⟨i, by simp, hpath.head (mem_fresh.1 hj).1⟩
        · exact .inr ⟨j, by simp [hj], hpath⟩

end Search

variable {g : FlowGraph}

/-- An edge leads from one number to another, and paths may go on behind the first. -/
def Onward (g : FlowGraph) (passes : Nat → Bool) (a b : Nat) : Prop :=
  passes a ∧ ∃ e ∈ g.edges, e.source = a ∧ e.target = b

theorem mem_next_iff {passes : Nat → Bool} {a b : Nat} :
    b ∈ (if passes a then g.links.targets a else []) ↔ g.Onward passes a b := by
  split_ifs with h
  · simp [Onward, targets_links, successors, h, and_assoc]
  · simp [Onward, h]

theorem mem_targets_of_next {passes : Nat → Bool} (a b : Nat)
    (h : b ∈ if passes a then g.links.targets a else []) :
    b ∈ (g.edges.map Edge.target).toFinset := by
  obtain ⟨-, e, he, -, rfl⟩ := mem_next_iff.1 h
  exact List.mem_toFinset.2 (List.mem_map_of_mem he)

theorem card_unseen_targets_le (seen : Std.TreeSet Nat) :
    (unseen (g.edges.map Edge.target).toFinset seen).card ≤ g.edges.length := by
  have hunseen := Finset.card_le_card
    (Finset.filter_subset (· ∉ seen) (g.edges.map Edge.target).toFinset)
  have htargets := List.toFinset_card_le (g.edges.map Edge.target)
  rw [List.length_map] at htargets
  exact hunseen.trans htargets

theorem mem_reachFrom {passes : Nat → Bool} {start : List Nat} {i : Nat} :
    i ∈ g.reachFrom g.links passes start ↔
      ∃ j ∈ start, Relation.ReflTransGen (g.Onward passes) j i := by
  have hstart : ∀ j, j ∈ Std.TreeSet.ofList start.eraseDups ↔ j ∈ start := by
    intro j
    rw [Std.TreeSet.mem_ofList, List.contains_iff_mem, List.mem_eraseDups]
  have hsearching : Searching (fun i => if passes i then g.links.targets i else [])
      start.eraseDups (.ofList start.eraseDups) := by
    constructor
    · intro j hj
      exact (hstart j).2 (List.mem_eraseDups.1 hj)
    · intro j hj hn
      exact absurd (List.mem_eraseDups.2 ((hstart j).1 hj)) hn
  obtain ⟨hkeep, hclosed, hfrom⟩ := search_spec mem_targets_of_next
    (start.eraseDups.length + g.edges.length) start.eraseDups (.ofList start.eraseDups) hsearching
    (Nat.add_le_add_left (card_unseen_targets_le _) _)
  change i ∈ search _ _ _ _ ↔ _
  constructor
  · intro hi
    rcases hfrom i hi with hi | ⟨j, hj, hpath⟩
    · exact ⟨i, (hstart i).1 hi, .refl⟩
    · exact ⟨j, List.mem_eraseDups.1 hj, hpath.lift (fun a => a) fun _ _ => mem_next_iff.1⟩
  · rintro ⟨j, hj, hpath⟩
    induction hpath with
    | refl => exact hkeep j ((hstart j).2 hj)
    | tail _ hstep ih => exact hclosed _ ih _ (mem_next_iff.2 hstep)

/-! ## Pruning -/

/-- A node is kept exactly if some path leads to it. -/
theorem mem_reachable (hg : g.WellFormed) {n : Node} (hn : n ∈ g.nodes) :
    n.id ∈ g.reachable ↔ g.Reaches n := by
  rw [reachable, mem_reachFrom]
  simp only [List.mem_singleton, exists_eq_left]
  constructor
  · intro hpath
    generalize hi : n.id = i at hpath
    induction hpath generalizing n with
    | refl => exact ⟨[], .entry hn hi⟩
    | tail _ hstep ih =>
      obtain ⟨-, ⟨source, target, kind⟩, he, hsource, rfl⟩ := hstep
      obtain ⟨m, hm, hid⟩ := hg.source _ he
      obtain ⟨t, ht⟩ := ih hm (hid.trans hsource)
      dsimp only at hid hi
      subst hid hi
      exact ⟨_, ht.step he hn⟩
  · rintro ⟨t, ht⟩
    induction ht with
    | entry _ hid => rw [hid]
    | step _ he _ ih => exact (ih (Arrives.mem ‹_›)).tail ⟨rfl, _, he, rfl, rfl⟩

theorem mem_prune_nodes (hg : g.WellFormed) {n : Node} :
    n ∈ g.prune.nodes ↔ n ∈ g.nodes ∧ g.Reaches n := by
  simp only [prune, List.mem_filter, Std.TreeSet.contains_iff_mem]
  constructor
  · rintro ⟨hn, hr⟩
    exact ⟨hn, (mem_reachable hg hn).1 hr⟩
  · rintro ⟨hn, hr⟩
    exact ⟨hn, (mem_reachable hg hn).2 hr⟩

theorem mem_prune_edges (hg : g.WellFormed) {m : Node} {target : Nat} {kind : EdgeKind}
    (hm : m ∈ g.nodes) :
    ⟨m.id, target, kind⟩ ∈ g.prune.edges ↔ ⟨m.id, target, kind⟩ ∈ g.edges ∧ g.Reaches m := by
  simp only [prune, List.mem_filter, Std.TreeSet.contains_iff_mem, mem_reachable hg hm]

/-- Pruning neither adds nor removes a path from the entry. -/
theorem arrives_prune (hg : g.WellFormed) {t : Trace} {n : Node} :
    g.prune.Arrives t n ↔ g.Arrives t n := by
  constructor
  · intro h
    induction h with
    | entry hn hid => exact .entry ((mem_prune_nodes hg).1 hn).1 hid
    | step _ he hn ih =>
      exact ih.step ((mem_prune_edges hg ih.mem).1 he).1 ((mem_prune_nodes hg).1 hn).1
  · intro h
    induction h with
    | entry hn hid => exact .entry ((mem_prune_nodes hg).2 ⟨hn, _, .entry hn hid⟩) hid
    | step hm he hn ih =>
      exact ih.step ((mem_prune_edges hg hm.mem).2 ⟨he, _, hm⟩)
        ((mem_prune_nodes hg).2 ⟨hn, _, hm.step he hn⟩)

theorem performs_prune (hg : g.WellFormed) {t : Trace} {n : Node} :
    g.prune.Performs t n ↔ g.Performs t n := by
  simp only [Performs, arrives_prune hg]

theorem reaches_prune (hg : g.WellFormed) {n : Node} : g.prune.Reaches n ↔ g.Reaches n := by
  simp only [Reaches, arrives_prune hg]

theorem WellFormed.prune (hg : g.WellFormed) : g.prune.WellFormed where
  nodup := hg.nodup.sublist ((List.filter_sublist).map Node.id)
  entry := by
    obtain ⟨n, hn, hid⟩ := hg.entry
    exact ⟨n, (mem_prune_nodes hg).2 ⟨hn, [], .entry hn hid⟩, hid⟩
  source e he := by
    obtain ⟨n, hn, hid⟩ := hg.source e (List.mem_filter.1 he).1
    obtain ⟨source, target, kind⟩ := e
    dsimp only at hid
    subst hid
    exact ⟨n, (mem_prune_nodes hg).2 ⟨hn, ((mem_prune_edges hg hn).1 he).2⟩, rfl⟩
  target e he := by
    obtain ⟨n, hn, hid⟩ := hg.source e (List.mem_filter.1 he).1
    obtain ⟨m, hm, htarget⟩ := hg.target e (List.mem_filter.1 he).1
    obtain ⟨source, target, kind⟩ := e
    dsimp only at hid htarget
    subst hid htarget
    obtain ⟨he, t, ht⟩ := (mem_prune_edges hg hn).1 he
    exact ⟨m, (mem_prune_nodes hg).2 ⟨hm, _, ht.step he hm⟩, rfl⟩

theorem reaches_of_mem_prune (hg : g.WellFormed) {n : Node} (hn : n ∈ g.prune.nodes) :
    g.prune.Reaches n :=
  (reaches_prune hg).2 ((mem_prune_nodes hg).1 hn).2

/-- The exits stay exactly if they can be reached. -/
theorem mem_filter_reachable (hg : g.WellFormed) {n : Node} (hn : n ∈ g.nodes) {o : Option Nat} :
    o.filter g.reachable.contains = some n.id ↔ o = some n.id ∧ g.Reaches n := by
  simp only [Option.filter_eq_some_iff, Std.TreeSet.contains_iff_mem, mem_reachable hg hn]

/-! ## Cycles -/

/-- An edge leads from `m` to `n`, and `m` does not bind the variable. -/
def Leads (g : FlowGraph) (v : Variable) (m n : Node) : Prop :=
  m ∈ g.nodes ∧ n ∈ g.nodes ∧ m.bindsVar v = false ∧ ∃ kind, ⟨m.id, n.id, kind⟩ ∈ g.edges

/-- The node lies on a cycle none of whose nodes binds the variable. -/
def Cycles (g : FlowGraph) (v : Variable) (n : Node) : Prop := Relation.TransGen (g.Leads v) n n

theorem contains_binders (hg : g.WellFormed) {n : Node} (hn : n ∈ g.nodes) (v : Variable) :
    (g.binders v).contains n.id = n.bindsVar v := by
  rw [Bool.eq_iff_iff, List.contains_iff_mem, binders, List.mem_map]
  constructor
  · rintro ⟨m, hm, hid⟩
    obtain ⟨hm, hbinds⟩ := List.mem_filter.1 hm
    exact hg.eq_of_id hm hn hid ▸ hbinds
  · intro h
    exact ⟨n, List.mem_filter.2 ⟨hn, h⟩, rfl⟩

/-- From a node that does not bind the variable, the search comes back to the node exactly if
there is such a cycle. -/
theorem reachFrom_targets_iff (hg : g.WellFormed) {n : Node} (hn : n ∈ g.nodes) {v : Variable}
    (hv : n.bindsVar v = false) :
    n.id ∈ g.reachFrom g.links (fun i => i ≠ n.id && !(g.binders v).contains i)
      (g.links.targets n.id) ↔ g.Cycles v n := by
  rw [mem_reachFrom, Cycles, Relation.TransGen.head'_iff]
  constructor
  · rintro ⟨j, hj, hpath⟩
    obtain ⟨kind, he⟩ := g.mem_targets_links.1 hj
    obtain ⟨m, hm, rfl⟩ := hg.target _ he
    refine ⟨m, ⟨hn, hm, hv, kind, he⟩, ?_⟩
    clear hj he
    generalize hi : m.id = i at hpath
    induction hpath using Relation.ReflTransGen.head_induction_on generalizing m with
    | refl => exact hg.eq_of_id hm hn hi ▸ .refl
    | head hstep _ ih =>
      obtain ⟨hpass, ⟨source, target, kind⟩, he, rfl, rfl⟩ := hstep
      obtain ⟨k, hk, hid⟩ := hg.target _ he
      have hfree : m.bindsVar v = false := by
        have := (Bool.and_eq_true_iff.1 hpass).2
        rwa [← hi, contains_binders hg hm, Bool.not_eq_true'] at this
      refine (ih k hk hid).head ⟨hm, hk, hfree, kind, ?_⟩
      rwa [hi, hid]
  · rintro ⟨m, ⟨-, -, -, kind, he⟩, hpath⟩
    refine ⟨m.id, g.mem_targets_links.2 ⟨kind, he⟩, ?_⟩
    clear he
    induction hpath using Relation.ReflTransGen.head_induction_on with
    | refl => exact .refl
    | @head k _ hstep _ ih =>
      obtain ⟨hk, -, hfree, kind, he⟩ := hstep
      by_cases hkn : k.id = n.id
      · rw [hkn]
      · refine ih.head ⟨?_, _, he, rfl, rfl⟩
        simp only [contains_binders hg hk, hfree]
        simpa using hkn

/-- For nodes that do not bind the variable themselves the search finds the cycles. -/
theorem loopsWithout_iff (hg : g.WellFormed) {v : Variable} {ids : List Nat}
    (hids : ∀ id ∈ ids, ∃ n ∈ g.nodes, n.id = id ∧ n.bindsVar v = false) :
    g.loopsWithout v ids ↔ ∃ n ∈ g.nodes, n.id ∈ ids ∧ g.Cycles v n := by
  unfold loopsWithout
  simp only [List.any_eq_true, Std.TreeSet.contains_iff_mem]
  constructor
  · rintro ⟨id, hid, h⟩
    obtain ⟨n, hn, rfl, hfree⟩ := hids id hid
    exact ⟨n, hn, hid, (reachFrom_targets_iff hg hn hfree).1 h⟩
  · rintro ⟨n, hn, hid, h⟩
    obtain ⟨m, hm, hmn, hfree⟩ := hids n.id hid
    cases hg.eq_of_id hm hn hmn
    exact ⟨_, hid, (reachFrom_targets_iff hg hn hfree).2 h⟩

end FlowGraph

end WriteOnce
