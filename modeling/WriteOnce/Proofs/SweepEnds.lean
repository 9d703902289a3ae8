import Mathlib.Algebra.GroupWithZero.Nat
import Mathlib.Algebra.Order.BigOperators.Group.List
import Mathlib.Algebra.Order.Group.Nat
import WriteOnce.Proofs.Sweep

/-!
# Every sweep ends

Every time a node is queued, room for growth in front of it is used up. The visits
that were made, that are due and that can still become due are therefore bounded,
and the fuel of the program's own sweep is enough.
-/

namespace WriteOnce

open FlowGraph Counts

variable {g : FlowGraph}

namespace Sweep

/-- How often the counts in front of a node can still grow; a node that was never met can be
queued once more than that. -/
def room (g : FlowGraph) (s : Sweep) (n : Node) : Nat :=
  match s.before[n.id]? with
  | none => 1 + 2 * g.vars.length
  | some c => (g.vars.map fun v => 3 - (maskOf g.vars c v).size).sum

/-- Visits made, visits due and visits that can still become due. -/
def budget (g : FlowGraph) (s : Sweep) : Nat :=
  s.visits + s.queue.length + (g.nodes.map (room g s)).sum

theorem sum_room_le {c : Counts} (hc : Fits g.vars c) :
    (g.vars.map fun v => 3 - (maskOf g.vars c v).size).sum ≤ 2 * g.vars.length := by
  calc (g.vars.map fun v => 3 - (maskOf g.vars c v).size).sum
      ≤ (g.vars.map fun _ => 2).sum := by
        apply List.sum_le_sum
        intro v _
        have := (hc.proper v).one_le_size
        omega
    _ = 2 * g.vars.length := by simp [Nat.mul_comm]

theorem room_union_lt {b d : Counts} (hd : Fits g.vars d) (hb : Fits g.vars b)
    (h : d.union b ≠ d) :
    (g.vars.map fun v => 3 - (maskOf g.vars (d.union b) v).size).sum <
      (g.vars.map fun v => 3 - (maskOf g.vars d v).size).sum := by
  obtain ⟨hfit, hmask⟩ := fits_union hd hb
  have hlt : ∀ v, maskOf g.vars (d.union b) v ≠ maskOf g.vars d v →
      (maskOf g.vars d v).size < (maskOf g.vars (d.union b) v).size := by
    intro v hv
    rw [hmask] at hv ⊢
    exact (hd.proper v).size_lt_union (hb.proper v) hv
  refine List.sum_lt_sum _ _ (fun v _ => ?_) ?_
  · by_cases hv : maskOf g.vars (d.union b) v = maskOf g.vars d v
    · rw [hv]
    · have := hlt v hv
      omega
  · obtain ⟨v, hv⟩ : ∃ v, maskOf g.vars (d.union b) v ≠ maskOf g.vars d v := by
      by_contra hall
      exact h (hfit.ext hd fun v => not_not.1 fun hv => hall ⟨v, hv⟩)
    refine ⟨v, ?_, ?_⟩
    · by_contra hmem
      rw [maskOf_of_not_mem hfit hmem, maskOf_of_not_mem hd hmem] at hv
      exact hv rfl
    · have := hlt v hv
      have := Mask.size_le (maskOf g.vars (d.union b) v)
      omega

theorem length_enqueue_le (queue : List Nat) (id : Nat) :
    (enqueue queue id).length ≤ queue.length + 1 := by
  unfold enqueue
  split_ifs <;> simp

/-- Feeding a node queues it only at the cost of its room. -/
theorem budget_feed_le {b : Counts} {s : Sweep} {n : Node} (hg : g.WellFormed) (hn : n ∈ g.nodes)
    (hb : Fits g.vars b) (hs : ∀ (id : Nat) c, s.before[id]? = some c → Fits g.vars c) :
    budget g (feed b s n.id) ≤ budget g s := by
  rcases feed_cases b s n.id with ⟨heq, -⟩ | ⟨new, heq, hnew⟩
  · rw [heq]
  · have hlt : (g.vars.map fun v => 3 - (maskOf g.vars new v).size).sum < room g s n := by
      unfold room
      rcases hnew with ⟨hnone, rfl⟩ | ⟨d, hd, rfl, hne⟩
      · rw [hnone]
        have := sum_room_le hb
        dsimp only
        omega
      · rw [hd]
        exact room_union_lt (hs _ _ hd) hb hne
    have hroom : (g.nodes.map (room g (feed b s n.id))).sum < (g.nodes.map (room g s)).sum := by
      have at_n : room g (feed b s n.id) n < room g s n := by
        simpa [heq, room, Std.TreeMap.getElem?_insert_self] using hlt
      refine List.sum_lt_sum _ _ (fun m hm => ?_) ⟨n, hn, at_n⟩
      by_cases hmn : m = n
      · exact hmn ▸ at_n.le
      · have hid : n.id ≠ m.id := fun hid => hmn (hg.eq_of_id hm hn hid.symm)
        simp [heq, room, Std.TreeMap.getElem?_insert, hid]
    have hlen := length_enqueue_le s.queue n.id
    unfold budget
    rw [heq] at hroom ⊢
    dsimp only at hroom ⊢
    omega

theorem fits_feed {b : Counts} {s : Sweep} {id : Nat} (hb : Fits g.vars b)
    (hs : ∀ (i : Nat) c, s.before[i]? = some c → Fits g.vars c) :
    ∀ (i : Nat) c, (feed b s id).before[i]? = some c → Fits g.vars c := by
  intro i c hc
  rcases feed_cases b s id with ⟨heq, -⟩ | ⟨new, heq, hnew⟩
  · exact hs i c (heq ▸ hc)
  · rw [heq, Std.TreeMap.getElem?_insert] at hc
    split_ifs at hc
    · exact Option.some.inj hc ▸ (fits_fed hb hs hnew).1
    · exact hs i c hc

theorem budget_feedAll_le {b : Counts} (hg : g.WellFormed) (hb : Fits g.vars b) :
    ∀ (targets : List Nat) (s : Sweep), (∀ t ∈ targets, ∃ n ∈ g.nodes, n.id = t) →
      (∀ (id : Nat) c, s.before[id]? = some c → Fits g.vars c) →
      budget g (targets.foldl (feed b) s) ≤ budget g s := by
  intro targets
  induction targets with
  | nil => exact fun _ _ _ => le_rfl
  | cons t ts ih =>
    intro s ht hs
    obtain ⟨n, hn, rfl⟩ := ht t (by simp)
    exact (ih _ (fun t' ht' => ht t' (by simp [ht'])) (fits_feed hb hs)).trans
      (budget_feed_le hg hn hb hs)

theorem visits_foldl_feed (b : Counts) (targets : List Nat) (s : Sweep) :
    (targets.foldl (feed b) s).visits = s.visits := by
  induction targets generalizing s with
  | nil => rfl
  | cons t ts ih =>
    rw [List.foldl_cons, ih]
    rcases feed_cases b s t with ⟨heq, -⟩ | ⟨new, heq, -⟩ <;> rw [heq]

theorem Step.visits_eq {s s' : Sweep} (hs : Step g s s') : s'.visits = s.visits + 1 := by
  obtain ⟨_, _⟩ := hs
  exact visits_foldl_feed _ _ _

theorem Step.budget_le {s s' : Sweep} (hs : Step g s s') (hg : g.WellFormed)
    (h : Invariant g (fun _ => False) s) : budget g s' ≤ budget g s := by
  obtain ⟨hn, hq⟩ := hs
  rename_i n
  obtain ⟨c, hc⟩ := h.queued _ hq
  have hbefore : s.before.getD n.id [] = c := by
    rw [Std.TreeMap.getD_eq_getD_getElem?, hc, Option.getD_some]
  have htargets : ∀ t ∈ g.links.targets n.id, ∃ m ∈ g.nodes, m.id = t := by
    intro t ht
    obtain ⟨kind, he⟩ := g.mem_targets_links.1 ht
    exact hg.target _ he
  unfold Sweep.visit
  simp only [hbefore]
  refine (budget_feedAll_le hg (fits_through hn (h.fits _ _ hc)).1 _ _ htargets ?_).trans ?_
  · exact h.fits
  have hlen := List.length_erase_of_mem hq
  have hpos := List.length_pos_of_mem hq
  simp only [budget, hlen]
  change s.visits + 1 + (s.queue.length - 1) + (g.nodes.map (room g s)).sum ≤ _
  omega

theorem budget_start_le (hg : g.WellFormed) : budget g (start g g.vars) ≤ bound g g.vars := by
  obtain ⟨n, hn, hid⟩ := hg.entry
  have hfit := (fits_map (f := fun _ : Variable => Mask.zero)
    (fun _ => Mask.proper_zero) (fun v (_ : v ∉ g.vars) => rfl)).1
  have hroom : ∀ m, room g (start g g.vars) m ≤ 1 + 2 * g.vars.length := by
    intro m
    unfold room
    rw [getElem?_before_start]
    split_ifs
    · exact (sum_room_le hfit).trans (Nat.le_add_left _ _)
    · exact le_rfl
  have hlt : (g.nodes.map (room g (start g g.vars))).sum <
      (g.nodes.map fun _ => 1 + 2 * g.vars.length).sum := by
    refine List.sum_lt_sum _ _ (fun m _ => hroom m) ⟨n, hn, ?_⟩
    unfold room
    rw [getElem?_before_start, if_pos hid.symm]
    exact Nat.lt_one_add_iff.2 (sum_room_le hfit)
  have hbound : (g.nodes.map fun _ => 1 + 2 * g.vars.length).sum = bound g g.vars := by
    simp [bound]
  simp only [budget, start, List.length_singleton] at hlt ⊢
  omega

/-- No sweep makes more visits than its bound, in whatever order it visits. -/
theorem Comes.budget_le {s : Sweep} (hg : g.WellFormed) (h : Comes g s) :
    budget g s ≤ bound g g.vars := by
  induction h with
  | refl => exact budget_start_le hg
  | tail hr hs ih => exact (hs.budget_le hg (Comes.invariant hg hr)).trans ih

/-- Taking nodes from the head of the queue is one of the orders. -/
theorem Comes.advance {s : Sweep} (hg : g.WellFormed) (h : Comes g s) (hq : s.queue ≠ []) :
    Step g s (advance g g.links g.vars s) := by
  obtain ⟨id, queue, heq⟩ := List.exists_cons_of_ne_nil hq
  have hid : id ∈ s.queue := by simp [heq]
  obtain ⟨c, hc⟩ := (h.invariant hg).queued id hid
  obtain ⟨n, hn, rfl⟩ := (h.invariant hg).node id c hc
  have hstep := Step.visit hn hid
  have herase : s.queue.erase n.id = queue := by rw [heq, List.erase_cons_head]
  unfold Sweep.advance
  rw [heq]
  simp only [hg.node?_eq hn]
  rwa [herase] at hstep

theorem comes_run {s : Sweep} (hg : g.WellFormed) (fuel : Nat) (h : Comes g s) :
    Comes g (run g g.links g.vars fuel s) ∧
      ((run g g.links g.vars fuel s).queue = [] ∨
        (run g g.links g.vars fuel s).visits = s.visits + fuel) := by
  induction fuel generalizing s with
  | zero => exact ⟨h, .inr rfl⟩
  | succ fuel ih =>
    unfold run
    split_ifs with hq
    · exact ⟨h, .inl (List.isEmpty_iff.1 hq)⟩
    · have hstep := h.advance hg fun heq => hq (List.isEmpty_iff.2 heq)
      obtain ⟨hcomes, hend⟩ := ih (h.tail hstep)
      refine ⟨hcomes, hend.imp_right fun hv => ?_⟩
      rw [hv, hstep.visits_eq]
      omega

/-- The fuel of the sweep suffices: it ends with an empty queue. -/
theorem comes_finish (hg : g.WellFormed) :
    Comes g (finish g g.vars) ∧ (finish g g.vars).queue = [] := by
  unfold finish
  obtain ⟨hcomes, hend⟩ := comes_run hg (bound g g.vars) .refl
  refine ⟨hcomes, hend.elim (fun h => h) fun hv => ?_⟩
  have hbudget := hcomes.budget_le hg
  unfold budget at hbudget
  rw [hv] at hbudget
  exact List.length_eq_zero_iff.1 (by omega)

end Sweep

end WriteOnce
