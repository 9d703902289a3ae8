import Mathlib.Data.Set.Card
import WriteOnce.Proofs.PrunedGraphs

/-!
# How long a sweep takes

A sweep never leaves what can be reached from the entry, and a variable that is neither bound nor
written there never has a count other than zero. A sweep of a graph and one of the pruned graph
therefore go side by side, and the bound of the smaller one holds for both.
-/

namespace WriteOnce

open FlowGraph Counts

variable {g p : FlowGraph}

/-! ## Two graphs side by side -/

namespace Counts

/-- Counts in two graphs that say the same of every variable. -/
structure Agree (g p : FlowGraph) (c d : Counts) : Prop where
  fits : Fits g.vars c
  fits_other : Fits p.vars d
  masks : ∀ v, maskOf g.vars c v = maskOf p.vars d v

variable {b c d e : Counts}

theorem Agree.union (hc : Agree g p c d) (hb : Agree g p b e) :
    Agree g p (c.union b) (d.union e) := by
  obtain ⟨hfit, hmask⟩ := fits_union hc.fits hb.fits
  obtain ⟨hfit', hmask'⟩ := fits_union hc.fits_other hb.fits_other
  exact ⟨hfit, hfit', fun v => by rw [hmask, hmask', hc.masks, hb.masks]⟩

theorem Agree.eq_iff (hc : Agree g p c d) (hb : Agree g p b e) : c = b ↔ d = e := by
  constructor
  · rintro rfl
    exact hc.fits_other.ext hb.fits_other fun v => by rw [← hc.masks, ← hb.masks]
  · rintro rfl
    exact hc.fits.ext hb.fits fun v => by rw [hc.masks, hb.masks]

theorem Agree.through (hc : Agree g p c d) {n : Node} (hn : n ∈ g.nodes) (hn' : n ∈ p.nodes) :
    Agree g p (Sweep.through g.vars n c) (Sweep.through p.vars n d) := by
  obtain ⟨hfit, hmask⟩ := Sweep.fits_through hn hc.fits
  obtain ⟨hfit', hmask'⟩ := Sweep.fits_through hn' hc.fits_other
  exact ⟨hfit, hfit', fun v => by rw [hmask, hmask', hc.masks]⟩

end Counts

namespace Sweep

variable {s s' t : Sweep}

/-- Sweeps of two graphs that have come equally far. -/
structure Alike (g p : FlowGraph) (s s' : Sweep) : Prop where
  queue : s.queue = s'.queue
  visits : s.visits = s'.visits
  before : ∀ id : Nat, Option.Rel (Agree g p) s.before[id]? s'.before[id]?

theorem Alike.insert (h : Alike g p s s') (id : Nat) {c d : Counts} (hc : Agree g p c d) :
    Alike g p { s with before := s.before.insert id c, queue := enqueue s.queue id }
      { s' with before := s'.before.insert id d, queue := enqueue s'.queue id } where
  queue := congrArg (enqueue · id) h.queue
  visits := h.visits
  before i := by
    simp only [Std.TreeMap.getElem?_insert]
    split_ifs
    · exact .some hc
    · exact h.before i

/-- Counts that agree are passed on in both sweeps, or in none of them. -/
theorem Alike.feed (h : Alike g p s s') {b e : Counts} (hb : Agree g p b e) (id : Nat) :
    Alike g p (feed b s id) (feed e s' id) := by
  have hold := h.before id
  unfold Sweep.feed
  revert hold
  cases s.before[id]? with
  | none =>
    cases s'.before[id]? with
    | none => exact fun _ => h.insert id hb
    | some d => exact fun hold => nomatch hold
  | some c =>
    cases s'.before[id]? with
    | none => exact fun hold => nomatch hold
    | some d =>
      rintro (hold | _)
      have hunion := hold.union hb
      simp only [hunion.eq_iff hold]
      split_ifs
      · exact h
      · exact h.insert id hunion

/-- The step lemma: a visit in the whole graph is one in what can be reached of it. -/
theorem Alike.step (hg : g.WellFormed) (hp : g.KeepsReached p) (hs : Comes g s)
    (h : Alike g p s s') (hstep : Step g s t) : ∃ t', Step p s' t' ∧ Alike g p t t' := by
  obtain ⟨hn, hq⟩ := hstep
  rename_i n
  obtain ⟨c, hc⟩ := (hs.invariant hg).queued _ hq
  have hn' : n ∈ p.nodes := (hp.mem_nodes n).2 ((hs.invariant hg).reaches hn hc)
  refine ⟨_, .visit hn' (h.queue ▸ hq), ?_⟩
  obtain ⟨d, hd, hagree⟩ : ∃ d, s'.before[n.id]? = some d ∧ Agree g p c d := by
    have hold := h.before n.id
    rw [hc] at hold
    cases hd : s'.before[n.id]? with
    | none => rw [hd] at hold; exact nomatch hold
    | some d => rw [hd] at hold; exact ⟨d, rfl, by cases hold; assumption⟩
  unfold Sweep.visit
  simp only [Std.TreeMap.getD_eq_getD_getElem?, hc, hd, Option.getD_some, targets_links,
    hp.successors n hn']
  refine List.foldl_rel ?_ fun id _ _ _ h => h.feed (hagree.through hn hn') id
  refine ⟨?_, ?_, h.before⟩
  · exact congrArg (List.erase · n.id) h.queue
  · exact congrArg (· + 1) h.visits

theorem alike_start (hp : g.KeepsReached p) : Alike g p (start g g.vars) (start p p.vars) where
  queue := congrArg (fun id => [id]) hp.entry.symm
  visits := rfl
  before id := by
    rw [getElem?_before_start, getElem?_before_start, hp.entry]
    split_ifs
    · have hzero (vars : List Variable) : Fits vars (vars.map fun _ => Mask.zero) ∧
          maskOf vars (vars.map fun _ => Mask.zero) = fun _ => Mask.zero :=
        fits_map (fun _ => Mask.proper_zero) fun _ _ => rfl
      exact .some ⟨(hzero g.vars).1, (hzero p.vars).1, fun v => by rw [(hzero _).2, (hzero _).2]⟩
    · exact .none

/-- The run lemma: whatever a sweep of a graph comes to, a sweep of what can be reached does. -/
theorem Comes.alike (hg : g.WellFormed) (hp : g.KeepsReached p) (h : Comes g s) :
    ∃ s', Comes p s' ∧ Alike g p s s' := by
  induction h with
  | refl => exact ⟨_, .refl, alike_start hp⟩
  | tail hcomes hstep ih =>
    obtain ⟨s', hcomes', halike⟩ := ih
    obtain ⟨t', hstep', halike'⟩ := halike.step hg hp hcomes hstep
    exact ⟨t', hcomes'.tail hstep', halike'⟩

end Sweep

/-! ## What can be reached, counted -/

namespace FlowGraph

/-- The variables that are bound or written at nodes that can be reached. -/
def ReachedVar (g : FlowGraph) (v : Variable) : Prop :=
  ∃ n, g.Reaches n ∧ (n.bindsVar v ∨ v ∈ n.writes)

theorem mem_vars_iff {v : Variable} :
    v ∈ g.vars ↔ ∃ n ∈ g.nodes, n.bindsVar v ∨ v ∈ n.writes := by
  simp only [vars, bound, written, List.mem_eraseDups, List.mem_append, List.mem_flatMap,
    List.mem_map, Node.bindsVar, List.any_eq_true, decide_eq_true_eq]
  constructor
  · rintro (⟨n, hn, hv⟩ | ⟨n, hn, hv⟩)
    · exact ⟨n, hn, .inl hv⟩
    · exact ⟨n, hn, .inr hv⟩
  · rintro ⟨n, hn, hv | hv⟩
    · exact .inl ⟨n, hn, hv⟩
    · exact .inr ⟨n, hn, hv⟩

theorem ncard_reached (hg : g.WellFormed) : {n | g.Reaches n}.ncard = g.prune.nodes.length := by
  classical
  have hnodup : g.prune.nodes.Nodup := hg.prune.nodup.of_map
  rw [← List.toFinset_card_of_nodup hnodup, ← Set.ncard_coe_finset]
  congr 1
  ext n
  simp [(keepsReached_prune hg).mem_nodes]

theorem ncard_reachedVar (hg : g.WellFormed) :
    {v | g.ReachedVar v}.ncard = g.prune.vars.length := by
  have hnodup : g.prune.vars.Nodup := nodup_eraseDups _
  rw [← List.toFinset_card_of_nodup hnodup, ← Set.ncard_coe_finset]
  congr 1
  ext v
  simp [ReachedVar, mem_vars_iff, (keepsReached_prune hg).mem_nodes]

/-- A search with fuel for everything that it has on its stack or has not seen yet ends with an
empty stack: more fuel changes nothing. -/
theorem search_eq_of_le {next : Nat → List Nat} {nodes : Finset Nat}
    (hnext : ∀ i, ∀ j ∈ next i, j ∈ nodes) {fuel more : Nat} {stack : List Nat}
    {seen : Std.TreeSet Nat} (hfuel : stack.length + (unseen nodes seen).card ≤ fuel)
    (hmore : fuel ≤ more) : search next more stack seen = search next fuel stack seen := by
  induction fuel generalizing more stack seen with
  | zero =>
    obtain rfl : stack = [] := List.length_eq_zero_iff.1 (by omega)
    cases more <;> rfl
  | succ fuel ih =>
    obtain ⟨more, rfl⟩ := Nat.exists_eq_add_of_le' (Nat.le_of_add_left_le hmore)
    cases stack with
    | nil => rfl
    | cons i stack =>
      have hcard := card_unseen_fresh hnext i seen
      have hless : (fresh next i seen ++ stack).length +
          (unseen nodes (seen.insertMany (fresh next i seen))).card ≤ fuel := by
        simp only [List.length_append, List.length_cons] at hfuel ⊢
        omega
      exact ih hless (by omega)

/-- The searches of the graph have such fuel. -/
theorem search_eq_reachFrom {passes : Nat → Bool} {start : List Nat} {fuel : Nat}
    (hfuel : start.eraseDups.length + g.edges.length ≤ fuel) :
    search (fun id => if passes id then g.links.targets id else []) fuel start.eraseDups
      (.ofList start.eraseDups) = g.reachFrom g.links passes start :=
  search_eq_of_le mem_targets_of_next (Nat.add_le_add_left (card_unseen_targets_le _) _) hfuel

end FlowGraph

/-! ## Rounds of the loop -/

namespace Sweep

/-- With some fuel the loop makes that many rounds, unless the queue is empty before. -/
theorem exists_run_eq_iterate (links : Links) (vars : List Variable) (fuel : Nat) (s : Sweep) :
    ∃ rounds ≤ fuel, run g links vars fuel s = (advance g links vars)^[rounds] s ∧
      ∀ k < rounds, ((advance g links vars)^[k] s).queue ≠ [] := by
  induction fuel generalizing s with
  | zero => exact ⟨0, le_rfl, rfl, fun _ hk => absurd hk (Nat.not_lt_zero _)⟩
  | succ fuel ih =>
    unfold run
    split_ifs with hq
    · exact ⟨0, Nat.zero_le _, rfl, fun _ hk => absurd hk (Nat.not_lt_zero _)⟩
    · obtain ⟨rounds, hle, heq, hqueue⟩ := ih (advance g links vars s)
      refine ⟨rounds + 1, Nat.succ_le_succ hle, heq, fun k hk => ?_⟩
      cases k with
      | zero => exact fun h => hq (List.isEmpty_iff.2 h)
      | succ k => exact hqueue k (Nat.lt_of_succ_lt_succ hk)

theorem comes_iterate (hg : g.WellFormed) {rounds : Nat}
    (hqueue : ∀ k < rounds, ((advance g g.links g.vars)^[k] (start g g.vars)).queue ≠ []) :
    Comes g ((advance g g.links g.vars)^[rounds] (start g g.vars)) ∧
      ((advance g g.links g.vars)^[rounds] (start g g.vars)).visits = rounds := by
  induction rounds with
  | zero => exact ⟨.refl, rfl⟩
  | succ rounds ih =>
    obtain ⟨hcomes, hvisits⟩ := ih fun k hk => hqueue k (Nat.lt_succ_of_lt hk)
    have hstep := hcomes.advance hg (hqueue rounds (Nat.lt_succ_self _))
    rw [Function.iterate_succ_apply']
    exact ⟨hcomes.tail hstep, by rw [hstep.visits_eq, hvisits]⟩

theorem Comes.visits_le {s : Sweep} (hg : g.WellFormed) (h : Comes g s) :
    s.visits ≤ {n | g.Reaches n}.ncard * (1 + 2 * {v | g.ReachedVar v}.ncard) := by
  obtain ⟨s', hcomes, halike⟩ := h.alike hg (keepsReached_prune hg)
  rw [ncard_reached hg, ncard_reachedVar hg, halike.visits]
  calc s'.visits ≤ budget g.prune s' := by unfold budget; omega
    _ ≤ bound g.prune g.prune.vars := hcomes.budget_le hg.prune

end Sweep

namespace WriteCount

open Sweep

/-- The write counts of a graph are found in finitely many steps, whatever its edges and writes
are. The loop goes round a certain number of times and then finds its queue empty; this number is
at most the number of nodes that can be reached times one more than twice the number of variables
that are bound or written there. No order in which nodes are taken from the queue exceeds this.
The searches for reasons end as well: they find nothing more with more fuel. -/
theorem ofGraph_steps_le (hg : g.WellFormed) :
    let most := {n | g.Reaches n}.ncard * (1 + 2 * {v | g.ReachedVar v}.ncard)
    (∃ rounds ≤ most,
      (∀ k < rounds, ((advance g g.links g.vars)^[k] (start g g.vars)).queue ≠ []) ∧
      ((advance g g.links g.vars)^[rounds] (start g g.vars)).queue = [] ∧
      ofGraph g = ofSweep g g.vars ((advance g g.links g.vars)^[rounds] (start g g.vars)) ∧
      ∀ w, ofGraph g = .ok w → w.sweep.visits = rounds) ∧
    (∀ s, Comes g s → s.visits ≤ most) ∧
    ∀ passes nodes fuel, nodes.eraseDups.length + g.edges.length ≤ fuel →
      search (fun id => if passes id then g.links.targets id else []) fuel nodes.eraseDups
        (.ofList nodes.eraseDups) = g.reachFrom g.links passes nodes := by
  refine ⟨?_, fun s hs => hs.visits_le hg, fun _ _ _ => search_eq_reachFrom⟩
  obtain ⟨rounds, -, hrun, hqueue⟩ :=
    exists_run_eq_iterate (g := g) g.links g.vars (bound g g.vars) (start g g.vars)
  obtain ⟨hcomes, hvisits⟩ := comes_iterate hg hqueue
  refine ⟨rounds, hvisits ▸ hcomes.visits_le hg, hqueue, ?_, ?_, fun w hw => ?_⟩
  · rw [← hrun]
    exact (comes_finish hg).2
  · rw [← hrun]
    rfl
  · unfold ofGraph ofSweep at hw
    split at hw
    · cases hw
    · cases hw
      rw [← hvisits, ← hrun]
      rfl

/-- The node of a write leads to itself by two edges, and a node that nothing leads to binds
another variable. -/
def circling : FlowGraph where
  label := "f"
  entry := 0
  exit := none
  exceptionExit := none
  nodes := [⟨0, .declare, none, [⟨rewritten, false⟩], []⟩, ⟨1, .write, none, [], [rewritten]⟩,
    ⟨2, .declare, none, [⟨{ rewritten with name := "y" }, true⟩], []⟩]
  edges := [⟨0, 1, .normal⟩, ⟨1, 1, .loopBack⟩, ⟨1, 1, .continueOn⟩, ⟨2, 1, .normal⟩]

theorem ofGraph_steps_le_circling :
    circling.WellFormed ∧ circling.prune.nodes.length = 2 ∧ circling.prune.vars.length = 1 ∧
    (∀ s, Comes circling s → s.visits ≤ 6) ∧
    (finish circling circling.vars).visits = 4 := by
  have hg : circling.WellFormed := ⟨by decide, by decide, by decide, by decide⟩
  have hnodes : circling.prune.nodes.length = 2 := by decide +kernel
  have hvars : circling.prune.vars.length = 1 := by decide +kernel
  obtain ⟨-, hany, -⟩ := ofGraph_steps_le hg
  rw [ncard_reached hg, ncard_reachedVar hg, hnodes, hvars] at hany
  exact ⟨hg, hnodes, hvars, hany, by decide +kernel⟩

end WriteCount

end WriteOnce
