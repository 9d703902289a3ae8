import WriteOnce.Proofs.SweepEnds
import WriteOnce.WriteCount.Result

/-!
# The write counts are exact

What a sweep says when it has ended, in whatever order it visited the nodes, is what
can happen on paths.
-/

namespace WriteOnce

open FlowGraph Counts

variable {g : FlowGraph}

namespace WriteCount

open Sweep

variable {s : Sweep}

theorem maskAfter_eq_maskOf {n : Node} {c : Counts}
    (h : s.behind[n.id]? = some c) (v : Variable) :
    (mk g g.vars s).maskAfter n.id v = maskOf g.vars c v := by
  unfold maskAfter masks maskOf
  dsimp only
  rw [Std.TreeMap.getD_eq_getD_getElem?, h, Option.getD_some]

theorem Comes.reached_settled (hg : g.WellFormed) (h : Comes g s) (hq : s.queue = []) {n : Node}
    (hr : g.Reaches n) :
    ∃ c, s.before[n.id]? = some c ∧ Settled g (fun _ => False) s n c := by
  obtain ⟨t, ht⟩ := hr
  obtain ⟨c, hc, -⟩ := h.arriving hg hq ht
  exact ⟨c, hc, (h.invariant hg).settled n ht.mem c hc (by simp [hq])⟩

/-- Behind a node that can be reached, the masks of an ended sweep are proper and hold the classes
of all paths through the node. -/
theorem Comes.maskAfter (hg : g.WellFormed) (h : Comes g s) (hq : s.queue = []) {n : Node}
    (hr : g.Reaches n) (v : Variable) :
    ((mk g g.vars s).maskAfter n.id v).Proper ∧
      ∀ k, ((mk g g.vars s).maskAfter n.id v).has k ↔ Leaving g n v k := by
  obtain ⟨c, hc, hsettled⟩ := Comes.reached_settled hg h hq hr
  obtain ⟨t, ht⟩ := hr
  have inv := h.invariant hg
  have hproper := (inv.fits _ _ hc).proper v
  rw [maskAfter_eq_maskOf hsettled.behind, (fits_through ht.mem (inv.fits _ _ hc)).2]
  refine ⟨n.proper_behind hproper v, fun k => ?_⟩
  rw [n.has_behind hproper, leaving_iff]
  constructor
  · rintro ⟨j, hj, hk⟩
    exact ⟨j, inv.realized n ht.mem c hc v j hj, hk⟩
  · rintro ⟨_, ⟨u, hu, rfl⟩, hk⟩
    obtain ⟨d, hd, hhas⟩ := h.arriving hg hq hu
    obtain rfl : c = d := Option.some.inj (hc.symm.trans hd)
    exact ⟨_, hhas v, hk⟩

/-- An ended sweep has found exactly the nodes that can write a variable again. -/
theorem Comes.mem_overwritesOf (hg : g.WellFormed) (h : Comes g s) (hq : s.queue = [])
    (v : Variable) (id : Nat) :
    id ∈ (mk g g.vars s).overwritesOf v ↔ ∃ n ∈ g.nodes, n.id = id ∧ g.Overwrites n v := by
  have inv := h.invariant hg
  simp only [overwritesOf, List.mem_map, List.mem_filter, decide_eq_true_eq]
  constructor
  · rintro ⟨⟨w, i⟩, ⟨hmem, rfl⟩, rfl⟩
    exact inv.overwrites w i hmem
  · rintro ⟨n, hn, rfl, hover⟩
    obtain ⟨j, ⟨t, ht, rfl⟩, hrew⟩ := overwrites_iff_arriving.1 hover
    obtain ⟨c, hc, hhas⟩ := h.arriving hg hq ht
    have hsettled := inv.settled n hn c hc (by simp [hq])
    refine ⟨(v, n.id), ⟨hsettled.overwrites v ?_, rfl⟩, rfl⟩
    exact (n.overwrites_iff ((inv.fits _ _ hc).proper v) v).2 ⟨_, hhas v, hrew⟩

theorem ofGraph_eq_ok (hg : g.WellFormed) (hr : ∀ n ∈ g.nodes, g.Reaches n) :
    ofGraph g = .ok ⟨g, g.vars, finish g g.vars⟩ := by
  obtain ⟨hcomes, hq⟩ := comes_finish hg
  have hnone : unreached? g (finish g g.vars) = none := by
    refine List.find?_eq_none.2 fun n hn => ?_
    obtain ⟨c, -, hsettled⟩ := Comes.reached_settled hg hcomes hq (hr n hn)
    simp [Std.TreeMap.contains_eq_isSome_getElem?, hsettled.behind]
  unfold ofGraph ofSweep
  rw [hnone]

/-- The write counts of a graph all of whose nodes can be reached. Nodes may be taken out of the
queue in any order: every sweep that has ended gives the masks that the program's own sweep
gives. The class of a count is in the mask behind a node exactly if some path through the node
leaves the variable with such a count, and a node is among those that overwrite a variable
exactly if some path to it performs one of its writes when the count is at least one. -/
theorem masks_and_overwrites_exact (hg : g.WellFormed) (hr : ∀ n ∈ g.nodes, g.Reaches n) :
    (ofGraph g = .ok ⟨g, g.vars, finish g g.vars⟩ ∧
      Comes g (finish g g.vars) ∧ (finish g g.vars).queue = []) ∧
    ∀ s, Comes g s → s.queue = [] → ∀ v,
      (∀ n ∈ g.nodes,
        (mk g g.vars s).maskAfter n.id v = (mk g g.vars (finish g g.vars)).maskAfter n.id v ∧
        ∀ k, ((mk g g.vars s).maskAfter n.id v).has k ↔
          ∃ t, g.Performs t n ∧ CountClass.of (Trace.count v t) = k) ∧
      ∀ id, id ∈ (mk g g.vars s).overwritesOf v ↔
        ∃ n ∈ g.nodes, n.id = id ∧ g.Overwrites n v := by
  refine ⟨⟨ofGraph_eq_ok hg hr, comes_finish hg⟩, fun s hs hq v => ⟨fun n hn => ?_,
    Comes.mem_overwritesOf hg hs hq v⟩⟩
  obtain ⟨hproper, hhas⟩ := Comes.maskAfter hg hs hq (hr n hn) v
  obtain ⟨hcomes, hempty⟩ := comes_finish hg
  obtain ⟨hproper', hhas'⟩ := Comes.maskAfter hg hcomes hempty (hr n hn) v
  exact ⟨hproper.ext hproper' fun k => (hhas k).trans (hhas' k).symm, hhas⟩

/-- A variable that is declared without a value and then written again and again. -/
def rewritten : Variable := ⟨"x", .localVariable, 1, 1, "f", false, false⟩

def rewriting : FlowGraph where
  label := "f"
  entry := 0
  exit := none
  exceptionExit := none
  nodes := [⟨0, .declare, none, [⟨rewritten, false⟩], []⟩, ⟨1, .write, none, [], [rewritten]⟩]
  edges := [⟨0, 1, .normal⟩, ⟨1, 1, .loopBack⟩]

theorem masks_and_overwrites_exact_rewriting :
    rewriting.WellFormed ∧ (∀ n ∈ rewriting.nodes, rewriting.Reaches n) ∧
    ∀ s, Comes rewriting s → s.queue = [] →
      ((mk rewriting rewriting.vars s).maskAfter 1 rewritten).has .many ∧
      ¬ ((mk rewriting rewriting.vars s).maskAfter 1 rewritten).has .zero := by
  have hg : rewriting.WellFormed := ⟨by decide, by decide, by decide, by decide⟩
  have first : rewriting.Arrives [] ⟨0, .declare, none, [⟨rewritten, false⟩], []⟩ :=
    .entry (by decide) rfl
  have second : rewriting.Arrives [.bind rewritten false] ⟨1, .write, none, [], [rewritten]⟩ :=
    first.step (by decide : (⟨0, 1, .normal⟩ : Edge) ∈ rewriting.edges) (by decide)
  have third : rewriting.Arrives [.bind rewritten false, .write rewritten]
      ⟨1, .write, none, [], [rewritten]⟩ :=
    second.step (by decide : (⟨1, 1, .loopBack⟩ : Edge) ∈ rewriting.edges) (by decide)
  have hr : ∀ n ∈ rewriting.nodes, rewriting.Reaches n := by
    intro n hn
    rcases List.mem_cons.1 hn with rfl | hn
    · exact ⟨_, first⟩
    · exact List.mem_singleton.1 hn ▸ ⟨_, second⟩
  refine ⟨hg, hr, fun s hs hq => ?_⟩
  have hexact := ((masks_and_overwrites_exact hg hr).2 s hs hq rewritten).1 _ second.mem
  constructor
  · exact (hexact.2 .many).2 ⟨_, ⟨_, third, rfl⟩, by decide⟩
  · rw [hexact.2 .zero]
    rintro ⟨_, ⟨t, -, rfl⟩, hzero⟩
    rw [Trace.count_append] at hzero
    simp [FlowGraph.Node.trace, Trace.tally, CountClass.of_succ] at hzero
    cases h : CountClass.of (Trace.count rewritten t) <;> simp [h, CountClass.next] at hzero

end WriteCount

end WriteOnce