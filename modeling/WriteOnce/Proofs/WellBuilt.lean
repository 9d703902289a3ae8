import WriteOnce.Proofs.Charts
import WriteOnce.Proofs.FragmentPlaces
import WriteOnce.Proofs.SoundDrafts
import WriteOnce.Proofs.Verdicts

/-!
# Graphs are well built

The graph of a routine has its nodes in order, all of them can be reached, and its edges agree
with them. What it binds belongs to the routine, and what it writes some name denotes. Every such
graph has write counts.
-/

namespace WriteOnce

namespace FlowGraph

variable {g : FlowGraph}

/-- The nodes stand in the order of their numbers and can all be reached. Edges lead from node to
node, each from the successors of one to the predecessors of the other, and none twice; none leads
to the entry or from an exit. No node both binds and writes. -/
structure WellBuilt (g : FlowGraph) : Prop where
  increasing : (g.nodes.map Node.id).Pairwise (· < ·)
  reached : ∀ n ∈ g.nodes, g.Reaches n
  linked : ∀ e, e ∈ g.successors e.source ↔ e ∈ g.predecessors e.target
  listed : ∀ e ∈ g.edges, (∃ n ∈ g.nodes, n.id = e.source) ∧ ∃ n ∈ g.nodes, n.id = e.target
  nodup : g.edges.Nodup
  entry : (∃ n ∈ g.nodes, n.id = g.entry) ∧ g.predecessors g.entry = []
  exits : ∀ id, g.exit = some id ∨ g.exceptionExit = some id →
    (∃ n ∈ g.nodes, n.id = id) ∧ g.successors id = []
  exclusive : ∀ n ∈ g.nodes, n.binds = [] ∨ n.writes = []

/-! ## Pruning -/

/-- Pruning takes no edge from the nodes that stay. -/
theorem successors_prune (hg : g.WellFormed) {n : Node} (hn : n ∈ g.prune.nodes) :
    g.prune.successors n.id = g.successors n.id := by
  obtain ⟨hn, hreaches⟩ := (mem_prune_nodes hg).1 hn
  have hreachable := (mem_reachable hg hn).2 hreaches
  simp only [successors, prune, List.filter_filter]
  refine List.filter_congr fun e _ => ?_
  by_cases he : e.source = n.id
  · rw [he]
    simpa using hreachable
  · simp [he]

/-- To the nodes that stay, it leaves the edges from nodes that stay. -/
theorem predecessors_prune (id : Nat) :
    g.prune.predecessors id =
      (g.predecessors id).filter fun e => g.reachable.contains e.source := by
  simp only [predecessors, prune, List.filter_filter, Bool.and_comm]

/-- An exit is missing in the pruned graph exactly if it cannot be reached. -/
theorem filter_reachable_eq_none (hg : g.WellFormed) {n : Node} (hn : n ∈ g.nodes) :
    (some n.id).filter g.reachable.contains = none ↔ ¬g.Reaches n := by
  rw [Option.filter_eq_none_iff, ← mem_reachable hg hn]
  simp

/-! ## Sound drafts -/

section

variable {B W : Variable → Prop} {r : Resolution} {routine : Routine} {d₁ d : Draft} {flow : Flow}

theorem Draft.Tidy.increasing (hd : d.Tidy) (label : Text) :
    ((ofDraft label d).nodes.map Node.id).Pairwise (· < ·) := by
  rw [ofDraft, List.map_reverse, hd.ids, List.reverse_reverse]
  exact List.pairwise_lt_range

theorem mem_edges_of_mem_prune {label : Text} {e : Edge} (he : e ∈ (ofDraft label d).prune.edges) :
    e ∈ d.edges :=
  mem_ofDraft_edges.1 (List.mem_filter.1 he).1

/-- The exits of a pruned graph are those of the draft that can be reached. -/
theorem exit_of_prune {label : Text} {id : Nat}
    (h : (ofDraft label d).prune.exit = some id ∨ (ofDraft label d).prune.exceptionExit = some id) :
    (id = exitId ∨ id = exceptionExitId) ∧ (ofDraft label d).reachable.contains id = true := by
  rcases h with h | h
  · obtain ⟨hid, hreachable⟩ := Option.filter_eq_some_iff.1
      (show (some exitId).filter (ofDraft label d).reachable.contains = some id from h)
    exact ⟨.inl (Option.some.inj hid).symm, hreachable⟩
  · obtain ⟨hid, hreachable⟩ := Option.filter_eq_some_iff.1
      (show (some exceptionExitId).filter (ofDraft label d).reachable.contains = some id from h)
    exact ⟨.inr (Option.some.inj hid).symm, hreachable⟩

theorem Drawn.wellBuilt (h : Drawn r routine d₁ d flow) (hsound : d.Sound B W) (label : Text) :
    (ofDraft label d).prune.WellBuilt := by
  have hg := h.wellFormed label
  constructor
  · exact (h.tidy.increasing label).sublist ((List.filter_sublist).map Node.id)
  · exact fun n hn => reaches_of_mem_prune hg hn
  · intro e
    simp [successors, predecessors]
  · exact fun e he => ⟨hg.prune.source e he, hg.prune.target e he⟩
  · exact (nodup_eraseDups _).filter _
  · refine ⟨hg.prune.entry, List.filter_eq_nil_iff.2 fun e he => ?_⟩
    have htarget := hsound.targets e (mem_edges_of_mem_prune he)
    exact fun hentry => htarget (of_decide_eq_true hentry)
  · intro id hid
    obtain ⟨hexit, hreachable⟩ := exit_of_prune hid
    constructor
    · have hlt : id < d.size := by
        have hsize := hsound.size
        rcases hexit with rfl | rfl
        · exact Nat.lt_of_lt_of_le (by decide) hsize
        · exact Nat.lt_of_lt_of_le (by decide) hsize
      obtain ⟨n, hn, rfl⟩ := h.tidy.exists_node hlt
      exact ⟨n, List.mem_filter.2 ⟨mem_ofDraft_nodes.2 hn, hreachable⟩, rfl⟩
    · refine List.filter_eq_nil_iff.2 fun e he => ?_
      obtain ⟨hexit', hexception⟩ := hsound.sources e (mem_edges_of_mem_prune he)
      rcases hexit with rfl | rfl
      · simpa using hexit'
      · simpa using hexception
  · intro n hn
    exact h.tidy.exclusive n (mem_ofDraft_nodes.1 (List.mem_filter.1 hn).1)

end

end FlowGraph

namespace Chart

open FlowGraph

variable {f : Fragment} {owner : Text} {c : Collection} {us : List Chart} {sums : Summaries}
  {r : Routine} {whole : FlowGraph}

/-- A name of the fragment denotes the variable. -/
def Named (c : Collection) (v : Variable) : Prop := ∃ pos, c.lookup? pos = some v

/-- Summaries are about variables that names denote. -/
def NamedAll (c : Collection) (sums : Summaries) : Prop := ∀ e ∈ sums, ∀ x ∈ e.2, Named c x.1

theorem allows_resolution {own : Pos → Prop} {B : Variable → Prop} (hsums : NamedAll c sums)
    (hdeclared : ∀ p, own p → ∀ v ∈ c.declared? p, B v) :
    (c.resolution sums).Allows own B (Named c) := by
  refine ⟨hdeclared, fun p v hv => ⟨p, hv⟩, fun p e he => ?_⟩
  cases hlookup : sums.lookup p with
  | none =>
    simp [Collection.resolution, hlookup] at he
  | some entries =>
    have he : e ∈ entries := by
      simpa [Collection.resolution, hlookup] using he
    exact hsums _ (mem_of_lookup hlookup) e he

/-- Only variables that names denote are written. -/
theorem named_of_mem_writes (hsums : NamedAll c sums)
    (h : FlowGraph.ofRoutine (c.resolution sums) r = .ok whole) {n : Node} (hn : n ∈ whole.nodes)
    {v : Variable} (hv : v ∈ n.writes) : Named c v := by
  obtain ⟨d, hdraft, rfl⟩ := ofRoutine_eq_ok h
  obtain ⟨flow, d₁, hdrawn⟩ := draftRoutine_eq_ok hdraft
  have hallows : (c.resolution sums).Allows (fun _ => True) (fun _ => True) (Named c) :=
    allows_resolution hsums fun _ _ _ _ => trivial
  have hsound := hdrawn.sound hallows (fun _ _ => trivial) (fun _ _ => trivial)
  exact hsound.writes n (mem_ofDraft_nodes.1 hn) v hv

/-- The summaries of the lambdas that have been charted are about variables that names denote. -/
theorem Drawn.namedAll (h : Drawn c us sums) : NamedAll c sums := by
  induction h with
  | nil => exact fun _ h => (by cases h)
  | @cons us sums r whole w _ hwhole hw ih =>
    refine List.forall_mem_append.2 ⟨fun e he x hx => ?_, ih⟩
    unfold Analysis.summarize at he
    split at he
    · rw [List.mem_singleton.1 he] at hx
      have hx := List.mem_filter.1 hx
      obtain ⟨v, hv, rfl⟩ := List.mem_map.1 hx.1
      have hv := (perm_sortBy _ _).mem_iff.1 hv
      have hwritten : v ∈ w.graph.written := by
        simpa using (List.mem_filter.1 hv).2
      cases (WriteCount.ofGraph_eq_ok (FlowGraph.wellFormed_ofRoutine hwhole).prune
        (reaches_of_mem hwhole)).symm.trans hw
      obtain ⟨n, hn, hwrites⟩ := List.mem_flatMap.1 (List.mem_eraseDups.1 hwritten)
      exact named_of_mem_writes ih hwhole (List.mem_filter.1 hn).1 hwrites
    · cases he

/-- What a routine binds and writes in its graph. -/
theorem sound_of_charts (hf : f.Parsed) (hc : Collection.ofFragment owner f = .ok c)
    (hsums : NamedAll c sums) (hr : r ∈ c.routines) {d₁ d : Draft} {flow : Flow}
    (h : FlowGraph.Drawn (c.resolution sums) r d₁ d flow) :
    d.Sound (· ∈ r.vars) (Named c) := by
  obtain ⟨hparams, hplaces⟩ := hf.declared_places hc hr
  have hallows : (c.resolution sums).Allows (· ∈ r.body.places) (· ∈ r.vars) (Named c) := by
    refine allows_resolution hsums fun pos hpos v hv => ?_
    obtain ⟨own, hown, hdeclared⟩ := hplaces pos hpos
    cases hdeclared.symm.trans hv
    exact hown
  exact h.sound hallows (fun _ hpos => hpos) fun _ hv => hparams hv

/-- The graph of a routine of a parsed fragment, drawn with what the lambdas write that have been
charted so far: it is well built, an exit is missing exactly if no path leads to it, pruning has
taken away only edges from nodes that are gone, the nodes bind variables of the routine only and
write none that no name denotes, and the graph has write counts. -/
theorem wellBuilt_ofRoutine (hf : f.Parsed) (hc : Collection.ofFragment owner f = .ok c)
    (hdrawn : Drawn c us sums) (hr : r ∈ c.routines)
    (h : FlowGraph.ofRoutine (c.resolution sums) r = .ok whole) :
    whole.prune.WellBuilt ∧
      (∃ n ∈ whole.nodes, whole.exit = some n.id ∧
        (whole.prune.exit = none ↔ ¬whole.Reaches n)) ∧
      (∃ n ∈ whole.nodes, whole.exceptionExit = some n.id ∧
        (whole.prune.exceptionExit = none ↔ ¬whole.Reaches n)) ∧
      (∀ n ∈ whole.prune.nodes, whole.prune.successors n.id = whole.successors n.id ∧
        whole.prune.predecessors n.id =
          (whole.predecessors n.id).filter fun e => whole.reachable.contains e.source) ∧
      (∀ n ∈ whole.prune.nodes, ∀ b ∈ n.binds, b.var ∈ r.vars) ∧
      (∀ n ∈ whole.prune.nodes, ∀ v ∈ n.writes, Named c v) ∧
      ∃ w, WriteCount.ofGraph whole.prune = .ok w := by
  have hg := FlowGraph.wellFormed_ofRoutine h
  have hcounts := WriteCount.ofGraph_eq_ok hg.prune (reaches_of_mem h)
  obtain ⟨d, hdraft, rfl⟩ := ofRoutine_eq_ok h
  obtain ⟨flow, d₁, hdraws⟩ := draftRoutine_eq_ok hdraft
  have hsound := sound_of_charts hf hc hdrawn.namedAll hr hdraws
  have hnode : ∀ id < 3, ∃ n ∈ (ofDraft r.label d).nodes, n.id = id := by
    intro id hid
    obtain ⟨n, hn, hid⟩ := hdraws.tidy.exists_node (Nat.lt_of_lt_of_le hid hsound.size)
    exact ⟨n, mem_ofDraft_nodes.2 hn, hid⟩
  refine ⟨hdraws.wellBuilt hsound r.label, ?_, ?_, fun n hn =>
    ⟨successors_prune hg hn, predecessors_prune n.id⟩, ?_, ?_, _, hcounts⟩
  · obtain ⟨n, hn, hid⟩ := hnode exitId (by decide)
    have hnone := filter_reachable_eq_none hg hn
    rw [hid] at hnone
    exact ⟨n, hn, congrArg some hid.symm, hnone⟩
  · obtain ⟨n, hn, hid⟩ := hnode exceptionExitId (by decide)
    have hnone := filter_reachable_eq_none hg hn
    rw [hid] at hnone
    exact ⟨n, hn, congrArg some hid.symm, hnone⟩
  · intro n hn
    exact hsound.binds n (mem_ofDraft_nodes.1 (List.mem_filter.1 hn).1)
  · intro n hn
    exact hsound.writes n (mem_ofDraft_nodes.1 (List.mem_filter.1 hn).1)

/-- `{ int x; try { f(() -> { x = 1; }); } finally { x = 2; } }` -/
def capturing : List Char :=
  "\x7b int x; try \x7b f(() -> \x7b x = 1; \x7d); \x7d finally \x7b x = 2; \x7d \x7d".toList

/-- The graph of the block is drawn with what the lambda in it writes. -/
theorem wellBuilt_ofRoutine_capturing : ∃ b c u us sums whole, Block.parse capturing = .ok b ∧
    Collection.ofFragment "f" (.block b) = .ok c ∧ Drawn c (u :: us) sums ∧
    FlowGraph.ofRoutine (c.resolution sums) c.root = .ok whole ∧ whole.prune.WellBuilt ∧
    ∃ w, WriteCount.ofGraph whole.prune = .ok w := by
  obtain ⟨b, hb, hany⟩ := FlowGraph.exists_ok_of_any (x := Block.parse capturing)
    (p := fun b =>
      ((Analysis.fragment (.block b) "f").run (.fresh none)).1.toOption.any fun _ =>
        (Collection.ofBlock "f" b).closures.length = 1)
    (by decide +kernel)
  obtain ⟨verdicts, s', hrun, hclosures⟩ := Analysis.exists_run_of_any hany
  obtain ⟨c, us, sums, -, hc, hdrawn, hroutines, -⟩ := Analysis.fragment_spec rfl hrun
  cases hc
  cases hdrawn with
  | nil => cases hroutines
  | @cons us sums r whole w hdrawn hwhole hw =>
    obtain ⟨hr, hclosed⟩ := List.cons.inj hroutines
    cases us with
    | nil =>
      rw [← hclosed] at hclosures
      cases hclosures
    | cons u us =>
      have hparsed : (Fragment.block b).Parsed := ⟨capturing, _, .inr ⟨b, hb, .refl⟩⟩
      have hr : r = (Collection.ofBlock "f" b).root := hr
      subst hr
      obtain ⟨hbuilt, -, -, -, -, -, hcounts⟩ :=
        wellBuilt_ofRoutine hparsed rfl hdrawn (.head _) hwhole
      exact ⟨b, _, u, us, sums, whole, hb, rfl, hdrawn, hwhole, hbuilt, hcounts⟩

end Chart

end WriteOnce
