import Mathlib.Data.List.Pairwise
import WriteOnce.Proofs.Caching
import WriteOnce.Proofs.OrderedDrafts
import WriteOnce.Proofs.WellBuilt

/-!
# Cycles of routines

A cycle in the graph of a routine goes through the head of a loop and is closed by an edge back to
it. Code without loops is gone through from its front to its end, and writes nothing in a loop.
-/

namespace WriteOnce

namespace FlowGraph

variable {g : FlowGraph}

/-- The edges follow each other from one node to another. -/
inductive Walks (g : FlowGraph) : Nat → List Edge → Nat → Prop
  | nil (i : Nat) : Walks g i [] i
  | cons {e : Edge} {es : List Edge} {j : Nat} : e ∈ g.edges → Walks g e.target es j →
    Walks g e.source (e :: es) j

/-- A node that leads back to itself lies on a closed walk. -/
theorem exists_walk {v : Variable} {m n : Node} (h : Relation.TransGen (g.Leads v) m n) :
    ∃ es, es ≠ [] ∧ g.Walks m.id es n.id := by
  induction h using Relation.TransGen.head_induction_on with
  | single hlead =>
    obtain ⟨-, -, -, kind, he⟩ := hlead
    exact ⟨_, List.cons_ne_nil _ _, .cons he (.nil _)⟩
  | head hlead _ ih =>
    obtain ⟨-, -, -, kind, he⟩ := hlead
    obtain ⟨es, -, hes⟩ := ih
    exact ⟨_, List.cons_ne_nil _ _, .cons he hes⟩

/-- A walk without an edge back to a loop comes to later nodes only. -/
theorem Walks.forward {σ : Stage} {i j : Nat} {es : List Edge} (h : g.Walks i es j)
    (hedges : ∀ e ∈ g.edges, σ.Orders e) (hes : ∀ e ∈ es, ¬ σ.Returns e) :
    σ.opened.idxOf i + es.length ≤ σ.opened.idxOf j := by
  induction h with
  | nil => exact Nat.le_refl _
  | @cons e es j he _ ih =>
    obtain ⟨hfirst, hrest⟩ := List.forall_mem_cons.1 hes
    have hlt := (hedges e he).leads.resolve_right hfirst
    have hle := ih hrest
    rw [List.length_cons]
    omega

/-- A closed walk has an edge back to a loop. -/
theorem Walks.exists_returns {σ : Stage} {i : Nat} {es : List Edge} (h : g.Walks i es i)
    (hes : es ≠ []) (hedges : ∀ e ∈ g.edges, σ.Orders e) : ∃ e ∈ es, σ.Returns e := by
  by_contra hnone
  push Not at hnone
  have hforward := h.forward hedges hnone
  have hlength := List.length_pos_iff.2 hes
  omega

theorem Walks.mem {i j : Nat} {es : List Edge} (h : g.Walks i es j) : ∀ e ∈ es, e ∈ g.edges := by
  induction h with
  | nil => exact fun _ h => (by cases h)
  | cons he _ ih => exact List.forall_mem_cons.2 ⟨he, ih⟩

section

variable {r : Resolution} {routine : Routine} {whole : FlowGraph}

/-- The edges of the graph of a routine are those of an ordered draft. -/
theorem exists_ordered (h : ofRoutine r routine = .ok whole) :
    ∃ d σ, d.Ordered r (· ∈ routine.body.landmarks) σ [exitId, exceptionExitId] ∧
      whole = ofDraft routine.label d := by
  obtain ⟨d, hdraft, rfl⟩ := ofRoutine_eq_ok h
  obtain ⟨flow, d₁, hdrawn⟩ := draftRoutine_eq_ok hdraft
  obtain ⟨σ, hordered⟩ := hdrawn.ordered fun _ hm => hm
  exact ⟨d, σ, hordered, rfl⟩

/-- A closed walk is closed by an edge back to the head of a loop, and the code has a loop. -/
theorem exists_loop_of_walk (h : ofRoutine r routine = .ok whole) {i : Nat} {es : List Edge}
    (hes : es ≠ []) (hwalk : whole.prune.Walks i es i) :
    (∃ e ∈ es, (e.kind = .loopBack ∨ e.kind = .continueOn) ∧
      ∃ n ∈ whole.prune.nodes, n.id = e.target ∧ n.kind = .loop) ∧
    routine.body.hasLoop = true := by
  have hg := (wellFormed_ofRoutine h).prune
  have hsub : ∀ n ∈ whole.prune.nodes, n ∈ whole.nodes := fun n hn => (List.mem_filter.1 hn).1
  obtain ⟨d, σ, hordered, rfl⟩ := exists_ordered h
  have hedges : ∀ e ∈ (ofDraft routine.label d).prune.edges, σ.Orders e :=
    fun e he => hordered.edges e (mem_edges_of_mem_prune he)
  obtain ⟨e, he, hkind, hhead⟩ := hwalk.exists_returns hes hedges
  obtain ⟨n, hn, hid, hloop⟩ := hordered.heads _ hhead
  obtain ⟨m, hm, hmid⟩ := hg.target e (hwalk.mem e he)
  have hmn : m = n := (wellFormed_ofRoutine h).eq_of_id (hsub m hm) (mem_ofDraft_nodes.2 hn)
    (hmid.trans hid.symm)
  obtain ⟨pos, hpos⟩ := (hordered.nodes n hn).loop hloop
  exact ⟨⟨e, he, hkind, n, hmn ▸ hm, hid, hloop⟩, List.any_eq_true.2 ⟨_, hpos, rfl⟩⟩

end

end FlowGraph

/-! ## Variables of one routine -/

namespace Fragment

variable {f : Fragment} {owner : Text} {c : Collection}

/-- A variable of a parsed fragment belongs to one routine. -/
theorem Parsed.eq_of_mem_vars (h : f.Parsed) (hc : Collection.ofFragment owner f = .ok c)
    {r r' : Routine} (hr : r ∈ c.routines) (hr' : r' ∈ c.routines) {v : Variable} (hv : v ∈ r.vars)
    (hv' : v ∈ r'.vars) : r = r' := by
  have hplaces : (c.sites.map Prod.snd).map (fun v => (v.line, v.col)) =
      (c.sites.map Prod.fst).map fun pos => ((pos.line : Int), (pos.col : Int)) := by
    rw [List.map_map, List.map_map]
    refine List.map_congr_left fun e he => ?_
    obtain ⟨hline, hcol⟩ := (Collection.gathers_ofFragment hc).1 e he
    exact Prod.ext hline hcol
  have hsites : ((c.sites.map Prod.snd).map fun v : Variable => (v.line, v.col)).Nodup := by
    rw [hplaces]
    refine (h.nodup_sites hc).map fun pos pos' heq => ?_
    obtain ⟨hline, hcol⟩ := Prod.ext_iff.1 heq
    cases pos
    cases pos'
    exact Pos.mk.injEq .. ▸ ⟨Int.ofNat_inj.1 hline, Int.ofNat_inj.1 hcol⟩
  have hshares := (Collection.shares_ofFragment hc).nodup_iff.2 hsites.of_map
  by_contra hne
  have hdisjoint := (List.nodup_flatMap.1 hshares).2
  have hsymm : Std.Symm (Function.onFun List.Disjoint Routine.vars) :=
    ⟨fun _ _ h => List.Disjoint.symm h⟩
  exact hdisjoint.forall hr hr' hne hv hv'

end Fragment

namespace Chart

variable {c : Collection} {us : List Chart} {sums : Summaries}

/-- The graph of a chart is that of its routine, drawn with what the charts behind it write. -/
theorem Drawn.exists_ofRoutine (h : Drawn c us sums) {u : Chart} (hu : u ∈ us) :
    ∃ before behind sums whole, us = before ++ u :: behind ∧ Drawn c behind sums ∧
      FlowGraph.ofRoutine (c.resolution sums) u.routine = .ok whole ∧ u.graph = whole.prune := by
  induction h with
  | nil => cases hu
  | cons hdrawn hwhole _ ih =>
    rcases List.mem_cons.1 hu with rfl | hu
    · exact ⟨[], _, _, _, rfl, hdrawn, hwhole, rfl⟩
    · obtain ⟨before, behind, sums, whole, rfl, hbehind⟩ := ih hu
      exact ⟨_ :: before, behind, sums, whole, rfl, hbehind⟩

/-- A variable is written in a loop only if its routine has a loop. -/
theorem hasLoop_of_verdict (hdrawn : Drawn c us sums) {u : Chart} (hu : u ∈ us) {v : Variable}
    (h : u.verdict v = .cannot .writtenInLoop) : u.routine.body.hasLoop = true := by
  have hloop : u.graph.WritesInLoop v := by
    unfold verdict at h
    split_ifs at h <;> first | assumption | cases h
  obtain ⟨n, -, -, hcycle⟩ := hloop
  obtain ⟨es, hes, hwalk⟩ := FlowGraph.exists_walk hcycle
  obtain ⟨-, -, sums, whole, -, -, hwhole, hgraph⟩ := hdrawn.exists_ofRoutine hu
  rw [hgraph] at hwalk
  exact (FlowGraph.exists_loop_of_walk hwhole hes hwalk).2

end Chart

namespace Analysis

open FlowGraph

/-- Cycles come from loops only. Every closed walk in the graph of a routine, with any resolution
of names, has an edge back to the head of a loop. If the code of the routine itself has no loop,
its graph has no closed walk, and no analysis without a cache gives the verdict that one of its
variables is written in a loop. -/
theorem cycles_of_loops {r : Resolution} {routine : Routine} {whole : FlowGraph}
    (h : ofRoutine r routine = .ok whole) :
    (∀ i es, whole.prune.Walks i es i → es ≠ [] →
      ∃ e ∈ es, (e.kind = .loopBack ∨ e.kind = .continueOn) ∧
        ∃ n ∈ whole.prune.nodes, n.id = e.target ∧ n.kind = .loop) ∧
    (routine.body.hasLoop = false →
      (∀ i es, whole.prune.Walks i es i → es = []) ∧
      ∀ (f : Fragment) (owner : Text) (c : Collection) (s s' : Session) (verdicts : Verdicts),
        f.Parsed → Collection.ofFragment owner f = .ok c → routine ∈ c.routines →
        s.cache = none → (fragment f owner).run s = (.ok verdicts, s') →
          ∀ e ∈ verdicts, e.1.var ∈ routine.vars → e.2 ≠ .cannot .writtenInLoop) := by
  refine ⟨fun i es hwalk hes => (exists_loop_of_walk h hes hwalk).1, fun hfree => ⟨?_, ?_⟩⟩
  · intro i es hwalk
    by_contra hes
    exact absurd (exists_loop_of_walk h hes hwalk).2 (Bool.eq_false_iff.1 hfree)
  · intro f owner c s s' verdicts hf hc hroutine hcache hrun e he hvar hverdict
    obtain ⟨c', us, sums, vs, hc', hdrawn, hroutines, -, hjudges, rfl⟩ := fragment_spec hcache hrun
    cases hc.symm.trans hc'
    obtain ⟨u, hu, heq⟩ := hjudges.exists_declaring he
    obtain ⟨hmem, hdeclares⟩ := Chart.of_declaring?_eq_some hu
    have hsame : u.routine = routine :=
      hf.eq_of_mem_vars hc (hroutines ▸ List.mem_map_of_mem hmem) hroutine hdeclares.1 hvar
    have hloop := Chart.hasLoop_of_verdict hdrawn hmem (heq.trans hverdict)
    rw [hsame, hfree] at hloop
    cases hloop

/-- `{ int x; x = 1; x = 2; f(() -> { for (;;) { } }); }` -/
def loopInLambda : List Char :=
  "\x7b int x; x = 1; x = 2; f(() -> \x7b for (;;) \x7b \x7d \x7d); \x7d".toList

/-- A variable is written twice in front of a lambda with a loop in it. -/
theorem cycles_of_loops_inside : ∃ (b : Block) (outer inner : FlowGraph) (verdicts : Verdicts)
    (s' : Session), Block.parse loopInLambda = .ok b ∧
    (∀ i es, outer.prune.Walks i es i → es = []) ∧
    (∃ (i : Nat) (es : List Edge), inner.prune.Walks i es i ∧
      ∃ e ∈ es, (e.kind = .loopBack ∨ e.kind = .continueOn) ∧
        ∃ n ∈ inner.prune.nodes, n.id = e.target ∧ n.kind = .loop) ∧
    (fragment (.block b) "f").run (.fresh none) = (.ok verdicts, s') ∧ verdicts ≠ [] ∧
    ∀ e ∈ verdicts, e.2 ≠ .cannot .writtenInLoop := by
  obtain ⟨b, hb, hany⟩ := FlowGraph.exists_ok_of_any (x := Block.parse loopInLambda)
    (p := fun b =>
      let c := Collection.ofBlock "f" b
      !c.root.body.hasLoop &&
      ((ofRoutine (c.resolution []) c.root).toOption.any fun _ => true) &&
      (c.closures.any fun l => (ofRoutine (c.resolution []) l).toOption.any fun inner =>
        inner.prune.edges.any fun e => e.source = e.target) &&
      ((fragment (.block b) "f").run (.fresh none)).1.toOption.any fun verdicts =>
        verdicts ≠ [] ∧ ∀ e ∈ verdicts, e.1.var ∈ c.root.vars)
    (by decide +kernel)
  simp only [Bool.and_eq_true, Bool.not_eq_true', List.any_eq_true] at hany
  obtain ⟨⟨⟨hfree, houter⟩, l, hl, hinner⟩, hrun⟩ := hany
  obtain ⟨outer, houter, -⟩ := exists_ok_of_any houter
  obtain ⟨inner, hinner, hedge⟩ := exists_ok_of_any hinner
  obtain ⟨e, he, hself⟩ := List.any_eq_true.1 hedge
  have hself : e.source = e.target := of_decide_eq_true hself
  obtain ⟨verdicts, s', hrun, hverdicts⟩ := exists_run_of_any hrun
  obtain ⟨hne, hvars⟩ := of_decide_eq_true hverdicts
  have hparsed : (Fragment.block b).Parsed := ⟨loopInLambda, _, .inr ⟨b, hb, .refl⟩⟩
  obtain ⟨-, hacyclic⟩ := cycles_of_loops houter
  obtain ⟨hacyclic, hnever⟩ := hacyclic hfree
  have hwalk : inner.prune.Walks e.source [e] e.source := .cons he (hself ▸ .nil e.source)
  refine ⟨b, outer, inner, verdicts, s', hb, hacyclic, ⟨e.source, [e], hwalk, ?_⟩, hrun, hne, ?_⟩
  · exact (cycles_of_loops hinner).1 _ _ hwalk (List.cons_ne_nil _ _)
  · intro d hd
    exact hnever (.block b) "f" _ _ _ verdicts hparsed rfl (.head _) rfl hrun d hd (hvars d hd)

end Analysis

end WriteOnce
