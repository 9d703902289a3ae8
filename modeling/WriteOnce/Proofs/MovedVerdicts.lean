import WriteOnce.Proofs.MovedCounts
import WriteOnce.Proofs.Outcomes

/-!
# Verdicts on the core of a body

From a body to its verdicts, no step looks at more than its core, and none at positions and
owners but to tell variables apart and to put them in order.
-/

namespace WriteOnce

open AnalysisError (Alike)

variable {μ : Motion} {known : Variable → Prop}

/-- Different variables stay different, and those that are known keep their order and what
verdicts depend on. -/
structure Motion.Keeps (μ : Motion) (known : Variable → Prop) : Prop where
  pos : Function.Injective μ.pos
  var : Function.Injective μ.var
  order : ∀ v w, known v → known w → (μ.var v).notAfter (μ.var w) = v.notAfter w
  kind : ∀ v, known v → (μ.var v).kind = v.kind
  isFinal : ∀ v, known v → (μ.var v).isFinal = v.isFinal
  multi : ∀ v, known v → (μ.var v).multi = v.multi

def Verdicts.move (μ : Motion) (vs : Verdicts) : Verdicts := vs.map fun e => (e.1.move μ, e.2)

def Summaries.move (μ : Motion) (sums : Summaries) : Summaries :=
  sums.map fun e => (μ.pos e.1, e.2.map fun entry => (μ.var entry.1, entry.2))

/-- The same verdicts, on the same variables elsewhere. -/
def Verdicts.Moves (μ : Motion) (known : Variable → Prop) (vs vs' : Verdicts) : Prop :=
  vs' = vs.move μ ∧ ∀ e ∈ vs, known e.1.var

namespace Collection

/-- The same collection, moved, of variables that are known. -/
structure Moves (μ : Motion) (known : Variable → Prop) (c c' : Collection) : Prop where
  refs : c'.refs = c.refs.map fun e => (μ.pos e.1, μ.var e.2)
  sites : c'.sites = c.sites.map fun e => (μ.pos e.1, μ.var e.2)
  routines : List.Forall₂ (Routine.Moves μ) c.routines c'.routines
  knownRefs : ∀ e ∈ c.refs, known e.2
  knownSites : ∀ e ∈ c.sites, known e.2
  knownRoutines : ∀ r ∈ c.routines, ∀ v ∈ r.params ++ r.vars, known v

/-- A moved collection resolves names to moved variables. -/
theorem Moves.resolution {c c' : Collection} (hμ : μ.Keeps known) (h : c.Moves μ known c')
    {sums : Summaries} (hsums : ∀ e ∈ sums, ∀ entry ∈ e.2, known entry.1) :
    (c.resolution sums).Moves μ known (c'.resolution (sums.move μ)) where
  denoted p := by
    change c'.refs.lookup _ = (c.refs.lookup p).map μ.var
    rw [h.refs]
    exact lookup_map hμ.pos μ.var p c.refs
  declared p := by
    change c'.sites.lookup _ = (c.sites.lookup p).map μ.var
    rw [h.sites]
    exact lookup_map hμ.pos μ.var p c.sites
  summary p := by
    change ((sums.move μ).lookup _).getD [] = ((sums.lookup p).getD []).map _
    rw [Summaries.move, lookup_map hμ.pos]
    cases sums.lookup p <;> rfl
  knownDenoted p v hv := h.knownRefs (p, v) (mem_of_lookup hv)
  knownDeclared p v hv := h.knownSites (p, v) (mem_of_lookup hv)
  knownSummary p e he := by
    change e ∈ (sums.lookup p).getD [] at he
    cases hp : sums.lookup p with
    | none =>
      rw [hp] at he
      cases he
    | some entries =>
      rw [hp] at he
      exact hsums (p, entries) (mem_of_lookup hp) e he

end Collection

/-! ## Verdicts -/

namespace Verdicts

theorem insert_move (hμ : μ.Keeps known) (d : Declaration) (x : Verdict) (vs : Verdicts) :
    (vs.move μ).insert (d.move μ) x = Verdicts.move μ (vs.insert d x) := by
  induction vs with
  | nil => rfl
  | cons e vs ih =>
    have hbeq : (e.1.move μ == d.move μ) = (e.1 == d) := by
      change (μ.var e.1.var == μ.var d.var) = (e.1.var == d.var)
      rw [Bool.eq_iff_iff, beq_iff_eq, beq_iff_eq, hμ.var.eq_iff]
    change (if e.1.move μ == d.move μ then _ else _) =
      Verdicts.move μ (if e.1 == d then (e.1, x) :: vs else e :: Table.insert d x vs)
    rw [hbeq]
    split_ifs
    · rfl
    · exact congrArg ((e.1.move μ, e.2) :: ·) ih

theorem known_insert {d : Declaration} (hd : known d.var) (x : Verdict) {vs : Verdicts}
    (hvs : ∀ e ∈ vs, known e.1.var) : ∀ e ∈ vs.insert d x, known e.1.var := by
  induction vs with
  | nil => exact List.forall_mem_singleton.2 hd
  | cons e vs ih =>
    obtain ⟨he, hvs⟩ := List.forall_mem_cons.1 hvs
    unfold Table.insert
    split_ifs
    · exact List.forall_mem_cons.2 ⟨he, hvs⟩
    · exact List.forall_mem_cons.2 ⟨he, ih hvs⟩

theorem judge_move (hμ : μ.Keeps known) {d : Declaration} (hd : known d.var) (written : Bool)
    (reason : Option Reason) : (d.move μ).judge written reason = d.judge written reason := by
  unfold Declaration.judge Declaration.ruled? Declaration.isExcluded Declaration.isLambdaParameter
    Declaration.isRebound Declaration.move
  rw [hμ.kind d.var hd, hμ.isFinal d.var hd, hμ.multi d.var hd]

theorem moves_judged (hμ : μ.Keeps known) (label : Text) (w : WriteCount)
    (bound written : List Variable) (ds : List Declaration) (hds : ∀ d ∈ ds, known d.var)
    {vs : Verdicts} (hvs : ∀ e ∈ vs, known e.1.var) :
    (judged w bound written ds vs).Moves μ known
      (judged (w.move μ label) (bound.map μ.var) (written.map μ.var)
        (ds.map (Declaration.move μ)) (vs.move μ)) := by
  induction ds generalizing vs with
  | nil => exact ⟨rfl, hvs⟩
  | cons d ds ih =>
    obtain ⟨hd, hds⟩ := List.forall_mem_cons.1 hds
    have hjudge : (d.move μ).judge ((written.map μ.var).contains (d.move μ).var)
        ((w.move μ label).reason? (d.move μ).var) =
        d.judge (written.contains d.var) (w.reason? d.var) := by
      rw [judge_move hμ hd]
      exact congrArg₂ d.judge (contains_map hμ.var d.var written)
        (WriteCount.reason?_move hμ.var label w d.var)
    have hbound : (bound.map μ.var).contains (d.move μ).var = bound.contains d.var :=
      contains_map hμ.var d.var bound
    rw [List.map_cons, judged, judged, hbound, hjudge, insert_move hμ]
    split
    · exact ih hds (known_insert hd _ hvs)
    · exact ih hds hvs

theorem Moves.sort (hμ : μ.Keeps known) {vs vs' : Verdicts} (h : vs.Moves μ known vs') :
    vs.sort.Moves μ known vs'.sort := by
  refine ⟨?_, fun e he => h.2 e ((mem_sortBy _).1 he)⟩
  rw [h.1]
  exact sortBy_map fun e he e' he' => hμ.order _ _ (h.2 e he) (h.2 e' he')

end Verdicts

namespace WriteCount

theorem alike_ofGraph (hμ : μ.Keeps known) (label : Text) (g : FlowGraph) :
    Alike μ.pos (fun w w' => w' = w.move μ label ∧ w.graph = g) (ofGraph g)
      (ofGraph (g.move μ label)) := by
  have hunreached : unreached? (g.move μ label) ((Sweep.finish g g.vars).move μ) =
      (unreached? g (Sweep.finish g g.vars)).map (FlowGraph.Node.move μ) := by
    simp only [unreached?, FlowGraph.nodes_move, List.find?_map]
    rfl
  unfold ofGraph ofSweep
  rw [FlowGraph.vars_move label g hμ.var, Sweep.finish_move hμ.var, hunreached]
  cases unreached? g (Sweep.finish g g.vars) with
  | none => exact .ok ⟨rfl, rfl⟩
  | some n => exact .same _

end WriteCount

theorem summarize_move (hμ : μ.Keeps known) {r r' : Routine} (h : r.Moves μ r') (w : WriteCount)
    (label : Text) (hw : ∀ v ∈ w.graph.written, known v) :
    Analysis.summarize r' (w.move μ label) = Summaries.move μ (Analysis.summarize r w) := by
  have hvars : r'.vars = r.vars.map μ.var := by
    simp only [Routine.vars, h.declarations, List.map_map]
    rfl
  have hwritten : (w.move μ label).graph.written.filter (fun v => !r'.vars.contains v) =
      (w.graph.written.filter fun v => !r.vars.contains v).map μ.var := by
    change (w.graph.move μ label).written.filter _ = _
    rw [FlowGraph.written_move label w.graph hμ.var, hvars, List.filter_map]
    refine congrArg _ (List.filter_congr fun v _ => ?_)
    exact congrArg Bool.not (contains_map hμ.var v r.vars)
  unfold Analysis.summarize
  rw [h.isClosure, hwritten, h.pos, WriteCount.summary_move hμ.var label w fun v hv v' hv' =>
    hμ.order v v' (hw v (List.mem_of_mem_filter hv)) (hw v' (List.mem_of_mem_filter hv'))]
  split <;> rfl

theorem mem_summarize {r : Routine} {w : WriteCount} {e : Pos × List (Variable × Nat)}
    {entry : Variable × Nat} (he : e ∈ Analysis.summarize r w) (hentry : entry ∈ e.2) :
    entry.1 ∈ w.graph.written := by
  unfold Analysis.summarize at he
  split at he
  · obtain rfl := List.mem_singleton.1 he
    obtain ⟨v, hv, rfl⟩ := List.mem_map.1 (List.mem_of_mem_filter hentry)
    exact List.mem_of_mem_filter (List.mem_of_mem_filter ((mem_sortBy _).1 hv))
  · cases he

namespace Verdicts

/-- Routines that are moved are analyzed to the same verdicts. -/
theorem alike_ofRoutines (hμ : μ.Keeps known) {c c' : Collection} (hc : c.Moves μ known c')
    {rs rs' : List Routine} (hrs : List.Forall₂ (Routine.Moves μ) rs rs')
    (hknown : ∀ r ∈ rs, ∀ v ∈ r.params ++ r.vars, known v) {sums : Summaries}
    (hsums : ∀ e ∈ sums, ∀ entry ∈ e.2, known entry.1) {vs : Verdicts}
    (hvs : ∀ e ∈ vs, known e.1.var) :
    Alike μ.pos (Verdicts.Moves μ known) (ofRoutines c rs sums vs)
      (ofRoutines c' rs' (sums.move μ) (vs.move μ)) := by
  induction hrs generalizing sums vs with
  | nil => exact .ok ⟨rfl, hvs⟩
  | @cons r r' rs rs' hr hrs ih =>
    obtain ⟨hparams, hvars⟩ := List.forall_mem_append.1 (hknown r (.head _))
    have hdeclarations : ∀ d ∈ r.declarations, known d.var := List.forall_mem_map.1 hvars
    have hgraph : Alike μ.pos
        (fun g g' => g' = g.move μ r'.label ∧ ∀ n ∈ g.nodes, ∀ v ∈ n.vars, known v)
        (c.graph? sums r) (c'.graph? (sums.move μ) r') := by
      refine (FlowGraph.alike_ofRoutine (hc.resolution hμ hsums) hr hparams).bind ?_
      rintro whole _ ⟨rfl, hwhole⟩
      exact .ok ⟨FlowGraph.prune_move .., fun n hn => hwhole n (List.mem_of_mem_filter hn)⟩
    refine hgraph.bind ?_
    rintro g _ ⟨rfl, hg⟩
    refine (WriteCount.alike_ofGraph hμ r'.label g).bind ?_
    rintro w _ ⟨rfl, rfl⟩
    have hwritten : ∀ v ∈ w.graph.written, known v := by
      intro v hv
      obtain ⟨n, hn, hv⟩ := List.mem_flatMap.1 (List.mem_eraseDups.1 hv)
      exact hg n hn v (List.mem_append_right _ hv)
    have hjudged := moves_judged hμ r'.label w w.graph.bound w.graph.written r.declarations
      hdeclarations hvs
    have hsummed : ∀ e ∈ Analysis.summarize r w ++ sums, ∀ entry ∈ e.2, known entry.1 := by
      refine List.forall_mem_append.2 ⟨fun e he entry hentry => ?_, hsums⟩
      exact hwritten _ (mem_summarize he hentry)
    have happend : Summaries.move μ (Analysis.summarize r w ++ sums) =
        Summaries.move μ (Analysis.summarize r w) ++ sums.move μ := List.map_append
    have hnext := ih (fun r hr => hknown r (.tail _ hr)) hsummed hjudged.2
    rw [← hjudged.1, happend] at hnext
    rw [FlowGraph.bound_move r'.label w.graph hμ.var,
      FlowGraph.written_move r'.label w.graph hμ.var,
      summarize_move hμ hr w r'.label hwritten, hr.declarations]
    exact hnext

end Verdicts

end WriteOnce
