import WriteOnce.Analysis.Fragment
import WriteOnce.Proofs.Declared
import WriteOnce.Proofs.PathsOfRoutines
import WriteOnce.Proofs.Reasons

/-!
# Verdicts as properties of paths

A chart is a routine together with its graph, and gives every variable a verdict by
the paths of the graph alone. The charts of a body are drawn from the last routine
to the first, because the graph of a routine shows what its lambdas write.
-/

namespace WriteOnce

structure Chart where
  routine : Routine
  graph : FlowGraph

namespace Chart

/-- The variable belongs to the routine, and a node that can be reached binds it. -/
def Declares (u : Chart) (v : Variable) : Prop := v ∈ u.routine.vars ∧ u.graph.Binds v

/-- The variable shares the head of a `for` loop with others, or is the parameter of a lambda, or
is bound by a handler or by the head of a loop and written besides. -/
def Excludes (u : Chart) (v : Variable) : Prop :=
  SharesHead u.routine.label u.routine.body.heads v ∨
    (u.routine.isClosure = true ∧ v ∈ u.routine.params) ∨
    ((v.kind = .catchParameter ∨ v.kind = .forEachParameter) ∧ u.graph.Writes v)

open Classical in
/-- The verdict that the paths of the graph give. -/
noncomputable def verdict (u : Chart) (v : Variable) : Verdict :=
  if v.isFinal then .cannot .alreadyImmutable
  else if u.Excludes v then .cannot .scopeRule
  else if u.graph.WritesInLoop v then .cannot .writtenInLoop
  else if u.graph.WritesAgain v then .cannot .multipleWrites
  else .can

noncomputable instance (u : Chart) (v : Variable) : Decidable (u.Declares v) :=
  Classical.propDecidable _

/-- The first chart that declares the variable. -/
noncomputable def declaring? (us : List Chart) (v : Variable) : Option Chart :=
  us.find? fun u => u.Declares v

theorem declaring?_cons_pos {u : Chart} {v : Variable} (h : u.Declares v) (us : List Chart) :
    declaring? (u :: us) v = some u := by
  rw [declaring?, List.find?_cons, decide_eq_true h]

theorem declaring?_cons_neg {u : Chart} {v : Variable} (h : ¬u.Declares v) (us : List Chart) :
    declaring? (u :: us) v = declaring? us v := by
  rw [declaring?, List.find?_cons, decide_eq_false h]
  rfl

theorem of_declaring?_eq_some {us : List Chart} {u : Chart} {v : Variable}
    (h : declaring? us v = some u) : u ∈ us ∧ u.Declares v := by
  unfold declaring? at h
  have hdeclares := List.find?_some h
  exact ⟨List.mem_of_find?_eq_some h, of_decide_eq_true hdeclares⟩

theorem exists_declaring_iff {us : List Chart} {v : Variable} :
    (∃ u ∈ us, u.Declares v) ↔ ∃ u, declaring? us v = some u := by
  rw [← Option.isSome_iff_exists, declaring?, List.find?_isSome]
  simp only [decide_eq_true_eq]

/-- Charts of the last routines of a body, and what their lambdas write from outside. -/
inductive Drawn (c : Collection) : List Chart → Summaries → Prop
  | nil : Drawn c [] []
  | cons {us : List Chart} {sums : Summaries} {r : Routine} {whole : FlowGraph} {w : WriteCount} :
    Drawn c us sums → FlowGraph.ofRoutine (c.resolution sums) r = .ok whole →
    WriteCount.ofGraph whole.prune = .ok w →
    Drawn c (⟨r, whole.prune⟩ :: us) (Analysis.summarize r w ++ sums)

variable {c : Collection} {sums : Summaries} {r : Routine} {whole : FlowGraph} {w : WriteCount}

theorem reaches_of_mem (h : FlowGraph.ofRoutine (c.resolution sums) r = .ok whole) :
    ∀ n ∈ whole.prune.nodes, whole.prune.Reaches n :=
  fun _ => FlowGraph.reaches_of_mem_prune (FlowGraph.wellFormed_ofRoutine h)

theorem exclusive_prune (h : FlowGraph.ofRoutine (c.resolution sums) r = .ok whole) :
    whole.prune.Exclusive :=
  fun n hn => FlowGraph.exclusive_ofRoutine h n
    ((FlowGraph.mem_prune_nodes (FlowGraph.wellFormed_ofRoutine h)).1 hn).1

theorem isExcluded_iff (hmarked : r.Marked) {g : FlowGraph}
    (hr : ∀ n ∈ g.nodes, g.Reaches n) {d : Declaration} (hd : d ∈ r.declarations) :
    d.isExcluded (g.written.contains d.var) = true ↔ Excludes ⟨r, g⟩ d.var := by
  simp only [Declaration.isExcluded, Bool.or_eq_true, Bool.and_eq_true, hmarked.multi d hd,
    hmarked.lambdaParameter d hd, Declaration.isRebound, decide_eq_true_eq,
    List.contains_iff_mem, FlowGraph.mem_written hr, Excludes, or_assoc]

/-- The program judges a variable by the paths of the graph. -/
theorem judge_eq (hmarked : r.Marked)
    (hwhole : FlowGraph.ofRoutine (c.resolution sums) r = .ok whole)
    (hw : WriteCount.ofGraph whole.prune = .ok w) {d : Declaration} (hd : d ∈ r.declarations) :
    d.judge (whole.prune.written.contains d.var) (w.reason? d.var) =
      verdict ⟨r, whole.prune⟩ d.var := by
  have hg := (FlowGraph.wellFormed_ofRoutine hwhole).prune
  have hr := reaches_of_mem hwhole
  have hexcluded := isExcluded_iff hmarked hr hd
  rw [WriteCount.reason?_eq hg hr (exclusive_prune hwhole) hw]
  unfold Declaration.judge Declaration.ruled? verdict
  by_cases hfinal : d.var.isFinal = true
  · rw [if_pos hfinal, if_pos hfinal]
    rfl
  · rw [if_neg hfinal, if_neg hfinal]
    by_cases h : Excludes ⟨r, whole.prune⟩ d.var
    · rw [if_pos (hexcluded.2 h), if_pos h]
      rfl
    · rw [if_neg fun hd => h (hexcluded.1 hd), if_neg h]
      split_ifs <;> rfl

end Chart

end WriteOnce
