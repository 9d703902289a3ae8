import WriteOnce.Proofs.Masks
import WriteOnce.Proofs.MovedDrafts
import WriteOnce.Proofs.MovedLists
import WriteOnce.Verdict

/-!
# Counting writes of other variables

What the analysis of a graph finds does not depend on what its variables are called, or on
where they stand, as long as different variables stay different and keep their order.
-/

namespace WriteOnce

variable {μ : Motion}

namespace FlowGraph

variable (label : Text) (g : FlowGraph)

@[simp] theorem nodes_move : (g.move μ label).nodes = g.nodes.map (Node.move μ) := rfl

theorem prune_move : (g.move μ label).prune = g.prune.move μ label := by
  simp only [prune, move, List.filter_map]
  rfl

theorem node?_move (id : Nat) : (g.move μ label).node? id = (g.node? id).map (Node.move μ) := by
  simp only [node?, nodes_move, List.find?_map]
  rfl

variable (hμ : Function.Injective μ.var)
include hμ

theorem bound_move : (g.move μ label).bound = g.bound.map μ.var := by
  unfold bound
  rw [← eraseDups_map hμ, nodes_move, List.flatMap_map, List.map_flatMap]
  simp only [Node.move, List.map_map]
  rfl

theorem written_move : (g.move μ label).written = g.written.map μ.var := by
  unfold written
  rw [← eraseDups_map hμ, nodes_move, List.flatMap_map, List.map_flatMap]
  rfl

theorem vars_move : (g.move μ label).vars = g.vars.map μ.var := by
  unfold vars
  rw [bound_move label g hμ, written_move label g hμ, ← List.map_append, eraseDups_map hμ]

theorem Node.bindsVar_move (n : Node) (v : Variable) :
    (n.move μ).bindsVar (μ.var v) = n.bindsVar v := by
  simp only [Node.bindsVar, Node.move, List.any_map, Function.comp_def, Binding.move, hμ.eq_iff]

theorem binders_move (v : Variable) : (g.move μ label).binders (μ.var v) = g.binders v := by
  simp only [binders, nodes_move, List.filter_map, List.map_map, Function.comp_def,
    Node.bindsVar_move hμ]
  rfl

theorem loopsWithout_move (v : Variable) (ids : List Nat) :
    (g.move μ label).loopsWithout (μ.var v) ids = g.loopsWithout v ids := by
  simp only [loopsWithout, binders_move label g hμ]
  rfl

namespace Node

theorem rebound_move (n : Node) (v : Variable) (m : Mask) :
    (n.move μ).rebound (μ.var v) m = n.rebound v m := by
  unfold rebound Node.move
  rw [List.foldl_map]
  congr 1
  funext m b
  exact if_congr hμ.eq_iff rfl rfl

theorem writtenBy_map (v : Variable) (writes : List Variable) (m : Mask) :
    writtenBy (μ.var v) (writes.map μ.var) m = writtenBy v writes m := by
  simp only [writtenBy, List.foldl_map, hμ.eq_iff]

theorem behind_move (n : Node) (v : Variable) (m : Mask) :
    (n.move μ).behind (μ.var v) m = n.behind v m := by
  rw [behind, behind, rebound_move hμ]
  exact writtenBy_map hμ v n.writes _

theorem overwritesBy_map (v : Variable) (writes : List Variable) (m : Mask) :
    overwritesBy (μ.var v) (writes.map μ.var) m = overwritesBy v writes m := by
  induction writes generalizing m with
  | nil => rfl
  | cons w ws ih => simp only [List.map_cons, overwritesBy, hμ.eq_iff, ih]

theorem overwrites_move (n : Node) (v : Variable) (m : Mask) :
    (n.move μ).overwrites (μ.var v) m = n.overwrites v m := by
  rw [overwrites, overwrites, rebound_move hμ]
  exact overwritesBy_map hμ v n.writes _

end Node

end FlowGraph

/-! ## Sweeps -/

namespace Sweep

/-- The sweep over a moved graph. -/
def move (μ : Motion) (s : Sweep) : Sweep :=
  { s with overwrites := s.overwrites.map fun e => (μ.var e.1, e.2) }

theorem queue_move (s : Sweep) : (s.move μ).queue = s.queue := rfl

theorem feed_move (counts : Counts) (s : Sweep) (id : Nat) :
    feed counts (s.move μ) id = (feed counts s id).move μ := by
  unfold feed
  dsimp only [move]
  cases s.before[id]? with
  | none => rfl
  | some old =>
    dsimp only
    split_ifs <;> rfl

theorem foldl_feed_move (counts : Counts) (ids : List Nat) (s : Sweep) :
    ids.foldl (feed counts) (s.move μ) = (ids.foldl (feed counts) s).move μ := by
  induction ids generalizing s with
  | nil => rfl
  | cons id ids ih => rw [List.foldl_cons, List.foldl_cons, feed_move, ih]

variable (hμ : Function.Injective μ.var)
include hμ

theorem through_move (vars : List Variable) (n : FlowGraph.Node) (counts : Counts) :
    through (vars.map μ.var) (n.move μ) counts = through vars n counts := by
  simp only [through, List.zipWith_map_left, FlowGraph.Node.behind_move hμ]

theorem found_move (vars : List Variable) (n : FlowGraph.Node) (counts : Counts) :
    found (vars.map μ.var) (n.move μ) counts =
      (found vars n counts).map fun e => (μ.var e.1, e.2) := by
  have hover : ∀ e : Variable × Mask,
      (n.move μ).overwrites (μ.var e.1) e.2 = n.overwrites e.1 e.2 :=
    fun e => FlowGraph.Node.overwrites_move hμ n e.1 e.2
  simp only [found, List.zip_map_left, List.filter_map, List.map_map, Function.comp_def,
    Prod.map_fst, Prod.map_snd, id_eq, hover]
  rfl

theorem visit_move (links : FlowGraph.Links) (vars : List Variable) (n : FlowGraph.Node)
    (s : Sweep) : visit links (vars.map μ.var) (n.move μ) (s.move μ) =
      (visit links vars n s).move μ := by
  have hhits : Function.Injective fun e : Variable × Nat => (μ.var e.1, e.2) := by
    rintro ⟨v, i⟩ ⟨w, j⟩ h
    obtain ⟨hv, hi⟩ := Prod.mk.inj h
    exact Prod.ext (hμ hv) hi
  have hnew : (fun hit => !(s.move μ).overwrites.contains hit) ∘
      (fun e : Variable × Nat => (μ.var e.1, e.2)) = fun hit => !s.overwrites.contains hit := by
    funext e
    exact congrArg Bool.not (contains_map hhits e s.overwrites)
  simp only [visit, through_move hμ, found_move hμ, List.filter_map, hnew]
  rw [← foldl_feed_move]
  congr 1
  simp only [move, List.map_append]
  rfl

theorem advance_move (label : Text) (g : FlowGraph) (links : FlowGraph.Links)
    (vars : List Variable) (s : Sweep) :
    advance (g.move μ label) links (vars.map μ.var) (s.move μ) =
      (advance g links vars s).move μ := by
  unfold advance
  rw [queue_move]
  cases s.queue with
  | nil => rfl
  | cons id queue =>
    dsimp only
    rw [FlowGraph.node?_move]
    cases g.node? id with
    | none => rfl
    | some n => exact visit_move hμ links vars n { s with queue := queue }

theorem run_move (label : Text) (g : FlowGraph) (links : FlowGraph.Links) (vars : List Variable)
    (fuel : Nat) (s : Sweep) :
    run (g.move μ label) links (vars.map μ.var) fuel (s.move μ) =
      (run g links vars fuel s).move μ := by
  induction fuel generalizing s with
  | zero => rfl
  | succ fuel ih =>
    rw [run, run, advance_move hμ, ih]
    change (if s.queue.isEmpty then _ else _) = _
    split_ifs <;> rfl

theorem finish_move (label : Text) (g : FlowGraph) (vars : List Variable) :
    finish (g.move μ label) (vars.map μ.var) = (finish g vars).move μ := by
  have hstart : start (g.move μ label) (vars.map μ.var) = (start g vars).move μ := by
    simp only [start, List.map_map, move, List.map_nil]
    rfl
  have hbound : bound (g.move μ label) (vars.map μ.var) = bound g vars := by
    simp only [bound, FlowGraph.nodes_move, List.length_map]
  rw [finish, hstart, hbound]
  exact run_move hμ label g g.links vars _ _

end Sweep

/-! ## Write counts -/

namespace WriteCount

/-- The write counts of a moved graph. -/
def move (μ : Motion) (label : Text) (w : WriteCount) : WriteCount :=
  ⟨w.graph.move μ label, w.vars.map μ.var, w.sweep.move μ⟩

variable (hμ : Function.Injective μ.var) (label : Text) (w : WriteCount)
include hμ

theorem overwritesOf_move (v : Variable) :
    (w.move μ label).overwritesOf (μ.var v) = w.overwritesOf v := by
  simp only [overwritesOf, move, Sweep.move, List.filter_map, List.map_map, Function.comp_def,
    hμ.eq_iff]

theorem reason?_move (v : Variable) : (w.move μ label).reason? (μ.var v) = w.reason? v := by
  unfold reason?
  rw [overwritesOf_move hμ]
  simp only [move, FlowGraph.loopsWithout_move label w.graph hμ]

omit hμ in
theorem anywhere_move :
    (w.move μ label).anywhere = w.anywhere.map fun e => (μ.var e.1, e.2) := by
  simp only [anywhere, move, FlowGraph.nodes_move, List.map_map, List.zip_map_left]
  rfl

/-- The summary of some variables, if moving keeps their order. -/
theorem summary_move {vars : List Variable}
    (hvars : ∀ v ∈ vars, ∀ v' ∈ vars, (μ.var v).notAfter (μ.var v') = v.notAfter v') :
    (w.move μ label).summary (vars.map μ.var) =
      (w.summary vars).map fun e => (μ.var e.1, e.2) := by
  have hwritten : (vars.map μ.var).filter (w.move μ label).graph.written.contains =
      (vars.filter w.graph.written.contains).map μ.var := by
    rw [List.filter_map]
    refine congrArg _ (List.filter_congr fun v _ => ?_)
    change (w.graph.move μ label).written.contains (μ.var v) = _
    rw [FlowGraph.written_move label w.graph hμ, contains_map hμ]
  have hsorted : sortBy Variable.notAfter ((vars.filter w.graph.written.contains).map μ.var) =
      (sortBy Variable.notAfter (vars.filter w.graph.written.contains)).map μ.var :=
    sortBy_map fun v hv v' hv' =>
      hvars v (List.mem_of_mem_filter hv) v' (List.mem_of_mem_filter hv')
  have hlookup (v : Variable) : (w.anywhere.map fun e => (μ.var e.1, e.2)).lookup (μ.var v) =
      w.anywhere.lookup v :=
    (lookup_map hμ id v w.anywhere).trans Option.map_id_apply
  simp only [summary, hwritten, hsorted, anywhere_move, List.map_map, List.filter_map,
    Function.comp_def, hlookup]

end WriteCount

end WriteOnce
