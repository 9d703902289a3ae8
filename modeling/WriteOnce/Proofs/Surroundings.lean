import WriteOnce.Proofs.Implements

/-!
# Surroundings and what they stand for

The surroundings of a piece of code stand for a context: exceptions go to the same
nodes, and each frame is a construct that takes the same jumps or runs the same
cleanup. In surroundings that stand for a context, every node implements one step
of an execution, and a jump or a `return` implements leaving the code that way.
-/

namespace WriteOnce

open Execution Behavior

namespace Execution

def Target.frame : Target → FlowGraph.Frame
  | .loop labels => .loop labels
  | .switch labels => .switch labels
  | .block labels => .block labels

/-- The cleanup blocks on the way of a jump or a `return` run before it gets further. -/
theorem Aim.unwinds_cleanup {Q : Aim} {b : Behavior} {escapes : List Nat} {guards : List Guard}
    {o : Ending} (ho : ∀ ctx : Context, Q.meets ctx o = Q.unwinds ctx.guards o) :
    Q.unwinds (.cleanup b escapes :: guards) o =
      Context.demand ⟨escapes, guards⟩ (seq b (leave o)) Q := by
  rw [Context.demand_seq, Context.demand, ← Aim.meets_falling]
  simp only [Aim.unwinds, Context.demand, wp_leave, ho]
  congr 1
  funext o'
  cases o' <;> rfl

end Execution

namespace FlowGraph

/-- Whether an exception is handled somewhere in the routine. -/
def Surroundings.guarded (s : Surroundings) : Bool := s.handlers.isSome

theorem raiseTargets_eq (s : Surroundings) {kind : NodeKind} (hkind : kind.isSilent = false) :
    raiseTargets s kind = if s.guarded || kind.mayThrow then s.escapes else [] := by
  obtain ⟨handlers, frames⟩ := s
  cases handlers <;> simp [raiseTargets, hkind, Surroundings.guarded, Surroundings.escapes]

/-- A node raises exceptions at most to where they go from that place. -/
theorem raiseTargets_subset (s : Surroundings) (kind : NodeKind) :
    raiseTargets s kind ⊆ s.escapes := by
  cases hkind : kind.isSilent with
  | true =>
    rw [raiseTargets, if_pos hkind]
    exact List.nil_subset _
  | false =>
    rw [raiseTargets_eq s hkind]
    split
    · exact List.Subset.refl _
    · exact List.nil_subset _

/-- Frames that stand for guards. -/
inductive FramesMatch (rules : Rules) : List Frame → List Guard → Prop
  | nil : FramesMatch rules [] []
  | target {frames : List Frame} {guards : List Guard} (target : Target) :
    FramesMatch rules frames guards →
    FramesMatch rules (target.frame :: frames) (.target target :: guards)
  | cleanup {frames : List Frame} {guards : List Guard} {draft : Frontier → Drafting Flow}
    {b : Behavior} {escapes : List Nat} :
    Implements rules ⟨escapes, guards⟩ draft b → FramesMatch rules frames guards →
    FramesMatch rules (.cleanup draft :: frames) (.cleanup b escapes :: guards)

structure Represents (rules : Rules) (s : Surroundings) (ctx : Context) : Prop where
  escapes : s.escapes = ctx.escapes
  frames : FramesMatch rules s.frames ctx.guards

variable {rules : Rules} {s : Surroundings} {ctx : Context} {frames : List Frame}
  {guards : List Guard} {escapes : List Nat} {ends : Frontier} {d d' : Draft}

theorem FramesMatch.length_eq (h : FramesMatch rules frames guards) :
    frames.length = guards.length := by
  induction h with
  | nil => rfl
  | target _ _ ih => simp [ih]
  | cleanup _ _ ih => simp [ih]

theorem Represents.inside (h : Represents rules s ctx) (target : Target) :
    Represents rules (s.inside target.frame) (ctx.inside (.target target)) :=
  ⟨h.escapes, h.frames.target target⟩

theorem Represents.depth_eq (h : Represents rules s ctx) : s.depth = ctx.guards.length :=
  h.frames.length_eq

/-! ## Jumps -/

theorem route?_target (word : JumpWord) (label : Option Text) (target : Target) :
    route? word label (target.frame :: frames) =
      if target.frame.isTarget word label then some ⟨frames.length, target.frame.isLoop, []⟩
      else route? word label frames := by
  cases target <;> rfl

/-- The cleanup blocks that a jump passes are among those around it. -/
theorem passed_subset {word : JumpWord} {label : Option Text} {frames : List Frame}
    {route : Route} (h : route? word label frames = some route) :
    route.passed ⊆ cleanups frames := by
  induction frames generalizing route with
  | nil => cases h
  | cons frame frames ih =>
    cases frame with
    | cleanup draft =>
      simp only [route?, Option.map_eq_some_iff] at h
      obtain ⟨inner, hinner, rfl⟩ := h
      exact List.cons_subset_cons draft (ih hinner)
    | loop | switch | block =>
      simp only [route?] at h
      split_ifs at h
      · cases h
        exact List.nil_subset _
      · exact ih h

/-- A jump that is drafted aims at a frame only if it aims at the construct. -/
theorem takes_eq_isTarget {target : Target} {word : JumpWord} {label : Option Text}
    (h : target.frame.isTarget word label = true →
      (word = .continueWord && !target.frame.isLoop) = false) :
    target.takes word label = target.frame.isTarget word label := by
  cases target <;> cases word <;> cases label <;> simp_all [Target.frame, Target.takes,
    Frame.isTarget, Frame.isLoop, Frame.labels]

theorem draftAll_cons {draft : Frontier → Drafting Flow}
    {drafts : List (Frontier → Drafting Flow)} {flow : Flow}
    (h : draftAll (draft :: drafts) ends d = .ok (flow, d')) :
    ∃ first d₁ others, draft ends d = .ok (first, d₁) ∧
      draftAll drafts first.next d₁ = .ok (others, d') ∧
      flow = ⟨others.next, first.jumps ++ others.jumps⟩ := by
  obtain ⟨first, d₁, hfirst, h⟩ := bind_eq_ok.1 h
  obtain ⟨others, d₂, hothers, h⟩ := bind_eq_ok.1 h
  cases pure_eq_ok.1 h
  exact ⟨first, d₁, others, hfirst, hothers, rfl⟩

theorem all_exits_frontier (ends : Frontier) : (exits ends).all = ends := List.append_nil _

theorem all_exits_flow (flow : Flow) : (exits flow).all = flow.next := List.append_nil _

/-- A jump leaves by way of the cleanup blocks that it passes. -/
theorem FramesMatch.draws_jump (h : FramesMatch rules frames guards) {word : JumpWord}
    {label : Option Text} {route : Route} (hroute : route? word label frames = some route)
    (hloop : (word = .continueWord && !route.isLoop) = false) {flow : Flow}
    (hrun : draftAll route.passed ends d = .ok (flow, d')) (hd : d.Tidy)
    (hends : ends.Below d.size) (hK : ∀ i, Context.Leads ⟨escapes, guards⟩ i → i < d.size) :
    Draws rules ⟨escapes, guards⟩ (Starts ⟨escapes, guards⟩ (leave (.jumped word label)) ends)
      d d' ⟨[], [], flow.jumps ++ flow.next.map fun e => ⟨route.depth, word, e.source⟩⟩ := by
  induction h generalizing route ends d flow d' escapes with
  | nil => cases hroute
  | @target frames guards target hframes ih =>
    rw [route?_target] at hroute
    by_cases haims : target.frame.isTarget word label
    · rw [if_pos haims] at hroute
      cases hroute
      cases pure_eq_ok.1 hrun
      have htakes : target.takes word label = true := by
        rw [takes_eq_isTarget fun _ => hloop, haims]
      refine .nothing hd hK ⟨by simp, by simp, ?_⟩ fun Q f => ?_
      · simp only [Flow.through, List.nil_append, List.forall_mem_map]
        exact hends
      · rw [Starts, Context.demand, wp_leave]
        simp [Aim.meets, Aim.unwinds, htakes, Exits.claim, Flow.through, hframes.length_eq, Holds]
    · rw [if_neg haims] at hroute
      have htakes : ¬target.takes word label = true := by
        rwa [takes_eq_isTarget fun h => absurd h haims]
      refine (ih hroute hloop hrun hd hends fun i hi => hK i (Context.leads_target.2 hi)).widen
        (fun i => Context.leads_target.2) hK fun Q f => ?_
      simp [Starts, Context.demand, Aim.meets, Aim.unwinds, htakes]
  | @cleanup frames guards draft b escapes' himpl hframes ih =>
    obtain ⟨route', hroute', rfl⟩ := Option.map_eq_some_iff.1 hroute
    obtain ⟨first, d₁, others, hfirst, hothers, rfl⟩ := draftAll_cons hrun
    have hK' : ∀ i, Context.Leads ⟨escapes', guards⟩ i → i < d.size :=
      fun i hi => hK i (Context.leads_cleanup.2 (.inr hi))
    have hb := himpl _ _ _ _ hfirst hd hends hK'
    have hrest := ih hroute' hloop hothers hb.grows.after hb.below.onTrue hb.inside
    rw [← all_exits_flow first] at hrest
    refine ((hb.seq hrest).widen (fun i hi => Context.leads_cleanup.2 (.inr hi)) hK
      fun Q f => ?_).same ?_
    · rw [Starts, Starts, ← Aim.unwinds_cleanup fun _ => rfl, Context.demand, wp_leave]
      rfl
    · exact ⟨fun _ => .rfl, fun _ => .rfl, by simp [exits]⟩

/-- A `return` leaves by the exit, behind all cleanup blocks around it. -/
theorem FramesMatch.draws_return (h : FramesMatch rules frames guards) {flow : Flow}
    (hrun : draftAll (cleanups frames) ends d = .ok (flow, d')) (hd : d.Tidy)
    (hends : ends.Below d.size) (hK : ∀ i, Context.Leads ⟨escapes, guards⟩ i → i < d.size) :
    Draws rules ⟨escapes, guards⟩ (Starts ⟨escapes, guards⟩ (leave .returned) ends) d
      (d'.link (flow.next.map fun e => ⟨e.source, exitId, e.kind⟩)) ⟨[], [], flow.jumps⟩ := by
  induction h generalizing ends d flow d' escapes with
  | nil =>
    cases pure_eq_ok.1 hrun
    have hcarries : ∀ Q : Aim, Carries rules (Context.Leads ⟨escapes, []⟩) Q.toOutside
        (Starts ⟨escapes, []⟩ (leave .returned) ends Q) d
        (d.link (ends.map fun e => ⟨e.source, exitId, e.kind⟩)) (Exits.claim ⟨[], [], []⟩ Q) := by
      intro Q
      refine (Carries.enter hd hK (.inr (.inl rfl)) ?_).congr (fun f => ?_) fun f => ?_
      · simp only [List.forall_mem_map, and_true]
        exact hends
      · simp [Starts, Context.demand, Aim.meets, Aim.unwinds, Holds]
      · simp [Exits.claim]
    exact ⟨(hcarries default).grows, ⟨by simp, by simp, by simp [Flow.through]⟩, hcarries⟩
  | @target frames guards target hframes ih =>
    have hcleanups : cleanups (target.frame :: frames) = cleanups frames := by
      cases target <;> rfl
    rw [hcleanups] at hrun
    refine (ih hrun hd hends fun i hi => hK i (Context.leads_target.2 hi)).widen
      (fun i => Context.leads_target.2) hK fun Q f => ?_
    simp [Starts, Context.demand, Aim.meets, Aim.unwinds]
  | @cleanup frames guards draft b escapes' himpl hframes ih =>
    obtain ⟨first, d₁, others, hfirst, hothers, rfl⟩ := draftAll_cons hrun
    have hK' : ∀ i, Context.Leads ⟨escapes', guards⟩ i → i < d.size :=
      fun i hi => hK i (Context.leads_cleanup.2 (.inr hi))
    have hb := himpl _ _ _ _ hfirst hd hends hK'
    have hrest := ih hothers hb.grows.after hb.below.onTrue hb.inside
    rw [← all_exits_flow first] at hrest
    refine (hb.seq hrest).widen (fun i hi => Context.leads_cleanup.2 (.inr hi)) hK fun Q f => ?_
    rw [Starts, Starts, ← Aim.unwinds_cleanup fun _ => rfl, Context.demand, wp_leave]
    rfl

/-! ## Steps one behind the other -/

section Sequence

variable [HasExits α] [HasExits β] {a b c : Behavior}

theorem Implements.holds : Implements rules ctx (fun ends : Frontier => pure ends) skip := by
  intro ends d a d' h hd hends hK
  cases pure_eq_ok.1 h
  exact .holds hd hends hK

/-- What is drafted behind an expression goes on from both outcomes. -/
theorem Implements.seqSplit {first : Frontier → Drafting Split} {next : Frontier → Drafting α}
    (ha : Implements rules ctx first a) (hb : Implements rules ctx next b) :
    Implements rules ctx (fun ends => do next (← first ends).all) (seq a b) := by
  intro ends d r d' h hd hends hK
  obtain ⟨split, d₁, hfirst, h⟩ := bind_eq_ok.1 h
  have hfirst := ha _ _ _ _ hfirst hd hends hK
  exact hfirst.seq (hb _ _ _ _ h hfirst.grows.after hfirst.below.all hfirst.inside)

theorem Implements.seqEnds {first : Frontier → Drafting Frontier} {next : Frontier → Drafting α}
    (ha : Implements rules ctx first a) (hb : Implements rules ctx next b) :
    Implements rules ctx (fun ends => do next (← first ends)) (seq a b) := by
  intro ends d r d' h hd hends hK
  obtain ⟨ends', d₁, hfirst, h⟩ := bind_eq_ok.1 h
  have hfirst := ha _ _ _ _ hfirst hd hends hK
  have hnext := hb _ _ _ _ h hfirst.grows.after hfirst.below.onTrue hfirst.inside
  rw [← all_exits_frontier ends'] at hnext
  exact hfirst.seq hnext

end Sequence

/-! ## Nodes -/

theorem step_eq (s : Surroundings) (kind : NodeKind) (pos : Option Pos) (binds : List Binding)
    (writes : List Variable) (ends : Frontier) (d : Draft) :
    step s kind pos binds writes ends d =
      .ok ([⟨d.size, .normal⟩],
        d.emitted ⟨d.size, kind, pos, binds, writes⟩ ends (raiseTargets s kind)) := by
  unfold step
  rw [bind_eq_ok]
  exact ⟨_, _, emit_eq .., rfl⟩

theorem Represents.step (hs : Represents rules s ctx) {k : NodeKind} {fails : Bool}
    {es : Trace} (pos : Option Pos) {binds : List Binding} {writes : List Variable}
    (hkind : k.isSilent = false) (hfails : (s.guarded || k.mayThrow) = fails)
    (hn : binds = [] ∨ writes = [])
    (hes : binds.map Binding.event ++ writes.map .write = es) :
    Implements rules ctx (step s k pos binds writes) (act fails es) := by
  intro ends d a d' h hd hends hK
  cases (step_eq s k pos binds writes ends d).symm.trans h
  rw [raiseTargets_eq s hkind, hfails, hs.escapes, ← hes]
  exact Draws.act (n := ⟨d.size, k, pos, binds, writes⟩) hd rfl hn hends hK

theorem Implements.join (s : Surroundings) (pos : Option Pos) :
    Implements rules ctx (FlowGraph.step s .join pos [] []) skip := by
  intro ends d a d' h hd hends hK
  cases (step_eq s .join pos [] [] ends d).symm.trans h
  exact .silent hd rfl rfl rfl hends hK

theorem Represents.settle (hs : Represents rules s ctx) (test : Bool) (pos : Pos) :
    Implements rules ctx (settle s test pos) (decideOn s.guarded test) := by
  intro ends d a d' h hd hends hK
  cases test with
  | true =>
    obtain ⟨id, d₁, hemit, h⟩ := bind_eq_ok.1 h
    cases (emit_eq s .branch (some pos) [] [] ends d).symm.trans hemit
    cases pure_eq_ok.1 h
    have hthrow : NodeKind.branch.mayThrow = false := rfl
    rw [raiseTargets_eq s rfl, hs.escapes, hthrow, Bool.or_false]
    exact Draws.test (n := ⟨d.size, .branch, some pos, [], []⟩) hd rfl rfl rfl hends hK
  | false =>
    cases pure_eq_ok.1 h
    exact .holds hd hends hK

end FlowGraph

end WriteOnce
