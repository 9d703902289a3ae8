import WriteOnce.Proofs.Expressions

/-!
# Drafts of statements

For every form of statement, a draft implements the statement if the drafts of its
parts implement the parts.
-/

namespace WriteOnce

open Execution Behavior

namespace FlowGraph

variable {rules : Rules} {r : Resolution} {s : Surroundings} {ctx : Context}
  {a b c e : Behavior} {d d' d₁ d₂ : Draft} {ends : Frontier} {O O' : Exits} {A : Aim → Claim}

/-- What falls through goes on. -/
theorem Draws.onward (h : Draws rules ctx A d d₁ O)
    (h' : Draws rules ctx (Starts ctx skip O.onTrue) d₁ d₂ O') :
    Draws rules ctx A d d₂ ⟨O'.onTrue, O'.onFalse ++ O.onFalse, O.jumps ++ O'.jumps⟩ := by
  refine ⟨h.grows.trans h'.grows, ?_, fun Q => ?_⟩
  · have hO := h.below.mono h'.grows.size
    refine ⟨h'.below.onTrue, Frontier.below_append.2 ⟨h'.below.onFalse, hO.onFalse⟩, ?_⟩
    exact List.forall_mem_append.2 ⟨hO.jumps, h'.below.jumps⟩
  · have hrest := (h'.carries Q).frame
      (Exits.claim_local (O := ⟨[], O.onFalse, O.jumps⟩)
        ⟨Frontier.below_nil, h.below.onFalse, h.below.jumps⟩ Q)
    refine (h.carries Q).trans (hrest.congr (fun f => ?_) fun f => ?_)
    · simp [Exits.claim, Starts]
    · simp only [Exits.claim, holds_nil, holds_append, List.forall_mem_append]
      tauto

theorem Draws.skip_seq (h : Draws rules ctx (Starts ctx (Behavior.seq skip a) ends) d d' O) :
    Draws rules ctx (Starts ctx a ends) d d' O :=
  h.of_demand fun Q => by
    rw [Context.demand_seq, Context.demand_skip]
    rfl

/-! ## Statements without loops -/

theorem Implements.seqFlow {first next : Frontier → Drafting Flow}
    (ha : Implements rules ctx first a) (hb : Implements rules ctx next b) :
    Implements rules ctx (fun ends => do
      let first ← first ends
      let others ← next first.next
      return ⟨others.next, first.jumps ++ others.jumps⟩ : Frontier → Drafting Flow)
      (seq a b) := by
  intro ends d r d' h hd hends hK
  obtain ⟨first, d₁, hfirst, h⟩ := bind_eq_ok.1 h
  obtain ⟨others, d₂, hothers, h⟩ := bind_eq_ok.1 h
  cases pure_eq_ok.1 h
  have hfirst := ha _ _ _ _ hfirst hd hends hK
  have hothers := hb _ _ _ _ hothers hfirst.grows.after hfirst.below.onTrue hfirst.inside
  rw [← all_exits_flow first] at hothers
  exact hfirst.seq hothers

theorem Implements.through {first : Frontier → Drafting Frontier}
    (ha : Implements rules ctx first a) :
    Implements rules ctx (fun ends => do return Flow.through (← first ends)) a := by
  intro ends d r d' h hd hends hK
  obtain ⟨ends', d₁, hfirst, h⟩ := bind_eq_ok.1 h
  cases pure_eq_ok.1 h
  exact ha _ _ _ _ hfirst hd hends hK

theorem Implements.pass :
    Implements rules ctx (fun ends => pure (Flow.through ends)) skip := by
  intro ends d r d' h hd hends hK
  cases pure_eq_ok.1 h
  exact .holds hd hends hK

theorem Implements.effect {first : Frontier → Drafting Split}
    (ha : Implements rules ctx first a) :
    Implements rules ctx (fun ends => do return Flow.through (← first ends).all) (seq a skip) :=
  ha.seqSplit .pass

theorem expectDeclared_eq_ok {declarator : Declarator} {d d' : Draft} {u : Unit}
    (h : expectDeclared r declarator d = .ok (u, d')) :
    (r.declared declarator.pos).isSome ∧ d' = d := by
  unfold expectDeclared at h
  split_ifs at h with hdeclared
  · cases pure_eq_ok.1 h
    exact ⟨hdeclared, rfl⟩
  · cases h

theorem Represents.option (hs : Represents rules s ctx) (e : Option Expr) :
    Implements rules ctx (draftOption r s e) (evaluateOption r s.guarded e) := by
  cases e with
  | none => exact .holds
  | some e => exact (hs.expr false e).value

theorem Represents.declarators (hs : Represents rules s ctx) (ds : List Declarator) :
    Implements rules ctx (draftDeclarators r s ds) (declare r s.guarded ds) := by
  induction ds with
  | nil => exact .holds
  | cons d ds ih =>
    obtain ⟨pos, name, dims, init⟩ := d
    have hrest : Implements rules ctx (fun ends => do
          let ends ← draftOption r s init ends
          let ends ← FlowGraph.step s .declare (some pos) (r.binding pos init.isSome) [] ends
          draftDeclarators r s ds ends)
        (declare r s.guarded (⟨pos, name, dims, init⟩ :: ds)) :=
      (hs.option init).seqEnds <|
        (hs.step (some pos) rfl (Bool.or_false _) (.inr rfl) (List.append_nil _)).seqEnds ih
    intro ends d a d' h hd hends hK
    obtain ⟨_, _, hdeclared, hrun⟩ := bind_eq_ok.1 h
    obtain ⟨-, rfl⟩ := expectDeclared_eq_ok hdeclared
    exact hrest ends _ a d' hrun hd hends hK

theorem Represents.forInit (hs : Represents rules s ctx) (init : ForInit) :
    Implements rules ctx (draftForInit r s init) (Execution.forInit r s.guarded init) := by
  cases init with
  | decl decl => exact hs.declarators decl.declarators
  | exprs values => exact hs.exprs values

theorem Represents.condition (hs : Represents rules s ctx) (e : Option Expr) :
    Implements rules ctx (draftCondition r s e) (Execution.condition r s.guarded e) := by
  cases e with
  | none =>
    intro ends d a d' h hd hends hK
    cases pure_eq_ok.1 h
    exact .holds hd hends hK
  | some e => exact hs.expr true e

/-- The branches come together at a node, unless there is nothing to come together. -/
theorem Draws.join {flow flow' : Flow} {pos : Pos} (h : Draws rules ctx A d d₁ (exits flow))
    (hrun : draftJoin s pos flow d₁ = .ok (flow', d₂)) :
    Draws rules ctx A d d₂ (exits flow') := by
  unfold draftJoin at hrun
  split_ifs at hrun
  · cases pure_eq_ok.1 hrun
    exact h
  · obtain ⟨ends', d₃, hstep, hrun⟩ := bind_eq_ok.1 hrun
    cases pure_eq_ok.1 hrun
    have hjoin : Draws rules ctx (Starts ctx skip flow.next) d₁ d₂ (exits ends') :=
      Implements.join s (some pos) _ _ _ _ hstep h.grows.after h.below.onTrue h.inside
    exact (h.onward hjoin).same ⟨fun _ => .rfl, fun _ => .rfl, by simp [exits]⟩

theorem Implements.ifElse {cond : Frontier → Drafting Split}
    {onTrue onFalse : Frontier → Drafting Flow} {pos : Pos} (ha : Implements rules ctx cond a)
    (hb : Implements rules ctx onTrue b) (hc : Implements rules ctx onFalse c) :
    Implements rules ctx (fun ends => do
      let split ← cond ends
      let first ← onTrue split.onTrue
      let second ← onFalse split.onFalse
      draftJoin s pos (first ++ second)) (branch a b c) := by
  intro ends d r d' h hd hends hK
  obtain ⟨split, d₁, hcond, h⟩ := bind_eq_ok.1 h
  obtain ⟨first, d₂, hfirst, h⟩ := bind_eq_ok.1 h
  obtain ⟨second, d₃, hsecond, h⟩ := bind_eq_ok.1 h
  have hcond := ha _ _ _ _ hcond hd hends hK
  have hfirst := hb _ _ _ _ hfirst hcond.grows.after hcond.below.onTrue hcond.inside
  have hsecond := hc _ _ _ _ hsecond hfirst.grows.after
    (hcond.below.onFalse.mono hfirst.grows.size) hfirst.inside
  exact (hcond.branch hfirst hsecond).join h

theorem Represents.jump (hs : Represents rules s ctx) (pos : Pos) (word : JumpWord)
    (label : Option Text) :
    Implements rules ctx (draftJump s pos word label) (leave (.jumped word label)) := by
  intro ends d a d' h hd hends hK
  unfold draftJump at h
  cases hroute : route? word label s.frames with
  | none =>
    rw [hroute] at h
    cases h
  | some route =>
    rw [hroute] at h
    by_cases hloop : (word = .continueWord && !route.isLoop) = true
    · simp only [hloop, if_true] at h
      cases h
    · simp only [hloop] at h
      obtain ⟨ends', d₁, hstep, h⟩ := bind_eq_ok.1 h
      obtain ⟨flow, d₂, hall, h⟩ := bind_eq_ok.1 h
      cases pure_eq_ok.1 h
      cases (step_eq s .jump (some pos) [] [] ends d).symm.trans hstep
      have hnode : Draws rules ctx (Starts ctx skip ends) d _ _ :=
        .silent (n := ⟨d.size, .jump, some pos, [], []⟩) hd rfl rfl rfl hends hK
      exact (hnode.seq (hs.frames.draws_jump hroute (Bool.eq_false_iff.2 hloop) hall
        hnode.grows.after hnode.below.all hnode.inside)).skip_seq

/-- Where the rules let no exception be raised behind a bare `return`, more may leave the node than
the execution says. -/
theorem Represents.returns (hs : Represents rules s ctx) (pos : Pos) (hasValue : Bool) :
    Implements rules ctx (draftReturn s pos)
      (seq (act (s.guarded && (hasValue || rules.atBareReturn)) []) (leave .returned)) := by
  intro ends d a d' h hd hends hK
  obtain ⟨ends', d₁, hstep, h⟩ := bind_eq_ok.1 h
  obtain ⟨flow, d₂, hall, h⟩ := bind_eq_ok.1 h
  obtain ⟨_, d₃, htie, h⟩ := bind_eq_ok.1 h
  cases pure_eq_ok.1 h
  cases (tie_eq flow.next exitId d₂).symm.trans htie
  have hnode := hs.step (some pos) (k := .returnValue) rfl (Bool.or_false _) (.inl rfl) rfl
    ends d ends' d₁ hstep hd hends hK
  cases (step_eq s .returnValue (some pos) [] [] ends d).symm.trans hstep
  have hrest := hs.frames.draws_return hall hnode.grows.after hnode.below.onTrue hnode.inside
  have hboth := hnode.seq hrest
  refine ⟨hboth.grows, hboth.below, fun Q => (hboth.carries Q).of_le ?_ ?_ fun _ => .rfl⟩
  · intro hrules f _ hf
    simpa [hrules] using hf
  · intro _ f hf x hx t ht
    have := hf x hx ht
    rw [Context.demand_seq, Context.mem_demand_act] at this ⊢
    refine ⟨this.1, this.2.1, fun hfails => this.2.2 ?_⟩
    exact (Bool.and_eq_true_iff.1 hfails).1

theorem discard_emit_eq (s : Surroundings) (pos : Option Pos) (ends : Frontier) (d : Draft) :
    discard (emit s .throwValue pos [] [] ends) d =
      .ok ((), d.emitted ⟨d.size, .throwValue, pos, [], []⟩ ends (raiseTargets s .throwValue)) := by
  change (emit s .throwValue pos [] [] ends >>= fun _ => pure ()) d = _
  exact bind_eq_ok.2 ⟨_, _, emit_eq .., rfl⟩

theorem Represents.throws (hs : Represents rules s ctx) (pos : Pos) :
    Implements rules ctx (fun ends => do
      discard (emit s .throwValue (some pos) [] [] ends)
      return Flow.stopped) (seq (act true []) never) := by
  intro ends d a d' h hd hends hK
  obtain ⟨_, d₁, hemit, h⟩ := bind_eq_ok.1 h
  cases pure_eq_ok.1 h
  have hstep : FlowGraph.step s .throwValue (some pos) [] [] ends d =
      .ok ([⟨d.size, .normal⟩], d') := by
    cases (discard_emit_eq s (some pos) ends d).symm.trans hemit
    exact step_eq ..
  have hnode := hs.call pos (k := .throwValue) rfl rfl ends d _ _ hstep hd hends hK
  exact hnode.seq (.never hnode.grows.after hnode.inside)

end FlowGraph

end WriteOnce
