import WriteOnce.Proofs.JumpTargets

/-!
# Drafts of `try` statements

The nodes at which the handlers of a `try` begin are made before its body, since the
nodes of the body raise exceptions to them. A cleanup block is drafted once for the
code that falls through, once for exceptions that no clause takes, and once for each
jump or `return` that leaves from inside; the frame of the `try` stands for the last.
-/

namespace WriteOnce

open Execution Behavior

namespace FlowGraph

variable {rules : Rules} {r : Resolution} {s : Surroundings} {ctx : Context}
  {a b c : Behavior} {d d' d₁ d₂ d₃ : Draft} {ends : Frontier} {O O' : Exits}
  {A A' : Aim → Claim}

theorem Draws.beside (h : Draws rules ctx A d d₁ O) (h' : Draws rules ctx A' d₁ d₂ O')
    (hA' : ∀ Q, (A' Q).Local d.size) : Draws rules ctx (fun Q f => A Q f ∧ A' Q f) d d₂
      ⟨O.onTrue ++ O'.onTrue, O.onFalse ++ O'.onFalse, O.jumps ++ O'.jumps⟩ := by
  have hO := h.below.mono h'.grows.size
  refine ⟨h.grows.trans h'.grows, ?_, fun Q => ?_⟩
  · exact ⟨Frontier.below_append.2 ⟨hO.onTrue, h'.below.onTrue⟩,
      Frontier.below_append.2 ⟨hO.onFalse, h'.below.onFalse⟩,
      List.forall_mem_append.2 ⟨hO.jumps, h'.below.jumps⟩⟩
  · have hsecond := (h'.carries Q).frame (Exits.claim_local h.below Q)
    refine ((h.carries Q).frame (hA' Q)).trans (hsecond.congr (fun f => and_comm) fun f => ?_)
    simp only [Exits.claim, holds_append, List.forall_mem_append]
    tauto

/-! ## Handlers -/

theorem forall_getElem?_cons {x : α} {xs : List α} {P : Nat → α → Prop} :
    (∀ i y, (x :: xs)[i]? = some y → P i y) ↔
      P 0 x ∧ ∀ i y, xs[i]? = some y → P (i + 1) y := by
  constructor
  · intro h
    exact ⟨h 0 x rfl, fun i y hy => h (i + 1) y hy⟩
  · rintro ⟨h0, h⟩ i y hy
    cases i with
    | zero =>
      cases hy
      exact h0
    | succ i => exact h i y hy

/-- The nodes of the handlers are numbered like the clauses, and bind their parameters. -/
theorem addHandlers_eq_ok {clauses : List CatchClause} {handlers : List Nat} (hd : d.Tidy)
    (h : addHandlers r clauses d = .ok (handlers, d')) :
    handlers = List.range' d.size clauses.length ∧ d.Grows d' ∧
      d'.size = d.size + clauses.length ∧ d'.edges = d.edges ∧
      ∀ n ∈ d'.nodes, n ∈ d.nodes ∨ d.size ≤ n.id ∧ ∃ clause,
        clauses[n.id - d.size]? = some clause ∧
          n.trace = (r.binding clause.param.pos true).map Binding.event := by
  induction clauses generalizing d handlers with
  | nil =>
    cases pure_eq_ok.1 h
    exact ⟨rfl, hd.grows, rfl, rfl, fun n hn => .inl hn⟩
  | cons clause clauses ih =>
    rw [addHandlers, List.mapM_cons] at h
    obtain ⟨id, d₁, hadd, h⟩ := bind_eq_ok.1 h
    obtain ⟨ids, d₂, hrest, h⟩ := bind_eq_ok.1 h
    cases pure_eq_ok.1 h
    cases hadd
    have hpush : d.Grows (d.push ⟨d.size, .handler, some clause.pos,
        r.binding clause.param.pos true, []⟩) := hd.push rfl (.inr rfl)
    obtain ⟨rfl, hgrows, hsize, hedges, hnodes⟩ := ih hpush.after hrest
    refine ⟨rfl, hpush.trans hgrows, ?_, hedges, fun n hn => ?_⟩
    · rw [hsize, List.length_cons]
      simp only [Draft.push]
      omega
    · rcases hnodes n hn with hn | ⟨hle, c, hc, htrace⟩
      · rcases List.mem_cons.1 hn with rfl | hn
        · exact .inr ⟨le_rfl, clause, by simp, List.append_nil _⟩
        · exact .inl hn
      · simp only [Draft.push] at hle hc
        refine .inr ⟨by omega, c, ?_, htrace⟩
        rw [show n.id - d.size = n.id - (d.size + 1) + 1 by omega]
        exact hc

/-- What the clauses of a `try` may do, each from its handler on. -/
def clauseBehaviors (r : Resolution) (clauses : List CatchClause) (body : CatchClause → Behavior) :
    List Behavior :=
  clauses.map fun clause => seq (bindAt r false clause.param.pos true) (body clause)

/-- A draft of the bodies of clauses, whose handlers are numbered from `k` on. -/
def ImplementsClauses (rules : Rules) (ctx : Context) (clauses : List CatchClause)
    (draft : List Nat → Drafting Flow) (body : CatchClause → Behavior) : Prop :=
  ∀ k d flow d', draft (List.range' k clauses.length) d = .ok (flow, d') → d.Tidy →
    k + clauses.length ≤ d.size → (∀ h, ctx.Leads h → h < d.size) →
    Draws rules ctx (fun Q f => ∀ i clause, clauses[i]? = some clause →
      f (k + i) ⊆ ctx.demand (body clause) Q) d d' (exits flow)

theorem ImplementsClauses.nil {body : CatchClause → Behavior} :
    ImplementsClauses rules ctx [] (fun _ => pure Flow.stopped) body := by
  intro k d flow d' h hd hk hK
  cases pure_eq_ok.1 h
  refine .nothing hd hK ⟨by simp [exits, Flow.stopped], by simp [exits],
    by simp [exits, Flow.stopped]⟩ fun Q f => ?_
  simp [Exits.claim, exits, Flow.stopped]

theorem ImplementsClauses.cons {clause : CatchClause} {clauses : List CatchClause}
    {first : Frontier → Drafting Flow} {others : List Nat → Drafting Flow}
    {body : CatchClause → Behavior} (hfirst : Implements rules ctx first (body clause))
    (hothers : ImplementsClauses rules ctx clauses others body)
    {draft : List Nat → Drafting Flow} (hdraft : ∀ handler handlers,
      draft (handler :: handlers) = (do
        let first ← first [⟨handler, .normal⟩]
        let others ← others handlers
        return first ++ others)) :
    ImplementsClauses rules ctx (clause :: clauses) draft body := by
  intro k d flow d' h hd hk hK
  rw [List.length_cons] at h hk
  rw [List.range'_succ, hdraft] at h
  obtain ⟨flow₁, d₁, hrun, h⟩ := bind_eq_ok.1 h
  obtain ⟨flow₂, d₂, hruns, h⟩ := bind_eq_ok.1 h
  cases pure_eq_ok.1 h
  have hhead : Frontier.Below [⟨k, .normal⟩] d.size := by
    simp only [Frontier.below_cons, Frontier.below_nil, and_true]
    omega
  have hrun := hfirst _ _ _ _ hrun hd hhead hK
  have hruns := hothers (k + 1) _ _ _ hruns hrun.grows.after
    (le_trans (by omega) hrun.grows.size) hrun.inside
  refine ((hrun.beside hruns ?_).widen (fun _ hi => hi) hK fun Q f => ?_).same
    ⟨fun _ => .rfl, fun _ => .rfl, fun _ => .rfl⟩
  · intro Q f g hfg hf i clause hi
    have hlt : i < clauses.length := (List.getElem?_eq_some_iff.1 hi).1
    rw [hfg (k + 1 + i) (by omega)]
    exact hf i clause hi
  · have hshift : ∀ i, k + 1 + i = k + (i + 1) := fun i => by omega
    rw [forall_getElem?_cons]
    simp only [Starts, holds_cons, holds_nil, and_true, hshift, Nat.add_zero]

/-- Where the handlers of a `try` are entered, what their clauses demand is allowed. -/
theorem raises_handlers {clauses : List CatchClause} {body : CatchClause → Behavior} {k : Nat}
    {Q : Aim} {R : Outside} (hR : ∀ i < clauses.length, R.enters (k + i) =
      {t | ∀ clause, clauses[i]? = some clause →
        t ∈ ctx.demand (seq (bindAt r false clause.param.pos true) (body clause)) Q}) :
    Aim.raises R (List.range' k clauses.length) =
      ctx.demand (anyOf (clauseBehaviors r clauses body)) Q := by
  ext t
  rw [Context.demand, mem_wp_anyOf]
  simp only [Aim.raises, Set.mem_ofPred_eq, clauseBehaviors, List.forall_mem_map]
  constructor
  · intro h clause hclause
    obtain ⟨i, hi, rfl⟩ := List.mem_iff_getElem.1 hclause
    have := h (k + i) (List.mem_range'_1.2 ⟨by omega, by omega⟩)
    rw [hR i hi] at this
    exact this _ (List.getElem?_eq_getElem hi)
  · intro h i hi
    obtain ⟨hle, hlt⟩ := List.mem_range'_1.1 hi
    obtain ⟨j, rfl⟩ := Nat.exists_eq_add_of_le hle
    rw [hR j (by omega)]
    intro clause hclause
    exact h clause (List.mem_of_getElem? hclause)

theorem Draws.handling {clauses : List CatchClause} {handlers : List Nat}
    {body : CatchClause → Behavior} (hd : d.Tidy) (hends : ends.Below d.size)
    (hK : ∀ h, ctx.Leads h → h < d.size)
    (hrun : addHandlers r clauses d = .ok (handlers, d₁))
    (hbody : Draws rules ⟨handlers ++ ctx.escapes, ctx.guards⟩
      (Starts ⟨handlers ++ ctx.escapes, ctx.guards⟩ a ends) d₁ d₂ O)
    (hclauses : Draws rules ctx (fun Q f => ∀ i clause, clauses[i]? = some clause →
      f (d.size + i) ⊆ ctx.demand (body clause) Q) d₂ d₃ O') :
    Draws rules ctx (Starts ctx (Behavior.handling a (clauseBehaviors r clauses body)) ends) d d₃
      ⟨O.onTrue ++ O'.onTrue, O.onFalse ++ O'.onFalse, O.jumps ++ O'.jumps⟩ := by
  obtain ⟨rfl, hgrows, hsize, hedges, hnodes⟩ := addHandlers_eq_ok hd hrun
  have hO := hbody.below.mono hclauses.grows.size
  refine ⟨(hgrows.trans hbody.grows).trans hclauses.grows, ?_, fun Q => ?_⟩
  · exact ⟨Frontier.below_append.2 ⟨hO.onTrue, hclauses.below.onTrue⟩,
      Frontier.below_append.2 ⟨hO.onFalse, hclauses.below.onFalse⟩,
      List.forall_mem_append.2 ⟨hO.jumps, hclauses.below.jumps⟩⟩
  let H : Nat → Set Trace := fun i => {t | ∀ clause, clauses[i - d.size]? = some clause →
    t ∈ ctx.demand (Behavior.seq (bindAt r false clause.param.pos true) (body clause)) Q}
  let T : Nat → Set Trace := fun i => {t | ∀ clause, clauses[i - d.size]? = some clause →
    t ∈ ctx.demand (body clause) Q}
  let R : Aim := { Q with toOutside := Q.toOutside.opened d.size H }
  have hdemand : ctx.demand (Behavior.handling a (clauseBehaviors r clauses body)) Q =
      Context.demand ⟨List.range' d.size clauses.length ++ ctx.escapes, ctx.guards⟩ a R := by
    refine Context.demand_handling rfl rfl rfl rfl (fun h hh => if_pos (hK h hh)) ?_
    apply raises_handlers
    intro i _
    simp [R, H, Outside.opened]
  -- Behind the binding of a handler its clause is demanded.
  have hhandler : ∀ n ∈ d₁.nodes, d.size ≤ n.id → ∃ clause,
      clauses[n.id - d.size]? = some clause ∧
        n.trace = (r.binding clause.param.pos true).map Binding.event := by
    intro n hn hle
    rcases hnodes n hn with hn | ⟨_, h⟩
    · have := hd.id_lt hn
      omega
    · exact h
  have hrest := (hclauses.carries Q).frame (Exits.claim_local hbody.below Q)
  refine .opening (T := T) (H := H) hgrows hedges ?_ (Holds.local_of_below hends _) hK ?_ ?_ ?_
    ((hbody.carries R).congr (fun f => by rw [Starts, Starts, hdemand]) fun _ => .rfl)
    (hrest.congr (fun f => ?_) fun f => ?_)
  · intro n hn
    exact (hnodes n hn).imp_right And.left
  · intro h
    simp only [Context.Leads, List.mem_append, List.mem_range'_1, hsize]
    tauto
  · intro n hn hle t hcut ht
    obtain ⟨clause, hclause, htrace⟩ := hhandler n hn hle
    have := ht clause hclause
    rw [Context.demand_seq, bindAt, Context.mem_demand_act, ← htrace] at this
    refine ⟨fun clause' hclause' => ?_, this.2.1⟩
    cases hclause.symm.trans hclause'
    exact this.1
  · intro n hn hle t ht hcut clause hclause
    obtain ⟨clause', hclause', htrace⟩ := hhandler n hn hle
    cases hclause.symm.trans hclause'
    rw [Context.demand_seq, bindAt, Context.mem_demand_act, ← htrace]
    exact ⟨ht clause hclause, hcut, by simp⟩
  · constructor
    · rintro ⟨hT, hclaim⟩
      refine ⟨hclaim, fun i hle hlt t ht clause hclause => ?_⟩
      obtain ⟨j, rfl⟩ := Nat.exists_eq_add_of_le hle
      rw [Nat.add_sub_cancel_left] at hclause
      exact hT j clause hclause ht
    · rintro ⟨hclaim, hT⟩
      refine ⟨fun i clause hclause t ht => ?_, hclaim⟩
      have hi : i < clauses.length := (List.getElem?_eq_some_iff.1 hclause).1
      apply hT (d.size + i) (by omega) (by omega) ht clause
      rwa [Nat.add_sub_cancel_left]
  · simp only [Exits.claim, holds_append, List.forall_mem_append]
    tauto

theorem Represents.handling (hs : Represents rules s ctx) (handlers : List Nat) :
    Represents rules (s.handling (handlers ++ s.escapes))
      ⟨handlers ++ ctx.escapes, ctx.guards⟩ :=
  ⟨congrArg (handlers ++ ·) hs.escapes, hs.frames⟩

section Try

variable {clauses : List CatchClause} {body : Surroundings → Frontier → Drafting Flow}
  {D : Surroundings → List Nat → Drafting Flow} {bodies : CatchClause → Behavior} {pos : Pos}

/-- The body of a `try` with its clauses. -/
theorem Represents.draws_region {handlers : List Nat} {ends' : Frontier} {first others : Flow}
    {d₄ : Draft} (hs : Represents rules s ctx)
    (hb : ∀ {region : Surroundings} {ctx' : Context}, Represents rules region ctx' →
      region.guarded = true → Implements rules ctx' (body region) b)
    (hc : ImplementsClauses rules ctx clauses (D s) bodies) (hd : d.Tidy)
    (hends : ends.Below d.size) (hK : ∀ h, ctx.Leads h → h < d.size)
    (hhandlers : addHandlers r clauses d = .ok (handlers, d₁))
    (hstep : FlowGraph.step (s.handling (handlers ++ s.escapes)) .tryBody (some pos) [] [] ends d₁ =
      .ok (ends', d₂))
    (hbody : body (s.handling (handlers ++ s.escapes)) ends' d₂ = .ok (first, d₃))
    (hclauses : D s handlers d₃ = .ok (others, d₄)) :
    Draws rules ctx (Starts ctx (Behavior.handling (seq (act true []) b)
      (clauseBehaviors r clauses bodies)) ends) d d₄ (exits (first ++ others)) := by
  obtain ⟨rfl, hgrows, hsize, -, -⟩ := addHandlers_eq_ok hd hhandlers
  have hregion := hs.handling (List.range' d.size clauses.length)
  have hleads : ∀ h, Context.Leads
      ⟨List.range' d.size clauses.length ++ ctx.escapes, ctx.guards⟩ h → h < d₁.size := by
    rintro h (hh | hh)
    · rcases List.mem_append.1 hh with hh | hh
      · have := (List.mem_range'_1.1 hh).2
        omega
      · exact (hK h (.inl hh)).trans_le hgrows.size
    · exact (hK h (.inr hh)).trans_le hgrows.size
  have hentry := hregion.step (some pos) (k := .tryBody) rfl rfl (.inl rfl) rfl _ _ _ _ hstep
    hgrows.after (hends.mono hgrows.size) hleads
  have hbody := hb hregion rfl _ _ _ _ hbody hentry.grows.after hentry.below.onTrue hentry.inside
  rw [← all_exits_frontier ends'] at hbody
  have hinner := hentry.seq hbody
  have hsize' : d.size + clauses.length ≤ d₃.size := hsize ▸ hinner.grows.size
  have hclauses := hc _ _ _ _ hclauses hinner.grows.after hsize'
    fun h hh => (hK h hh).trans_le (hgrows.trans hinner.grows).size
  exact .handling hd hends hK hhandlers hinner hclauses

theorem Represents.tryCatch (hs : Represents rules s ctx)
    (hb : ∀ {region : Surroundings} {ctx' : Context}, Represents rules region ctx' →
      region.guarded = true → Implements rules ctx' (body region) b)
    (hc : ImplementsClauses rules ctx clauses (D s) bodies) :
    Implements rules ctx (fun ends => do
      let handlers ← addHandlers r clauses
      let region := s.handling (handlers ++ s.escapes)
      let ends ← FlowGraph.step region .tryBody (some pos) [] [] ends
      let first ← body region ends
      let others ← D s handlers
      return first ++ others)
      (Behavior.handling (seq (act true []) b) (clauseBehaviors r clauses bodies)) := by
  intro ends d r' d' h hd hends hK
  obtain ⟨handlers, d₁, hhandlers, h⟩ := bind_eq_ok.1 h
  obtain ⟨ends', d₂, hstep, h⟩ := bind_eq_ok.1 h
  obtain ⟨first, d₃, hbody, h⟩ := bind_eq_ok.1 h
  obtain ⟨others, d₄, hclauses, h⟩ := bind_eq_ok.1 h
  cases pure_eq_ok.1 h
  exact hs.draws_region hb hc hd hends hK hhandlers hstep hbody hclauses

/-! ## Cleanup blocks -/

/-- Where the rules let an exception be raised at the beginning of a cleanup block, the execution
may do more than the draft. -/
theorem Implements.risk [HasExits α] {block : Frontier → Drafting α} {fails : Bool}
    (hfails : fails = true → rules.atCleanup = true) (h : Implements rules ctx block c) :
    Implements rules ctx block (seq (Behavior.risk fails) c) := by
  intro ends d x d' hrun hd hends hK
  have h := h _ _ _ _ hrun hd hends hK
  refine ⟨h.grows, h.below, fun Q => (h.carries Q).of_le ?_ ?_ fun _ => .rfl⟩
  · intro _ f _ hf e he t ht
    have := hf e he ht
    rw [Context.demand_seq, Context.mem_demand_risk] at this
    exact this.1
  · intro hrules f hf e he t ht
    rw [Context.demand_seq, Context.mem_demand_risk]
    refine ⟨hf e he ht, fun h => ?_⟩
    rw [hfails h] at hrules
    cases hrules

/-- Behind a cleanup block that falls through, the exception goes on. -/
theorem Represents.draws_rethrow (hs : Represents rules s ctx) (hd : d.Tidy)
    (hends : ends.Below d.size) (hK : ∀ h, ctx.Leads h → h < d.size) {u : Unit}
    (hrun : draftRethrow s ends d = .ok (u, d')) :
    Draws rules ctx (Starts ctx (leave .raised) ends) d d' ⟨[], [], []⟩ := by
  unfold draftRethrow at hrun
  split_ifs at hrun with hempty
  · cases pure_eq_ok.1 hrun
    refine .nothing hd hK ⟨by simp, by simp, by simp⟩ fun Q f => ?_
    rw [List.isEmpty_iff.1 hempty]
    simp [Starts, Exits.claim]
  · cases (discard_emit_eq s none ends d).symm.trans hrun
    have hraise : raiseTargets s .throwValue = ctx.escapes := by
      rw [raiseTargets_eq s rfl, hs.escapes]
      exact if_pos (Bool.or_true _)
    rw [hraise]
    have hcarries : ∀ Q : Aim, Carries rules ctx.Leads Q.toOutside
        (Starts ctx (leave .raised) ends Q) d
        (d.emitted ⟨d.size, .throwValue, none, [], []⟩ ends ctx.escapes)
        (Exits.claim ⟨[], [], []⟩ Q) := by
      intro Q
      have h : Carries rules ctx.Leads Q.toOutside (Starts ctx (leave .raised) ends Q) d
          (d.emitted ⟨d.size, .throwValue, none, [], []⟩ ends ctx.escapes)
          (fun f => f d.size ⊆ Set.univ) := by
        refine .emitted (n := ⟨d.size, .throwValue, none, [], []⟩) hd rfl (.inl rfl) hends hK
          (fun i hi => .inl hi) ?_ ?_
        · intro t hcut ht
          rw [Context.demand, wp_leave] at ht
          simp only [Node.trace, List.map_nil, List.append_nil]
          exact ⟨trivial, hcut, ht⟩
        · intro t _ _ ht
          simp only [Node.trace, List.map_nil, List.append_nil] at ht
          rwa [Context.demand, wp_leave]
      exact h.congr (fun _ => .rfl) fun f => by simp [Exits.claim]
    exact ⟨(hcarries default).grows, ⟨by simp, by simp, by simp⟩, hcarries⟩

/-- Behind a region, the cleanup block is drafted once for what falls through and once more for the
exceptions that come to a node. -/
theorem Draws.copies {flow after : Flow} {escape : Nat} {jumps : List Parked}
    (hflow : ∀ p ∈ flow.jumps, p.source < d₁.size) (hescape : escape < d₁.size)
    (hafter : Draws rules ctx (Starts ctx c flow.next) d₁ d₂ (exits after))
    (hescaped : Draws rules ctx (Starts ctx (Behavior.seq c (leave .raised)) [⟨escape, .normal⟩])
      d₂ d₃ ⟨[], [], jumps⟩) :
    Draws rules ctx (fun Q f => Starts ctx c flow.next (Q.falling fun _ => Q.falls true) f ∧
        Exits.claim ⟨[], [], flow.jumps⟩ Q f ∧
        Starts ctx (Behavior.seq c (leave .raised)) [⟨escape, .normal⟩] Q f) d₁ d₃
      ⟨after.next, [], flow.jumps ++ (after.jumps ++ jumps)⟩ := by
  have hflow' : ∀ p ∈ flow.jumps, p.source < d₂.size :=
    fun p hp => (hflow p hp).trans_le hafter.grows.size
  have hafter' := hafter.below.mono hescaped.grows.size
  refine ⟨hafter.grows.trans hescaped.grows, ?_, fun Q => ?_⟩
  · refine ⟨hafter'.onTrue, Frontier.below_nil, List.forall_mem_append.2
      ⟨fun p hp => ?_, List.forall_mem_append.2 ⟨hafter'.jumps, hescaped.below.jumps⟩⟩⟩
    exact (hflow' p hp).trans_le hescaped.grows.size
  · -- The jumps of the region and the node of its exceptions are carried past the first copy.
    have hfirst := (hafter.carries (Q.falling fun _ => Q.falls true)).frame
      (F := fun f => Exits.claim ⟨[], [], flow.jumps⟩ Q f ∧
        Starts ctx (Behavior.seq c (leave .raised)) [⟨escape, .normal⟩] Q f)
      fun f g hfg hf => ⟨Exits.jumps_local hflow Q f g hfg hf.1,
        Holds.local_of_below (by simpa using hescape) _ f g hfg hf.2⟩
    have hsecond := (hescaped.carries Q).frame
      (F := fun f => Exits.claim ⟨[], [], flow.jumps⟩ Q f ∧ (exits after).claim Q f)
      fun f g hfg hf => ⟨Exits.jumps_local hflow' Q f g hfg hf.1,
        Exits.claim_local hafter.below Q f g hfg hf.2⟩
    refine (hfirst.congr (fun _ => .rfl) fun f => ?_).trans
      (hsecond.congr (fun _ => .rfl) fun f => ?_)
    · simp only [Exits.claim, exits, holds_nil, Aim.falling, true_and]
      tauto
    · simp only [Exits.claim, exits, holds_nil, List.forall_mem_append, true_and]
      tauto

/-- Around a region whose exceptions go to a node of their own, the cleanup block is drafted behind
what falls through and behind that node. -/
theorem Draws.ensuring {n : Node} {flow after : Flow} {jumps : List Parked}
    (hd : d.Tidy) (hid : n.id = d.size) (hbinds : n.binds = []) (hwrites : n.writes = [])
    (hends : ends.Below d.size) (hK : ∀ h, ctx.Leads h → h < d.size)
    (hregion : Draws rules ⟨[n.id], .cleanup c ctx.escapes :: ctx.guards⟩
      (Starts ⟨[n.id], .cleanup c ctx.escapes :: ctx.guards⟩ a ends) (d.push n) d₁ (exits flow))
    (hafter : Draws rules ctx (Starts ctx c flow.next) d₁ d₂ (exits after))
    (hescaped : Draws rules ctx (Starts ctx (Behavior.seq c (leave .raised)) [⟨n.id, .normal⟩])
      d₂ d₃ ⟨[], [], jumps⟩) :
    Draws rules ctx (Starts ctx (Behavior.ensuring a c) ends) d d₃
      ⟨after.next, [], flow.jumps ++ (after.jumps ++ jumps)⟩ := by
  have hpush : d.Grows (d.push n) := hd.push hid (.inl hbinds)
  have hcopies := Draws.copies hregion.below.jumps (hid ▸ hregion.grows.size) hafter hescaped
  refine ⟨(hpush.trans hregion.grows).trans hcopies.grows, hcopies.below, fun Q => ?_⟩
  let T : Nat → Set Trace := fun _ => ctx.demand (Behavior.seq c (leave .raised)) Q
  let R : Aim :=
    { toOutside := Q.toOutside.opened d.size T
      falls := fun way => ctx.demand c (Q.falling fun _ => Q.falls way)
      parked := Q.parked }
  have hdemand : ctx.demand (Behavior.ensuring a c) Q =
      Context.demand ⟨[n.id], .cleanup c ctx.escapes :: ctx.guards⟩ a R := by
    refine Context.demand_ensuring rfl rfl rfl rfl (fun h hh => if_pos (hK h hh)) ?_
    simp [R, T, Outside.opened, hid]
  have hnode : ∀ m ∈ (d.push n).nodes, d.size ≤ m.id → m.trace = [] := by
    intro m hm hle
    rcases List.mem_cons.1 hm with rfl | hm
    · exact Node.trace_eq_nil hbinds hwrites
    · have := hd.id_lt hm
      omega
  have honly : ∀ i, d.size ≤ i ∧ i < (d.push n).size ↔ i = n.id := by
    intro i
    simp only [Draft.push, hid]
    omega
  have hrest : Carries rules ctx.Leads Q.toOutside (fun f => (exits flow).claim R f ∧
      ∀ i, d.size ≤ i → i < (d.push n).size → f i ⊆ T i) d₁ d₃
      (Exits.claim ⟨after.next, [], flow.jumps ++ (after.jumps ++ jumps)⟩ Q) := by
    refine (hcopies.carries Q).congr (fun f => ?_) fun _ => .rfl
    simp only [← and_imp, honly, forall_eq]
    simp only [Starts, Exits.claim, exits, holds_cons, holds_nil, and_true, true_and, R, T,
      and_assoc]
  refine .opening (T := T) (H := T) hpush rfl ?_ (Holds.local_of_below hends _) hK ?_ ?_ ?_
    ((hregion.carries R).congr (fun f => by rw [Starts, Starts, hdemand]) fun _ => .rfl) hrest
  · intro m hm
    rcases List.mem_cons.1 hm with rfl | hm
    · exact .inr hid.ge
    · exact .inl hm
  · intro h
    rw [honly, Context.leads_cleanup, List.mem_singleton]
    exact or_comm
  · intro m hm hle t hcut ht
    rw [hnode m hm hle, List.append_nil]
    exact ⟨ht, hcut⟩
  · intro m hm hle t ht _
    rwa [hnode m hm hle, List.append_nil] at ht

/-- Where nothing falls through, no copy of the cleanup block is needed. -/
theorem Implements.unlessStopped {cleanup : Frontier → Drafting Flow}
    (h : Implements rules ctx cleanup c) :
    Implements rules ctx
      (fun ends => if ends.isEmpty then pure Flow.stopped else cleanup ends) c := by
  intro ends d flow d' hrun hd hends hK
  dsimp only at hrun
  split_ifs at hrun with hempty
  · cases pure_eq_ok.1 hrun
    refine .nothing hd hK ⟨by simp [exits, Flow.stopped], by simp [exits],
      by simp [exits, Flow.stopped]⟩ fun Q f => ?_
    rw [List.isEmpty_iff.1 hempty]
    simp [Starts, Exits.claim, exits, Flow.stopped]
  · exact h _ _ _ _ hrun hd hends hK

theorem Represents.tryFinally {cleanup : Frontier → Drafting Flow} (hs : Represents rules s ctx)
    (hb : ∀ {region : Surroundings} {ctx' : Context}, Represents rules region ctx' →
      region.guarded = true → Implements rules ctx' (body region) b)
    (hc : ∀ {inner : Surroundings} {ctx' : Context}, Represents rules inner ctx' →
      inner.guarded = true → ImplementsClauses rules ctx' clauses (D inner) bodies)
    (hcleanup : Implements rules ctx cleanup c) (cleanupPos : Pos) :
    Implements rules ctx (fun ends => do
      let escape ← addNode .join (some cleanupPos) [] []
      let handlers ← addHandlers r clauses
      let inner := s.inside (.cleanup cleanup)
      let region := inner.handling (handlers ++ [escape])
      let ends ← FlowGraph.step region .tryBody (some pos) [] [] ends
      let first ← body region ends
      let others ← D (inner.handling [escape]) handlers
      let flow := first ++ others
      let after ← if flow.next.isEmpty then pure Flow.stopped else cleanup flow.next
      let escaped ← cleanup [⟨escape, .normal⟩]
      draftRethrow s escaped.next
      return ⟨after.next, flow.jumps ++ (after.jumps ++ escaped.jumps)⟩ :
        Frontier → Drafting Flow)
      (Behavior.ensuring
        (Behavior.handling (seq (act true []) b) (clauseBehaviors r clauses bodies)) c) := by
  intro ends d r' d' h hd hends hK
  obtain ⟨escape, d₀, hescape, h⟩ := bind_eq_ok.1 h
  obtain ⟨handlers, d₁, hhandlers, h⟩ := bind_eq_ok.1 h
  obtain ⟨ends', d₂, hstep, h⟩ := bind_eq_ok.1 h
  obtain ⟨first, d₃, hbody, h⟩ := bind_eq_ok.1 h
  obtain ⟨others, d₄, hclauses, h⟩ := bind_eq_ok.1 h
  let rest (after : Flow) : Drafting Flow := do
    let escaped ← cleanup [⟨escape, .normal⟩]
    draftRethrow s escaped.next
    return ⟨after.next, (first ++ others).jumps ++ (after.jumps ++ escaped.jumps)⟩
  have h : ((if (first ++ others).next.isEmpty then pure Flow.stopped
      else cleanup (first ++ others).next) >>= rest) d₄ = .ok (r', d') := by
    split_ifs at h ⊢ <;> exact h
  obtain ⟨after, d₅, hafter, h⟩ := bind_eq_ok.1 h
  obtain ⟨escaped, d₆, hescaped, h⟩ := bind_eq_ok.1 h
  obtain ⟨_, d₇, hrethrow, h⟩ := bind_eq_ok.1 h
  cases pure_eq_ok.1 h
  cases hescape
  let n : Node := ⟨d.size, .join, some cleanupPos, [], []⟩
  have hpush : d.Grows (d.push n) := hd.push rfl (.inl rfl)
  have hinner : Represents rules ((s.inside (.cleanup cleanup)).handling [d.size])
      ⟨[d.size], .cleanup c ctx.escapes :: ctx.guards⟩ :=
    ⟨rfl, .cleanup hcleanup hs.frames⟩
  have hleads : ∀ h, Context.Leads ⟨[d.size], .cleanup c ctx.escapes :: ctx.guards⟩ h →
      h < (d.push n).size := by
    intro h hh
    rcases Context.leads_cleanup.1 hh with hh | hh
    · rw [List.mem_singleton.1 hh]
      exact Nat.lt_succ_self _
    · exact (hK h hh).trans_le hpush.size
  have hregion := hinner.draws_region hb (hc hinner rfl) hpush.after (hends.mono hpush.size) hleads
    hhandlers hstep hbody hclauses
  have hafter : Draws rules ctx (Starts ctx c (first ++ others : Flow).next) d₄ d₅ _ :=
    hcleanup.unlessStopped _ _ _ _ hafter hregion.grows.after hregion.below.onTrue
      fun h hh => (hK h hh).trans_le (hpush.trans hregion.grows).size
  have hescape : Frontier.Below [⟨d.size, .normal⟩] d₅.size := by
    have := (hregion.grows.trans hafter.grows).size
    simp only [Frontier.below_cons, Frontier.below_nil, and_true]
    exact (Nat.lt_succ_self _).trans_le this
  have hescaped := hcleanup _ _ _ _ hescaped hafter.grows.after hescape hafter.inside
  have hrethrow : Draws rules ctx (Starts ctx (leave .raised) escaped.next) d₆ d' _ :=
    hs.draws_rethrow hescaped.grows.after hescaped.below.onTrue hescaped.inside hrethrow
  rw [← all_exits_flow escaped] at hrethrow
  have hrest : Draws rules ctx (Starts ctx (seq c (leave .raised)) [⟨d.size, .normal⟩]) d₅ d'
      ⟨[], [], escaped.jumps⟩ :=
    (hescaped.seq hrethrow).same ⟨fun _ => .rfl, fun _ => .rfl, by simp [exits]⟩
  exact .ensuring (n := n) hd rfl rfl rfl hends hK hregion hafter hrest

end Try

end FlowGraph

end WriteOnce
