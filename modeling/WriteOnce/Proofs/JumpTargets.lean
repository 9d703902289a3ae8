import WriteOnce.Proofs.Statements

/-!
# Drafts of constructs that take jumps

The head of a loop comes first, and everything that begins another round is tied
back to it. The groups of a switch are entered from the node of its test, and from
the group in front of them.
-/

namespace WriteOnce

open Execution Behavior

namespace FlowGraph

variable {rules : Rules} {r : Resolution} {s : Surroundings} {ctx : Context}
  {a b c e : Behavior} {d d' d₁ d₂ : Draft} {ends : Frontier} {labels : List Text}

theorem Draws.catchingLoop {flow : Flow} (hs : Represents rules s ctx)
    (h : Draws rules (ctx.inside (.target (.loop labels)))
      (Starts (ctx.inside (.target (.loop labels))) a ends) d d' (exits flow)) :
    Draws rules ctx (Starts ctx (Behavior.catching (Target.loop labels).takes a) ends) d d'
      ⟨flow.next ++ flow.continues s.depth, flow.breaks s.depth, flow.passing s.depth⟩ :=
  h.catching hs.depth_eq

theorem Represents.whileLoop (hs : Represents rules s ctx) (pos : Pos)
    {cond : Frontier → Drafting Split} {body : Frontier → Drafting Flow}
    (ha : Implements rules ctx cond a)
    (hb : Implements rules (ctx.inside (.target (.loop labels))) body b) :
    Implements rules ctx (fun ends => do
      let head ← emit s .loop (some pos) [] [] ends
      let split ← cond [⟨head, .normal⟩]
      let flow ← body split.onTrue
      tieAs .continueOn (flow.continues s.depth) head
      tieAs .loopBack flow.next head
      return ⟨split.onFalse ++ flow.breaks s.depth, flow.passing s.depth⟩ :
        Frontier → Drafting Flow)
      (loop (branch a (catching (Target.loop labels).takes b) (leave (.fell false)))) := by
  intro ends d r d' h hd hends hK
  obtain ⟨head, d₁, hhead, h⟩ := bind_eq_ok.1 h
  obtain ⟨split, d₂, hcond, h⟩ := bind_eq_ok.1 h
  obtain ⟨flow, d₃, hbody, h⟩ := bind_eq_ok.1 h
  obtain ⟨_, d₄, hcontinue, h⟩ := bind_eq_ok.1 h
  obtain ⟨_, d₅, hback, h⟩ := bind_eq_ok.1 h
  cases pure_eq_ok.1 h
  cases (emit_eq s .loop (some pos) [] [] ends d).symm.trans hhead
  cases (tieAs_eq .continueOn (flow.continues s.depth) d.size d₃).symm.trans hcontinue
  cases (tieAs_eq .loopBack flow.next d.size _).symm.trans hback
  let n : Node := ⟨d.size, .loop, some pos, [], []⟩
  have hgrows : d.Grows (d.emitted n ends []) := hd.emitted rfl (.inl rfl) hends (by simp)
  have hcond := ha _ _ _ _ hcond hgrows.after (by simp [Draft.emitted, Draft.link, Draft.push])
    fun i hi => (hK i hi).trans_le hgrows.size
  have hbody := hb _ _ _ _ hbody hcond.grows.after hcond.below.onTrue
    fun i hi => hcond.inside i (Context.leads_target.1 hi)
  have hleave : Draws rules ctx (Starts ctx (leave (.fell false)) split.onFalse) d₃ d₃ _ :=
    .fails hbody.grows.after (hcond.below.onFalse.mono hbody.grows.size)
      fun i hi => hbody.inside i (Context.leads_target.2 hi)
  have hround := hcond.branch (hbody.catchingLoop hs) hleave
  rw [Draft.link_link]
  refine (Draws.loop (n := n) hd rfl rfl rfl hends hK hround ?_ ?_).same ?_
  · simp only [List.forall_mem_append, List.forall_mem_map, n, implies_true, and_self]
  · intro P
    simp only [List.forall_mem_append, List.forall_mem_map, List.append_nil]
    tauto
  · exact ⟨by simp [exits, or_comm], fun _ => .rfl, by simp [exits]⟩

theorem Represents.forEach (hs : Represents rules s ctx) (pos : Pos)
    {bind : Frontier → Drafting Frontier} {body : Frontier → Drafting Flow}
    (ha : Implements rules (ctx.inside (.target (.loop labels))) bind a)
    (hb : Implements rules (ctx.inside (.target (.loop labels))) body b) :
    Implements rules ctx (fun ends => do
      let head ← emit s .loop (some pos) [] [] ends
      let test ← emit s .branch (some pos) [] [] [⟨head, .normal⟩]
      let ends ← bind [⟨test, .onTrue⟩]
      let flow ← body ends
      tieAs .continueOn (flow.continues s.depth) head
      tieAs .loopBack flow.next head
      return ⟨⟨test, .onFalse⟩ :: flow.breaks s.depth, flow.passing s.depth⟩ :
        Frontier → Drafting Flow)
      (loop (branch (seq (act s.guarded []) either) (catching (Target.loop labels).takes (seq a b))
        (leave (.fell false)))) := by
  have hloop := hs.whileLoop pos (hs.settle true pos) (ha.seqEnds hb)
  simp only [FlowGraph.settle, if_true, bind_assoc, pure_bind] at hloop
  exact hloop

theorem Represents.doLoop (hs : Represents rules s ctx) (pos : Pos)
    {cond : Frontier → Drafting Split} {body : Frontier → Drafting Flow}
    (ha : Implements rules ctx cond a)
    (hb : Implements rules (ctx.inside (.target (.loop labels))) body b) :
    Implements rules ctx (fun ends => do
      let head ← emit s .loop (some pos) [] [] ends
      let flow ← body [⟨head, .normal⟩]
      let split ← cond (flow.next ++ flow.continues s.depth)
      tieAs .loopBack split.onTrue head
      return ⟨split.onFalse ++ flow.breaks s.depth, flow.passing s.depth⟩ :
        Frontier → Drafting Flow)
      (loop (branch (catching (Target.loop labels).takes b) a (leave (.fell false)))) := by
  intro ends d r d' h hd hends hK
  obtain ⟨head, d₁, hhead, h⟩ := bind_eq_ok.1 h
  obtain ⟨flow, d₂, hbody, h⟩ := bind_eq_ok.1 h
  obtain ⟨split, d₃, hcond, h⟩ := bind_eq_ok.1 h
  obtain ⟨_, d₄, hback, h⟩ := bind_eq_ok.1 h
  cases pure_eq_ok.1 h
  cases (emit_eq s .loop (some pos) [] [] ends d).symm.trans hhead
  cases (tieAs_eq .loopBack split.onTrue d.size d₃).symm.trans hback
  let n : Node := ⟨d.size, .loop, some pos, [], []⟩
  have hgrows : d.Grows (d.emitted n ends []) := hd.emitted rfl (.inl rfl) hends (by simp)
  have hbody := hb _ _ _ _ hbody hgrows.after (by simp [Draft.emitted, Draft.link, Draft.push])
    fun i hi => (hK i (Context.leads_target.1 hi)).trans_le hgrows.size
  have hbody := hbody.catchingLoop hs
  have hcond := ha _ _ _ _ hcond hbody.grows.after hbody.below.onTrue hbody.inside
  have hleave : Draws rules ctx (Starts ctx (leave (.fell false)) (flow.breaks s.depth)) d₃ d₃ _ :=
    .fails hcond.grows.after (hbody.below.onFalse.mono hcond.grows.size) hcond.inside
  have hround := hbody.branch hcond hleave
  refine (Draws.loop (n := n) hd rfl rfl rfl hends hK hround ?_ ?_).same ?_
  · simp only [List.forall_mem_map, n, implies_true]
  · intro P
    simp only [List.forall_mem_map, List.append_nil]
    exact .rfl
  · exact ⟨fun _ => .rfl, fun _ => .rfl, by simp [exits]⟩

theorem Represents.forLoop (hs : Represents rules s ctx) (pos : Pos)
    {cond : Frontier → Drafting Split} {body : Frontier → Drafting Flow}
    {update : Frontier → Drafting Frontier} (ha : Implements rules ctx cond a)
    (hb : Implements rules (ctx.inside (.target (.loop labels))) body b)
    (hc : Implements rules ctx update c) :
    Implements rules ctx (fun ends => do
      let head ← emit s .loop (some pos) [] [] ends
      let split ← cond [⟨head, .normal⟩]
      let flow ← body split.onTrue
      let ends ← update (flow.next ++ flow.continues s.depth)
      tieAs .loopBack ends head
      return ⟨split.onFalse ++ flow.breaks s.depth, flow.passing s.depth⟩ :
        Frontier → Drafting Flow)
      (loop (branch a (branch (catching (Target.loop labels).takes b) c (leave (.fell false)))
        (leave (.fell false)))) := by
  intro ends d r d' h hd hends hK
  obtain ⟨head, d₁, hhead, h⟩ := bind_eq_ok.1 h
  obtain ⟨split, d₂, hcond, h⟩ := bind_eq_ok.1 h
  obtain ⟨flow, d₃, hbody, h⟩ := bind_eq_ok.1 h
  obtain ⟨ends', d₄, hupdate, h⟩ := bind_eq_ok.1 h
  obtain ⟨_, d₅, hback, h⟩ := bind_eq_ok.1 h
  cases pure_eq_ok.1 h
  cases (emit_eq s .loop (some pos) [] [] ends d).symm.trans hhead
  cases (tieAs_eq .loopBack ends' d.size d₄).symm.trans hback
  let n : Node := ⟨d.size, .loop, some pos, [], []⟩
  have hgrows : d.Grows (d.emitted n ends []) := hd.emitted rfl (.inl rfl) hends (by simp)
  have hcond := ha _ _ _ _ hcond hgrows.after (by simp [Draft.emitted, Draft.link, Draft.push])
    fun i hi => (hK i hi).trans_le hgrows.size
  have hbody := hb _ _ _ _ hbody hcond.grows.after hcond.below.onTrue
    fun i hi => hcond.inside i (Context.leads_target.1 hi)
  have hbody := hbody.catchingLoop hs
  have hupdate := hc _ _ _ _ hupdate hbody.grows.after hbody.below.onTrue hbody.inside
  have hbreak : Draws rules ctx (Starts ctx (leave (.fell false)) (flow.breaks s.depth)) d₄ d₄ _ :=
    .fails hupdate.grows.after (hbody.below.onFalse.mono hupdate.grows.size) hupdate.inside
  have hinner := hbody.branch hupdate hbreak
  have hleave : Draws rules ctx (Starts ctx (leave (.fell false)) split.onFalse) d₄ d₄ _ :=
    .fails hinner.grows.after (hcond.below.onFalse.mono hinner.grows.size) hinner.inside
  have hround := hcond.branch hinner hleave
  refine (Draws.loop (n := n) hd rfl rfl rfl hends hK hround ?_ ?_).same ?_
  · simp only [List.forall_mem_map, n, implies_true]
  · intro P
    simp only [List.forall_mem_map, List.append_nil]
    exact .rfl
  · exact ⟨by simp [exits, or_comm], fun _ => .rfl, by simp [exits]⟩

theorem Represents.labeled (hs : Represents rules s ctx) {body : Frontier → Drafting Flow}
    (hb : Implements rules (ctx.inside (.target (.block labels))) body b) :
    Implements rules ctx (fun ends => do
      let flow ← body ends
      return ⟨flow.next ++ flow.breaks s.depth, flow.passing s.depth⟩ : Frontier → Drafting Flow)
      (seq (catching (Target.block labels).takes b) skip) := by
  intro ends d r d' h hd hends hK
  obtain ⟨flow, d₁, hbody, h⟩ := bind_eq_ok.1 h
  cases pure_eq_ok.1 h
  have hbody := (hb _ _ _ _ hbody hd hends fun i hi => hK i (Context.leads_target.1 hi)).catching
    hs.depth_eq
  have hpass : Draws rules ctx (Starts ctx skip _) d' d' _ :=
    .holds hbody.grows.after hbody.below.all hbody.inside
  exact (hbody.seq hpass).same
    ⟨by simp [exits, Exits.all, Draws.backward, Target.isLoop], fun _ => .rfl, by simp [exits]⟩

/-! ## The groups of a switch -/

/-- A draft of groups that runs `a` behind the group in front of them, and enters them by `b`. -/
def ImplementsGroups (rules : Rules) (ctx : Context)
    (draft : Nat → Frontier → Drafting Flow) (a b : Behavior) : Prop :=
  ∀ test ends d flow d', draft test ends d = .ok (flow, d') → d.Tidy → ends.Below d.size →
    test < d.size → (∀ h, ctx.Leads h → h < d.size) →
    Draws rules ctx
      (fun Q f => Starts ctx a ends Q f ∧ Starts ctx b [⟨test, .onTrue⟩] Q f) d d' (exits flow)

theorem ImplementsGroups.nil :
    ImplementsGroups rules ctx (fun _ ends => pure (Flow.through ends)) skip never := by
  intro test ends d flow d' h hd hends htest hK
  cases pure_eq_ok.1 h
  refine .nothing hd hK ⟨hends, by simp [exits], by simp [exits, Flow.through]⟩ fun Q f => ?_
  simp [Starts, Exits.claim, exits, Flow.through]

theorem ImplementsGroups.cons {pos : Pos} {body : Frontier → Drafting Flow}
    {others : Nat → Frontier → Drafting Flow} (hb : Implements rules ctx body b)
    (hothers : ImplementsGroups rules ctx others a e) :
    ImplementsGroups rules ctx (fun test ends => do
      let ends ← step s .join (some pos) [] [] (ends ++ [⟨test, .onTrue⟩])
      let first ← body ends
      let others ← others test first.next
      return ⟨others.next, first.jumps ++ others.jumps⟩)
      (seq b a) (choice (seq b a) e) := by
  intro test ends d r d' h hd hends htest hK
  obtain ⟨ends', d₁, hstep, h⟩ := bind_eq_ok.1 h
  obtain ⟨first, d₂, hfirst, h⟩ := bind_eq_ok.1 h
  obtain ⟨flow, d₃, hrest, h⟩ := bind_eq_ok.1 h
  cases pure_eq_ok.1 h
  have hends' : Frontier.Below (ends ++ [⟨test, .onTrue⟩]) d.size :=
    Frontier.below_append.2 ⟨hends, by simpa using htest⟩
  have hjoin : Draws rules ctx (Starts ctx skip (ends ++ [⟨test, .onTrue⟩])) d d₁ (exits ends') :=
    Implements.join s (some pos) _ _ _ _ hstep hd hends' hK
  have hfirst := hb _ _ _ _ hfirst hjoin.grows.after hjoin.below.onTrue hjoin.inside
  rw [← all_exits_frontier ends'] at hfirst
  have hentry := (hjoin.seq hfirst).skip_seq
  have hrest := hothers _ _ _ _ _ hrest hentry.grows.after hfirst.below.onTrue
    (htest.trans_le hentry.grows.size) hentry.inside
  refine ⟨hentry.grows.trans hrest.grows, ?_, fun Q => ?_⟩
  · refine ⟨hrest.below.onTrue, hrest.below.onFalse, List.forall_mem_append.2 ⟨?_, ?_⟩⟩
    · exact (hfirst.below.mono hrest.grows.size).jumps
    · exact hrest.below.jumps
  · -- The test is carried past the group to those behind it, and the jumps past them.
    have htest : Frontier.Below [⟨test, .onTrue⟩] d.size := by simpa using htest
    have hgroup := (hentry.carries (Q.falling fun _ => ctx.demand a Q)).frame
      (Holds.local_of_below htest (ctx.demand e Q))
    have hbehind := (hrest.carries Q).frame (Exits.jumps_local hfirst.below.jumps Q)
    refine ((hgroup.congr (fun f => ?_) fun f => ?_).trans hbehind).congr (fun _ => .rfl)
      fun f => ?_
    · simp only [Starts, Context.demand_choice, Context.demand_seq, Set.subset_inter_iff,
        holds_append, holds_cons, holds_nil, and_true]
      tauto
    · simp only [Exits.claim, exits, Starts, Aim.falling, holds_nil, true_and]
      tauto
    · simp only [Exits.claim, exits, holds_nil, List.forall_mem_append]
      tauto

theorem Represents.switch (hs : Represents rules s ctx) (pos : Pos) (hasDefault : Bool)
    {draft : Nat → Frontier → Drafting Flow}
    (hb : ImplementsGroups rules (ctx.inside (.target (.switch labels))) draft a b) :
    Implements rules ctx (fun ends => do
      let test ← emit s .switch (some pos) [] [] ends
      let flow ← draft test []
      let skipped : Frontier := if hasDefault then [] else [⟨test, .onFalse⟩]
      return ⟨flow.next ++ (skipped ++ flow.breaks s.depth), flow.passing s.depth⟩ :
        Frontier → Drafting Flow)
      (seq (act s.guarded []) (seq (catching (Target.switch labels).takes
        (choice b (if hasDefault then never else skip))) skip)) := by
  intro ends d r d' h hd hends hK
  obtain ⟨test, d₁, htest, h⟩ := bind_eq_ok.1 h
  obtain ⟨flow, d₂, hgroups, h⟩ := bind_eq_ok.1 h
  cases pure_eq_ok.1 h
  cases (emit_eq s .switch (some pos) [] [] ends d).symm.trans htest
  have hnode := hs.step (some pos) (k := .switch) rfl (Bool.or_false _) (.inl rfl) rfl _ _ _ _
    (step_eq s .switch (some pos) [] [] ends d) hd hends hK
  have hlt : d.size < (d.emitted ⟨d.size, .switch, some pos, [], []⟩ ends
      (raiseTargets s .switch)).size := Nat.lt_succ_self _
  have hgroups := hb _ _ _ _ _ hgroups hnode.grows.after Frontier.below_nil hlt
    fun i hi => hnode.inside i (Context.leads_target.1 hi)
  let skipped : Frontier := if hasDefault then [] else [⟨d.size, .onFalse⟩]
  have hskipped : skipped.Below (d.emitted ⟨d.size, .switch, some pos, [], []⟩ ends
      (raiseTargets s .switch)).size := by
    cases hasDefault with
    | true => exact Frontier.below_nil
    | false => simpa [skipped] using hlt
  -- Where there is no default the test itself falls through.
  have hentered : Draws rules (ctx.inside (.target (.switch labels)))
      (Starts (ctx.inside (.target (.switch labels)))
        (choice b (if hasDefault then never else skip)) [⟨d.size, .normal⟩])
      (d.emitted ⟨d.size, .switch, some pos, [], []⟩ ends (raiseTargets s .switch)) d'
      (exits (⟨flow.next ++ skipped, flow.jumps⟩ : Flow)) := by
    refine ⟨hgroups.grows, ⟨Frontier.below_append.2 ⟨hgroups.below.onTrue, ?_⟩,
      hgroups.below.onFalse, hgroups.below.jumps⟩, fun Q => ?_⟩
    · exact hskipped.mono hgroups.grows.size
    · have hframe := (hgroups.carries Q).frame (Holds.local_of_below hskipped (Q.falls true))
      refine hframe.congr (fun f => ?_) fun f => ?_
      · cases hasDefault <;>
          simp [Starts, Context.demand_choice, Set.subset_inter_iff, skipped]
      · simp only [Exits.claim, exits, holds_append, holds_nil]
        tauto
  have hcatching := hentered.catching hs.depth_eq
  have hpass : Draws rules ctx (Starts ctx skip _) d' d' _ :=
    .holds hcatching.grows.after hcatching.below.all hcatching.inside
  exact (hnode.seq (hcatching.seq hpass)).same
    ⟨by simp [exits, Exits.all, Draws.backward, Target.isLoop, skipped, Flow.breaks, Flow.arriving],
      fun _ => .rfl, by simp [exits, Flow.passing]⟩

end FlowGraph

end WriteOnce
