import WriteOnce.Proofs.Drafting

/-!
# Drafts that implement behaviors

A drafting step implements a behavior if it carries the demand of the behavior on
the loose ends in front to the aim at the ways out behind it, for every aim. Steps
that are drafted one behind the other implement the behaviors one behind the other.
-/

namespace WriteOnce

open Execution Behavior

namespace FlowGraph

/-- The ways out of a stretch of code, split by the outcome of a test. -/
structure Exits where
  onTrue : Frontier
  onFalse : Frontier
  jumps : List Parked

namespace Exits

def all (O : Exits) : Frontier := O.onTrue ++ O.onFalse

/-- What leaves by the ways out is as the aim allows. -/
def claim (O : Exits) (Q : Aim) : Claim := fun f =>
  Holds O.onTrue (Q.falls true) f ∧ Holds O.onFalse (Q.falls false) f ∧
    ∀ p ∈ O.jumps, f p.source ⊆ Q.parked p.depth p.word

structure Below (O : Exits) (size : Nat) : Prop where
  onTrue : O.onTrue.Below size
  onFalse : O.onFalse.Below size
  jumps : ∀ p ∈ O.jumps, p.source < size

/-- The same ways out, perhaps in another order. -/
structure Same (O O' : Exits) : Prop where
  onTrue : ∀ e, e ∈ O.onTrue ↔ e ∈ O'.onTrue
  onFalse : ∀ e, e ∈ O.onFalse ↔ e ∈ O'.onFalse
  jumps : ∀ p, p ∈ O.jumps ↔ p ∈ O'.jumps

end Exits

class HasExits (α : Type) where
  exits : α → Exits

export HasExits (exits)

instance : HasExits Frontier := ⟨fun ends => ⟨ends, [], []⟩⟩

instance : HasExits Split := ⟨fun s => ⟨s.onTrue, s.onFalse, []⟩⟩

instance : HasExits Flow := ⟨fun f => ⟨f.next, [], f.jumps⟩⟩

section Claims

variable {ends ends' : Frontier} {T : Set Trace} {f : Nat → Set Trace} {size size' : Nat}
  {O O' : Exits} {Q : Aim}

@[simp] theorem holds_nil : Holds [] T f := by
  intro e he
  cases he

@[simp] theorem holds_cons {e : LooseEnd} :
    Holds (e :: ends) T f ↔ f e.source ⊆ T ∧ Holds ends T f :=
  List.forall_mem_cons

@[simp] theorem holds_append : Holds (ends ++ ends') T f ↔ Holds ends T f ∧ Holds ends' T f :=
  List.forall_mem_append

@[simp] theorem Frontier.below_nil : Frontier.Below [] size := by
  intro e he
  cases he

@[simp] theorem Frontier.below_cons {e : LooseEnd} :
    Frontier.Below (e :: ends) size ↔ e.source < size ∧ ends.Below size :=
  List.forall_mem_cons

@[simp] theorem Frontier.below_append :
    Frontier.Below (ends ++ ends') size ↔ ends.Below size ∧ ends'.Below size :=
  List.forall_mem_append

theorem Frontier.Below.mono (h : ends.Below size) (hs : size ≤ size') : ends.Below size' :=
  fun e he => (h e he).trans_le hs

namespace Exits

theorem Below.mono (h : O.Below size) (hs : size ≤ size') : O.Below size' :=
  ⟨h.onTrue.mono hs, h.onFalse.mono hs, fun p hp => (h.jumps p hp).trans_le hs⟩

theorem Below.all (h : O.Below size) : O.all.Below size :=
  Frontier.below_append.2 ⟨h.onTrue, h.onFalse⟩

theorem Same.claim_iff (h : O.Same O') : O.claim Q f ↔ O'.claim Q f := by
  simp only [claim, Holds, h.onTrue, h.onFalse, h.jumps]

theorem Same.below (h : O.Same O') (hO : O.Below size) : O'.Below size :=
  ⟨fun e he => hO.onTrue e ((h.onTrue e).2 he), fun e he => hO.onFalse e ((h.onFalse e).2 he),
    fun p hp => hO.jumps p ((h.jumps p).2 hp)⟩

theorem parked_local {jumps : List Parked} (h : ∀ p ∈ jumps, p.source < size) (Q : Aim) :
    Claim.Local (fun f => ∀ p ∈ jumps, f p.source ⊆ Q.parked p.depth p.word) size := by
  intro f g hfg hf p hp
  rw [hfg p.source (h p hp)]
  exact hf p hp

theorem claim_local (h : O.Below size) (Q : Aim) : Claim.Local (O.claim Q) size := by
  rintro f g hfg ⟨hTrue, hFalse, hjumps⟩
  exact ⟨Holds.local_of_below h.onTrue _ f g hfg hTrue,
    Holds.local_of_below h.onFalse _ f g hfg hFalse, parked_local h.jumps Q f g hfg hjumps⟩

theorem jumps_local {jumps : List Parked} (h : ∀ p ∈ jumps, p.source < size) (Q : Aim) :
    Claim.Local (claim ⟨[], [], jumps⟩ Q) size :=
  claim_local ⟨Frontier.below_nil, Frontier.below_nil, h⟩ Q

end Exits

end Claims

/-! ## Stretches of drafting -/

/-- The loose ends in front of a behavior are as the behavior demands. -/
def Starts (ctx : Context) (b : Behavior) (ends : Frontier) (Q : Aim) : Claim :=
  Holds ends (ctx.demand b Q)

/-- Between two drafts, what is claimed in front is carried to the ways out. -/
structure Draws (rules : Rules) (ctx : Context) (A : Aim → Claim) (d d' : Draft) (O : Exits) :
    Prop where
  grows : d.Grows d'
  below : O.Below d'.size
  carries : ∀ Q : Aim, Carries rules ctx.Leads Q.toOutside (A Q) d d' (O.claim Q)

/-- A drafting step implements a behavior wherever it is made. -/
def Implements [HasExits α] (rules : Rules) (ctx : Context) (step : Frontier → Drafting α)
    (b : Behavior) : Prop :=
  ∀ ends d a d', step ends d = .ok (a, d') → d.Tidy → ends.Below d.size →
    (∀ h, ctx.Leads h → h < d.size) → Draws rules ctx (Starts ctx b ends) d d' (exits a)

namespace Draws

variable {rules : Rules} {ctx : Context} {a b c : Behavior} {A : Aim → Claim}
  {d d' d₁ d₂ d₃ : Draft} {O O' O₁ O₂ O₃ : Exits} {ends : Frontier}

theorem inside (h : Draws rules ctx A d d' O) : ∀ i, ctx.Leads i → i < d'.size :=
  fun i hi => ((h.carries default).inside i hi).trans_le
    h.grows.size

theorem same (h : Draws rules ctx A d d' O) (hO : O.Same O') : Draws rules ctx A d d' O' :=
  ⟨h.grows, hO.below h.below, fun Q => (h.carries Q).congr (fun _ => .rfl) fun _ => hO.claim_iff⟩

theorem nothing (hd : d.Tidy) (hK : ∀ h, ctx.Leads h → h < d.size) (hO : O.Below d.size)
    (h : ∀ Q f, A Q f ↔ O.claim Q f) : Draws rules ctx A d d O :=
  ⟨hd.grows, hO, fun Q => .nothing hd hK (h Q)⟩

/-- The same stretch seen from a context with more around it. -/
theorem widen {ctx' : Context} {A' : Aim → Claim} (h : Draws rules ctx A d d' O)
    (hleads : ∀ i, ctx.Leads i → ctx'.Leads i) (hK : ∀ i, ctx'.Leads i → i < d.size)
    (hA : ∀ Q f, A Q f ↔ A' Q f) : Draws rules ctx' A' d d' O :=
  ⟨h.grows, h.below, fun Q =>
    ((h.carries Q).widen hleads hK (fun _ _ => rfl) rfl).congr (hA Q) fun _ => .rfl⟩

theorem of_demand (h : Draws rules ctx (Starts ctx a ends) d d' O)
    (hab : ∀ Q, ctx.demand a Q = ctx.demand b Q) : Draws rules ctx (Starts ctx b ends) d d' O :=
  h.widen (fun _ hi => hi) (h.carries default).inside fun Q f => by rw [Starts, Starts, hab]

/-- The order of the loose ends does not matter. -/
theorem of_mem {ends' : Frontier} (h : Draws rules ctx (Starts ctx a ends) d d' O)
    (hends : ∀ e, e ∈ ends ↔ e ∈ ends') : Draws rules ctx (Starts ctx a ends') d d' O :=
  h.widen (fun _ hi => hi) (h.carries default).inside fun Q f => by
    simp only [Starts, Holds, hends]

theorem never (hd : d.Tidy) (hK : ∀ h, ctx.Leads h → h < d.size) :
    Draws rules ctx (Starts ctx Behavior.never ends) d d ⟨[], [], []⟩ := by
  refine nothing hd hK ⟨by simp, by simp, by simp⟩ fun Q f => ?_
  rw [Starts, Context.demand_never]
  simp [Exits.claim, Holds]

/-- A test that holds. -/
theorem holds (hd : d.Tidy) (hends : ends.Below d.size) (hK : ∀ h, ctx.Leads h → h < d.size) :
    Draws rules ctx (Starts ctx skip ends) d d ⟨ends, [], []⟩ := by
  refine nothing hd hK ⟨hends, by simp, by simp⟩ fun Q f => ?_
  rw [Starts, Context.demand_skip]
  simp [Exits.claim]

/-- A test that does not hold. -/
theorem fails (hd : d.Tidy) (hends : ends.Below d.size) (hK : ∀ h, ctx.Leads h → h < d.size) :
    Draws rules ctx (Starts ctx (leave (.fell false)) ends) d d ⟨[], ends, []⟩ := by
  refine nothing hd hK ⟨by simp, hends, by simp⟩ fun Q f => ?_
  rw [Starts, Context.demand_fell]
  simp [Exits.claim]

theorem branch (ha : Draws rules ctx (Starts ctx a ends) d d₁ O₁)
    (hb : Draws rules ctx (Starts ctx b O₁.onTrue) d₁ d₂ O₂)
    (hc : Draws rules ctx (Starts ctx c O₁.onFalse) d₂ d₃ O₃) :
    Draws rules ctx (Starts ctx (Behavior.branch a b c) ends) d d₃
      ⟨O₂.onTrue ++ O₃.onTrue, O₂.onFalse ++ O₃.onFalse, O₁.jumps ++ (O₂.jumps ++ O₃.jumps)⟩ := by
  have hO₁ := ha.below.mono hb.grows.size
  have hO₂ := hb.below.mono hc.grows.size
  refine ⟨(ha.grows.trans hb.grows).trans hc.grows, ?_, fun Q => ?_⟩
  · refine ⟨by simp [hO₂.onTrue, hc.below.onTrue], by simp [hO₂.onFalse, hc.below.onFalse], ?_⟩
    intro p hp
    simp only [List.mem_append] at hp
    rcases hp with hp | hp | hp
    · exact (hO₁.mono hc.grows.size).jumps p hp
    · exact hO₂.jumps p hp
    · exact hc.below.jumps p hp
  · -- What is claimed behind the test falls into the claims in front of the two ways and one
    -- about the jumps.
    let F : Bool → Set Trace := fun way => if way then ctx.demand b Q else ctx.demand c Q
    let J : Claim := fun f => ∀ p ∈ O₁.jumps, f p.source ⊆ Q.parked p.depth p.word
    have hJ : J.Local d₁.size := Exits.parked_local ha.below.jumps Q
    have hfirst : Carries rules ctx.Leads Q.toOutside (Starts ctx (Behavior.branch a b c) ends Q)
        d d₁ (fun f => Starts ctx b O₁.onTrue Q f ∧ Starts ctx c O₁.onFalse Q f ∧ J f) :=
      (ha.carries (Q.falling F)).congr
        (fun f => by rw [Starts, Starts, Context.demand_branch]) fun f => .rfl
    have hsecond := (hb.carries Q).frame (F := fun f => Starts ctx c O₁.onFalse Q f ∧ J f)
      fun f g hfg hf => ⟨Holds.local_of_below ha.below.onFalse _ f g hfg hf.1, hJ f g hfg hf.2⟩
    have hthird := (hc.carries Q).frame (F := fun f => O₂.claim Q f ∧ J f)
      fun f g hfg hf => ⟨Exits.claim_local hb.below Q f g hfg hf.1,
        hJ f g (fun i hi => hfg i (hi.trans_le hb.grows.size)) hf.2⟩
    refine (hfirst.trans hsecond).trans (hthird.congr (fun f => ?_) fun f => ?_)
    · tauto
    · simp only [Exits.claim, holds_append, List.forall_mem_append, J]
      tauto

theorem seq (ha : Draws rules ctx (Starts ctx a ends) d d₁ O₁)
    (hb : Draws rules ctx (Starts ctx b O₁.all) d₁ d₂ O₂) :
    Draws rules ctx (Starts ctx (Behavior.seq a b) ends) d d₂
      ⟨O₂.onTrue, O₂.onFalse, O₁.jumps ++ O₂.jumps⟩ := by
  refine ⟨ha.grows.trans hb.grows, ?_, fun Q => ?_⟩
  · refine ⟨hb.below.onTrue, hb.below.onFalse, fun p hp => ?_⟩
    rcases List.mem_append.1 hp with hp | hp
    · exact (ha.below.mono hb.grows.size).jumps p hp
    · exact hb.below.jumps p hp
  · let J : Claim := fun f => ∀ p ∈ O₁.jumps, f p.source ⊆ Q.parked p.depth p.word
    have hfirst : Carries rules ctx.Leads Q.toOutside (Starts ctx (Behavior.seq a b) ends Q)
        d d₁ (fun f => Starts ctx b O₁.all Q f ∧ J f) := by
      refine (ha.carries (Q.falling fun _ => ctx.demand b Q)).congr (fun f => ?_) fun f => ?_
      · rw [Starts, Starts, Context.demand_seq]
      · simp only [Exits.claim, Starts, Exits.all, holds_append, J, Aim.falling, and_assoc]
    have hsecond := (hb.carries Q).frame (F := J) (Exits.parked_local ha.below.jumps Q)
    refine (hfirst.trans hsecond).congr (fun _ => .rfl) fun f => ?_
    simp only [Exits.claim, List.forall_mem_append, J]
    tauto

theorem swap (ha : Draws rules ctx (Starts ctx a ends) d d₁ O) :
    Draws rules ctx (Starts ctx (Behavior.swap a) ends) d d₁ ⟨O.onFalse, O.onTrue, O.jumps⟩ := by
  refine ⟨ha.grows, ⟨ha.below.onFalse, ha.below.onTrue, ha.below.jumps⟩, fun Q => ?_⟩
  refine (ha.carries (Q.falling fun way => Q.falls !way)).congr (fun f => ?_) fun f => ?_
  · rw [Starts, Starts, Context.demand_swap]
  · simp only [Exits.claim, Aim.falling]
    tauto

theorem holds_arriving {flow : Flow} {depth : Nat} {word : JumpWord} {T : Set Trace}
    {f : Nat → Set Trace} : Holds (flow.arriving depth word) T f ↔
      ∀ p ∈ flow.jumps, p.depth = depth → p.word = word → f p.source ⊆ T := by
  simp only [Holds, Flow.arriving, List.forall_mem_map, List.mem_filter, Bool.and_eq_true,
    decide_eq_true_eq, and_imp]

/-- The jumps of a flow that begin the next round of a loop. -/
def backward (target : Target) (flow : Flow) (depth : Nat) : Frontier :=
  if target.isLoop then flow.continues depth else []

theorem claim_catching {target : Target} {flow : Flow} {depth : Nat} {Q : Aim}
    {f : Nat → Set Trace} : (exits flow).claim (Q.catching target depth) f ↔
      Exits.claim ⟨flow.next ++ backward target flow depth, flow.breaks depth,
        flow.passing depth⟩ Q f := by
  have hback : Holds (backward target flow depth) (Q.falls true) f ↔
      ∀ p ∈ flow.jumps, p.depth = depth → p.word = .continueWord →
        f p.source ⊆ if target.isLoop then Q.falls true else Set.univ := by
    unfold backward
    split_ifs
    · exact holds_arriving
    · simp
  simp only [Exits.claim, exits, holds_nil, holds_append, hback, Flow.breaks, holds_arriving,
    Flow.passing, List.mem_filter, Aim.catching, true_and]
  constructor
  · rintro ⟨hnext, hjumps⟩
    refine ⟨⟨hnext, fun p hp hd hw => ?_⟩, fun p hp hd hw => ?_, fun p hp => ?_⟩
    · simpa only [hd, hw, if_true] using hjumps p hp
    · simpa only [hd, hw, if_true] using hjumps p hp
    · simpa only [of_decide_eq_true hp.2, if_false] using hjumps p hp.1
  · rintro ⟨⟨hnext, hcontinue⟩, hbreak, hpassing⟩
    refine ⟨hnext, fun p hp => ?_⟩
    by_cases hd : p.depth = depth
    · cases hw : p.word with
      | breakWord => simpa only [hd, hw, if_true] using hbreak p hp hd hw
      | continueWord => simpa only [hd, hw, if_true] using hcontinue p hp hd hw
    · simpa only [hd, if_false] using hpassing p ⟨hp, by simpa using hd⟩

/-- The jumps to a construct around the code become its ways out. -/
theorem catching {target : Target} {flow : Flow} {depth : Nat} (hdepth : depth = ctx.guards.length)
    (ha : Draws rules (ctx.inside (.target target))
      (Starts (ctx.inside (.target target)) a ends) d d₁ (exits flow)) :
    Draws rules ctx (Starts ctx (Behavior.catching target.takes a) ends) d d₁
      ⟨flow.next ++ backward target flow depth, flow.breaks depth, flow.passing depth⟩ := by
  have harriving : ∀ word, (flow.arriving depth word).Below d₁.size := by
    intro word e he
    simp only [Flow.arriving, List.mem_map, List.mem_filter] at he
    obtain ⟨p, ⟨hp, _⟩, rfl⟩ := he
    exact ha.below.jumps p hp
  refine ⟨ha.grows, ⟨?_, harriving .breakWord, ?_⟩, fun Q => ?_⟩
  · refine Frontier.below_append.2 ⟨ha.below.onTrue, ?_⟩
    unfold backward
    split_ifs
    · exact harriving .continueWord
    · exact Frontier.below_nil
  · intro p hp
    exact ha.below.jumps p (List.mem_filter.1 hp).1
  · have h : Carries rules ctx.Leads Q.toOutside _ d d₁ _ :=
      (ha.carries (Q.catching target ctx.guards.length)).widen
        (fun i hi => Context.leads_target.1 hi)
        (fun i hi => (ha.carries Q).inside i (Context.leads_target.2 hi)) (fun _ _ => rfl) rfl
    refine h.congr (fun f => ?_) fun f => ?_
    · rw [Starts, Starts, Context.demand_catching]
    · subst hdepth
      exact claim_catching

end Draws

/-! ## Nodes -/

section Nodes

variable {rules : Rules} {ctx : Context} {d : Draft} {n : Node} {ends : Frontier}

theorem carries_act (rules : Rules) (fails : Bool) (hd : d.Tidy) (hid : n.id = d.size)
    (hn : n.binds = [] ∨ n.writes = []) (hends : ends.Below d.size)
    (hK : ∀ h, ctx.Leads h → h < d.size) (Q : Aim) :
    Carries rules ctx.Leads Q.toOutside (Starts ctx (act fails n.trace) ends Q) d
      (d.emitted n ends (if fails then ctx.escapes else [])) (fun f => f n.id ⊆ Q.falls true) := by
  refine .emitted hd hid hn hends hK ?_ ?_ ?_
  · intro h hh
    cases fails with
    | true => exact .inl hh
    | false => cases hh
  · intro t _ ht
    obtain ⟨hfell, hcut, hraise⟩ := (Context.mem_demand_act _ _).1 ht
    refine ⟨hfell, hcut, ?_⟩
    cases fails with
    | true => exact hraise rfl
    | false => exact fun h hh => by cases hh
  · intro t hfell hcut hraise
    refine (Context.mem_demand_act _ _).2 ⟨hfell, hcut, ?_⟩
    rintro rfl
    exact hraise

theorem Draws.act {fails : Bool} (hd : d.Tidy) (hid : n.id = d.size)
    (hn : n.binds = [] ∨ n.writes = []) (hends : ends.Below d.size)
    (hK : ∀ h, ctx.Leads h → h < d.size) :
    Draws rules ctx (Starts ctx (Behavior.act fails n.trace) ends) d
      (d.emitted n ends (if fails then ctx.escapes else [])) ⟨[⟨n.id, .normal⟩], [], []⟩ := by
  have h := carries_act rules fails hd hid hn hends hK
  refine ⟨(h default).grows, ⟨?_, by simp, by simp⟩,
    fun Q => (h Q).congr (fun _ => .rfl) fun f => ?_⟩
  · simp [hid, Draft.emitted, Draft.link, Draft.push]
  · simp [Exits.claim]

/-- A branch node is left by two ways. -/
theorem Draws.test {fails : Bool} (hd : d.Tidy) (hid : n.id = d.size) (hbinds : n.binds = [])
    (hwrites : n.writes = []) (hends : ends.Below d.size)
    (hK : ∀ h, ctx.Leads h → h < d.size) :
    Draws rules ctx (Starts ctx (Behavior.seq (Behavior.act fails []) either) ends) d
      (d.emitted n ends (if fails then ctx.escapes else []))
      ⟨[⟨n.id, .onTrue⟩], [⟨n.id, .onFalse⟩], []⟩ := by
  have htrace := Node.trace_eq_nil hbinds hwrites
  have h := carries_act rules fails hd hid (.inl hbinds) hends hK
  refine ⟨(h default).grows, ⟨?_, ?_, by simp⟩, fun Q => ?_⟩
  · simp [hid, Draft.emitted, Draft.link, Draft.push]
  · simp [hid, Draft.emitted, Draft.link, Draft.push]
  · refine (h (Q.falling fun _ => ctx.demand either Q)).congr (fun f => ?_) fun f => ?_
    · rw [Starts, Starts, Context.demand_seq, htrace]
    · simp only [Exits.claim, holds_cons, holds_nil, and_true, Aim.falling]
      constructor
      · intro hf
        exact ⟨fun t ht => Context.mem_demand_either.1 (hf ht) true,
          fun t ht => Context.mem_demand_either.1 (hf ht) false, by simp⟩
      · rintro ⟨hTrue, hFalse, _⟩ t ht
        apply Context.mem_demand_either.2
        intro way
        cases way with
        | true => exact hTrue ht
        | false => exact hFalse ht

/-- Nothing happens at a node that only directs control. -/
theorem Draws.silent (hd : d.Tidy) (hid : n.id = d.size) (hbinds : n.binds = [])
    (hwrites : n.writes = []) (hends : ends.Below d.size)
    (hK : ∀ h, ctx.Leads h → h < d.size) :
    Draws rules ctx (Starts ctx skip ends) d (d.emitted n ends []) ⟨[⟨n.id, .normal⟩], [], []⟩ := by
  have htrace := Node.trace_eq_nil hbinds hwrites
  have h : ∀ Q : Aim, Carries rules ctx.Leads Q.toOutside (Starts ctx skip ends Q) d
      (d.emitted n ends []) (fun f => f n.id ⊆ Q.falls true) := by
    intro Q
    refine .emitted hd hid (.inl hbinds) hends hK (by simp) ?_ ?_
    · intro t hcut ht
      rw [htrace, List.append_nil]
      rw [Context.demand_skip] at ht
      exact ⟨ht, hcut, by simp [Aim.raises]⟩
    · intro t ht _ _
      rw [htrace, List.append_nil] at ht
      rwa [Context.demand_skip]
  refine ⟨(h default).grows, ⟨?_, by simp, by simp⟩,
    fun Q => (h Q).congr (fun _ => .rfl) fun f => ?_⟩
  · simp [hid, Draft.emitted, Draft.link, Draft.push]
  · simp [Exits.claim]

/-- The edges that lead back to the head of a loop come from where its rounds end. -/
theorem Draws.loop {a : Behavior} {d₂ : Draft} {O : Exits} {es : List Edge} (hd : d.Tidy)
    (hid : n.id = d.size) (hbinds : n.binds = []) (hwrites : n.writes = [])
    (hends : ends.Below d.size) (hK : ∀ h, ctx.Leads h → h < d.size)
    (ha : Draws rules ctx (Starts ctx a [⟨n.id, .normal⟩]) (d.emitted n ends []) d₂ O)
    (htargets : ∀ e ∈ es, e.target = n.id)
    (hsources : ∀ P : Nat → Prop, (∀ e ∈ es, P e.source) ↔ ∀ e ∈ O.onTrue, P e.source) :
    Draws rules ctx (Starts ctx (Behavior.loop a) ends) d (d₂.link es)
      ⟨O.onFalse, [], O.jumps⟩ := by
  have htrace := Node.trace_eq_nil hbinds hwrites
  have hgrows : d.Grows (d.emitted n ends []) := hd.emitted hid (.inl hbinds) hends (by simp)
  have hcarries : ∀ Q : Aim, Carries rules ctx.Leads Q.toOutside
      (Starts ctx (Behavior.loop a) ends Q) d (d₂.link es)
      (Exits.claim ⟨O.onFalse, [], O.jumps⟩ Q) := by
    intro Q
    refine .loop (D := fun I => ctx.demand a (Context.roundAim I Q)) hid htrace hends ?_ hgrows hK
      ?_ Context.demand_loop fun I => Context.subset_demand_loop
    · intro I
      refine (ha.carries (Context.roundAim I Q)).congr (fun f => ?_) fun f => ?_
      · simp [Starts]
      · rw [hsources fun i => f i ⊆ I]
        simp [Exits.claim, Context.roundAim, Aim.falling, Holds]
    · intro e he
      exact ⟨(hsources (· < d₂.size)).2 ha.below.onTrue e he, htargets e he⟩
  exact ⟨(hcarries default).grows, ⟨ha.below.onFalse, by simp, ha.below.jumps⟩, hcarries⟩

end Nodes

end FlowGraph

end WriteOnce
