import WriteOnce.Proofs.Execution

/-!
# Where control goes

Seen from inside, code ends by falling through, by a jump, by a `return` or by an
exception. Where each of these leads depends on the constructs around the code: a
jump runs the cleanup blocks that it passes before it gets to its target. An aim
says for every place that control can get to which traces are allowed there, and a
demand carries this back to where the code begins.
-/

namespace WriteOnce

open FlowGraph

namespace Execution

open Behavior

/-- A construct around a piece of code. A cleanup block is kept with the nodes that exceptions
raised in it go to. -/
inductive Guard
  | target (target : Target)
  | cleanup (b : Behavior) (escapes : List Nat)

/-- What is around a piece of code: the nodes that an exception goes to, and the constructs,
innermost first. -/
structure Context where
  escapes : List Nat
  guards : List Guard

/-- The nodes that control gets to from some guards. -/
def Guard.Leads (guards : List Guard) (h : Nat) : Prop :=
  h = exitId ∨ ∃ b escapes, .cleanup b escapes ∈ guards ∧ h ∈ escapes

def Context.Leads (ctx : Context) (h : Nat) : Prop := h ∈ ctx.escapes ∨ Guard.Leads ctx.guards h

/-- The traces that are allowed where a node is entered, those that may be cut off, and those
behind which a jump may aim at nothing. -/
structure Outside where
  enters : Nat → Set Trace
  cut : Set Trace
  stray : Set Trace

/-- Nodes from a number on are entered with the given traces. -/
def Outside.opened (Q : Outside) (size : Nat) (H : Nat → Set Trace) : Outside :=
  { Q with enters := fun i => if i < size then Q.enters i else H i }

/-- The traces that are allowed at the end of a piece of code and at the target of each jump. -/
structure Aim extends Outside where
  falls : Bool → Set Trace
  parked : Nat → JumpWord → Set Trace

instance : Inhabited Aim := ⟨⟨⟨fun _ => ∅, ∅, ∅⟩, fun _ => ∅, fun _ _ => ∅⟩⟩

namespace Aim

def falling (Q : Aim) (F : Bool → Set Trace) : Aim := { Q with falls := F }

/-- An exception goes to any of the nodes. -/
def raises (Q : Outside) (targets : List Nat) : Set Trace := {t | ∀ h ∈ targets, t ∈ Q.enters h}

/-- The traces behind which a jump or a `return` may run the cleanup blocks that it passes. -/
def unwinds (Q : Aim) : List Guard → Ending → Set Trace
  | [], .returned => Q.enters exitId
  | [], _ => Q.stray
  | .target target :: guards, .jumped word label =>
    if target.takes word label then Q.parked guards.length word
    else Q.unwinds guards (.jumped word label)
  | .target _ :: guards, o => Q.unwinds guards o
  | .cleanup b escapes :: guards, o =>
    wp b fun
      | .fell _ => Q.unwinds guards o
      | .cut => Q.cut
      | .raised => raises Q.toOutside escapes
      | o' => Q.unwinds guards o'

/-- Where an ending leads. -/
def meets (Q : Aim) (ctx : Context) : Post
  | .fell way => Q.falls way
  | .cut => Q.cut
  | .raised => raises Q.toOutside ctx.escapes
  | o => Q.unwinds ctx.guards o

/-- An aim that also takes the jumps to the construct at this depth. -/
def catching (Q : Aim) (target : Target) (depth : Nat) : Aim :=
  { Q with
    falls := fun _ => Q.falls true
    parked := fun d word =>
      if d = depth then
        match word with
        | .breakWord => Q.falls false
        | .continueWord => if target.isLoop then Q.falls true else Set.univ
      else Q.parked d word }

variable {Q R : Aim} {ctx : Context}

theorem raises_congr {Q R : Outside} {targets : List Nat}
    (h : ∀ i ∈ targets, Q.enters i = R.enters i) : raises Q targets = raises R targets := by
  ext t
  simp only [raises, Set.mem_ofPred_eq]
  exact forall₂_congr fun i hi => by rw [h i hi]

/-- Unwinding depends only on what can be reached by it. -/
theorem unwinds_congr {guards : List Guard} (hcut : Q.cut = R.cut) (hstray : Q.stray = R.stray)
    (hparked : ∀ depth < guards.length, Q.parked depth = R.parked depth)
    (henters : ∀ h, Guard.Leads guards h → Q.enters h = R.enters h) (o : Ending) :
    Q.unwinds guards o = R.unwinds guards o := by
  induction guards generalizing o with
  | nil =>
    cases o with
    | returned => exact henters exitId (.inl rfl)
    | _ => exact hstray
  | cons guard guards ih =>
    have hrest : ∀ o, Q.unwinds guards o = R.unwinds guards o := by
      refine ih (fun depth hd => hparked depth (by simp; omega)) fun h hh => henters h ?_
      rcases hh with rfl | ⟨b, escapes, hb, hh⟩
      · exact .inl rfl
      · exact .inr ⟨b, escapes, .tail _ hb, hh⟩
    cases guard with
    | target target =>
      cases o with
      | jumped word label => simp only [unwinds, hrest, hparked guards.length (by simp)]
      | _ => exact hrest _
    | cleanup b escapes =>
      have hraises : raises Q.toOutside escapes = raises R.toOutside escapes :=
        raises_congr fun h hh => henters h (.inr ⟨b, escapes, .head _, hh⟩)
      simp only [unwinds, hrest, hcut, hraises]

theorem unwinds_falling (guards : List Guard) (F : Bool → Set Trace) (o : Ending) :
    (Q.falling F).unwinds guards o = Q.unwinds guards o := by
  apply unwinds_congr
  · rfl
  · rfl
  · intro _ _
    rfl
  · intro _ _
    rfl

theorem meets_falling (F : Bool → Set Trace) :
    (Q.meets ctx).falling F = (Q.falling F).meets ctx := by
  funext o
  cases o <;> simp only [Post.falling, meets, unwinds_falling] <;> rfl

end Aim

namespace Context

/-- The traces behind which a behavior in this context only leads to where it should. -/
def demand (ctx : Context) (b : Behavior) (Q : Aim) : Set Trace := wp b (Q.meets ctx)

def inside (ctx : Context) (guard : Guard) : Context := { ctx with guards := guard :: ctx.guards }

/-- A construct that only takes jumps leads nowhere by itself. -/
theorem leads_target {escapes : List Nat} {guards : List Guard} {target : Target} {i : Nat} :
    Leads ⟨escapes, .target target :: guards⟩ i ↔ Leads ⟨escapes, guards⟩ i := by
  simp [Leads, Guard.Leads]

/-- Behind a cleanup block control gets to where it gets from outside. -/
theorem leads_cleanup {escapes escapes' : List Nat} {guards : List Guard} {b : Behavior}
    {i : Nat} : Leads ⟨escapes, .cleanup b escapes' :: guards⟩ i ↔
      i ∈ escapes ∨ Leads ⟨escapes', guards⟩ i := by
  simp only [Leads, Guard.Leads, List.mem_cons, Guard.cleanup.injEq]
  constructor
  · rintro (h | h | ⟨b', escapes'', ⟨-, rfl⟩ | hb, h⟩)
    · exact .inl h
    · exact .inr (.inr (.inl h))
    · exact .inr (.inl h)
    · exact .inr (.inr (.inr ⟨b', escapes'', hb, h⟩))
  · rintro (h | h | h | ⟨b', escapes'', hb, h⟩)
    · exact .inl h
    · exact .inr (.inr ⟨b, escapes', .inl ⟨rfl, rfl⟩, h⟩)
    · exact .inr (.inl h)
    · exact .inr (.inr ⟨b', escapes'', .inr hb, h⟩)

variable {ctx : Context} {a b c : Behavior} {Q : Aim} {t : Trace}

@[simp] theorem demand_never : ctx.demand never Q = Set.univ := wp_never

@[simp] theorem demand_fell (way : Bool) : ctx.demand (leave (.fell way)) Q = Q.falls way :=
  wp_leave _

@[simp] theorem demand_skip : ctx.demand skip Q = Q.falls true := wp_skip

theorem demand_choice : ctx.demand (choice a b) Q = ctx.demand a Q ∩ ctx.demand b Q := wp_choice

theorem mem_demand_either : t ∈ ctx.demand either Q ↔ ∀ way, t ∈ Q.falls way := mem_wp_either

theorem mem_demand_act (fails : Bool) (es : Trace) : t ∈ ctx.demand (act fails es) Q ↔
    t ++ es ∈ Q.falls true ∧ t ++ es ∈ Q.cut ∧
      (fails = true → t ++ es ∈ Aim.raises Q.toOutside ctx.escapes) :=
  mem_wp_act fails es

theorem mem_demand_risk (fails : Bool) : t ∈ ctx.demand (risk fails) Q ↔
    t ∈ Q.falls true ∧ (fails = true → t ∈ Aim.raises Q.toOutside ctx.escapes) :=
  mem_wp_risk fails

theorem demand_branch : ctx.demand (branch a b c) Q =
    ctx.demand a (Q.falling fun way => if way then ctx.demand b Q else ctx.demand c Q) := by
  rw [demand, wp_branch, Aim.meets_falling]
  rfl

theorem demand_seq : ctx.demand (seq a b) Q =
    ctx.demand a (Q.falling fun _ => ctx.demand b Q) := by
  rw [demand, wp_seq, Aim.meets_falling]
  rfl

theorem demand_swap : ctx.demand (swap a) Q =
    ctx.demand a (Q.falling fun way => Q.falls !way) := by
  rw [demand, wp_swap, Aim.meets_falling]
  rfl

/-- What has to hold behind one round of a loop. -/
def roundAim (I : Set Trace) (Q : Aim) : Aim :=
  Q.falling fun way => if way then I else Q.falls true

theorem demand_loop :
    ctx.demand (loop a) Q = ctx.demand a (roundAim (ctx.demand (loop a) Q) Q) := by
  apply wp_loop.trans
  rw [roundPost, Aim.meets_falling]
  rfl

theorem subset_demand_loop {I : Set Trace} (h : I ⊆ ctx.demand a (roundAim I Q)) :
    I ⊆ ctx.demand (loop a) Q := by
  apply subset_wp_loop
  rw [roundPost, Aim.meets_falling]
  exact h

/-- A construct that takes jumps is one more guard inside. -/
theorem demand_catching {target : Target} : ctx.demand (Behavior.catching target.takes a) Q =
    (ctx.inside (.target target)).demand a (Q.catching target ctx.guards.length) := by
  have hunwinds : ∀ o, (Q.catching target ctx.guards.length).unwinds ctx.guards o =
      Q.unwinds ctx.guards o := by
    refine Aim.unwinds_congr rfl rfl (fun depth hd => ?_) fun _ _ => rfl
    funext word
    simp [Aim.catching, Nat.ne_of_lt hd]
  rw [demand, wp_catching, demand]
  congr 1
  funext o
  cases o with
  | jumped word label =>
    simp only [Aim.meets, inside, Aim.unwinds, hunwinds]
    split_ifs with htakes
    · cases word with
      | breakWord => simp [Aim.catching]
      | continueWord => simp [Aim.catching, Target.isLoop_of_takes htakes]
    · rfl
  | returned => exact (hunwinds .returned).symm
  | _ => rfl

/-- The clauses of a `try` stand for the nodes to which its exceptions go. -/
theorem demand_handling {clauses : List Behavior} {handlers : List Nat} {R : Aim}
    (hfalls : R.falls = Q.falls) (hparked : R.parked = Q.parked) (hcut : R.cut = Q.cut)
    (hstray : R.stray = Q.stray)
    (henters : ∀ h, ctx.Leads h → R.enters h = Q.enters h)
    (hhandlers : Aim.raises R.toOutside handlers = ctx.demand (anyOf clauses) Q) :
    ctx.demand (handling a clauses) Q =
      demand ⟨handlers ++ ctx.escapes, ctx.guards⟩ a R := by
  have hunwinds : ∀ o, R.unwinds ctx.guards o = Q.unwinds ctx.guards o :=
    Aim.unwinds_congr hcut hstray (fun _ _ => by rw [hparked]) fun h hh => henters h (.inr hh)
  have hraises : Aim.raises R.toOutside (handlers ++ ctx.escapes) =
      Aim.raises Q.toOutside ctx.escapes ∩ ctx.demand (anyOf clauses) Q := by
    have houter : Aim.raises R.toOutside ctx.escapes = Aim.raises Q.toOutside ctx.escapes :=
      Aim.raises_congr fun h hh => henters h (.inl hh)
    rw [← hhandlers, ← houter]
    ext t
    simp only [Aim.raises, List.mem_append, Set.mem_ofPred_eq, Set.mem_inter_iff]
    constructor
    · intro h
      exact ⟨fun i hi => h i (.inr hi), fun i hi => h i (.inl hi)⟩
    · rintro ⟨houter, hinner⟩ i (hi | hi)
      · exact hinner i hi
      · exact houter i hi
  rw [demand, wp_handling, demand]
  congr 1
  funext o
  cases o with
  | fell way => exact (congrFun hfalls way).symm
  | cut => exact hcut.symm
  | raised => exact hraises.symm
  | jumped word label => exact (hunwinds _).symm
  | returned => exact (hunwinds _).symm

/-- Inside a `try` with a cleanup block every way out leads through the block. -/
theorem demand_ensuring {escape : Nat} {R : Aim}
    (hfalls : R.falls = fun way => ctx.demand c (Q.falling fun _ => Q.falls way))
    (hparked : R.parked = Q.parked) (hcut : R.cut = Q.cut)
    (hstray : R.stray = Q.stray)
    (henters : ∀ h, ctx.Leads h → R.enters h = Q.enters h)
    (hescape : R.enters escape = ctx.demand (seq c (leave .raised)) Q) :
    ctx.demand (ensuring a c) Q =
      demand ⟨[escape], .cleanup c ctx.escapes :: ctx.guards⟩ a R := by
  have hunwinds : ∀ o, R.unwinds ctx.guards o = Q.unwinds ctx.guards o :=
    Aim.unwinds_congr hcut hstray (fun _ _ => by rw [hparked]) fun h hh => henters h (.inr hh)
  have houter : Aim.raises R.toOutside ctx.escapes = Aim.raises Q.toOutside ctx.escapes :=
    Aim.raises_congr fun h hh => henters h (.inl hh)
  have hjump : ∀ o, R.unwinds (.cleanup c ctx.escapes :: ctx.guards) o =
      wp c ((Q.meets ctx).falling fun _ => Q.unwinds ctx.guards o) := by
    intro o
    simp only [Aim.unwinds, hunwinds, hcut, houter]
    congr 1
    funext o'
    cases o' <;> rfl
  rw [demand, wp_ensuring, demand]
  congr 1
  funext o
  cases o with
  | fell way =>
    simp only [Aim.meets, hfalls, demand, ← Aim.meets_falling]
  | cut => exact hcut.symm
  | raised =>
    simp only [Aim.meets, Aim.raises, List.mem_singleton, forall_eq, hescape, demand_seq]
    rw [demand, ← Aim.meets_falling]
    simp only [demand, wp_leave]
    rfl
  | jumped word label => exact (hjump _).symm
  | returned => exact (hjump _).symm

end Context

end Execution

end WriteOnce
