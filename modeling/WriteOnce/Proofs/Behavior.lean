import Mathlib.Data.Set.Basic
import WriteOnce.Analysis.Error
import WriteOnce.Proofs.Path

/-!
# Behaviors

What a piece of code may do is a relation between traces and endings. Larger
behaviors are put together from smaller ones, each by what follows an ending of
its first part. The weakest precondition of a behavior holds the traces behind
which the behavior only leads to where it should; it turns every combination of
behaviors into an equation between sets.
-/

namespace WriteOnce

/-- How a piece of code ends. Code that falls through a test says whether the test holds; code
that is cut off has not ended where the observation stops. -/
inductive Ending
  | fell (way : Bool)
  | cut
  | jumped (word : JumpWord) (label : Option Text)
  | returned
  | raised

abbrev Behavior := Trace → Ending → Prop

namespace Behavior

def never : Behavior := fun _ _ => False

/-- Nothing happens, and the code ends like this. -/
def leave (o : Ending) : Behavior := fun t o' => t = [] ∧ o' = o

def skip : Behavior := leave (.fell true)

/-- A test of which nothing is known. -/
def either : Behavior := fun t o => t = [] ∧ ∃ way, o = .fell way

/-- Events that happen in one step, behind which an exception may be raised. -/
def act (fails : Bool) (es : Trace) : Behavior := fun t o =>
  t = es ∧ (o = .fell true ∨ o = .cut ∨ fails = true ∧ o = .raised)

/-- A place at which an exception may be raised. -/
def risk (fails : Bool) : Behavior := fun t o =>
  t = [] ∧ (o = .fell true ∨ fails = true ∧ o = .raised)

def choice (a b : Behavior) : Behavior := fun t o => a t o ∨ b t o

def anyOf (bs : List Behavior) : Behavior := fun t o => ∃ b ∈ bs, b t o

/-- What comes next depends on how the first part ends. -/
def followed (b : Behavior) (next : Ending → Behavior) : Behavior := fun t o =>
  ∃ u v mid, b u mid ∧ next mid v o ∧ t = u ++ v

/-- The two ways on behind a test. -/
def branch (test onTrue onFalse : Behavior) : Behavior :=
  followed test fun
    | .fell way => if way then onTrue else onFalse
    | o => leave o

def seq (a b : Behavior) : Behavior := branch a b b

def swap (test : Behavior) : Behavior := branch test (leave (.fell false)) skip

/-- Rounds are repeated as long as they hold, and the loop falls through behind the first one
that does not. -/
inductive loop (round : Behavior) : Behavior
  | again {t u : Trace} {o : Ending} :
    round t (.fell true) → loop round u o → loop round (t ++ u) o
  | done {t : Trace} : round t (.fell false) → loop round t (.fell true)
  | abrupt {t : Trace} {o : Ending} : round t o → (∀ way, o ≠ .fell way) → loop round t o

/-- Takes the jumps of which `takes` says that they aim here. Behind a `break` the code falls
through like a test that does not hold, otherwise like one that does. -/
def catching (takes : JumpWord → Option Text → Bool) (b : Behavior) : Behavior :=
  followed b fun
    | .fell _ => skip
    | .jumped word label =>
      if takes word label then leave (.fell (word = .continueWord)) else leave (.jumped word label)
    | o => leave o

/-- An exception goes to any of the clauses, or further out. -/
def handling (b : Behavior) (clauses : List Behavior) : Behavior :=
  followed b fun
    | .raised => choice (leave .raised) (anyOf clauses)
    | o => leave o

/-- Whatever way the code takes out, the cleanup runs on it, and replaces the way if it does not
fall through. -/
def ensuring (b cleanup : Behavior) : Behavior :=
  followed b fun
    | .cut => leave .cut
    | o => followed cleanup fun
      | .fell _ => leave o
      | o' => leave o'

/-! ## Weakest preconditions -/

/-- For every ending the traces that are allowed with it. -/
abbrev Post := Ending → Set Trace

/-- A postcondition with other demands on code that falls through. -/
def Post.falling (P : Post) (F : Bool → Set Trace) : Post
  | .fell way => F way
  | o => P o

/-- The traces behind which the behavior ends only as allowed. -/
def wp (b : Behavior) (P : Post) : Set Trace := {t | ∀ u o, b u o → t ++ u ∈ P o}

variable {a b c : Behavior} {P : Post} {t : Trace}

/-- What the behavior does is what cannot be kept from it. -/
theorem of_not_mem_wp {o : Ending} (h : [] ∉ wp a fun o' => {u | ¬(o' = o ∧ u = t)}) : a t o := by
  by_contra ha
  apply h
  intro u o' hu
  rw [List.nil_append]
  rintro ⟨rfl, rfl⟩
  exact ha hu

@[simp] theorem wp_never : wp never P = Set.univ := by
  ext t
  simp [wp, never]

@[simp] theorem wp_leave (o : Ending) : wp (leave o) P = P o := by
  ext t
  simp [wp, leave]

@[simp] theorem wp_skip : wp skip P = P (.fell true) := wp_leave _

theorem mem_wp_either : t ∈ wp either P ↔ ∀ way, t ∈ P (.fell way) := by
  constructor
  · intro h way
    have := h [] _ ⟨rfl, way, rfl⟩
    rwa [List.append_nil] at this
  · rintro h _ _ ⟨rfl, way, rfl⟩
    rw [List.append_nil]
    exact h way

theorem mem_wp_act (fails : Bool) (es : Trace) : t ∈ wp (act fails es) P ↔
    t ++ es ∈ P (.fell true) ∧ t ++ es ∈ P .cut ∧ (fails = true → t ++ es ∈ P .raised) := by
  constructor
  · intro h
    exact ⟨h _ _ ⟨rfl, .inl rfl⟩, h _ _ ⟨rfl, .inr (.inl rfl)⟩,
      fun hf => h _ _ ⟨rfl, .inr (.inr ⟨hf, rfl⟩)⟩⟩
  · rintro ⟨hfell, hcut, hraised⟩ _ _ ⟨rfl, rfl | rfl | ⟨hf, rfl⟩⟩
    · exact hfell
    · exact hcut
    · exact hraised hf

theorem mem_wp_risk (fails : Bool) : t ∈ wp (risk fails) P ↔
    t ∈ P (.fell true) ∧ (fails = true → t ∈ P .raised) := by
  constructor
  · intro h
    have hfell := h [] _ ⟨rfl, .inl rfl⟩
    rw [List.append_nil] at hfell
    refine ⟨hfell, fun hf => ?_⟩
    have hraised := h [] _ ⟨rfl, .inr ⟨hf, rfl⟩⟩
    rwa [List.append_nil] at hraised
  · rintro ⟨hfell, hraised⟩ _ _ ⟨rfl, rfl | ⟨hf, rfl⟩⟩
    · rwa [List.append_nil]
    · rw [List.append_nil]
      exact hraised hf

@[simp] theorem wp_choice : wp (choice a b) P = wp a P ∩ wp b P := by
  ext t
  constructor
  · intro h
    exact ⟨fun u o hu => h u o (.inl hu), fun u o hu => h u o (.inr hu)⟩
  · rintro ⟨ha, hb⟩ u o (hu | hu)
    · exact ha u o hu
    · exact hb u o hu

theorem mem_wp_anyOf {bs : List Behavior} : t ∈ wp (anyOf bs) P ↔ ∀ b ∈ bs, t ∈ wp b P := by
  constructor
  · intro h b hb u o hu
    exact h u o ⟨b, hb, hu⟩
  · rintro h u o ⟨b, hb, hu⟩
    exact h b hb u o hu

theorem wp_followed {next : Ending → Behavior} :
    wp (followed b next) P = wp b fun o => wp (next o) P := by
  ext t
  constructor
  · intro h u mid hu v o hv
    have := h (u ++ v) o ⟨u, v, mid, hu, hv, rfl⟩
    rwa [← List.append_assoc] at this
  · rintro h _ o ⟨u, v, mid, hu, hv, rfl⟩
    have := h u mid hu v o hv
    rwa [List.append_assoc] at this

theorem wp_branch :
    wp (branch a b c) P = wp a (P.falling fun way => if way then wp b P else wp c P) := by
  rw [branch, wp_followed]
  congr 1
  funext o
  cases o with
  | fell way => cases way <;> rfl
  | _ => simp [Post.falling]

theorem wp_seq : wp (seq a b) P = wp a (P.falling fun _ => wp b P) := by
  rw [seq, wp_branch]
  simp

theorem wp_swap : wp (swap a) P = wp a (P.falling fun way => P (.fell !way)) := by
  rw [swap, wp_branch]
  congr 2
  funext way
  cases way <;> simp

/-- What has to hold behind one round of a loop. -/
def roundPost (I : Set Trace) (P : Post) : Post :=
  P.falling fun way => if way then I else P (.fell true)

theorem wp_loop : wp (loop a) P = wp a (roundPost (wp (loop a) P) P) := by
  ext t
  constructor
  · intro h u o hu
    cases o with
    | fell way =>
      cases way with
      | true =>
        intro v o hv
        have := h _ _ (loop.again hu hv)
        rwa [← List.append_assoc] at this
      | false => exact h _ _ (loop.done hu)
    | _ => exact h _ _ (loop.abrupt hu (by simp))
  · intro h u o hu
    cases hu with
    | again hround hrest =>
      rw [← List.append_assoc]
      exact h _ _ hround _ _ hrest
    | done hround => exact h _ _ hround
    | abrupt hround ho =>
      have := h _ _ hround
      cases o with
      | fell way => exact absurd rfl (ho way)
      | _ => exact this

/-- What every round preserves holds of the whole loop. -/
theorem subset_wp_loop {I : Set Trace} (h : I ⊆ wp a (roundPost I P)) : I ⊆ wp (loop a) P := by
  intro t ht u o hu
  induction hu generalizing t with
  | again hround _ ih =>
    rw [← List.append_assoc]
    exact ih (h ht _ _ hround)
  | done hround => exact h ht _ _ hround
  | @abrupt u o hround ho =>
    have := h ht _ _ hround
    cases o with
    | fell way => exact absurd rfl (ho way)
    | _ => exact this

theorem wp_handling {clauses : List Behavior} : wp (handling a clauses) P =
    wp a fun
      | .raised => P .raised ∩ wp (anyOf clauses) P
      | o => P o := by
  rw [handling, wp_followed]
  congr 1
  funext o
  cases o <;> simp

theorem wp_catching {takes : JumpWord → Option Text → Bool} : wp (catching takes a) P =
    wp a fun
      | .fell _ => P (.fell true)
      | .jumped word label =>
        if takes word label then P (.fell (word = .continueWord)) else P (.jumped word label)
      | o => P o := by
  rw [catching, wp_followed]
  congr 1
  funext o
  cases o with
  | jumped word label => cases h : takes word label <;> simp [h]
  | _ => simp

theorem wp_ensuring : wp (ensuring a c) P =
    wp a fun
      | .cut => P .cut
      | o => wp c (P.falling fun _ => P o) := by
  rw [ensuring, wp_followed]
  congr 1
  funext o
  have h : wp (followed c fun
      | .fell _ => leave o
      | o' => leave o') P = wp c (P.falling fun _ => P o) := by
    rw [wp_followed]
    congr 1
    funext o'
    cases o' <;> simp [Post.falling]
  cases o <;> simp only [wp_leave] <;> exact h

end Behavior

end WriteOnce
