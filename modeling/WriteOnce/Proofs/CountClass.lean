import WriteOnce.Proofs.Path
import WriteOnce.WriteCount.FixedPoint

/-!
# Masks as sets of counts

A mask stands for a set of count classes. Passing a node moves every class in the
mask as the node's events move a count, so the mask behind a node is the image of
the mask in front of it.
-/

namespace WriteOnce

/-- Counts, where all above one are the same. -/
inductive CountClass
  | zero
  | one
  | many
  deriving DecidableEq

namespace CountClass

def of : Nat → CountClass
  | 0 => zero
  | 1 => one
  | _ => many

def mask : CountClass → Mask
  | zero => .zero
  | one => .one
  | many => .many

def next : CountClass → CountClass
  | zero => one
  | _ => many

/-- The class behind an event. -/
def after (v : Variable) (k : CountClass) : Event → CountClass
  | .bind w hasValue => if w = v then (if hasValue then one else zero) else k
  | .write w => if w = v then k.next else k

theorem of_succ (count : Nat) : of (count + 1) = (of count).next := by
  match count with
  | 0 => rfl
  | 1 => rfl
  | _ + 2 => rfl

theorem of_ne_zero {count : Nat} : of count ≠ zero ↔ 1 ≤ count := by
  match count with
  | 0 => simp [of]
  | 1 => simp [of]
  | _ + 2 => simp [of]

theorem of_tally (v : Variable) (count : Nat) (e : Event) :
    of (Trace.tally v count e) = (of count).after v e := by
  cases e with
  | bind w hasValue =>
    simp only [Trace.tally, after]
    split_ifs <;> rfl
  | write w =>
    simp only [Trace.tally, after]
    split_ifs
    · exact of_succ count
    · rfl

/-- Classes follow the events of a trace as the counts do. -/
theorem of_foldl_tally (v : Variable) (t : Trace) (count : Nat) :
    of (t.foldl (Trace.tally v) count) = t.foldl (after v) (of count) := by
  induction t generalizing count with
  | nil => rfl
  | cons e t ih => rw [List.foldl_cons, List.foldl_cons, ih, of_tally]

/-- Somewhere in the trace the variable is written although its count is not zero. -/
def Rewrites (v : Variable) (k : CountClass) (t : Trace) : Prop :=
  ∃ pre post, t = pre ++ .write v :: post ∧ pre.foldl (after v) k ≠ zero

theorem not_rewrites_nil (v : Variable) (k : CountClass) : ¬ Rewrites v k [] := by
  rintro ⟨pre, post, h, _⟩
  simp at h

theorem rewrites_cons {v : Variable} {k : CountClass} {e : Event} {t : Trace} :
    Rewrites v k (e :: t) ↔ (e = .write v ∧ k ≠ zero) ∨ Rewrites v (k.after v e) t := by
  constructor
  · rintro ⟨pre, post, h, hk⟩
    cases pre with
    | nil =>
      obtain ⟨rfl, -⟩ := List.cons.inj h
      exact .inl ⟨rfl, hk⟩
    | cons e' pre =>
      obtain ⟨rfl, rfl⟩ := List.cons.inj h
      exact .inr ⟨pre, post, rfl, hk⟩
  · rintro (⟨rfl, hk⟩ | ⟨pre, post, rfl, hk⟩)
    · exact ⟨[], t, rfl, hk⟩
    · exact ⟨e :: pre, post, rfl, hk⟩

theorem rewrites_of {v : Variable} {count : Nat} {t : Trace} :
    Rewrites v (of count) t ↔
      ∃ pre post, t = pre ++ .write v :: post ∧ 1 ≤ pre.foldl (Trace.tally v) count := by
  simp only [Rewrites, ← of_foldl_tally, of_ne_zero]

end CountClass

namespace Mask

def has (m : Mask) (k : CountClass) : Bool := m.meets k.mask

/-- At least one count is possible, and there are no meaningless bits. -/
def Proper (m : Mask) : Prop := 0 < m.bits ∧ m.bits < 8

instance (m : Mask) : Decidable m.Proper := inferInstanceAs (Decidable (_ ∧ _))

/-- The proper masks can be tried one after the other. -/
theorem Proper.exists_fin {m : Mask} (hm : m.Proper) : ∃ i : Fin 8, 0 < i.val ∧ m = ⟨i⟩ :=
  ⟨⟨m.bits, hm.2⟩, hm.1, rfl⟩

theorem proper_zero : zero.Proper := by decide

theorem proper_one : one.Proper := by decide

theorem Proper.written {m : Mask} (hm : m.Proper) : m.written.Proper := by
  obtain ⟨i, hi, rfl⟩ := hm.exists_fin
  revert i; decide

theorem Proper.union {m n : Mask} (hm : m.Proper) (hn : n.Proper) : (m.union n).Proper := by
  obtain ⟨i, hi, rfl⟩ := hm.exists_fin
  obtain ⟨j, hj, rfl⟩ := hn.exists_fin
  revert i j; decide

theorem has_zero (k : CountClass) : zero.has k ↔ k = .zero := by
  cases k <;> decide

theorem has_one (k : CountClass) : one.has k ↔ k = .one := by
  cases k <;> decide

theorem Proper.exists_has {m : Mask} (hm : m.Proper) : ∃ k, m.has k := by
  have by_bits : ∀ i : Fin 8, 0 < i.val →
      has ⟨i⟩ .zero ∨ has ⟨i⟩ .one ∨ has ⟨i⟩ .many := by decide
  obtain ⟨i, hi, rfl⟩ := hm.exists_fin
  rcases by_bits i hi with h | h | h
  · exact ⟨_, h⟩
  · exact ⟨_, h⟩
  · exact ⟨_, h⟩

theorem Proper.has_union {m n : Mask} (hm : m.Proper) (hn : n.Proper) (k : CountClass) :
    (m.union n).has k = (m.has k || n.has k) := by
  obtain ⟨i, hi, rfl⟩ := hm.exists_fin
  obtain ⟨j, hj, rfl⟩ := hn.exists_fin
  cases k <;> revert i j <;> decide

/-- A write moves every class on to the next one. -/
theorem Proper.has_written {m : Mask} (hm : m.Proper) (k : CountClass) :
    m.written.has k ↔ ∃ j, m.has j ∧ j.next = k := by
  have by_bits : m.written.has k ↔
      m.has .zero ∧ CountClass.zero.next = k ∨ m.has .one ∧ CountClass.one.next = k ∨
        m.has .many ∧ CountClass.many.next = k := by
    obtain ⟨i, hi, rfl⟩ := hm.exists_fin
    cases k <;> revert i <;> decide
  rw [by_bits]
  constructor
  · rintro (h | h | h)
    · exact ⟨_, h⟩
    · exact ⟨_, h⟩
    · exact ⟨_, h⟩
  · rintro ⟨j, h⟩
    cases j
    · exact .inl h
    · exact .inr (.inl h)
    · exact .inr (.inr h)

theorem Proper.mayBeWritten_iff {m : Mask} (hm : m.Proper) :
    m.mayBeWritten ↔ ∃ j, m.has j ∧ j ≠ .zero := by
  have by_bits : m.mayBeWritten ↔ m.has .one ∨ m.has .many := by
    obtain ⟨i, hi, rfl⟩ := hm.exists_fin
    revert i; decide
  rw [by_bits]
  constructor
  · rintro (h | h)
    · exact ⟨_, h, by decide⟩
    · exact ⟨_, h, by decide⟩
  · rintro ⟨j, h, hj⟩
    cases j
    · exact absurd rfl hj
    · exact .inl h
    · exact .inr h

/-- The number of classes in a mask. -/
def size (m : Mask) : Nat :=
  (if m.has .zero then 1 else 0) + (if m.has .one then 1 else 0) + (if m.has .many then 1 else 0)

theorem Proper.one_le_size {m : Mask} (hm : m.Proper) : 1 ≤ m.size := by
  obtain ⟨i, hi, rfl⟩ := hm.exists_fin
  revert i; decide

theorem size_le (m : Mask) : m.size ≤ 3 := by
  unfold size
  split_ifs <;> omega

/-- A union that is a new mask has more classes. -/
theorem Proper.size_lt_union {m n : Mask} (hm : m.Proper) (hn : n.Proper) (h : m.union n ≠ m) :
    m.size < (m.union n).size := by
  obtain ⟨i, hi, rfl⟩ := hm.exists_fin
  obtain ⟨j, hj, rfl⟩ := hn.exists_fin
  revert i j; decide

/-- Masks are told apart by their classes. -/
theorem Proper.ext {m n : Mask} (hm : m.Proper) (hn : n.Proper) (h : ∀ k, m.has k ↔ n.has k) :
    m = n := by
  have by_bits : (m.has .zero ↔ n.has .zero) → (m.has .one ↔ n.has .one) →
      (m.has .many ↔ n.has .many) → m = n := by
    obtain ⟨i, hi, rfl⟩ := hm.exists_fin
    obtain ⟨j, hj, rfl⟩ := hn.exists_fin
    clear h
    revert i j
    decide
  exact by_bits (h _) (h _) (h _)

theorem Proper.union_eq_left_iff {m n : Mask} (hm : m.Proper) (hn : n.Proper) :
    m.union n = m ↔ ∀ k, n.has k → m.has k := by
  constructor
  · intro h k hk
    rw [← h, hm.has_union hn, hk, Bool.or_true]
  · intro h
    have by_bits : (n.has .zero → m.has .zero) → (n.has .one → m.has .one) →
        (n.has .many → m.has .many) → m.union n = m := by
      obtain ⟨i, hi, rfl⟩ := hm.exists_fin
      obtain ⟨j, hj, rfl⟩ := hn.exists_fin
      clear h; revert i j; decide
    exact by_bits (h _) (h _) (h _)

end Mask

namespace FlowGraph.Node

open CountClass

/-- The counts of a variable behind a binding. -/
def reboundBy (v : Variable) (m : Mask) (b : Binding) : Mask :=
  if b.var = v then (if b.hasValue then .one else .zero) else m

theorem proper_reboundBy {m : Mask} (hm : m.Proper) (v : Variable) (b : Binding) :
    (reboundBy v m b).Proper := by
  unfold reboundBy
  split_ifs
  · exact Mask.proper_one
  · exact Mask.proper_zero
  · exact hm

theorem has_reboundBy {m : Mask} (hm : m.Proper) (v : Variable) (b : Binding) (k : CountClass) :
    (reboundBy v m b).has k ↔ ∃ j, m.has j ∧ j.after v b.event = k := by
  obtain ⟨i, hi⟩ := hm.exists_has
  simp only [reboundBy, after, Binding.event]
  by_cases hb : b.var = v
  · by_cases hv : b.hasValue
    · simp only [if_pos hb, if_pos hv, Mask.has_one]
      constructor
      · intro h
        exact ⟨i, hi, h.symm⟩
      · rintro ⟨_, _, h⟩
        exact h.symm
    · simp only [if_pos hb, if_neg hv, Mask.has_zero]
      constructor
      · intro h
        exact ⟨i, hi, h.symm⟩
      · rintro ⟨_, _, h⟩
        exact h.symm
  · simp [if_neg hb]

theorem proper_rebound (n : Node) {m : Mask} (hm : m.Proper) (v : Variable) :
    (n.rebound v m).Proper := by
  unfold rebound
  induction n.binds generalizing m with
  | nil => exact hm
  | cons b bs ih => exact ih (proper_reboundBy hm v b)

theorem has_rebound (n : Node) {m : Mask} (hm : m.Proper) (v : Variable) (k : CountClass) :
    (n.rebound v m).has k ↔ ∃ j, m.has j ∧
      (n.binds.map Binding.event).foldl (after v) j = k := by
  unfold rebound
  induction n.binds generalizing m with
  | nil => simp
  | cons b bs ih =>
    rw [List.foldl_cons]
    change (bs.foldl (reboundBy v) (reboundBy v m b)).has k ↔ _
    rw [show (bs.foldl (reboundBy v) (reboundBy v m b)).has k ↔ _ from
      ih (proper_reboundBy hm v b)]
    simp only [has_reboundBy hm, List.map_cons, List.foldl_cons, exists_exists_and_eq_and]

theorem proper_writtenBy {m : Mask} (hm : m.Proper) (v : Variable) (writes : List Variable) :
    (writtenBy v writes m).Proper := by
  unfold writtenBy
  induction writes generalizing m with
  | nil => exact hm
  | cons w ws ih =>
    rw [List.foldl_cons]
    split_ifs
    · exact ih hm.written
    · exact ih hm

theorem has_writtenBy {m : Mask} (hm : m.Proper) (v : Variable) (writes : List Variable)
    (k : CountClass) :
    (writtenBy v writes m).has k ↔
      ∃ j, m.has j ∧ (writes.map Event.write).foldl (after v) j = k := by
  unfold writtenBy
  induction writes generalizing m with
  | nil => simp
  | cons w ws ih =>
    rw [List.foldl_cons, List.map_cons]
    by_cases hw : w = v
    · rw [if_pos hw, ih hm.written]
      simp only [hm.has_written, List.foldl_cons, after, if_pos hw, exists_exists_and_eq_and]
    · rw [if_neg hw, ih hm]
      simp only [List.foldl_cons, after, if_neg hw]

theorem proper_behind (n : Node) {m : Mask} (hm : m.Proper) (v : Variable) :
    (n.behind v m).Proper :=
  proper_writtenBy (n.proper_rebound hm v) v n.writes

/-- Behind a node exactly those classes are possible that its events lead to from classes that
are possible in front of it. -/
theorem has_behind (n : Node) {m : Mask} (hm : m.Proper) (v : Variable) (k : CountClass) :
    (n.behind v m).has k ↔ ∃ j, m.has j ∧ n.trace.foldl (after v) j = k := by
  unfold behind trace
  rw [has_writtenBy (n.proper_rebound hm v)]
  simp only [n.has_rebound hm, List.foldl_append, exists_exists_and_eq_and]

theorem overwritesBy_iff {m : Mask} (hm : m.Proper) (v : Variable) (writes : List Variable) :
    overwritesBy v writes m ↔ ∃ j, m.has j ∧ Rewrites v j (writes.map Event.write) := by
  induction writes generalizing m with
  | nil => simp [overwritesBy, not_rewrites_nil]
  | cons w ws ih =>
    simp only [overwritesBy, List.map_cons, rewrites_cons, Event.write.injEq, after]
    by_cases hw : w = v
    · simp only [if_pos hw, Bool.or_eq_true, hm.mayBeWritten_iff, ih hm.written, hm.has_written]
      simp only [hw, true_and, exists_exists_and_eq_and, and_or_left, exists_or]
    · simp only [hw, if_false, false_and, false_or]
      exact ih hm

theorem rewrites_binds {v : Variable} {k : CountClass} (bs : List Binding) (t : Trace) :
    Rewrites v k (bs.map Binding.event ++ t) ↔
      Rewrites v ((bs.map Binding.event).foldl (after v) k) t := by
  induction bs generalizing k with
  | nil => rfl
  | cons b bs ih =>
    rw [List.map_cons, List.cons_append, rewrites_cons, ih, List.foldl_cons]
    simp [Binding.event]

/-- A node is said to overwrite a variable exactly where one of its writes can meet a count that
is not zero. -/
theorem overwrites_iff (n : Node) {m : Mask} (hm : m.Proper) (v : Variable) :
    n.overwrites v m ↔ ∃ j, m.has j ∧ Rewrites v j n.trace := by
  unfold overwrites trace
  rw [overwritesBy_iff (n.proper_rebound hm v)]
  simp only [n.has_rebound hm, rewrites_binds, exists_exists_and_eq_and]

end FlowGraph.Node

end WriteOnce
