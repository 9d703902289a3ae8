/-!
# Sorting by an order

Insertion from the right keeps elements that count as equal in their old order. The
result has the same elements and is in order, if any two elements can be compared.
-/

namespace WriteOnce

variable {α : Type} (le : α → α → Bool)

/-- Inserts an element in front of the first one that does not come before it. -/
def insertBy (a : α) : List α → List α
  | [] => [a]
  | b :: bs => if le a b then a :: b :: bs else b :: insertBy a bs

def sortBy (as : List α) : List α := as.foldr (insertBy le) []

theorem perm_insertBy (a : α) (as : List α) : (insertBy le a as).Perm (a :: as) := by
  induction as with
  | nil => exact .refl _
  | cons b bs ih =>
    by_cases h : le a b
    · simp [insertBy, h]
    · simpa [insertBy, h] using (ih.cons b).trans (.swap a b bs)

theorem perm_sortBy (as : List α) : (sortBy le as).Perm as := by
  induction as with
  | nil => exact .refl _
  | cons a as ih => exact (perm_insertBy le a _).trans (ih.cons a)

@[simp] theorem mem_sortBy {a : α} {as : List α} : a ∈ sortBy le as ↔ a ∈ as :=
  (perm_sortBy le as).mem_iff

variable {le}

theorem pairwise_insertBy (total : ∀ a b, le a b || le b a)
    (trans : ∀ a b c, le a b → le b c → le a c) (a : α) {as : List α}
    (h : as.Pairwise (le · ·)) : (insertBy le a as).Pairwise (le · ·) := by
  induction as with
  | nil => simp [insertBy]
  | cons b bs ih =>
    obtain ⟨hb, hbs⟩ := List.pairwise_cons.1 h
    by_cases hab : le a b
    · simp only [insertBy, hab, if_true]
      refine List.pairwise_cons.2 ⟨fun c hc => ?_, h⟩
      rcases List.mem_cons.1 hc with rfl | hc
      · exact hab
      · exact trans a b c hab (hb c hc)
    · simp only [insertBy, hab]
      refine List.pairwise_cons.2 ⟨fun c hc => ?_, ih hbs⟩
      rcases List.mem_cons.1 ((perm_insertBy le a bs).mem_iff.1 hc) with rfl | hc
      · simpa [hab] using total c b
      · exact hb c hc

theorem pairwise_sortBy (total : ∀ a b, le a b || le b a)
    (trans : ∀ a b c, le a b → le b c → le a c) (as : List α) :
    (sortBy le as).Pairwise (le · ·) := by
  induction as with
  | nil => exact .nil
  | cons a as ih => exact pairwise_insertBy total trans a ih

end WriteOnce
