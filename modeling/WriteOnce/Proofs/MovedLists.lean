import Mathlib.Data.List.Forall2
import Mathlib.Data.List.NodupEquivFin
import Mathlib.Logic.Equiv.Fintype
import WriteOnce.Sorting

/-!
# Lists of other things

Searching, sorting and dropping repetitions look at nothing but equality and order: they
commute with every function that keeps these.
-/

namespace WriteOnce

theorem eraseDups_map {α β : Type} [DecidableEq α] [DecidableEq β] {f : α → β}
    (hf : Function.Injective f) (as : List α) : (as.map f).eraseDups = as.eraseDups.map f := by
  induction h : as.length using Nat.strongRecOn generalizing as with
  | ind k ih =>
    cases as with
    | nil => rfl
    | cons a as =>
      have hlength := List.length_filter_le (fun b => !b == a) as
      rw [List.length_cons] at h
      have hcomp : (fun b => !b == f a) ∘ f = fun b => !b == a := by
        funext b
        rw [Function.comp, Bool.eq_iff_iff]
        simp [hf.eq_iff]
      rw [List.map_cons, List.eraseDups_cons, List.eraseDups_cons, List.filter_map, hcomp,
        ih _ (by omega) _ rfl, List.map_cons]

theorem contains_map {α β : Type} [BEq α] [LawfulBEq α] [BEq β] [LawfulBEq β] {f : α → β}
    (hf : Function.Injective f) (a : α) (as : List α) :
    (as.map f).contains (f a) = as.contains a := by
  rw [Bool.eq_iff_iff, List.contains_iff_mem, List.contains_iff_mem, List.mem_map_of_injective hf]

theorem insertBy_map {α β : Type} {le : α → α → Bool} {le' : β → β → Bool} {f : α → β} {a : α}
    {as : List α} (h : ∀ b ∈ as, le' (f a) (f b) = le a b) :
    insertBy le' (f a) (as.map f) = (insertBy le a as).map f := by
  induction as with
  | nil => rfl
  | cons b as ih =>
    rw [List.map_cons, insertBy, insertBy, h b (.head _), ih fun b hb => h b (.tail _ hb)]
    split_ifs <;> rfl

/-- Sorting looks at nothing but the order. -/
theorem sortBy_map {α β : Type} {le : α → α → Bool} {le' : β → β → Bool} {f : α → β} {as : List α}
    (h : ∀ a ∈ as, ∀ b ∈ as, le' (f a) (f b) = le a b) :
    sortBy le' (as.map f) = (sortBy le as).map f := by
  induction as with
  | nil => rfl
  | cons a as ih =>
    change insertBy le' (f a) (sortBy le' (as.map f)) = (insertBy le a (sortBy le as)).map f
    rw [ih fun b hb c hc => h b (.tail _ hb) c (.tail _ hc)]
    exact insertBy_map fun b hb => h a (.head _) b (.tail _ ((mem_sortBy le).1 hb))

/-- Looking up in a table whose keys and values are replaced. -/
theorem lookup_map {α β γ δ : Type} [BEq α] [LawfulBEq α] [BEq β] [LawfulBEq β] {f : α → β}
    (hf : Function.Injective f) (g : γ → δ) (a : α) (entries : List (α × γ)) :
    (entries.map fun e => (f e.1, g e.2)).lookup (f a) = (entries.lookup a).map g := by
  induction entries with
  | nil => rfl
  | cons e entries ih =>
    have hbeq : (f a == f e.1) = (a == e.1) := by
      rw [Bool.eq_iff_iff, beq_iff_eq, beq_iff_eq, hf.eq_iff]
    rw [List.map_cons, List.lookup_cons, List.lookup_cons, ih, hbeq]
    cases a == e.1 <;> rfl

/-- Two lists that look the same correspond element by element. -/
theorem forall₂_of_map_eq {α β γ : Type} {R : α → β → Prop} {f : α → γ} {g : β → γ} {as : List α}
    {bs : List β} (h : bs.map g = as.map f) (hR : ∀ a ∈ as, ∀ b ∈ bs, g b = f a → R a b) :
    List.Forall₂ R as bs := by
  induction as generalizing bs with
  | nil => rw [List.map_eq_nil_iff.1 h]; exact .nil
  | cons a as ih =>
    cases bs with
    | nil => cases h
    | cons b bs =>
      obtain ⟨hb, hbs⟩ := List.cons_eq_cons.1 h
      exact .cons (hR a (.head _) b (.head _) hb)
        (ih hbs fun a ha b hb => hR a (.tail _ ha) b (.tail _ hb))

theorem eq_map_of_map_eq {α β γ : Type} {f : α → γ} {g : β → γ} {k : α → β} {as : List α}
    {bs : List β} (h : bs.map g = as.map f) (hk : ∀ a ∈ as, ∀ b ∈ bs, g b = f a → b = k a) :
    bs = as.map k := by
  have hall : List.Forall₂ (fun a b => b = k a) as bs := forall₂_of_map_eq h hk
  clear h hk
  induction hall with
  | nil => rfl
  | cons hb _ ih => rw [List.map_cons, hb, ← ih]

theorem forall₂_comp {α β γ : Type} {R : α → β → Prop} {S : β → γ → Prop} {T : α → γ → Prop}
    {as : List α} {bs : List β} {cs : List γ} (h : List.Forall₂ R as bs)
    (h' : List.Forall₂ S bs cs) (hT : ∀ a b c, R a b → S b c → T a c) : List.Forall₂ T as cs := by
  induction h generalizing cs with
  | nil =>
    cases h'
    exact .nil
  | cons hab _ ih =>
    cases h' with
    | cons hbc h' => exact .cons (hT _ _ _ hab hbc) (ih h')

theorem forall₂_mem {α β : Type} {R : α → β → Prop} {as : List α} {bs : List β}
    (h : List.Forall₂ R as bs) : List.Forall₂ (fun a b => a ∈ as ∧ b ∈ bs ∧ R a b) as bs := by
  induction h with
  | nil => exact .nil
  | cons hab _ ih =>
    exact .cons ⟨.head _, .head _, hab⟩
      (ih.imp fun a b ⟨ha, hb, h⟩ => ⟨.tail _ ha, .tail _ hb, h⟩)

theorem forall₂_and {α β : Type} {R S : α → β → Prop} {as : List α} {bs : List β}
    (h : List.Forall₂ R as bs) (h' : List.Forall₂ S as bs) :
    List.Forall₂ (fun a b => R a b ∧ S a b) as bs := by
  induction h with
  | nil => exact .nil
  | cons hab _ ih =>
    cases h' with
    | cons hab' h' => exact .cons ⟨hab, hab'⟩ (ih h')

/-- Two lists of the same length without repetitions differ by a permutation of all things. -/
theorem exists_perm_map_eq {α : Type} {as bs : List α} (ha : as.Nodup) (hb : bs.Nodup)
    (hlength : bs.length = as.length) : ∃ σ : Equiv.Perm α, as.map σ = bs := by
  obtain ⟨σ, hσ⟩ := Equiv.Perm.exists_extending_pair as.get (fun i => bs.get (i.cast hlength.symm))
    (List.nodup_iff_injective_get.1 ha)
    ((List.nodup_iff_injective_get.1 hb).comp (Fin.cast_injective _))
  refine ⟨σ, List.ext_getElem (by simp [hlength]) fun i hi _ => ?_⟩
  rw [List.getElem_map]
  exact hσ ⟨i, by simpa using hi⟩

/-- Things that look the same in two lists, where all of them look different, differ by a
permutation of all things. -/
theorem exists_perm_of_map_eq {α β : Type} {f g : α → β} {as bs : List α}
    (h : bs.map g = as.map f) (hnodup : (as.map f).Nodup) :
    ∃ σ : Equiv.Perm α, (∀ a ∈ as, g (σ a) = f a) ∧
      ∀ a ∈ as, ∀ b ∈ bs, g b = f a → b = σ a := by
  have hnodup' : (bs.map g).Nodup := h ▸ hnodup
  have hlength : bs.length = as.length := by simpa using congrArg List.length h
  obtain ⟨σ, rfl⟩ := exists_perm_map_eq hnodup.of_map hnodup'.of_map hlength
  rw [List.map_map] at h
  have hlook : ∀ a ∈ as, g (σ a) = f a := List.map_inj_left.1 h
  refine ⟨σ, hlook, fun a ha b hb hab => ?_⟩
  exact List.inj_on_of_nodup_map hnodup' hb (List.mem_map_of_mem ha) (hab.trans (hlook a ha).symm)

theorem mem_of_lookup {α β : Type} [BEq α] [LawfulBEq α] {a : α} {b : β} {entries : List (α × β)}
    (h : entries.lookup a = some b) : (a, b) ∈ entries := by
  obtain ⟨l₁, l₂, rfl, -⟩ := List.lookup_eq_some_iff.1 h
  exact List.mem_append_right _ (.head _)

/-- Where no key stands twice, every entry is found. -/
theorem lookup_eq_some_of_nodup {α β : Type} [BEq α] [LawfulBEq α] {a : α} {b : β}
    {entries : List (α × β)} (hnodup : (entries.map Prod.fst).Nodup) (h : (a, b) ∈ entries) :
    entries.lookup a = some b := by
  induction entries with
  | nil => cases h
  | cons entry entries ih =>
    obtain ⟨hfresh, hnodup⟩ := List.nodup_cons.1 hnodup
    rw [List.lookup_cons]
    rcases List.mem_cons.1 h with rfl | h
    · rw [beq_self_eq_true]
    · have hkey : a ≠ entry.1 := fun heq => hfresh (heq ▸ List.mem_map_of_mem h)
      rw [beq_eq_false_iff_ne.2 hkey]
      exact ih hnodup h

end WriteOnce
