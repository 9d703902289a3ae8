/-!
# Tables in order of insertion

A table holds one value for each key. A key keeps the place, and the form, of its
first insertion; the value is that of the last one.
-/

namespace WriteOnce

abbrev Table (κ β : Type) := List (κ × β)

namespace Table

variable {κ β : Type} [BEq κ]

def insert (key : κ) (value : β) : Table κ β → Table κ β
  | [] => [(key, value)]
  | (k, old) :: rest =>
    if k == key then (k, value) :: rest else (k, old) :: insert key value rest

/-- Inserts all entries of a second table. -/
def insertAll (t : Table κ β) (entries : List (κ × β)) : Table κ β :=
  entries.foldl (fun t (key, value) => insert key value t) t

def ofList (entries : List (κ × β)) : Table κ β := insertAll [] entries

theorem lookup_insert [EquivBEq κ] (key other : κ) (value : β) (t : Table κ β) :
    (t.insert key value).lookup other = if key == other then some value else t.lookup other := by
  induction t with
  | nil =>
    rw [insert, List.lookup_cons, BEq.comm]
    cases key == other <;> rfl
  | cons entry rest ih =>
    obtain ⟨k, old⟩ := entry
    by_cases hk : k == key
    · have hother : (other == k) = (key == other) := by
        rw [BEq.congr_right hk, BEq.comm]
      rw [insert, if_pos hk, List.lookup_cons, List.lookup_cons, hother]
      cases key == other <;> rfl
    · rw [insert, if_neg hk, List.lookup_cons, List.lookup_cons, ih]
      by_cases hother : key == other
      · have hne : (other == k) = false := by
          rw [← BEq.congr_left hother, BEq.comm]
          simpa using hk
        rw [hne]
      · rw [if_neg hother, if_neg hother]

/-- No two keys count as equal. -/
def Distinct (t : Table κ β) : Prop := (t.map Prod.fst).Pairwise fun a b => (a == b) = false

theorem keys_insert (key : κ) (value : β) (t : Table κ β) :
    (t.insert key value).map Prod.fst = t.map Prod.fst ∨
      (∀ k ∈ t.map Prod.fst, (k == key) = false) ∧
        (t.insert key value).map Prod.fst = t.map Prod.fst ++ [key] := by
  induction t with
  | nil => exact .inr ⟨fun _ hk => (by cases hk), rfl⟩
  | cons entry rest ih =>
    obtain ⟨k, old⟩ := entry
    by_cases hk : k == key
    · simp [insert, hk]
    · have hk' : (k == key) = false := by simpa using hk
      simp only [insert, hk, List.map_cons]
      obtain ih | ⟨hne, ih⟩ := ih
      · exact .inl (congrArg (k :: ·) ih)
      · exact .inr ⟨List.forall_mem_cons.2 ⟨hk', hne⟩, congrArg (k :: ·) ih⟩

theorem Distinct.insert {t : Table κ β} (h : t.Distinct) (key : κ) (value : β) :
    Distinct (t.insert key value) := by
  unfold Distinct
  obtain hkeys | ⟨hne, hkeys⟩ := keys_insert key value t
  · rw [hkeys]
    exact h
  · rw [hkeys, List.pairwise_append]
    refine ⟨h, List.pairwise_singleton _ _, fun k hk other hother => ?_⟩
    cases List.mem_singleton.1 hother
    exact hne k hk

/-- A new key comes last. -/
theorem insert_eq_append {key : κ} {value : β} {t : Table κ β}
    (h : ∀ k ∈ t.map Prod.fst, (k == key) = false) : t.insert key value = t ++ [(key, value)] := by
  induction t with
  | nil => rfl
  | cons entry rest ih =>
    obtain ⟨hk, hrest⟩ := List.forall_mem_cons.1 h
    have hk : ¬(entry.1 == key) = true := by simp [hk]
    rw [insert, if_neg hk, ih hrest]
    rfl

/-- Entries with new keys come last, in their order. -/
theorem insertAll_eq_append {t entries : Table κ β} (h : Distinct (t ++ entries)) :
    t.insertAll entries = t ++ entries := by
  induction entries generalizing t with
  | nil => exact (List.append_nil t).symm
  | cons entry entries ih =>
    have hnew : ∀ k ∈ t.map Prod.fst, (k == entry.1) = false := by
      unfold Distinct at h
      rw [List.map_append, List.pairwise_append] at h
      exact fun k hk => h.2.2 k hk entry.1 (.head _)
    have hassoc : t ++ entry :: entries = (t ++ [entry]) ++ entries := by simp
    change (t.insert entry.1 entry.2).insertAll entries = _
    rw [insert_eq_append hnew, hassoc]
    rw [hassoc] at h
    exact ih h

theorem Distinct.lookup_eq [EquivBEq κ] {t : Table κ β} (h : t.Distinct) {key : κ} {value : β}
    (hmem : (key, value) ∈ t) : t.lookup key = some value := by
  induction t with
  | nil => cases hmem
  | cons entry rest ih =>
    obtain ⟨k, old⟩ := entry
    obtain ⟨hne, hrest⟩ := List.pairwise_cons.1 h
    obtain hmem | hmem := List.mem_cons.1 hmem
    · cases hmem
      simp
    · have hk : (key == k) = false := by
        rw [BEq.comm]
        exact hne key (List.mem_map_of_mem (f := Prod.fst) hmem)
      rw [List.lookup_cons, hk]
      exact ih hrest hmem

theorem exists_mem_of_lookup {t : Table κ β} {key : κ} {value : β}
    (h : t.lookup key = some value) : ∃ k, (k, value) ∈ t ∧ (key == k) = true := by
  induction t with
  | nil => cases h
  | cons entry rest ih =>
    obtain ⟨k, old⟩ := entry
    rw [List.lookup_cons] at h
    cases hk : key == k with
    | true =>
      rw [hk] at h
      cases h
      exact ⟨k, .head _, hk⟩
    | false =>
      rw [hk] at h
      obtain ⟨k', hmem, hk'⟩ := ih h
      exact ⟨k', .tail _ hmem, hk'⟩

end Table

end WriteOnce
