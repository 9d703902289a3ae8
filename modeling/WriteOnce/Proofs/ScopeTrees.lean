import WriteOnce.Proofs.OutlinedWalks

/-!
# Scopes by number

The scopes of a tree have numbers in preorder, and every scope but the first has the number of the
one that it stands in. What stands in a scope is numbered right behind it, which leads from the tree
to the numbers and back.
-/

namespace WriteOnce

namespace Scope

/-- A scope with the number of its parent. -/
abbrev Numbered := Scope × Option Nat

theorem number_eq (parent : Option Nat) (index : Nat) (s : Scope) :
    s.number parent index = (s, parent) :: number.numberAll index (index + 1) s.children := by
  cases s
  rfl

mutual

theorem map_number (parent : Option Nat) (index : Nat) : (s : Scope) →
    (s.number parent index).map Prod.fst = s.all
  | ⟨_, _, _, children, _⟩ => congrArg (_ :: ·) (map_numberAll index (index + 1) children)

theorem map_numberAll (parent index : Nat) : (ss : List Scope) →
    (number.numberAll parent index ss).map Prod.fst = allOf ss
  | [] => rfl
  | s :: ss => by
    rw [number.numberAll, List.map_append, map_number, map_numberAll, allOf]

end

/-! ## Parents -/

mutual

/-- Parents inside a tree have numbers of the tree. -/
theorem parent_number {e : Numbered} (parent : Option Nat) (index : Nat) : (s : Scope) →
    e ∈ s.number parent index →
    e.2 = parent ∨ ∃ i, e.2 = some i ∧ index ≤ i ∧ i < index + (s.number parent index).length
  | ⟨_, _, _, children, _⟩, h => by
    rcases List.mem_cons.1 h with rfl | h
    · exact .inl rfl
    · refine .inr ?_
      rw [number, List.length_cons]
      rcases parent_numberAll index (index + 1) children h with heq | ⟨i, heq, hlow, hhigh⟩
      · exact ⟨index, heq, Nat.le_refl _, by omega⟩
      · exact ⟨i, heq, by omega, by omega⟩

theorem parent_numberAll {e : Numbered} (parent index : Nat) : (ss : List Scope) →
    e ∈ number.numberAll parent index ss →
    e.2 = some parent ∨
      ∃ i, e.2 = some i ∧ index ≤ i ∧ i < index + (number.numberAll parent index ss).length
  | s :: ss, h => by
    rw [number.numberAll, List.length_append]
    rcases List.mem_append.1 h with h | h
    · rcases parent_number (some parent) index s h with heq | ⟨i, heq, hlow, hhigh⟩
      · exact .inl heq
      · exact .inr ⟨i, heq, hlow, by omega⟩
    · rcases parent_numberAll parent _ ss h with heq | ⟨i, heq, hlow, hhigh⟩
      · exact .inl heq
      · exact .inr ⟨i, heq, by omega, by omega⟩

end

mutual

/-- A parent is numbered in front of what it lists. -/
theorem parent_lt_number {t : Scope} {q : Option Nat} (parent : Option Nat) (index : Nat) :
    (s : Scope) → (k : Nat) → (s.number parent index)[k]? = some (t, q) →
    (k = 0 ∧ q = parent) ∨ ∃ j, q = some j ∧ j < index + k
  | ⟨_, _, _, children, _⟩, k, hk => by
    cases k with
    | zero =>
      cases hk
      exact .inl ⟨rfl, rfl⟩
    | succ k =>
      obtain ⟨j, heq, hlt⟩ := parent_lt_numberAll index (index + 1) (by omega) children k hk
      exact .inr ⟨j, heq, by omega⟩

theorem parent_lt_numberAll {t : Scope} {q : Option Nat} (parent index : Nat)
    (hparent : parent < index) : (ss : List Scope) → (k : Nat) →
    (number.numberAll parent index ss)[k]? = some (t, q) → ∃ j, q = some j ∧ j < index + k
  | s :: ss, k, hk => by
    rw [number.numberAll, List.getElem?_append] at hk
    split at hk
    · rcases parent_lt_number (some parent) index s k hk with ⟨-, heq⟩ | hparent
      · exact ⟨parent, heq, by omega⟩
      · exact hparent
    · obtain ⟨j, heq, hlt⟩ := parent_lt_numberAll parent _ (by omega) ss _ hk
      exact ⟨j, heq, by omega⟩

end

/-- The scopes with this parent. -/
def kids (entries : List Numbered) (i : Nat) : List Scope :=
  (entries.filter fun e => e.2 = some i).map Prod.fst

theorem kids_append (es fs : List Numbered) (i : Nat) :
    kids (es ++ fs) i = kids es i ++ kids fs i := by
  rw [kids, List.filter_append, List.map_append]
  rfl

theorem kids_eq_nil {es : List Numbered} {i : Nat} (h : ∀ e ∈ es, e.2 ≠ some i) :
    kids es i = [] := by
  rw [kids, List.filter_eq_nil_iff.2 fun e he => by simpa using h e he]
  rfl

theorem kids_numberAll_self {parent index : Nat} (h : parent < index) (ss : List Scope) :
    kids (number.numberAll parent index ss) parent = ss := by
  induction ss generalizing index with
  | nil => rfl
  | cons s ss ih =>
    have hinside : kids (number.numberAll index (index + 1) s.children) parent = [] := by
      refine kids_eq_nil fun e he heq => ?_
      rcases parent_numberAll index (index + 1) s.children he with hi | ⟨i, hi, hlow, -⟩ <;>
        · rw [hi, Option.some_inj] at heq
          omega
    have hself : kids (s.number (some parent) index) parent = [s] := by
      rw [number_eq, ← List.singleton_append, kids_append, hinside, kids]
      simp
    rw [number.numberAll, kids_append, hself, ih (by omega), List.singleton_append]

mutual

/-- A scope is the parent of those that it lists, and of no others. -/
theorem kids_number {t : Scope} {q : Option Nat} (parent : Option Nat) (index : Nat)
    (hparent : ∀ i, index ≤ i → parent ≠ some i) : (s : Scope) → (k : Nat) →
    (s.number parent index)[k]? = some (t, q) →
    kids (s.number parent index) (index + k) = t.children
  | ⟨kind, site, vars, children, captured⟩, k, hk => by
    rw [number_eq, ← List.singleton_append, kids_append,
      kids_eq_nil (by simpa using hparent (index + k) (by omega)), List.nil_append]
    cases k with
    | zero =>
      cases hk
      exact kids_numberAll_self (by omega) children
    | succ k =>
      have hinner := kids_numberAll index (index + 1) (by omega) children k hk
      rwa [Nat.add_right_comm, Nat.add_assoc] at hinner

theorem kids_numberAll {t : Scope} {q : Option Nat} (parent index : Nat)
    (hparent : parent < index) : (ss : List Scope) → (k : Nat) →
    (number.numberAll parent index ss)[k]? = some (t, q) →
    kids (number.numberAll parent index ss) (index + k) = t.children
  | s :: ss, k, hk => by
    rw [number.numberAll, List.getElem?_append] at hk
    rw [number.numberAll, kids_append]
    split at hk
    · have hothers : kids (number.numberAll parent
          (index + (s.number (some parent) index).length) ss) (index + k) = [] := by
        refine kids_eq_nil fun e he heq => ?_
        rcases parent_numberAll parent _ ss he with hi | ⟨i, hi, hlow, -⟩ <;>
          · rw [hi, Option.some_inj] at heq
            omega
      rw [hothers, List.append_nil]
      exact kids_number (some parent) index (by simp; omega) s k hk
    · have hothers : kids (s.number (some parent) index) (index + k) = [] := by
        refine kids_eq_nil fun e he heq => ?_
        rcases parent_number (some parent) index s he with hi | ⟨i, hi, -, hhigh⟩ <;>
          · rw [hi, Option.some_inj] at heq
            omega
      have hrest := kids_numberAll parent (index + (s.number (some parent) index).length) (by omega)
        ss (k - (s.number (some parent) index).length) hk
      rw [hothers, List.nil_append, ← hrest]
      congr 1
      omega

end

/-! ## What stands in a scope -/

/-- From one number to another, past no scope of a lambda. -/
inductive Inside (entries : List Numbered) : Nat → Nat → Prop
  | here {i : Nat} : Inside entries i i
  | inward {i j k : Nat} {s : Scope} (hentry : entries[j]? = some (s, some i))
    (hopen : s.isClosure = false) (h : Inside entries j k) : Inside entries i k

theorem prefix_drop_cons {α : Type} {xs ys : List α} {x : α} {k : Nat} (h : x :: ys <+: xs.drop k) :
    xs[k]? = some x ∧ ys <+: xs.drop (k + 1) := by
  obtain ⟨zs, h⟩ := h
  constructor
  · rw [← List.head?_drop, ← h]
    rfl
  · refine ⟨zs, ?_⟩
    rw [← List.tail_drop, ← h]
    rfl

theorem prefix_drop_append {α : Type} {xs ys zs : List α} {k : Nat}
    (h : ys ++ zs <+: xs.drop k) : ys <+: xs.drop k ∧ zs <+: xs.drop (k + ys.length) := by
  obtain ⟨rest, h⟩ := h
  rw [List.append_assoc] at h
  refine ⟨⟨zs ++ rest, h⟩, rest, ?_⟩
  rw [← List.drop_drop, ← h, List.drop_left]

variable {entries : List Numbered}

mutual

/-- The variables that stand in a scope with no lambda in between are declared inside it. -/
theorem inside_number {v : Variable} (parent : Option Nat) (index : Nat) : (s : Scope) →
    s.number parent index <+: entries.drop index → v ∈ s.own →
    ∃ i e, entries[i]? = some e ∧ v ∈ e.1.vars ∧ Inside entries index i
  | ⟨kind, site, vars, children, captured⟩, hplaced, hv => by
    obtain ⟨hself, hinner⟩ := prefix_drop_cons hplaced
    rcases List.mem_append.1 hv with hv | hv
    · exact ⟨index, _, hself, hv, .here⟩
    · exact inside_numberAll index (index + 1) children hinner hv

theorem inside_numberAll {v : Variable} (parent index : Nat) : (ss : List Scope) →
    number.numberAll parent index ss <+: entries.drop index → v ∈ ownOf ss →
    ∃ i e, entries[i]? = some e ∧ v ∈ e.1.vars ∧ Inside entries parent i
  | s :: ss, hplaced, hv => by
    obtain ⟨hfirst, hothers⟩ := prefix_drop_append hplaced
    rcases List.mem_append.1 hv with hv | hv
    · split at hv
      · cases hv
      · rename_i hopen
        obtain ⟨i, e, hi, he, hinside⟩ := inside_number (some parent) index s hfirst hv
        rw [number_eq] at hfirst
        have hinward := (prefix_drop_cons hfirst).1
        exact ⟨i, e, hi, he, .inward hinward (Bool.eq_false_iff.2 hopen) hinside⟩
    · exact inside_numberAll parent _ ss hothers hv

end

mutual

/-- What stands in a scope is numbered behind it. -/
theorem placed_number {t : Scope} {q : Option Nat} (parent : Option Nat) (index : Nat) :
    (s : Scope) → s.number parent index <+: entries.drop index → (k : Nat) →
    (s.number parent index)[k]? = some (t, q) →
    t.number q (index + k) <+: entries.drop (index + k)
  | ⟨kind, site, vars, children, captured⟩, hplaced, k, hk => by
    cases k with
    | zero =>
      cases hk
      exact hplaced
    | succ k =>
      have hinner := placed_numberAll index (index + 1) children (prefix_drop_cons hplaced).2 k hk
      rwa [Nat.add_right_comm, Nat.add_assoc] at hinner

theorem placed_numberAll {t : Scope} {q : Option Nat} (parent index : Nat) : (ss : List Scope) →
    number.numberAll parent index ss <+: entries.drop index → (k : Nat) →
    (number.numberAll parent index ss)[k]? = some (t, q) →
    t.number q (index + k) <+: entries.drop (index + k)
  | s :: ss, hplaced, k, hk => by
    obtain ⟨hfirst, hothers⟩ := prefix_drop_append hplaced
    rw [number.numberAll, List.getElem?_append] at hk
    split at hk
    · exact placed_number (some parent) index s hfirst k hk
    · have hrest := placed_numberAll parent _ ss hothers _ hk
      have hindex : index + k = index + (s.number (some parent) index).length +
          (k - (s.number (some parent) index).length) := by omega
      rwa [hindex]

end

/-! ## The whole tree -/

variable {s t : Scope} {q : Option Nat} {i : Nat}

theorem map_walk (s : Scope) : s.walk.map Prod.fst = s.all := map_number none 0 s

/-- The scopes with a given parent are those that the parent lists. -/
theorem kids_walk (h : s.walk[i]? = some (t, q)) : kids s.walk i = t.children := by
  have hkids := kids_number none 0 (by simp) s i h
  rwa [Nat.zero_add] at hkids

/-- Every scope but the first one has a parent in front of it. -/
theorem parent_walk (h : s.walk[i]? = some (t, q)) :
    (i = 0 ∧ q = none) ∨ ∃ j, q = some j ∧ j < i := by
  have hparent := parent_lt_number none 0 s i h
  rwa [Nat.zero_add] at hparent

theorem exists_inside (h : s.walk[i]? = some (t, q)) {v : Variable} (hv : v ∈ t.own) :
    ∃ j e, s.walk[j]? = some e ∧ v ∈ e.1.vars ∧ Inside s.walk i j := by
  have hplaced := placed_number none 0 s (List.prefix_refl s.walk) i h
  rw [Nat.zero_add] at hplaced
  exact inside_number q i t hplaced hv

end Scope

end WriteOnce
