import Mathlib.Data.List.Count
import Mathlib.Tactic.SplitIfs
import WriteOnce.Proofs.DeclaredPlaces

/-!
# What tokens are used for

A tree uses some of the tokens it was read from: a variable that it declares has its place and its
name from one token, a name stands at a token of its own, and a lambda has its place from its first
one. A token that names the parameter of a lambda may be the first one of the lambda too, and so
tokens are counted by what they are used for.
-/

namespace WriteOnce

namespace Tree

/-- What a tree has from a token. -/
inductive Use
  | name (name : Text)
  | lambda
  deriving DecidableEq

/-- The place in the first of some fields, as that of a lambda. -/
def ownLambda : List (Text × Tree) → List (Pos × Use)
  | (_, place pos) :: _ => [(pos, .lambda)]
  | _ => []

/-- What a node itself uses, apart from its fields. -/
def ownUses (label : Text) (fields : List (Text × Tree)) : List (Pos × Use) :=
  if label = "JParam" ∨ label = "JDeclarator" ∨ label = "JName" then
    (ownName fields).map fun (pos, name) => (pos, .name name)
  else if label = "JLambda" then ownLambda fields
  else []

mutual

/-- What the tree uses, by place. -/
def uses : Tree → List (Pos × Use)
  | node label fields => ownUses label fields ++ usesFields fields
  | list items => usesItems items
  | _ => []

def usesFields : List (Text × Tree) → List (Pos × Use)
  | [] => []
  | (_, t) :: fields => uses t ++ usesFields fields

def usesItems : List Tree → List (Pos × Use)
  | [] => []
  | t :: items => uses t ++ usesItems items

end

theorem ownUses_eq_nil {label : Text} (hparam : label ≠ "JParam")
    (hdeclarator : label ≠ "JDeclarator") (hname : label ≠ "JName") (hlambda : label ≠ "JLambda")
    (fields : List (Text × Tree)) : ownUses label fields = [] := by
  rw [ownUses, if_neg (by simp only [hparam, hdeclarator, hname, or_self, not_false_eq_true]),
    if_neg hlambda]

theorem usesItems_append (ts us : List Tree) :
    usesItems (ts ++ us) = usesItems ts ++ usesItems us := by
  induction ts with
  | nil => rfl
  | cons t ts ih => rw [List.cons_append, usesItems, usesItems, ih, List.append_assoc]

/-! ## Names -/

theorem count_map_name (names : List (Pos × Text)) (pos : Pos) (name : Text) :
    (names.map fun e => (e.1, Use.name e.2)).count (pos, .name name) = names.count (pos, name) := by
  refine List.count_map_of_injective names (fun e => (e.1, Use.name e.2)) ?_ (pos, name)
  rintro ⟨pos, name⟩ ⟨pos', name'⟩ h
  cases h
  rfl

/-- Names are used where variables are declared. -/
theorem count_ownUses (label : Text) (fields : List (Text × Tree)) (pos : Pos) (name : Text) :
    (if label = "JParam" ∨ label = "JDeclarator" then ownName fields else []).count (pos, name) ≤
      (ownUses label fields).count (pos, .name name) := by
  split_ifs with hlabel
  · rw [ownUses, if_pos (hlabel.imp_right .inl)]
    exact Nat.le_of_eq (count_map_name _ pos name).symm
  · exact Nat.zero_le _

mutual

theorem count_declared (pos : Pos) (name : Text) : (t : Tree) →
    t.declared.count (pos, name) ≤ t.uses.count (pos, .name name)
  | node label fields => by
    rw [declared, uses, List.count_append, List.count_append]
    exact Nat.add_le_add (count_ownUses label fields pos name)
      (count_declaredFields pos name fields)
  | list items => count_declaredItems pos name items
  | place _ | text _ | number _ | flag _ | absent => Nat.zero_le _

theorem count_declaredFields (pos : Pos) (name : Text) : (fields : List (Text × Tree)) →
    (declaredFields fields).count (pos, name) ≤ (usesFields fields).count (pos, .name name)
  | [] => Nat.zero_le _
  | (_, t) :: fields => by
    rw [declaredFields, usesFields, List.count_append, List.count_append]
    exact Nat.add_le_add (count_declared pos name t) (count_declaredFields pos name fields)

theorem count_declaredItems (pos : Pos) (name : Text) : (items : List Tree) →
    (declaredItems items).count (pos, name) ≤ (usesItems items).count (pos, .name name)
  | [] => Nat.zero_le _
  | t :: items => by
    rw [declaredItems, usesItems, List.count_append, List.count_append]
    exact Nat.add_le_add (count_declared pos name t) (count_declaredItems pos name items)

end

end Tree

end WriteOnce
