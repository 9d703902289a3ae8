import WriteOnce.Proofs.MovedTokens
import WriteOnce.Proofs.TreeReading

/-!
# Trees of changed tokens

What the tree of a piece of syntax takes from quoted tokens are the contents of string and
character literals. Changed tokens change a tree in its places and in these contents.
-/

namespace WriteOnce

namespace Tree

variable (χ : Text → Text)

/-- The fields of a literal, with another content if it is one of a string or a character. -/
def requoteRaw : List (Text × Tree) → List (Text × Tree)
  | [pos, (kindName, text kind), (rawName, text raw)] =>
    [pos, (kindName, text kind),
      (rawName, text (if kind = "string" ∨ kind = "char" then χ raw else raw))]
  | fields => fields

mutual

/-- The tree with other contents of its string and character literals. -/
def requote : Tree → Tree
  | node label fields =>
    if label = "JLiteral" then node label (requoteRaw χ fields)
    else node label (requoteFields fields)
  | list items => list (requoteItems items)
  | place pos => place pos
  | text value => text value
  | number value => number value
  | flag value => flag value
  | absent => absent

def requoteFields : List (Text × Tree) → List (Text × Tree)
  | [] => []
  | (name, t) :: fields => (name, t.requote) :: requoteFields fields

def requoteItems : List Tree → List Tree
  | [] => []
  | t :: items => t.requote :: requoteItems items

end

variable {χ} {χ' : Text → Text}

theorem requote_node {label : Text} (h : label ≠ "JLiteral") (fields : List (Text × Tree)) :
    (node label fields).requote χ = node label (requoteFields χ fields) := by
  rw [requote, if_neg h]

theorem requoteRaw_requoteRaw (fields : List (Text × Tree)) :
    requoteRaw χ' (requoteRaw χ fields) = requoteRaw (χ' ∘ χ) fields := by
  fun_cases requoteRaw χ fields with
  | case1 pos kindName kind rawName raw =>
    simp only [requoteRaw]
    split_ifs <;> rfl
  | case2 fields h => rw [requoteRaw.eq_2 _ _ h, requoteRaw.eq_2 _ _ h]

mutual

theorem requote_requote : (t : Tree) → (t.requote χ).requote χ' = t.requote (χ' ∘ χ)
  | node label fields => by
    by_cases hlabel : label = "JLiteral"
    · simp only [requote, if_pos hlabel, requoteRaw_requoteRaw]
    · rw [requote_node hlabel, requote_node hlabel, requote_node hlabel,
        requoteFields_requoteFields fields]
  | list items => congrArg list (requoteItems_requoteItems items)
  | place _ | text _ | number _ | flag _ | absent => rfl

theorem requoteFields_requoteFields : (fields : List (Text × Tree)) →
    requoteFields χ' (requoteFields χ fields) = requoteFields (χ' ∘ χ) fields
  | [] => rfl
  | (name, t) :: fields => by
    rw [requoteFields, requoteFields, requoteFields, t.requote_requote,
      requoteFields_requoteFields fields]

theorem requoteItems_requoteItems : (items : List Tree) →
    requoteItems χ' (requoteItems χ items) = requoteItems (χ' ∘ χ) items
  | [] => rfl
  | t :: items => by
    rw [requoteItems, requoteItems, requoteItems, t.requote_requote,
      requoteItems_requoteItems items]

end

mutual

theorem requote_id : (t : Tree) → t.requote id = t
  | node label fields => by
    by_cases hlabel : label = "JLiteral"
    · rw [requote, if_pos hlabel]
      fun_cases requoteRaw id fields with
      | case1 => simp only [id_eq, ite_self]
      | case2 fields h => rfl
    · rw [requote_node hlabel, requoteFields_id fields]
  | list items => congrArg list (requoteItems_id items)
  | place _ | text _ | number _ | flag _ | absent => rfl

theorem requoteFields_id : (fields : List (Text × Tree)) → requoteFields id fields = fields
  | [] => rfl
  | (name, t) :: fields => by rw [requoteFields, t.requote_id, requoteFields_id fields]

theorem requoteItems_id : (items : List Tree) → requoteItems id items = items
  | [] => rfl
  | t :: items => by rw [requoteItems, t.requote_id, requoteItems_id items]

end

theorem label_requote (t : Tree) : (t.requote χ).label = t.label := by
  cases t with
  | node label fields =>
    rw [requote]
    split_ifs <;> rfl
  | _ => rfl

/-! ## Changed places and contents -/

variable (ρ : Recast)

/-- The tree with its places and its contents changed. -/
def recast (t : Tree) : Tree := (t.move ρ.place).requote ρ.content

def recastFields (fields : List (Text × Tree)) : List (Text × Tree) :=
  requoteFields ρ.content (moveFields ρ.place fields)

def recastItems (items : List Tree) : List Tree :=
  requoteItems ρ.content (moveItems ρ.place items)

variable {ρ}

theorem recast_node {label : Text} (h : label ≠ "JLiteral") (fields : List (Text × Tree)) :
    (node label fields).recast ρ = node label (recastFields ρ fields) :=
  requote_node h _

@[simp] theorem recast_list (items : List Tree) :
    (list items).recast ρ = list (recastItems ρ items) := rfl

@[simp] theorem recast_place (pos : Pos) : (place pos).recast ρ = place (ρ.place pos) := rfl

@[simp] theorem recast_text (value : Text) : (text value).recast ρ = text value := rfl

@[simp] theorem recast_number (value : Nat) : (number value).recast ρ = number value := rfl

@[simp] theorem recast_flag (value : Bool) : (flag value).recast ρ = flag value := rfl

@[simp] theorem recast_absent : absent.recast ρ = absent := rfl

@[simp] theorem recastFields_nil : recastFields ρ [] = [] := rfl

@[simp] theorem recastFields_cons (name : Text) (t : Tree) (fields : List (Text × Tree)) :
    recastFields ρ ((name, t) :: fields) = (name, t.recast ρ) :: recastFields ρ fields := rfl

@[simp] theorem recastItems_nil : recastItems ρ [] = [] := rfl

@[simp] theorem recastItems_cons (t : Tree) (items : List Tree) :
    recastItems ρ (t :: items) = t.recast ρ :: recastItems ρ items := rfl

theorem recastItems_append (ts us : List Tree) :
    recastItems ρ (ts ++ us) = recastItems ρ ts ++ recastItems ρ us := by
  induction ts with
  | nil => rfl
  | cons t ts ih => exact congrArg (t.recast ρ :: ·) ih

theorem recast_still (φ : Pos → Pos) (t : Tree) : t.recast (.still φ) = t.move φ :=
  requote_id _

@[simp] theorem label_recast (t : Tree) : (t.recast ρ).label = t.label := by
  rw [recast, label_requote, label_move]

@[simp] theorem recast_texts (values : List Text) : (texts values).recast ρ = texts values := by
  have hitems : recastItems ρ (values.map text) = values.map text := by
    induction values with
    | nil => rfl
    | cons value values ih => rw [List.map_cons, recastItems_cons, recast_text, ih]
  rw [texts, recast_list, hitems]

/-- The place in the first field of a node. -/
def ownPlace? : Tree → Option Pos
  | node _ ((_, place pos) :: _) => some pos
  | _ => none

theorem ownPlace?_requote (t : Tree) : (t.requote χ).ownPlace? = t.ownPlace? := by
  cases t with
  | node label fields =>
    rw [requote]
    split_ifs
    · fun_cases requoteRaw χ fields with
      | case1 pos =>
        obtain ⟨_, t⟩ := pos
        cases t <;> rfl
      | case2 => rfl
    · obtain _ | ⟨⟨name, t⟩, fields⟩ := fields
      · rfl
      · cases t with
        | node label fields =>
          rw [requoteFields, requote]
          split_ifs <;> rfl
        | _ => rfl
  | _ => rfl

theorem ownPlace?_recast {pos : Pos} {t : Tree} (h : t.ownPlace? = some pos) :
    (t.recast ρ).ownPlace? = some (ρ.place pos) := by
  rw [recast, ownPlace?_requote]
  unfold ownPlace? at h
  split at h
  · cases h
    rfl
  · cases h

end Tree

/-- A literal with another content, if it is quoted. -/
def Literal.recast (ρ : Recast) : Literal → Literal
  | .string content => .string (ρ.content content)
  | .char content => .char (ρ.content content)
  | .int digits => .int digits
  | .float digits => .float digits
  | .bool value => .bool value
  | .null => .null

theorem Expr.tree_recast_literal {ρ : Recast} (pos : Pos) (value : Literal) :
    (Expr.literal (ρ.place pos) (value.recast ρ)).tree =
      (Expr.literal pos value).tree.recast ρ := by
  cases value with
  | bool value => cases value <;> rfl
  | _ => rfl

end WriteOnce
