import WriteOnce.Proofs.Identifiers
import WriteOnce.Proofs.MemberTrees
import WriteOnce.Proofs.NodeClasses
import WriteOnce.Proofs.ParallelStatements

/-!
# Shapes of trees

What the nodes of a class obey beyond having the fields of the class: an assignment has a target
that can be written to, a declaration declares something, a handler is declared with the first of
its types. A tree is shaped if all its nodes obey their classes.
-/

namespace WriteOnce

namespace Tree

/-- A node of one of these classes. -/
def IsOf (classes : List NodeClass) (t : Tree) : Prop :=
  ∃ c ∈ classes, ∃ fields, t = node c.signature.1 fields

/-- A list that is not empty. -/
def HasItems (t : Tree) : Prop := ∃ item items, t = list (item :: items)

/-- A text that can be declared as a name. -/
def IsName (t : Tree) : Prop := ∃ word, t = text word ∧ word.IsIdentifier

/-- The first clause in the head of a loop: nothing, one declaration, or only expressions. -/
def IsLoopInit (t : Tree) : Prop :=
  ∃ items, t = list items ∧ (items = [] ∨ (∃ decl, items = [decl] ∧ decl.IsOf [.localDecl]) ∨
    ∀ item ∈ items, item.IsOf [.exprStmt])

/-- What one of some fields holds. -/
def fieldOf (fields : List (Text × Tree)) (name : Text) : Tree := (fields.lookup name).getD absent

/-- What the fields of a node obey by its class. -/
def NodeClass.Obeys (field : Text → Tree) : NodeClass → Prop
  | .assign | .step => (field "target").IsOf [.name, .fieldAccess, .index]
  | .localDecl | .fieldDecl => (field "declarators").HasItems
  | .forLoop => (field "init").IsLoopInit
  | .tryCatch => (field "catches").HasItems ∨ (field "finally_body").IsOf [.block]
  | .catchClause => ∃ type types fields, field "types" = list (type :: types) ∧
      field "param" = node "JParam" fields ∧ fieldOf fields "typ" = type
  | .switchGroup => (field "labels").HasItems ∨ field "is_default" = flag true
  | .creation =>
      (field "body" ≠ absent → field "dims" = list [] ∧ field "init" = absent) ∧
      (field "init" ≠ absent → field "args" = list [] ∧ field "dims" = list [])
  | .param | .declarator => (field "name").IsName
  | .labeled => (field "label").IsName
  | .breakTo | .continueTo => field "label" = absent ∨ (field "label").IsName
  | _ => True

/-- A node with the fields of its class, which obey it. -/
def Obeys (label : Text) (fields : List (Text × Tree)) : Prop :=
  ∃ c : NodeClass, c.signature = (label, fields.map Prod.fst) ∧ c.Obeys (fieldOf fields)

mutual

/-- Every node obeys its class. -/
def Shaped : Tree → Prop
  | node label fields => Obeys label fields ∧ ShapedFields fields
  | list items => ShapedItems items
  | _ => True

def ShapedFields : List (Text × Tree) → Prop
  | [] => True
  | (_, t) :: fields => t.Shaped ∧ ShapedFields fields

def ShapedItems : List Tree → Prop
  | [] => True
  | t :: items => t.Shaped ∧ ShapedItems items

end

variable {t u : Tree}

theorem Obeys.of_class {c : NodeClass} {fields : List (Text × Tree)}
    (h : Obeys c.signature.1 fields) :
    c.signature.2 = fields.map Prod.fst ∧ c.Obeys (fieldOf fields) := by
  obtain ⟨d, hsignature, hobeys⟩ := h
  obtain ⟨hlabel, hnames⟩ := Prod.ext_iff.1 hsignature
  obtain rfl := NodeClass.signature_unique hlabel
  exact ⟨hnames, hobeys⟩

theorem ShapedFields.of_mem {name : Text} {fields : List (Text × Tree)} (h : ShapedFields fields)
    (hu : (name, u) ∈ fields) : u.Shaped := by
  induction fields with
  | nil => cases hu
  | cons field fields ih =>
    rcases List.mem_cons.1 hu with rfl | hu
    · exact h.1
    · exact ih h.2 hu

theorem shapedItems_iff {items : List Tree} : ShapedItems items ↔ ∀ t ∈ items, t.Shaped := by
  induction items with
  | nil => exact iff_of_true trivial nofun
  | cons t items ih => rw [ShapedItems, ih, List.forall_mem_cons]

theorem shapedItems_map {α : Type} {view : α → Tree} {as : List α}
    (h : ∀ a ∈ as, (view a).Shaped) : ShapedItems (as.map view) :=
  shapedItems_iff.2 (List.forall_mem_map.2 h)

/-- The nodes of a shaped tree obey their classes, wherever they are. -/
theorem Within.shaped (h : t.Within u) (hu : u.Shaped) : t.Shaped := by
  induction h with
  | refl => exact hu
  | field hmem _ ih => exact ih (hu.2.of_mem hmem)
  | item hmem _ ih => exact ih (shapedItems_iff.1 hu _ hmem)

theorem shaped_texts (ts : List Text) : (Tree.texts ts).Shaped :=
  shapedItems_map fun _ _ => trivial

theorem shaped_option {α : Type} {view : α → Tree} {x : Option α}
    (h : ∀ a ∈ x, (view a).Shaped) : (Tree.option view x).Shaped := by
  cases x with
  | none => trivial
  | some a => exact h a rfl

/-- A label that a jump may name. -/
theorem label_of_isIdentifier {label : Option Text} (h : ∀ word ∈ label, word.IsIdentifier) :
    Tree.option text label = absent ∨ (Tree.option text label).IsName := by
  cases label with
  | none => exact .inl rfl
  | some word => exact .inr ⟨word, rfl, h word rfl⟩

end Tree

open WriteOnce.Tree

/-! ## Syntax -/

mutual

theorem TypeRef.shaped : (t : TypeRef) → t.tree.Shaped
  | ⟨_, _, args, _⟩ =>
    ⟨⟨.typeRef, rfl, trivial⟩, trivial, trivial, TypeRef.shaped_trees args, trivial, trivial⟩

theorem TypeRef.shaped_trees : (ts : List TypeRef) → ShapedItems (TypeRef.trees ts)
  | [] => trivial
  | t :: ts => ⟨t.shaped, TypeRef.shaped_trees ts⟩

end

theorem Param.shaped {p : Param} (h : p.name.IsIdentifier) : p.tree.Shaped :=
  ⟨⟨.param, rfl, p.name, rfl, h⟩, trivial, shaped_texts _,
    shaped_option fun t _ => t.shaped, trivial, trivial, trivial⟩

theorem Expr.isOf_of_isTarget {e : Expr} (h : e.isTarget = true) :
    e.tree.IsOf [.name, .fieldAccess, .index] := by
  cases e with
  | name => exact ⟨.name, by decide, _, rfl⟩
  | field => exact ⟨.fieldAccess, by decide, _, rfl⟩
  | index => exact ⟨.index, by decide, _, rfl⟩
  | _ => cases h

theorem LocalDecl.isOf (d : LocalDecl) : d.tree.IsOf [.localDecl] := by
  cases d
  exact ⟨.localDecl, .head _, _, rfl⟩

theorem Block.isOf (b : Block) : b.tree.IsOf [.block] := by
  cases b
  exact ⟨.block, .head _, _, rfl⟩

theorem ForInit.isLoopInit (init : ForInit) : init.tree.IsLoopInit := by
  cases init with
  | decl decl => exact ⟨_, rfl, .inr (.inl ⟨_, rfl, decl.isOf⟩)⟩
  | exprs values =>
    refine ⟨_, rfl, .inr (.inr ?_)⟩
    rw [Expr.statementTrees_eq_map]
    exact List.forall_mem_map.2 fun e _ => ⟨.exprStmt, .head _, _, rfl⟩

section

variable {es : List Expr} {e : Option Expr} {ss : List Stmt} {b : Option Block}
  {ds : List Declarator}

theorem Expr.shaped_trees (h : ∀ e ∈ es, e.tree.Shaped) : ShapedItems (Expr.trees es) :=
  Expr.trees_eq_map es ▸ shapedItems_map h

theorem Expr.hasItems (h : es ≠ []) : (Tree.list (Expr.trees es)).HasItems := by
  cases es with
  | nil => exact absurd rfl h
  | cons e es => exact ⟨_, _, rfl⟩

theorem Expr.shaped_option (h : ∀ a ∈ e, a.tree.Shaped) : (Expr.treeOption e).Shaped := by
  cases e with
  | none => trivial
  | some e => exact h e rfl

theorem Expr.shaped_statementTrees (h : ∀ e ∈ es, e.tree.Shaped) :
    ShapedItems (Expr.statementTrees es) := by
  rw [Expr.statementTrees_eq_map]
  exact shapedItems_map fun e he => ⟨⟨.exprStmt, rfl, trivial⟩, trivial, h e he, trivial⟩

theorem Stmt.shaped_trees (h : ∀ s ∈ ss, s.tree.Shaped) : ShapedItems (Stmt.trees ss) :=
  Stmt.trees_eq_map ss ▸ shapedItems_map h

theorem Stmt.shaped_option {s : Option Stmt} (h : ∀ a ∈ s, a.tree.Shaped) :
    (Stmt.treeOption s).Shaped := by
  cases s with
  | none => trivial
  | some s => exact h s rfl

theorem Block.shaped_option (h : ∀ a ∈ b, a.tree.Shaped) : (Block.treeOption b).Shaped := by
  cases b with
  | none => trivial
  | some b => exact h b rfl

theorem Declarator.shaped_trees (h : ∀ d ∈ ds, d.tree.Shaped) :
    ShapedItems (Declarator.trees ds) :=
  Declarator.trees_eq_map ds ▸ shapedItems_map h

theorem Declarator.hasItems (h : ds ≠ []) : (Tree.list (Declarator.trees ds)).HasItems := by
  cases ds with
  | nil => exact absurd rfl h
  | cons d ds => exact ⟨_, _, rfl⟩

theorem SwitchGroup.shaped_trees {gs : List SwitchGroup} (h : ∀ g ∈ gs, g.tree.Shaped) :
    ShapedItems (SwitchGroup.trees gs) :=
  SwitchGroup.trees_eq_map gs ▸ shapedItems_map h

theorem CatchClause.shaped_trees {cs : List CatchClause} (h : ∀ c ∈ cs, c.tree.Shaped) :
    ShapedItems (CatchClause.trees cs) :=
  CatchClause.trees_eq_map cs ▸ shapedItems_map h

theorem Member.shaped_trees {ms : List Member} (h : ∀ m ∈ ms, m.tree.Shaped) :
    ShapedItems (Member.trees ms) :=
  Member.trees_eq_map ms ▸ shapedItems_map h

end

end WriteOnce
