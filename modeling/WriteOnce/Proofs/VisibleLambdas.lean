import WriteOnce.Proofs.NamePlaces

/-!
# Lambdas outside of classes

The lambdas of a body stand in its tree outside of the classes inside. A name in one of them that
does not belong to the code there belongs to no code around it either: it would use its token twice.
-/

namespace WriteOnce

namespace Tree

/-- A part of a tree that stands in no class inside it and in no field that hides its names. -/
inductive VisibleIn (t : Tree) : Tree → Prop
  | refl : VisibleIn t t
  | field {label name : Text} {u : Tree} {fields : List (Text × Tree)}
    (hclass : label ≠ "JClassDecl") (hu : (name, u) ∈ fields) (hshown : hides label name u = false)
    (h : VisibleIn t u) : VisibleIn t (.node label fields)
  | item {u : Tree} {items : List Tree} (hu : u ∈ items) (h : VisibleIn t u) :
    VisibleIn t (.list items)

variable {t u : Tree} {pos : Pos} {word : Text}

theorem VisibleIn.within (h : t.VisibleIn u) : t.Within u := by
  induction h with
  | refl => exact .refl
  | field _ hu _ _ ih => exact .field hu ih
  | item hu _ ih => exact .item hu ih

/-! ## Names -/

theorem count_shown (pos : Pos) (word label name : Text) (t : Tree) :
    (if hides label name t then [] else t.marked .name).count (pos, word) ≤
      t.uses.count (pos, .name word) := by
  split
  · exact Nat.zero_le _
  · exact count_marked pos word t

/-- Among the names of the fields of a node, those of a part use tokens of the part. -/
theorem count_markedFields_part {label name : Text} {fields : List (Text × Tree)}
    (hu : (name, u) ∈ fields) (hshown : hides label name u = false)
    (h : (u.marked .name).count (pos, word) + t.uses.count (pos, .name word) ≤
      u.uses.count (pos, .name word) + (t.marked .name).count (pos, word)) :
    (markedFields .name label fields).count (pos, word) + t.uses.count (pos, .name word) ≤
      (usesFields fields).count (pos, .name word) + (t.marked .name).count (pos, word) := by
  induction fields with
  | nil => cases hu
  | cons field fields ih =>
    obtain ⟨field, v⟩ := field
    rw [markedFields, usesFields, List.count_append, List.count_append]
    rcases List.mem_cons.1 hu with heq | hu
    · cases heq
      have hothers := count_markedFields pos word label fields
      rw [if_neg (Bool.eq_false_iff.1 hshown)]
      omega
    · have hfirst := count_shown pos word label field v
      have hothers := ih hu
      omega

theorem count_markedItems_part {items : List Tree} (hu : u ∈ items)
    (h : (u.marked .name).count (pos, word) + t.uses.count (pos, .name word) ≤
      u.uses.count (pos, .name word) + (t.marked .name).count (pos, word)) :
    (markedItems .name items).count (pos, word) + t.uses.count (pos, .name word) ≤
      (usesItems items).count (pos, .name word) + (t.marked .name).count (pos, word) := by
  induction items with
  | nil => cases hu
  | cons item items ih =>
    rw [markedItems, usesItems, List.count_append, List.count_append]
    rcases List.mem_cons.1 hu with rfl | hu
    · have hothers := count_markedItems pos word items
      omega
    · have hfirst := count_marked pos word item
      have hothers := ih hu
      omega

/-- Outside of a visible part there are no more names than tokens that they use. -/
theorem VisibleIn.count_marked (h : t.VisibleIn u) (pos : Pos) (word : Text) :
    (u.marked .name).count (pos, word) + t.uses.count (pos, .name word) ≤
      u.uses.count (pos, .name word) + (t.marked .name).count (pos, word) := by
  induction h with
  | refl => exact Nat.le_of_eq (Nat.add_comm ..)
  | @field label name u fields hclass hu hshown _ ih =>
    have hown := count_ownMarked pos word label fields
    have hfields := count_markedFields_part hu hshown ih
    rw [marked, if_neg hclass, uses, List.count_append, List.count_append]
    omega
  | item hu _ ih => exact count_markedItems_part hu ih

/-- Where no token is used twice, a name in a visible part is one of the names of the whole only if
it is one of those of the part. -/
theorem VisibleIn.mem_marked (h : t.VisibleIn u) (honce : u.uses.count (pos, .name word) ≤ 1)
    (hpart : 0 < t.uses.count (pos, .name word)) (hwhole : (pos, word) ∈ u.marked .name) :
    (pos, word) ∈ t.marked .name := by
  have hcount := h.count_marked pos word
  have hpos := List.count_pos_iff.2 hwhole
  exact List.count_pos_iff.1 (by omega)

/-! ## Lambdas -/

/-- All these lambdas are visible in the tree. -/
def Shows (u : Tree) (ls : List PlacedBody) : Prop := ∀ l ∈ ls, l.2.tree.VisibleIn u

def FieldsShow (fields : List (Text × Tree)) (ls : List PlacedBody) : Prop :=
  ∀ l ∈ ls, ∃ field ∈ fields, l.2.tree.VisibleIn field.2

def ItemsShow (items : List Tree) (ls : List PlacedBody) : Prop :=
  ∀ l ∈ ls, ∃ u ∈ items, l.2.tree.VisibleIn u

variable {ls ls' ls'' : List PlacedBody} {fields : List (Text × Tree)} {items : List Tree}

namespace FieldsShow

variable {field : Text × Tree} {name : Text}

theorem skip (h : FieldsShow fields ls) : FieldsShow (field :: fields) ls := fun l hl =>
  have ⟨u, hu, hvisible⟩ := h l hl
  ⟨u, .tail _ hu, hvisible⟩

theorem first (h : Shows u ls) : FieldsShow ((name, u) :: fields) ls := fun l hl =>
  ⟨_, .head _, h l hl⟩

theorem cons (h : Shows u ls) (h' : FieldsShow fields ls') :
    FieldsShow ((name, u) :: fields) (ls ++ ls') := by
  intro l hl
  rcases List.mem_append.1 hl with hl | hl
  · exact first h l hl
  · exact h'.skip l hl

end FieldsShow

namespace ItemsShow

theorem nil : ItemsShow items [] := fun _ h => by cases h

theorem cons (h : Shows u ls) (h' : ItemsShow items ls') : ItemsShow (u :: items) (ls ++ ls') := by
  intro l hl
  rcases List.mem_append.1 hl with hl | hl
  · exact ⟨u, .head _, h l hl⟩
  · obtain ⟨v, hv, hvisible⟩ := h' l hl
    exact ⟨v, .tail _ hv, hvisible⟩

end ItemsShow

namespace Shows

theorem nil : Shows u [] := fun _ h => by cases h

theorem list (h : ItemsShow items ls) : Shows (.list items) ls := fun l hl =>
  have ⟨_, hu, hvisible⟩ := h l hl
  .item hu hvisible

/-- A node that is no class and hides nothing. -/
theorem node {label : Text}
    (hlabel : label ≠ "JClassDecl" ∧ label ≠ "JNew" ∧ label ≠ "JCall") (h : FieldsShow fields ls) :
    Shows (.node label fields) ls := fun l hl =>
  have ⟨_, hu, hvisible⟩ := h l hl
  .field hlabel.1 hu (hides_eq_false (.inl hlabel.2) _) hvisible

/-- The members of an anonymous class are hidden. -/
theorem new {place type body : Tree} {args dims : List Tree} {init : Tree}
    (hargs : ItemsShow args ls) (hdims : ItemsShow dims ls') (hinit : Shows init ls'') :
    Shows (.node "JNew" [("pos", place), ("typ", type), ("args", .list args),
      ("dims", .list dims), ("init", init), ("body", body)]) (ls ++ (ls' ++ ls'')) := by
  have hshown : ∀ field : Text, field ≠ "body" ∧ field ≠ "func" → ∀ t,
      hides "JNew" field t = false := fun _ h t => hides_eq_false (.inr h) t
  intro l hl
  rcases List.mem_append.1 hl with hl | hl
  · exact .field (by simp) (.tail _ (.tail _ (.head _))) (hshown _ (by simp) _) (list hargs l hl)
  rcases List.mem_append.1 hl with hl | hl
  · exact .field (by simp) (.tail _ (.tail _ (.tail _ (.head _)))) (hshown _ (by simp) _)
      (list hdims l hl)
  · exact .field (by simp) (.tail _ (.tail _ (.tail _ (.tail _ (.head _))))) (hshown _ (by simp) _)
      (hinit l hl)

/-- A bare name in front of arguments is hidden, and has no lambdas. -/
theorem call {place : Tree} {callee : Expr} {args : List Tree} (hcallee : Shows callee.tree
    callee.lambdas) (hargs : ItemsShow args ls) :
    Shows (.node "JCall" [("pos", place), ("func", callee.tree), ("args", .list args)])
      (callee.lambdas ++ ls) := by
  intro l hl
  rcases List.mem_append.1 hl with hl | hl
  · have hname : hides "JCall" "func" callee.tree = false := by
      cases callee with
      | name => cases hl
      | _ => simp [hides, Expr.tree]
    exact .field (by simp) (.tail _ (.head _)) hname (hcallee l hl)
  · exact .field (by simp) (.tail _ (.tail _ (.head _))) (hides_eq_false (.inr (by simp)) _)
      (list hargs l hl)

end Shows

end Tree

open WriteOnce.Tree (Shows ItemsShow)

mutual

theorem Expr.visible : (e : Expr) → Shows e.tree e.lambdas
  | .literal .. | .name .. => .nil
  | .field _ operand _ | .instanceOf _ operand _ | .methodRef _ operand _ =>
    .node (by simp) (.skip (.first operand.visible))
  | .index _ object position =>
    .node (by simp) (.skip (.cons object.visible (.first position.visible)))
  | .call _ callee args => .call callee.visible (Expr.visible_all args)
  | .newObject _ _ args | .newAnonymous _ _ args _ => by
    rw [Expr.lambdas, ← (Expr.lambdasAll args).append_nil]
    exact .new (Expr.visible_all args) .nil .nil
  | .newArray _ _ sizes => by
    rw [Expr.lambdas, ← (Expr.lambdasAll sizes).append_nil]
    exact .new .nil (Expr.visible_all sizes) .nil
  | .newArrayOf _ _ _ elements =>
    .new .nil .nil (.node (by simp) (.skip (.first (.list (Expr.visible_all elements)))))
  | .arrayLit _ elements => .node (by simp) (.skip (.first (.list (Expr.visible_all elements))))
  | .unary _ _ operand | .cast _ _ operand =>
    .node (by simp) (.skip (.skip (.first operand.visible)))
  | .step _ _ _ target => .node (by simp) (.skip (.skip (.skip (.first target.visible))))
  | .binary _ _ first second | .assign _ _ first second =>
    .node (by simp) (.skip (.skip (.cons first.visible (.first second.visible))))
  | .conditional _ cond onTrue onFalse =>
    .node (by simp) (.skip (.cons cond.visible (.cons onTrue.visible (.first onFalse.visible))))
  | .lambda _ _ body => by
    refine .node (by simp) (.skip (.skip (.first fun l hl => ?_)))
    rcases List.mem_cons.1 hl with rfl | hl
    · exact .refl
    · exact body.visible l hl

theorem Expr.visible_all : (es : List Expr) → ItemsShow (Expr.trees es) (Expr.lambdasAll es)
  | [] => .nil
  | e :: es => .cons e.visible (Expr.visible_all es)

theorem Expr.visible_option : (e : Option Expr) → Shows (Expr.treeOption e) (Expr.lambdasOption e)
  | none => .nil
  | some e => e.visible

theorem LambdaBody.visible : (body : LambdaBody) → Shows body.tree body.lambdas
  | .expr body => body.visible
  | .block body => body.visible

theorem Declarator.visible_all : (ds : List Declarator) →
    ItemsShow (Declarator.trees ds) (Declarator.lambdasAll ds)
  | [] => .nil
  | ⟨_, _, _, init⟩ :: ds =>
    .cons (.node (by simp) (.skip (.skip (.skip (.first (Expr.visible_option init))))))
      (Declarator.visible_all ds)

theorem LocalDecl.visible : (decl : LocalDecl) →
    Shows decl.tree (Declarator.lambdasAll decl.declarators)
  | ⟨_, _, _, declarators⟩ =>
    .node (by simp) (.skip (.skip (.skip (.first (.list (Declarator.visible_all declarators))))))

theorem Stmt.visible : (s : Stmt) → Shows s.tree s.lambdas
  | .block body => body.visible
  | .localDecl ⟨_, modifiers, type, declarators⟩ =>
    LocalDecl.visible ⟨_, modifiers, type, declarators⟩
  | .expr _ value => .node (by simp) (.skip (.first value.visible))
  | .ifElse _ cond onTrue onFalse =>
    .node (by simp)
      (.skip (.cons cond.visible (.cons onTrue.visible (.first (Stmt.visible_option onFalse)))))
  | .whileLoop _ cond body => .node (by simp) (.skip (.cons cond.visible (.first body.visible)))
  | .doLoop _ body cond => .node (by simp) (.skip (.cons body.visible (.first cond.visible)))
  | .forLoop _ init cond update body => by
    rw [Stmt.lambdas, List.append_assoc]
    exact .node (by simp) (.skip (.cons init.visible (.cons (Expr.visible_option cond)
      (.cons (.list (Expr.visible_all update)) (.first body.visible)))))
  | .forEach _ _ iterable body =>
    .node (by simp) (.skip (.skip (.cons iterable.visible (.first body.visible))))
  | .switch _ selector groups =>
    .node (by simp)
      (.skip (.cons selector.visible (.first (.list (SwitchGroup.visible_all groups)))))
  | .tryCatch _ body clauses cleanup =>
    .node (by simp) (.skip (.cons body.visible (.cons (.list (CatchClause.visible_all clauses))
      (.first (Block.visible_option cleanup)))))
  | .returnValue _ value => .node (by simp) (.skip (.first (Expr.visible_option value)))
  | .throwValue _ value => .node (by simp) (.skip (.first value.visible))
  | .labeled _ _ body => .node (by simp) (.skip (.skip (.first body.visible)))
  | .breakTo .. | .continueTo .. | .empty .. | .localClass .. => .nil

theorem Stmt.visible_all : (ss : List Stmt) → ItemsShow (Stmt.trees ss) (Stmt.lambdasAll ss)
  | [] => .nil
  | s :: ss => .cons s.visible (Stmt.visible_all ss)

theorem Stmt.visible_option : (s : Option Stmt) → Shows (Stmt.treeOption s) (Stmt.lambdasOption s)
  | none => .nil
  | some s => s.visible

theorem ForInit.visible : (init : ForInit) → Shows init.tree init.lambdas
  | .decl ⟨_, modifiers, type, declarators⟩ =>
    .list fun l hl => ⟨_, .head _, LocalDecl.visible ⟨_, modifiers, type, declarators⟩ l hl⟩
  | .exprs values => .list (Expr.visible_statements values)

theorem Expr.visible_statements : (es : List Expr) →
    ItemsShow (Expr.statementTrees es) (Expr.lambdasAll es)
  | [] => .nil
  | e :: es => .cons (.node (by simp) (.skip (.first e.visible))) (Expr.visible_statements es)

theorem Block.visible : (b : Block) → Shows b.tree b.lambdas
  | ⟨_, stmts⟩ => .node (by simp) (.skip (.first (.list (Stmt.visible_all stmts))))

theorem Block.visible_option : (b : Option Block) →
    Shows (Block.treeOption b) (Block.lambdasOption b)
  | none => .nil
  | some b => b.visible

theorem SwitchGroup.visible_all : (gs : List SwitchGroup) →
    ItemsShow (SwitchGroup.trees gs) (SwitchGroup.lambdasAll gs)
  | [] => .nil
  | ⟨_, labels, _, body⟩ :: gs => by
    rw [SwitchGroup.lambdasAll, ← List.append_assoc]
    exact .cons (.node (by simp) (.skip (.cons (.list (Expr.visible_all labels))
      (.skip (.first (.list (Stmt.visible_all body))))))) (SwitchGroup.visible_all gs)

theorem CatchClause.visible_all : (cs : List CatchClause) →
    ItemsShow (CatchClause.trees cs) (CatchClause.lambdasAll cs)
  | [] => .nil
  | ⟨_, _, _, body⟩ :: cs =>
    .cons (.node (by simp) (.skip (.skip (.skip (.first body.visible)))))
      (CatchClause.visible_all cs)

end

/-- The lambdas of a fragment that is code are visible in its tree. -/
theorem Fragment.visible_of_code {f : Fragment} {params : List Param} {body : Block}
    (h : f.code? = some (params, body)) : Shows f.tree body.lambdas := by
  cases f with
  | program p => cases h
  | block b =>
    cases h
    exact body.visible
  | member m =>
    cases m with
    | method pos modifiers result name params body =>
      cases body with
      | none => cases h
      | some body =>
        cases h
        exact .node (by simp) (.skip (.skip (.skip (.skip (.skip (.first body.visible))))))
    | «initializer» pos isStatic body =>
      cases h
      exact .node (by simp) (.skip (.skip (.first body.visible)))
    | field => cases h
    | classDecl => cases h

end WriteOnce
