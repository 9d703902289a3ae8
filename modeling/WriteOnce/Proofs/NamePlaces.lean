import WriteOnce.Proofs.FragmentPlaces
import WriteOnce.Proofs.OutlinedWalks

/-!
# Names and declarations outside of classes

The tree of a piece of code shows which names and declarations stand in it, apart from the classes
inside. They are those of the outline. Every name of parsed code stands at a token of its own, and
so its place tells it from the others.
-/

namespace WriteOnce

/-- What in a tree has a place and a name. -/
inductive NameRole
  | name
  | declaration

/-- The classes of the nodes. -/
def NameRole.labels : NameRole → List Text
  | name => ["JName"]
  | declaration => ["JParam", "JDeclarator"]

namespace Tree

/-- The members of an anonymous class, and a bare name in front of arguments. -/
def hides (label field : Text) : Tree → Bool
  | list _ => label = "JNew" && field = "body"
  | node inner _ => label = "JCall" && field = "func" && inner = "JName"
  | _ => false

mutual

/-- The names or the declarations in a tree outside the classes inside it. A bare name in front of
arguments is that of a method, and none of them. -/
def marked (m : NameRole) : Tree → List (Pos × Text)
  | node label fields =>
    if label = "JClassDecl" then []
    else (if label ∈ m.labels then ownName fields else []) ++ markedFields m label fields
  | list items => markedItems m items
  | _ => []

def markedFields (m : NameRole) (label : Text) : List (Text × Tree) → List (Pos × Text)
  | [] => []
  | (field, t) :: fields =>
    (if hides label field t then [] else marked m t) ++ markedFields m label fields

def markedItems (m : NameRole) : List Tree → List (Pos × Text)
  | [] => []
  | t :: items => marked m t ++ markedItems m items

end

/-! ## Tokens -/

theorem count_ownMarked (pos : Pos) (name label : Text) (fields : List (Text × Tree)) :
    (if label ∈ NameRole.name.labels then ownName fields else []).count (pos, name) ≤
      (ownUses label fields).count (pos, .name name) := by
  split
  · rename_i hlabel
    rw [ownUses, if_pos (.inr (.inr (List.mem_singleton.1 hlabel))), count_map_name]
  · exact Nat.zero_le _

mutual

/-- Every name uses a token. -/
theorem count_marked (pos : Pos) (name : Text) : (t : Tree) →
    (t.marked .name).count (pos, name) ≤ t.uses.count (pos, .name name)
  | node label fields => by
    rw [marked, uses, List.count_append]
    split
    · exact Nat.zero_le _
    · rw [List.count_append]
      exact Nat.add_le_add (count_ownMarked pos name label fields)
        (count_markedFields pos name label fields)
  | list items => count_markedItems pos name items
  | place _ | text _ | number _ | flag _ | absent => Nat.zero_le _

theorem count_markedFields (pos : Pos) (name label : Text) : (fields : List (Text × Tree)) →
    (markedFields .name label fields).count (pos, name) ≤
      (usesFields fields).count (pos, .name name)
  | [] => Nat.zero_le _
  | (field, t) :: fields => by
    rw [markedFields, usesFields, List.count_append, List.count_append]
    refine Nat.add_le_add ?_ (count_markedFields pos name label fields)
    split
    · exact Nat.zero_le _
    · exact count_marked pos name t

theorem count_markedItems (pos : Pos) (name : Text) : (items : List Tree) →
    (markedItems .name items).count (pos, name) ≤ (usesItems items).count (pos, .name name)
  | [] => Nat.zero_le _
  | t :: items => by
    rw [markedItems, usesItems, List.count_append, List.count_append]
    exact Nat.add_le_add (count_marked pos name t) (count_markedItems pos name items)

end

end Tree

/-! ## Outlines -/

namespace Outline

/-- The names or the declarations in the code, those in lambdas included. -/
def marked (m : NameRole) (o : Outline) : List (Pos × Text) :=
  match m with
  | .name => o.names
  | .declaration => o.decls.map fun d => (d.pos, d.name)

variable {m : NameRole}

theorem map_nameAt_sites (owner : Text) (o : Outline) :
    (o.sites owner).map nameAt = o.marked .declaration := by
  rw [sites, marked, ← map_decl_bindings owner, List.map_map, List.map_map]
  rfl

@[simp] theorem marked_nil : nil.marked m = [] := by cases m <;> rfl

@[simp] theorem marked_append (o o' : Outline) :
    (o ++ o').marked m = o.marked m ++ o'.marked m := by
  cases m <;> simp [marked]

@[simp] theorem marked_region (o : Outline) : (region o nil).marked m = o.marked m := by
  cases m <;> simp [marked, names, decls]

theorem marked_comm (o o' o'' : Outline) :
    ((o ++ (o' ++ o'')).marked m).Perm ((o' ++ (o ++ o'')).marked m) := by
  simp only [marked_append]
  exact List.perm_append_comm_assoc ..

end Outline

namespace Tree

/-- The outline has the names and declarations of a tree. -/
def Marks (t : Tree) (o : Outline) : Prop := ∀ m, (o.marked m).Perm (t.marked m)

/-- The same for the fields of a node that hides none of them. -/
def MarksFields (fields : List (Text × Tree)) (o : Outline) : Prop :=
  ∀ label : Text, label ≠ "JNew" → label ≠ "JCall" →
    ∀ m, (o.marked m).Perm (markedFields m label fields)

def MarksItems (items : List Tree) (o : Outline) : Prop :=
  ∀ m, (o.marked m).Perm (markedItems m items)

variable {t : Tree} {fields : List (Text × Tree)} {items : List Tree} {o o' o'' : Outline}

theorem hides_eq_false {label field : Text} (h : label ≠ "JNew" ∧ label ≠ "JCall" ∨
    field ≠ "body" ∧ field ≠ "func") (t : Tree) : hides label field t = false := by
  rcases h with ⟨h, h'⟩ | ⟨h, h'⟩ <;> cases t <;> simp [hides, h, h']

/-- A node that is no name, declaration or class. -/
theorem marked_node {label : Text} (hclass : label ≠ "JClassDecl") (hname : label ≠ "JName")
    (hparam : label ≠ "JParam") (hdeclarator : label ≠ "JDeclarator")
    (fields : List (Text × Tree)) (m : NameRole) :
    (node label fields).marked m = markedFields m label fields := by
  have hlabels : label ∉ m.labels := by
    cases m <;> simp [NameRole.labels, hname, hparam, hdeclarator]
  rw [marked, if_neg hclass, if_neg hlabels, List.nil_append]

namespace MarksFields

variable {field : Text}

theorem nil : MarksFields [] .nil := fun _ _ _ m => by rw [Outline.marked_nil, markedFields]

theorem cons (h : Marks t o) (h' : MarksFields fields o') :
    MarksFields ((field, t) :: fields) (o ++ o') := by
  intro label hnew hcall m
  rw [markedFields, hides_eq_false (.inl ⟨hnew, hcall⟩), Outline.marked_append]
  exact (h m).append (h' label hnew hcall m)

/-- A field without names and declarations. -/
theorem skip (h : Marks t .nil) (h' : MarksFields fields o) :
    MarksFields ((field, t) :: fields) o :=
  cons h h'

/-- A field with fields behind it that have no names and declarations. -/
theorem only (h : Marks t o) (h' : MarksFields fields .nil) :
    MarksFields ((field, t) :: fields) o :=
  o.append_nil ▸ cons h h'

theorem last (h : Marks t o) : MarksFields [(field, t)] o := only h nil

end MarksFields

namespace Marks

/-- The outline counts only by what is marked. -/
theorem congr (h : Marks t o) (heq : ∀ m, (o'.marked m).Perm (o.marked m)) : Marks t o' :=
  fun m => (heq m).trans (h m)

theorem leaf (h : ∀ m, t.marked m = []) : Marks t .nil := fun m => by
  rw [Outline.marked_nil, h]

theorem list (h : MarksItems items o) : Marks (.list items) o := h

theorem text (value : Text) : Marks (.text value) .nil := leaf fun _ => rfl

theorem number (value : Nat) : Marks (.number value) .nil := leaf fun _ => rfl

theorem flag (value : Bool) : Marks (.flag value) .nil := leaf fun _ => rfl

theorem absent : Marks .absent .nil := leaf fun _ => rfl

theorem option (value : Option Text) : Marks (Tree.option .text value) .nil := by
  cases value with
  | none => exact absent
  | some value => exact text value

/-- A node that is no name, declaration or class, and hides nothing. -/
theorem node {label field : Text} {pos : Pos}
    (hlabel : label ≠ "JClassDecl" ∧ label ≠ "JNew" ∧ label ≠ "JCall" ∧ label ≠ "JName" ∧
      label ≠ "JParam" ∧ label ≠ "JDeclarator") (h : MarksFields fields o) :
    Marks (.node label ((field, .place pos) :: fields)) o := by
  intro m
  obtain ⟨hclass, hnew, hcall, hname, hparam, hdeclarator⟩ := hlabel
  rw [marked_node hclass hname hparam hdeclarator, markedFields,
    hides_eq_false (.inl ⟨hnew, hcall⟩)]
  exact h label hnew hcall m

theorem name (pos : Pos) (word : Text) :
    Marks (Expr.name pos word).tree (.name pos word .nil) := by
  intro m
  cases m <;> simp [Expr.tree, marked, markedFields, hides, NameRole.labels, ownName,
    Outline.marked, Outline.names, Outline.decls]

/-- A node that declares a variable. -/
theorem declaring {label field : Text} {d : Decl}
    (hlabel : label = "JParam" ∨ label = "JDeclarator")
    (hname : fields.lookup ("name" : Text) = some (.text d.name)) (h : MarksFields fields o) :
    Marks (.node label ((field, .place d.pos) :: fields)) (.declare d o) := by
  have hother : label ≠ "JClassDecl" ∧ label ≠ "JNew" ∧ label ≠ "JCall" ∧ label ≠ "JName" := by
    rcases hlabel with rfl | rfl <;> simp
  obtain ⟨hclass, hnew, hcall, hword⟩ := hother
  have hfields := h label hnew hcall
  intro m
  rw [marked, if_neg hclass, markedFields, hides_eq_false (.inl ⟨hnew, hcall⟩), ownName, hname]
  cases m with
  | name =>
    rw [if_neg (by simpa [NameRole.labels] using hword)]
    exact hfields .name
  | declaration =>
    rw [if_pos (by simpa [NameRole.labels] using hlabel)]
    exact (hfields .declaration).cons _

theorem region (h : Marks t o) : Marks t (.region o .nil) :=
  h.congr fun m => by cases m <;> simp [Outline.marked, Outline.names, Outline.decls]

theorem marked_eq_nil (h : Marks t .nil) (m : NameRole) : t.marked m = [] := by
  have hm := h m
  rw [Outline.marked_nil] at hm
  exact List.nil_perm.1 hm

theorem lambda {pos : Pos} {params : List Decl} (h : Marks t o) :
    Marks t (.lambda pos params o .nil) :=
  h.congr fun m => by cases m <;> simp [Outline.marked, Outline.names, Outline.decls]

/-- The members of an anonymous class are hidden. -/
theorem new {pos : Pos} {type body : Tree} {args dims : List Tree} {init : Tree}
    (htype : Marks type .nil) (hargs : MarksItems args o) (hdims : MarksItems dims o')
    (hinit : Marks init o'') (hbody : body = .absent ∨ ∃ members, body = .list members) :
    Marks (.node "JNew" [("pos", .place pos), ("typ", type), ("args", .list args),
      ("dims", .list dims), ("init", init), ("body", body)]) (o ++ (o' ++ o'')) := by
  intro m
  have hhidden : (if hides "JNew" "body" body then [] else marked m body) = [] := by
    rcases hbody with rfl | ⟨members, rfl⟩ <;> simp [hides, marked]
  have hshown : ∀ field : Text, field ≠ "body" ∧ field ≠ "func" → ∀ t,
      hides "JNew" field t = false := fun _ h t => hides_eq_false (.inr h) t
  rw [marked_node (by simp) (by simp) (by simp) (by simp), Outline.marked_append,
    Outline.marked_append]
  simp only [markedFields, hhidden, hshown "pos" (by simp), hshown "typ" (by simp),
    hshown "args" (by simp), hshown "dims" (by simp), hshown "init" (by simp),
    htype.marked_eq_nil, List.append_nil]
  exact (hargs m).append ((hdims m).append (hinit m))

/-- A bare name in front of arguments is hidden. -/
theorem call {pos : Pos} {callee : Expr} {args : List Tree} (hcallee : Marks callee.tree o)
    (hargs : MarksItems args o') :
    Marks (.node "JCall" [("pos", .place pos), ("func", callee.tree), ("args", .list args)])
      ((if callee.isName then .nil else o) ++ o') := by
  intro m
  have hname : hides "JCall" "func" callee.tree = callee.isName := by
    cases callee <;> simp [hides, Expr.tree, Expr.isName]
  have hshown : ∀ t, hides "JCall" "args" t = false := hides_eq_false (.inr (by simp))
  have hplace : marked m (.place pos) = [] := rfl
  rw [marked_node (by simp) (by simp) (by simp) (by simp), Outline.marked_append]
  simp only [markedFields, hname, hplace, hshown, ite_self,
    Bool.false_eq_true, if_false, List.nil_append, List.append_nil]
  refine List.Perm.append ?_ (hargs m)
  split
  · rw [Outline.marked_nil]
  · exact hcallee m

end Marks

namespace MarksItems

theorem nil : MarksItems [] .nil := fun m => by rw [Outline.marked_nil, markedItems]

theorem cons (h : Marks t o) (h' : MarksItems items o') : MarksItems (t :: items) (o ++ o') := by
  intro m
  rw [markedItems, Outline.marked_append]
  exact (h m).append (h' m)

theorem last (h : Marks t o) : MarksItems [t] o := o.append_nil ▸ cons h nil

theorem congr (h : MarksItems items o) (heq : ∀ m, (o'.marked m).Perm (o.marked m)) :
    MarksItems items o' :=
  fun m => (heq m).trans (h m)

end MarksItems

end Tree

open WriteOnce.Tree (Marks MarksItems)

theorem Modifier.marks (modifiers : List Modifier) : Marks (Modifier.trees modifiers) .nil := by
  refine .leaf fun m => ?_
  rw [Modifier.trees, Tree.texts, Tree.marked, List.map_map]
  induction modifiers with
  | nil => rfl
  | cons modifier modifiers ih => exact ih

mutual

theorem TypeRef.marks : (t : TypeRef) → Marks t.tree .nil
  | ⟨_, name, args, dims⟩ =>
    .node (by simp) (.skip (.text name) (.skip (.list (TypeRef.marks_all args))
      (.last (.number dims))))

theorem TypeRef.marks_all : (ts : List TypeRef) → MarksItems (TypeRef.trees ts) .nil
  | [] => .nil
  | t :: ts => .cons t.marks (TypeRef.marks_all ts)

end

theorem TypeRef.marks_types (ts : List TypeRef) : Marks (.list (ts.map TypeRef.tree)) .nil := by
  induction ts with
  | nil => exact .list .nil
  | cons t ts ih => exact .list (.cons t.marks ih)

theorem TypeRef.marks_option (t : Option TypeRef) : Marks (Tree.option TypeRef.tree t) .nil := by
  cases t with
  | none => exact .absent
  | some t => exact t.marks

theorem Param.marks (kind : Variable.Kind) (p : Param) :
    Marks p.tree (.declare (p.decl kind) .nil) :=
  .declaring (.inl rfl) rfl (.skip (Modifier.marks _) (.skip (TypeRef.marks_option _)
    (.skip (.text _) (.last (.flag _)))))

theorem Declarator.marks (isFinal multi : Bool) {o : Outline} : (d : Declarator) →
    Marks (Expr.treeOption d.init) o →
    Marks d.tree (.declare ⟨d.pos, d.name, .localVariable, isFinal, multi⟩ o)
  | ⟨_, _, _, _⟩, h =>
    .declaring (.inr rfl) rfl (.skip (.text _) (.skip (.number _) (.last h)))

theorem Param.marks_all (ps : List Param) :
    MarksItems (ps.map Param.tree) (.declares (ps.map (Param.decl .parameter))) := by
  induction ps with
  | nil => exact .nil
  | cons p ps ih => exact .cons (p.marks .parameter) ih

mutual

theorem Expr.marks : (e : Expr) → Marks e.tree e.outline
  | .literal .. => .node (by simp) (.skip (.text _) (.last (.text _)))
  | .name pos word => .name pos word
  | .field _ operand _ | .methodRef _ operand _ =>
    .node (by simp) (.only operand.marks (.last (.text _)))
  | .index _ object position => .node (by simp) (.cons object.marks (.last position.marks))
  | .call _ callee args => .call callee.marks (Expr.marks_all args)
  | .newObject _ type args => by
    rw [Expr.outline, ← (Expr.outlineAll args).append_nil]
    exact .new type.marks (Expr.marks_all args) .nil .absent (.inl rfl)
  | .newAnonymous _ type args members => by
    rw [Expr.outline, ← (Expr.outlineAll args).append_nil]
    exact .new type.marks (Expr.marks_all args) .nil .absent (.inr ⟨_, rfl⟩)
  | .newArray _ type sizes => by
    rw [Expr.outline, ← (Expr.outlineAll sizes).append_nil]
    exact .new type.marks .nil (Expr.marks_all sizes) .absent (.inl rfl)
  | .newArrayOf _ type _ elements =>
    .new type.marks .nil .nil (.node (by simp) (.last (.list (Expr.marks_all elements)))) (.inl rfl)
  | .arrayLit _ elements => .node (by simp) (.last (.list (Expr.marks_all elements)))
  | .unary _ _ operand => .node (by simp) (.skip (.text _) (.last operand.marks))
  | .step _ _ _ target =>
    .node (by simp) (.skip (.text _) (.skip (.flag _) (.last target.marks)))
  | .binary _ _ first second | .assign _ _ first second =>
    .node (by simp) (.skip (.text _) (.cons first.marks (.last second.marks)))
  | .instanceOf _ operand type => .node (by simp) (.only operand.marks (.last type.marks))
  | .cast _ type operand => .node (by simp) (.skip type.marks (.last operand.marks))
  | .conditional _ cond onTrue onFalse =>
    .node (by simp) (.cons cond.marks (.cons onTrue.marks (.last onFalse.marks)))
  | .lambda _ params body =>
    .lambda (.node (by simp) (.cons (.list (Param.marks_all params)) (.last body.marks)))

theorem Expr.marks_all : (es : List Expr) → MarksItems (Expr.trees es) (Expr.outlineAll es)
  | [] => .nil
  | e :: es => .cons e.marks (Expr.marks_all es)

theorem Expr.marks_option : (e : Option Expr) → Marks (Expr.treeOption e) (Expr.outlineOption e)
  | none => .absent
  | some e => e.marks

theorem LambdaBody.marks : (body : LambdaBody) → Marks body.tree body.outline
  | .expr body => body.marks
  | .block body => body.marks

/-- Declarators and their initial values. -/
theorem Declarator.marks_all (isFinal multi : Bool) : (ds : List Declarator) →
    MarksItems (Declarator.trees ds)
      (.declares (ds.map fun d => ⟨d.pos, d.name, .localVariable, isFinal, multi⟩) ++
        Declarator.outlineInits ds)
  | [] => .nil
  | ⟨pos, name, dims, init⟩ :: ds => by
    have hself := Declarator.marks isFinal multi ⟨pos, name, dims, init⟩ (Expr.marks_option init)
    refine (MarksItems.cons hself (Declarator.marks_all isFinal multi ds)).congr fun m => ?_
    have hcomm := Outline.marked_comm (m := m) (.declares (ds.map fun d =>
      ⟨d.pos, d.name, .localVariable, isFinal, multi⟩)) (Expr.outlineOption init)
      (Declarator.outlineInits ds)
    cases m with
    | name => exact hcomm
    | declaration => exact hcomm.cons _

theorem LocalDecl.marks (multi : Bool) : (decl : LocalDecl) → Marks decl.tree (decl.outline multi)
  | ⟨_, modifiers, type, declarators⟩ =>
    .node (by simp) (.skip (Modifier.marks _) (.skip type.marks
      (.last (.list (Declarator.marks_all (isFinal modifiers) multi declarators)))))

theorem Stmt.marks : (s : Stmt) → Marks s.tree s.outline
  | .block body => body.marks
  | .localDecl decl => decl.marks false
  | .expr _ value => .node (by simp) (.last value.marks)
  | .ifElse _ cond onTrue onFalse =>
    .node (by simp) (.cons cond.marks (.cons onTrue.marks (.last (Stmt.marks_option onFalse))))
  | .whileLoop _ cond body => .node (by simp) (.cons cond.marks (.last body.marks.region))
  | .doLoop _ body cond => .node (by simp) (.cons body.marks.region (.last cond.marks))
  | .forLoop _ init cond update body => by
    rw [Stmt.outline, Outline.append_assoc]
    exact .region (.node (by simp) (.cons init.marks (.cons (Expr.marks_option cond)
      (.cons (.list (Expr.marks_all update)) (.last body.marks)))))
  | .forEach _ param iterable body => by
    rw [Stmt.tree]
    refine .congr (.node (by simp) (.cons (param.marks .forEachParameter)
        (.cons iterable.marks (.last body.marks)))) fun m => ?_
    rw [Stmt.outline, Outline.marked_append, Outline.marked_region, ← Outline.marked_append]
    exact Outline.marked_comm iterable.outline (.declare (param.decl .forEachParameter) .nil)
      body.outline
  | .switch _ selector groups =>
    .node (by simp) (.cons selector.marks (.last (.region (.list (SwitchGroup.marks_all groups)))))
  | .tryCatch _ body clauses cleanup =>
    .node (by simp) (.cons body.marks (.cons (.list (CatchClause.marks_all clauses))
      (.last (Block.marks_option cleanup))))
  | .returnValue _ value => .node (by simp) (.last (Expr.marks_option value))
  | .throwValue _ value => .node (by simp) (.last value.marks)
  | .breakTo _ label | .continueTo _ label => .node (by simp) (.last (.option label))
  | .labeled _ _ body => .node (by simp) (.skip (.text _) (.last body.marks))
  | .empty _ => .node (by simp) .nil
  | .localClass _ ⟨_, _, _, _⟩ => .node (by simp) (.last (.leaf fun _ => rfl))

theorem Stmt.marks_all : (ss : List Stmt) → MarksItems (Stmt.trees ss) (Stmt.outlineAll ss)
  | [] => .nil
  | s :: ss => .cons s.marks (Stmt.marks_all ss)

theorem Stmt.marks_option : (s : Option Stmt) → Marks (Stmt.treeOption s) (Stmt.outlineOption s)
  | none => .absent
  | some s => s.marks

theorem ForInit.marks : (init : ForInit) → Marks init.tree init.outline
  | .decl decl => .list (.last (decl.marks _))
  | .exprs values => .list (Expr.marks_statements values)

theorem Expr.marks_statements : (es : List Expr) →
    MarksItems (Expr.statementTrees es) (Expr.outlineAll es)
  | [] => .nil
  | e :: es => .cons (.node (by simp) (.last e.marks)) (Expr.marks_statements es)

theorem Block.marks : (b : Block) → Marks b.tree b.outline
  | ⟨_, stmts⟩ => .region (.node (by simp) (.last (.list (Stmt.marks_all stmts))))

theorem Block.marks_option : (b : Option Block) →
    Marks (Block.treeOption b) (Block.outlineOption b)
  | none => .absent
  | some b => b.marks

theorem SwitchGroup.marks_all : (gs : List SwitchGroup) →
    MarksItems (SwitchGroup.trees gs) (SwitchGroup.outlineAll gs)
  | [] => .nil
  | ⟨_, labels, _, body⟩ :: gs => by
    rw [SwitchGroup.outlineAll, ← Outline.append_assoc]
    exact .cons (.node (by simp) (.cons (.list (Expr.marks_all labels))
      (.skip (.flag _) (.last (.list (Stmt.marks_all body)))))) (SwitchGroup.marks_all gs)

theorem CatchClause.marks_all : (cs : List CatchClause) →
    MarksItems (CatchClause.trees cs) (CatchClause.outlineAll cs)
  | [] => .nil
  | ⟨_, param, types, body⟩ :: cs =>
    .cons (.region (.node (by simp) (.cons (param.marks .catchParameter)
      (.skip (TypeRef.marks_types types) (.last body.marks))))) (CatchClause.marks_all cs)

end

namespace Fragment

variable {f : Fragment} {params : List Param} {body : Block}

/-- A fragment that is code has a collection. -/
theorem ofBody_of_code (h : f.code? = some (params, body)) (owner : Text) :
    ∃ kind site, kind ≠ Scope.Kind.closureBody ∧ site.className ≠ ("JLambda" : Text) ∧
      Collection.ofFragment owner f = .ok (.ofBody owner kind site params body) := by
  cases f with
  | program p => cases h
  | block b =>
    cases h
    exact ⟨_, _, by simp, by simp, rfl⟩
  | member m =>
    cases m with
    | method pos modifiers result name params body =>
      cases body with
      | none => cases h
      | some body =>
        cases h
        exact ⟨_, _, by simp, by simp, rfl⟩
    | «initializer» pos isStatic body =>
      cases h
      exact ⟨_, _, by simp, by simp, rfl⟩
    | field => cases h
    | classDecl => cases h

/-- The outline of a fragment that is code has the names and declarations of its tree. -/
theorem marks_of_code (h : f.code? = some (params, body)) :
    Marks f.tree (body.outlineWith params) := by
  have hbody : Marks body.tree (Stmt.outlineAll body.stmts) := by
    obtain ⟨pos, stmts⟩ := body
    exact .node (by simp) (.last (.list (Stmt.marks_all stmts)))
  cases f with
  | program p => cases h
  | block b =>
    cases h
    exact hbody
  | member m =>
    cases m with
    | method pos modifiers result name params body =>
      cases body with
      | none => cases h
      | some body =>
        cases h
        exact .node (by simp) (.skip (Modifier.marks _) (.skip (TypeRef.marks_option _)
          (.skip (.text _) (.cons (.list (Param.marks_all _)) (.last hbody)))))
    | «initializer» pos isStatic body =>
      cases h
      exact .node (by simp) (.skip (.flag _) (.last hbody))
    | field => cases h
    | classDecl => cases h

theorem mem_names_iff (h : f.code? = some (params, body)) {n : Pos × Text} :
    n ∈ (body.outlineWith params).names ↔ n ∈ f.tree.marked .name :=
  (marks_of_code h .name).mem_iff

/-- The names in a parsed fragment stand at different places. -/
theorem Parsed.nodup_names (h : f.Parsed) (hcode : f.code? = some (params, body)) :
    ((body.outlineWith params).names.map Prod.fst).Nodup := by
  obtain ⟨source, s, htokens, huses⟩ := h.exists_tokens
  have hnames : (f.tree.marked .name).Subperm s.names := by
    refine List.subperm_ext_iff.2 fun ⟨pos, word⟩ _ => ?_
    rw [TokenStream.count_names]
    exact (f.tree.count_marked pos word).trans (huses (pos, .name word))
  obtain ⟨names, hperm, hsublist⟩ := (marks_of_code hcode .name).subperm.trans hnames
  have hsublist := hsublist.map Prod.fst
  rw [TokenStream.names, List.map_map] at hsublist
  apply (hperm.map Prod.fst).nodup_iff.1
  exact ((Program.pairwise_places htokens).imp Pos.Past.ne).sublist hsublist

end Fragment

end WriteOnce
