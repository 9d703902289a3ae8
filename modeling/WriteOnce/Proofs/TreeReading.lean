import WriteOnce.Proofs.Cores

/-!
# Reading trees

The tree of a piece of syntax shows all that analyses read of it: pieces whose trees
differ in their positions alone have the same core, up to where it stands.
-/

namespace WriteOnce

variable (φ : Pos → Pos)

/-! ## Trees at other positions -/

namespace Tree

mutual

/-- The tree with all its positions moved. -/
@[simp] def move : Tree → Tree
  | node label fields => node label (moveFields fields)
  | list items => list (moveItems items)
  | place pos => place (φ pos)
  | text value => text value
  | number value => number value
  | flag value => flag value
  | absent => absent

@[simp] def moveFields : List (Text × Tree) → List (Text × Tree)
  | [] => []
  | (name, t) :: fields => (name, t.move) :: moveFields fields

@[simp] def moveItems : List Tree → List Tree
  | [] => []
  | t :: items => t.move :: moveItems items

end

mutual

theorem move_id : (t : Tree) → t.move id = t
  | node label fields => congrArg (node label) (moveFields_id fields)
  | list items => congrArg list (moveItems_id items)
  | place _ | text _ | number _ | flag _ | absent => rfl
termination_by structural t => t

theorem moveFields_id : (fields : List (Text × Tree)) → moveFields id fields = fields
  | [] => rfl
  | (name, t) :: fields => by rw [moveFields, t.move_id, moveFields_id fields]
termination_by structural fields => fields

theorem moveItems_id : (items : List Tree) → moveItems id items = items
  | [] => rfl
  | t :: items => by rw [moveItems, t.move_id, moveItems_id items]
termination_by structural items => items

end

end Tree

/-! ## Reading trees -/

@[simp] theorem Text.ofString_inj {s t : String} : Text.ofString s = Text.ofString t ↔ s = t := by
  constructor
  · intro h
    have hcodes : s.toList.map Char.toNat = t.toList.map Char.toNat := congrArg Text.codes h
    exact String.toList_inj.1 ((List.map_inj_right fun _ _ h => Char.toNat_inj.1 h).1 hcodes)
  · rintro rfl
    rfl

theorem Modifier.word_inj {m n : Modifier} : m.word = n.word ↔ m = n := by
  cases m <;> cases n <;> simp [Modifier.word, Text.ofString_inj]

theorem Literal.eq_of_shown {v w : Literal} (hkind : v.kindName = w.kindName)
    (hraw : v.raw = w.raw) : v = w := by
  cases v <;> cases w <;> simp [kindName, Text.ofString_inj] at hkind
  case bool.bool a b =>
    cases a <;> cases b <;> simp [raw, Text.ofString_inj] at hraw ⊢
  all_goals simp_all [raw]

theorem UnaryOp.symbol_inj {o p : UnaryOp} : o.symbol = p.symbol ↔ o = p := by
  cases o <;> cases p <;> simp [symbol, Text.ofString_inj]

theorem BinaryOp.symbol_inj {o p : BinaryOp} : o.symbol = p.symbol ↔ o = p := by
  cases o <;> cases p <;> simp [symbol, Text.ofString_inj]

variable {φ}

@[simp] theorem Tree.move_texts (ts : List Text) : (Tree.texts ts).move φ = .texts ts := by
  have hitems : Tree.moveItems φ (ts.map .text) = ts.map .text := by
    induction ts with
    | nil => rfl
    | cons t ts ih => rw [List.map_cons, Tree.moveItems, ih, Tree.move]
  rw [Tree.texts, Tree.move, hitems]

theorem Modifier.eq_of_trees {ms ms' : List Modifier}
    (h : Modifier.trees ms' = (Modifier.trees ms).move φ) : ms' = ms := by
  rw [Modifier.trees, Modifier.trees, Tree.move_texts, Tree.texts, Tree.texts, Tree.list.injEq,
    List.map_inj_right fun _ _ h => Tree.text.inj h] at h
  exact (List.map_inj_right fun _ _ h => Modifier.word_inj.1 h).1 h

theorem Param.core_eq {p p' : Param} (h : p'.tree = p.tree.move φ) :
    p'.core id = p.core φ := by
  obtain ⟨pos, ms, type, name, varargs⟩ := p
  obtain ⟨pos', ms', type', name', varargs'⟩ := p'
  simp only [Param.tree, Tree.move, Tree.moveFields, Tree.node.injEq, List.cons.injEq,
    Prod.mk.injEq, true_and, and_true, Tree.place.injEq, Tree.text.injEq] at h
  obtain ⟨rfl, hms, -, rfl, -⟩ := h
  rw [Param.core, Param.core, Modifier.eq_of_trees hms]
  rfl

theorem Param.cores_eq {ps ps' : List Param}
    (h : ps'.map Param.tree = Tree.moveItems φ (ps.map Param.tree)) :
    ps'.map (Param.core id) = ps.map (Param.core φ) := by
  induction ps generalizing ps' with
  | nil =>
    obtain rfl := List.map_eq_nil_iff.1 h
    rfl
  | cons p ps ih =>
    obtain _ | ⟨p', ps'⟩ := ps'
    · cases h
    · obtain ⟨hp, hps⟩ := List.cons.inj h
      rw [List.map_cons, List.map_cons, Param.core_eq hp, ih hps]

theorem Label.eq_of_tree {label label' : Option Text}
    (h : Tree.option .text label' = (Tree.option .text label).move φ) : label' = label := by
  cases label <;> cases label' <;> simp_all [Tree.option]

/-- The class of a node. -/
def Tree.label : Tree → Text
  | .node label _ => label
  | _ => .empty

@[simp] theorem Tree.label_move (t : Tree) : (t.move φ).label = t.label := by
  cases t <;> rfl

theorem Expr.label_tree (e : Expr) : e.tree.label = e.className := by
  cases e <;> rfl

theorem Block.tree_eq (b : Block) :
    b.tree = .node "JBlock" [("pos", .place b.pos), ("stmts", .list (Stmt.trees b.stmts))] := by
  cases b
  rfl

theorem LocalDecl.label_tree (d : LocalDecl) : d.tree.label = "JLocalDecl" := by
  cases d
  rfl

theorem ClassDecl.label_tree (d : ClassDecl) : d.tree.label = "JClassDecl" := by
  cases d
  rfl

theorem Stmt.label_tree (s : Stmt) : s.tree.label = s.className := by
  cases s with
  | block b => exact congrArg Tree.label b.tree_eq
  | localDecl d => exact d.label_tree
  | _ => rfl

theorem Member.label_tree (m : Member) : m.tree.label = m.className := by
  cases m with
  | classDecl d => exact d.label_tree
  | _ => rfl

theorem Expr.className_eq {e e' : Expr} (h : e'.tree = e.tree.move φ) :
    e'.className = e.className := by
  rw [← label_tree, ← label_tree, h, Tree.label_move]

theorem Stmt.className_eq {s s' : Stmt} (h : s'.tree = s.tree.move φ) :
    s'.className = s.className := by
  rw [← label_tree, ← label_tree, h, Tree.label_move]

theorem Member.className_eq {m m' : Member} (h : m'.tree = m.tree.move φ) :
    m'.className = m.className := by
  rw [← label_tree, ← label_tree, h, Tree.label_move]

theorem Tree.label_eq {t t' : Tree} (h : t' = t.move φ) : t'.label = t.label := by
  rw [h, Tree.label_move]

theorem Expr.label_ne_block (e : Expr) : e.tree.label ≠ "JBlock" := by
  rw [label_tree]
  cases e <;> simp [className]

theorem Expr.moved_ne_absent (e : Expr) : e.tree.move φ ≠ .absent := by
  cases e <;> simp [Expr.tree]

theorem Block.label_tree (b : Block) : b.tree.label = "JBlock" := congrArg Tree.label b.tree_eq

theorem Stmt.moved_ne_absent (s : Stmt) : s.tree.move φ ≠ .absent := by
  intro h
  have hlabel : (s.tree.move φ).label = s.className := (Tree.label_move s.tree).trans s.label_tree
  rw [h] at hlabel
  cases s <;> cases hlabel

theorem Expr.of_statementTree {e e' : Expr} {pos pos' : Pos}
    (h : Tree.node "JExprStmt" [("pos", .place pos'), ("expr", e'.tree)] =
      (Tree.node "JExprStmt" [("pos", .place pos), ("expr", e.tree)]).move φ) :
    e'.tree = e.tree.move φ := by
  simp only [Tree.move, Tree.moveFields, Tree.node.injEq, List.cons.injEq, Prod.mk.injEq] at h
  exact h.2.2.1.2

/-- What a piece of syntax is if it has the tree of `x` at other positions, as far as analyses read
it. An array without sizes looks like an object without arguments. -/
def Expr.Shows (φ : Pos → Pos) : Expr → Expr → Prop
  | .literal pos value, x' => x' = .literal (φ pos) value
  | .name pos word, x' => x' = .name (φ pos) word
  | .field pos object _, x' => ∃ object' name', x' = .field (φ pos) object' name' ∧
      object'.tree = object.tree.move φ
  | .index pos object position, x' => ∃ object' position',
      x' = .index (φ pos) object' position' ∧
      object'.tree = object.tree.move φ ∧
      position'.tree = position.tree.move φ
  | .call pos callee args, x' => ∃ callee' args', x' = .call (φ pos) callee' args' ∧
      callee'.tree = callee.tree.move φ ∧
      Expr.trees args' = Tree.moveItems φ (Expr.trees args)
  | .newObject pos _ args, x' | .newArray pos _ args, x' => ∃ type' args',
    (x' = .newObject (φ pos) type' args' ∨ x' = .newArray (φ pos) type' args') ∧
      Expr.trees args' = Tree.moveItems φ (Expr.trees args)
  | .newAnonymous pos _ args members, x' => ∃ type' args' members',
      x' = .newAnonymous (φ pos) type' args' members' ∧
      Expr.trees args' = Tree.moveItems φ (Expr.trees args) ∧
      Member.trees members' = Tree.moveItems φ (Member.trees members)
  | .newArrayOf pos _ _ elements, x' => ∃ type' elementsPos' elements',
      x' = .newArrayOf (φ pos) type' elementsPos' elements' ∧
      Expr.trees elements' = Tree.moveItems φ (Expr.trees elements)
  | .arrayLit pos elements, x' => ∃ elements', x' = .arrayLit (φ pos) elements' ∧
      Expr.trees elements' = Tree.moveItems φ (Expr.trees elements)
  | .unary pos op operand, x' => ∃ operand', x' = .unary (φ pos) op operand' ∧
      operand'.tree = operand.tree.move φ
  | .step pos _ _ target, x' => ∃ op' before' target', x' = .step (φ pos) op' before' target' ∧
      target'.tree = target.tree.move φ
  | .binary pos op left right, x' => ∃ left' right', x' = .binary (φ pos) op left' right' ∧
      left'.tree = left.tree.move φ ∧
      right'.tree = right.tree.move φ
  | .instanceOf pos operand _, x' => ∃ operand' type', x' = .instanceOf (φ pos) operand' type' ∧
      operand'.tree = operand.tree.move φ
  | .cast pos _ operand, x' => ∃ type' operand', x' = .cast (φ pos) type' operand' ∧
      operand'.tree = operand.tree.move φ
  | .conditional pos cond onTrue onFalse, x' => ∃ cond' onTrue' onFalse',
      x' = .conditional (φ pos) cond' onTrue' onFalse' ∧
      cond'.tree = cond.tree.move φ ∧
      onTrue'.tree = onTrue.tree.move φ ∧
      onFalse'.tree = onFalse.tree.move φ
  | .assign pos _ target value, x' => ∃ op' target' value',
      x' = .assign (φ pos) op' target' value' ∧
      target'.tree = target.tree.move φ ∧
      value'.tree = value.tree.move φ
  | .lambda pos params body, x' => ∃ params' body', x' = .lambda (φ pos) params' body' ∧
      params'.map Param.tree = Tree.moveItems φ (params.map Param.tree) ∧
      body'.tree = body.tree.move φ
  | .methodRef pos object _, x' => ∃ object' name', x' = .methodRef (φ pos) object' name' ∧
      object'.tree = object.tree.move φ

def Stmt.Shows (φ : Pos → Pos) : Stmt → Stmt → Prop
  | .block body, x' => ∃ body', x' = .block body' ∧ body'.tree = body.tree.move φ
  | .localDecl decl, x' => ∃ decl', x' = .localDecl decl' ∧ decl'.tree = decl.tree.move φ
  | .expr pos value, x' => ∃ value', x' = .expr (φ pos) value' ∧ value'.tree = value.tree.move φ
  | .ifElse pos cond onTrue onFalse, x' => ∃ cond' onTrue' onFalse',
      x' = .ifElse (φ pos) cond' onTrue' onFalse' ∧
      cond'.tree = cond.tree.move φ ∧
      onTrue'.tree = onTrue.tree.move φ ∧
      Stmt.treeOption onFalse' = (Stmt.treeOption onFalse).move φ
  | .whileLoop pos cond body, x' => ∃ cond' body', x' = .whileLoop (φ pos) cond' body' ∧
      cond'.tree = cond.tree.move φ ∧
      body'.tree = body.tree.move φ
  | .doLoop pos body cond, x' => ∃ body' cond', x' = .doLoop (φ pos) body' cond' ∧
      body'.tree = body.tree.move φ ∧
      cond'.tree = cond.tree.move φ
  | .forLoop pos init cond update body, x' => ∃ init' cond' update' body',
      x' = .forLoop (φ pos) init' cond' update' body' ∧
      init'.tree = init.tree.move φ ∧
      Expr.treeOption cond' = (Expr.treeOption cond).move φ ∧
      Expr.trees update' = Tree.moveItems φ (Expr.trees update) ∧
      body'.tree = body.tree.move φ
  | .forEach pos param iterable body, x' => ∃ param' iterable' body',
      x' = .forEach (φ pos) param' iterable' body' ∧
      param'.tree = param.tree.move φ ∧
      iterable'.tree = iterable.tree.move φ ∧
      body'.tree = body.tree.move φ
  | .switch pos selector groups, x' => ∃ selector' groups',
      x' = .switch (φ pos) selector' groups' ∧
      selector'.tree = selector.tree.move φ ∧
      SwitchGroup.trees groups' = Tree.moveItems φ (SwitchGroup.trees groups)
  | .tryCatch pos body clauses cleanup, x' => ∃ body' clauses' cleanup',
      x' = .tryCatch (φ pos) body' clauses' cleanup' ∧
      body'.tree = body.tree.move φ ∧
      CatchClause.trees clauses' = Tree.moveItems φ (CatchClause.trees clauses) ∧
      Block.treeOption cleanup' = (Block.treeOption cleanup).move φ
  | .returnValue pos value, x' => ∃ value', x' = .returnValue (φ pos) value' ∧
      Expr.treeOption value' = (Expr.treeOption value).move φ
  | .throwValue pos value, x' => ∃ value', x' = .throwValue (φ pos) value' ∧
      value'.tree = value.tree.move φ
  | .breakTo pos label, x' => x' = .breakTo (φ pos) label
  | .continueTo pos label, x' => x' = .continueTo (φ pos) label
  | .labeled pos label body, x' => ∃ body', x' = .labeled (φ pos) label body' ∧
      body'.tree = body.tree.move φ
  | .empty pos, x' => x' = .empty (φ pos)
  | .localClass pos decl, x' => ∃ decl', x' = .localClass (φ pos) decl' ∧
      decl'.tree = decl.tree.move φ

def Member.Shows (φ : Pos → Pos) : Member → Member → Prop
  | .field pos _ _ declarators, x' => ∃ modifiers' type' declarators',
      x' = .field (φ pos) modifiers' type' declarators' ∧
      Declarator.trees declarators' = Tree.moveItems φ (Declarator.trees declarators)
  | .method pos _ _ name params body, x' => ∃ modifiers' result' params' body',
      x' = .method (φ pos) modifiers' result' name params' body' ∧
      params'.map Param.tree = Tree.moveItems φ (params.map Param.tree) ∧
      Block.treeOption body' = (Block.treeOption body).move φ
  | .initializer pos isStatic body, x' => ∃ body', x' = .initializer (φ pos) isStatic body' ∧
      body'.tree = body.tree.move φ
  | .classDecl decl, x' => ∃ decl', x' = .classDecl decl' ∧ decl'.tree = decl.tree.move φ

theorem Expr.shows {x x' : Expr} (h : x'.tree = x.tree.move φ) : x.Shows φ x' := by
  have hclass := Expr.className_eq h
  cases x with
  | literal =>
    cases x' <;> simp only [className, Text.ofString_inj, String.reduceEq] at hclass
    simp [Expr.tree] at h
    obtain ⟨rfl, hkind, hraw⟩ := h
    rw [Shows, Literal.eq_of_shown hkind hraw]
  | newObject =>
    cases x' <;> simp only [className, Text.ofString_inj, String.reduceEq] at hclass <;>
      simp [Expr.tree] at h
    all_goals simp [Shows, h, and_assoc]
  | newArray =>
    cases x' <;> simp only [className, Text.ofString_inj, String.reduceEq] at hclass <;>
      simp [Expr.tree] at h
    all_goals simp [Shows, h, and_assoc]
  | unary =>
    cases x' <;> simp only [className, Text.ofString_inj, String.reduceEq] at hclass
    simp [Expr.tree, UnaryOp.symbol_inj] at h
    simp [Shows, h]
  | binary =>
    cases x' <;> simp only [className, Text.ofString_inj, String.reduceEq] at hclass
    simp [Expr.tree, BinaryOp.symbol_inj] at h
    simp [Shows, h, and_assoc]
  | _ =>
    cases x' <;> simp only [className, Text.ofString_inj, String.reduceEq] at hclass <;>
      simp [Expr.tree] at h
    simp [Shows, h, and_assoc]

theorem Stmt.shows {x x' : Stmt} (h : x'.tree = x.tree.move φ) : x.Shows φ x' := by
  have hclass := Stmt.className_eq h
  cases x with
  | block body =>
    cases x' <;> simp only [className, Text.ofString_inj, String.reduceEq] at hclass
    exact ⟨_, rfl, h⟩
  | localDecl decl =>
    cases x' <;> simp only [className, Text.ofString_inj, String.reduceEq] at hclass
    exact ⟨_, rfl, h⟩
  | breakTo pos label =>
    cases x' <;> simp only [className, Text.ofString_inj, String.reduceEq] at hclass
    simp [Stmt.tree] at h
    simp [Shows, h.1, Label.eq_of_tree h.2]
  | continueTo pos label =>
    cases x' <;> simp only [className, Text.ofString_inj, String.reduceEq] at hclass
    simp [Stmt.tree] at h
    simp [Shows, h.1, Label.eq_of_tree h.2]
  | _ =>
    cases x' <;> simp only [className, Text.ofString_inj, String.reduceEq] at hclass
    simp [Stmt.tree] at h
    simp [Shows, h, and_assoc]

theorem Member.shows {x x' : Member} (h : x'.tree = x.tree.move φ) : x.Shows φ x' := by
  have hclass := Member.className_eq h
  cases x with
  | classDecl decl =>
    cases x' <;> simp only [className, Text.ofString_inj, String.reduceEq] at hclass
    exact ⟨_, rfl, h⟩
  | _ =>
    cases x' <;> simp only [className, Text.ofString_inj, String.reduceEq] at hclass
    simp [Member.tree] at h
    simp [Shows, h, and_assoc]

mutual

theorem Expr.core_eq : (x x' : Expr) → x'.tree = x.tree.move φ → x'.core id = x.core φ
  | .literal pos value, x', h => by
    rw [show x' = _ from Expr.shows h]
    rw [Expr.core, Expr.core]
    rfl
  | .name pos word, x', h => by
    rw [show x' = _ from Expr.shows h]
    rw [Expr.core, Expr.core]
    rfl
  | .field pos object _, x', h => by
    obtain ⟨object', _, rfl, hobject⟩ := Expr.shows h
    rw [Expr.core, Expr.core, Expr.core_eq object object' hobject]
    rfl
  | .index pos object position, x', h => by
    obtain ⟨object', position', rfl, hobject, hposition⟩ := Expr.shows h
    rw [Expr.core, Expr.core, Expr.core_eq object object' hobject,
      Expr.core_eq position position' hposition]
    rfl
  | .call pos callee args, x', h => by
    obtain ⟨callee', args', rfl, hcallee, hargs⟩ := Expr.shows h
    rw [Expr.core, Expr.core, Expr.core_eq callee callee' hcallee, Expr.cores_eq args args' hargs]
    rfl
  | .newObject pos _ args, x', h | .newArray pos _ args, x', h => by
    obtain ⟨_, args', hform, hargs⟩ := Expr.shows h
    have hargs := Expr.cores_eq args args' hargs
    obtain rfl | rfl := hform
    · rw [Expr.core, Expr.core, hargs]
      rfl
    · rw [Expr.core, Expr.core, hargs]
      rfl
  | .newAnonymous pos _ args members, x', h => by
    obtain ⟨_, args', members', rfl, hargs, hmembers⟩ := Expr.shows h
    rw [Expr.core, Expr.core, Expr.cores_eq args args' hargs,
      Member.cores_eq members members' hmembers]
    rfl
  | .newArrayOf pos _ _ elements, x', h => by
    obtain ⟨_, _, elements', rfl, helements⟩ := Expr.shows h
    rw [Expr.core, Expr.core, Expr.cores_eq elements elements' helements]
    rfl
  | .arrayLit pos elements, x', h => by
    obtain ⟨elements', rfl, helements⟩ := Expr.shows h
    rw [Expr.core, Expr.core, Expr.cores_eq elements elements' helements]
    rfl
  | .unary pos op operand, x', h => by
    obtain ⟨operand', rfl, hoperand⟩ := Expr.shows h
    rw [Expr.core, Expr.core, Expr.core_eq operand operand' hoperand]
    rfl
  | .step pos _ _ target, x', h => by
    obtain ⟨_, _, target', rfl, htarget⟩ := Expr.shows h
    rw [Expr.core, Expr.core, Expr.core_eq target target' htarget]
    rfl
  | .binary pos op left right, x', h => by
    obtain ⟨left', right', rfl, hleft, hright⟩ := Expr.shows h
    rw [Expr.core, Expr.core, Expr.core_eq left left' hleft, Expr.core_eq right right' hright]
    rfl
  | .instanceOf pos operand _, x', h => by
    obtain ⟨operand', _, rfl, hoperand⟩ := Expr.shows h
    rw [Expr.core, Expr.core, Expr.core_eq operand operand' hoperand]
    rfl
  | .cast pos _ operand, x', h => by
    obtain ⟨_, operand', rfl, hoperand⟩ := Expr.shows h
    rw [Expr.core, Expr.core, Expr.core_eq operand operand' hoperand]
    rfl
  | .conditional pos cond onTrue onFalse, x', h => by
    obtain ⟨cond', onTrue', onFalse', rfl, hcond, htrue, hfalse⟩ := Expr.shows h
    rw [Expr.core, Expr.core, Expr.core_eq cond cond' hcond, Expr.core_eq onTrue onTrue' htrue,
      Expr.core_eq onFalse onFalse' hfalse]
    rfl
  | .assign pos _ target value, x', h => by
    obtain ⟨_, target', value', rfl, htarget, hvalue⟩ := Expr.shows h
    rw [Expr.core, Expr.core, Expr.core_eq target target' htarget,
      Expr.core_eq value value' hvalue]
    rfl
  | .lambda pos params body, x', h => by
    obtain ⟨params', body', rfl, hparams, hbody⟩ := Expr.shows h
    rw [Expr.core, Expr.core, Param.cores_eq hparams, LambdaBody.core_eq body body' hbody]
    rfl
  | .methodRef pos object _, x', h => by
    obtain ⟨object', _, rfl, hobject⟩ := Expr.shows h
    rw [Expr.core, Expr.core, Expr.core_eq object object' hobject]
    rfl
termination_by structural x => x

theorem Expr.cores_eq : (xs xs' : List Expr) →
    Expr.trees xs' = Tree.moveItems φ (Expr.trees xs) → Expr.cores id xs' = Expr.cores φ xs
  | [], [], _ => rfl
  | [], _ :: _, h => by cases h
  | _ :: _, [], h => by cases h
  | x :: xs, x' :: xs', h => by
    obtain ⟨hx, hxs⟩ := List.cons.inj h
    rw [Expr.cores, Expr.cores, Expr.core_eq x x' hx, Expr.cores_eq xs xs' hxs]
termination_by structural x => x

theorem Expr.coreOption_eq : (x x' : Option Expr) →
    Expr.treeOption x' = (Expr.treeOption x).move φ → Expr.coreOption id x' = Expr.coreOption φ x
  | none, none, _ => rfl
  | some x, none, h => absurd h.symm x.moved_ne_absent
  | none, some x', h => absurd (congrArg (Tree.move id) h) x'.moved_ne_absent
  | some x, some x', h => congrArg some (Expr.core_eq x x' h)
termination_by structural x => x

theorem LambdaBody.core_eq : (x x' : LambdaBody) → x'.tree = x.tree.move φ →
    x'.core id = x.core φ
  | .expr x, .expr x', h => congrArg LambdaBody.expr (Expr.core_eq x x' h)
  | .expr x, .block x', h =>
    absurd (x'.label_tree.symm.trans (Tree.label_eq h)) x.label_ne_block.symm
  | .block x, .expr x', h => absurd ((Tree.label_eq h).trans x.label_tree) x'.label_ne_block
  | .block x, .block x', h => congrArg LambdaBody.block (Block.core_eq x x' h)
termination_by structural x => x

theorem Stmt.core_eq : (x x' : Stmt) → x'.tree = x.tree.move φ → x'.core id = x.core φ
  | .block body, x', h => by
    obtain ⟨body', rfl, hbody⟩ := Stmt.shows h
    rw [Stmt.core, Stmt.core, Block.core_eq body body' hbody]
  | .localDecl decl, x', h => by
    obtain ⟨decl', rfl, hdecl⟩ := Stmt.shows h
    rw [Stmt.core, Stmt.core, LocalDecl.core_eq decl decl' hdecl]
  | .expr pos value, x', h => by
    obtain ⟨value', rfl, hvalue⟩ := Stmt.shows h
    rw [Stmt.core, Stmt.core, Expr.core_eq value value' hvalue]
    rfl
  | .ifElse pos cond onTrue onFalse, x', h => by
    obtain ⟨cond', onTrue', onFalse', rfl, hcond, htrue, hfalse⟩ := Stmt.shows h
    rw [Stmt.core, Stmt.core, Expr.core_eq cond cond' hcond, Stmt.core_eq onTrue onTrue' htrue,
      Stmt.coreOption_eq onFalse onFalse' hfalse]
    rfl
  | .whileLoop pos cond body, x', h => by
    obtain ⟨cond', body', rfl, hcond, hbody⟩ := Stmt.shows h
    rw [Stmt.core, Stmt.core, Expr.core_eq cond cond' hcond, Stmt.core_eq body body' hbody]
    rfl
  | .doLoop pos body cond, x', h => by
    obtain ⟨body', cond', rfl, hbody, hcond⟩ := Stmt.shows h
    rw [Stmt.core, Stmt.core, Stmt.core_eq body body' hbody, Expr.core_eq cond cond' hcond]
    rfl
  | .forLoop pos init cond update body, x', h => by
    obtain ⟨init', cond', update', body', rfl, hinit, hcond, hupdate, hbody⟩ := Stmt.shows h
    rw [Stmt.core, Stmt.core, ForInit.core_eq init init' hinit,
      Expr.coreOption_eq cond cond' hcond, Expr.cores_eq update update' hupdate,
      Stmt.core_eq body body' hbody]
    rfl
  | .forEach pos param iterable body, x', h => by
    obtain ⟨param', iterable', body', rfl, hparam, hiterable, hbody⟩ := Stmt.shows h
    rw [Stmt.core, Stmt.core, Param.core_eq hparam, Expr.core_eq iterable iterable' hiterable,
      Stmt.core_eq body body' hbody]
    rfl
  | .switch pos selector groups, x', h => by
    obtain ⟨selector', groups', rfl, hselector, hgroups⟩ := Stmt.shows h
    rw [Stmt.core, Stmt.core, Expr.core_eq selector selector' hselector,
      SwitchGroup.cores_eq groups groups' hgroups]
    rfl
  | .tryCatch pos body clauses cleanup, x', h => by
    obtain ⟨body', clauses', cleanup', rfl, hbody, hclauses, hcleanup⟩ := Stmt.shows h
    rw [Stmt.core, Stmt.core, Block.core_eq body body' hbody,
      CatchClause.cores_eq clauses clauses' hclauses,
      Block.coreOption_eq cleanup cleanup' hcleanup]
    rfl
  | .returnValue pos value, x', h => by
    obtain ⟨value', rfl, hvalue⟩ := Stmt.shows h
    rw [Stmt.core, Stmt.core, Expr.coreOption_eq value value' hvalue]
    rfl
  | .throwValue pos value, x', h => by
    obtain ⟨value', rfl, hvalue⟩ := Stmt.shows h
    rw [Stmt.core, Stmt.core, Expr.core_eq value value' hvalue]
    rfl
  | .breakTo pos label, x', h => by
    rw [show x' = _ from Stmt.shows h]
    rw [Stmt.core, Stmt.core]
    rfl
  | .continueTo pos label, x', h => by
    rw [show x' = _ from Stmt.shows h]
    rw [Stmt.core, Stmt.core]
    rfl
  | .labeled pos label body, x', h => by
    obtain ⟨body', rfl, hbody⟩ := Stmt.shows h
    rw [Stmt.core, Stmt.core, Stmt.core_eq body body' hbody]
    rfl
  | .empty pos, x', h => by
    rw [show x' = _ from Stmt.shows h]
    rw [Stmt.core, Stmt.core]
    rfl
  | .localClass pos decl, x', h => by
    obtain ⟨decl', rfl, hdecl⟩ := Stmt.shows h
    rw [Stmt.core, Stmt.core, ClassDecl.core_eq decl decl' hdecl]
    rfl
termination_by structural x => x

theorem Stmt.cores_eq : (xs xs' : List Stmt) →
    Stmt.trees xs' = Tree.moveItems φ (Stmt.trees xs) → Stmt.cores id xs' = Stmt.cores φ xs
  | [], [], _ => rfl
  | [], _ :: _, h => by cases h
  | _ :: _, [], h => by cases h
  | x :: xs, x' :: xs', h => by
    obtain ⟨hx, hxs⟩ := List.cons.inj h
    rw [Stmt.cores, Stmt.cores, Stmt.core_eq x x' hx, Stmt.cores_eq xs xs' hxs]
termination_by structural x => x

theorem Stmt.coreOption_eq : (x x' : Option Stmt) →
    Stmt.treeOption x' = (Stmt.treeOption x).move φ → Stmt.coreOption id x' = Stmt.coreOption φ x
  | none, none, _ => rfl
  | some x, none, h => absurd h.symm x.moved_ne_absent
  | none, some x', h => absurd (congrArg (Tree.move id) h) x'.moved_ne_absent
  | some x, some x', h => congrArg some (Stmt.core_eq x x' h)
termination_by structural x => x

theorem ForInit.core_eq : (x x' : ForInit) → x'.tree = x.tree.move φ → x'.core id = x.core φ
  | .decl d, .decl d', h => by
    obtain ⟨hd, -⟩ := List.cons.inj (Tree.list.inj h)
    exact congrArg ForInit.decl (LocalDecl.core_eq d d' hd)
  | .decl _, .exprs [], h => by cases h
  | .decl d, .exprs (_ :: _), h => by
    obtain ⟨hd, -⟩ := List.cons.inj (Tree.list.inj h)
    have hlabel := (Tree.label_eq hd).trans d.label_tree
    simp [Tree.label] at hlabel
  | .exprs [], .decl _, h => by cases h
  | .exprs (_ :: _), .decl d', h => by
    obtain ⟨hd, -⟩ := List.cons.inj (Tree.list.inj h)
    have hlabel := d'.label_tree.symm.trans (Tree.label_eq hd)
    simp [Tree.label] at hlabel
  | .exprs values, .exprs values', h =>
    congrArg ForInit.exprs (Expr.statements_eq values values' (Tree.list.inj h))
termination_by structural x => x

theorem Expr.statements_eq : (xs xs' : List Expr) →
    Expr.statementTrees xs' = Tree.moveItems φ (Expr.statementTrees xs) →
      Expr.cores id xs' = Expr.cores φ xs
  | [], [], _ => rfl
  | [], _ :: _, h => by cases h
  | _ :: _, [], h => by cases h
  | x :: xs, x' :: xs', h => by
    obtain ⟨hx, hxs⟩ := List.cons.inj h
    rw [Expr.cores, Expr.cores, Expr.core_eq x x' (Expr.of_statementTree hx),
      Expr.statements_eq xs xs' hxs]
termination_by structural x => x

theorem Block.core_eq : (x x' : Block) → x'.tree = x.tree.move φ → x'.core id = x.core φ
  | ⟨pos, stmts⟩, ⟨pos', stmts'⟩, h => by
    simp only [Block.tree, Tree.move, Tree.moveFields, Tree.node.injEq, List.cons.injEq,
      Prod.mk.injEq, true_and, and_true, Tree.place.injEq, Tree.list.injEq] at h
    obtain ⟨rfl, hstmts⟩ := h
    rw [Block.core, Block.core, Stmt.cores_eq stmts stmts' hstmts]
    rfl
termination_by structural x => x

theorem Block.coreOption_eq : (x x' : Option Block) →
    Block.treeOption x' = (Block.treeOption x).move φ →
      Block.coreOption id x' = Block.coreOption φ x
  | none, none, _ => rfl
  | some ⟨_, _⟩, none, h => by cases h
  | none, some ⟨_, _⟩, h => by cases h
  | some x, some x', h => congrArg some (Block.core_eq x x' h)
termination_by structural x => x

theorem LocalDecl.core_eq : (x x' : LocalDecl) → x'.tree = x.tree.move φ →
    x'.core id = x.core φ
  | ⟨pos, modifiers, type, declarators⟩, ⟨pos', modifiers', type', declarators'⟩, h => by
    simp only [LocalDecl.tree, Tree.move, Tree.moveFields, Tree.node.injEq, List.cons.injEq,
      Prod.mk.injEq, true_and, and_true, Tree.place.injEq, Tree.list.injEq] at h
    obtain ⟨rfl, hmodifiers, -, hdeclarators⟩ := h
    rw [LocalDecl.core, LocalDecl.core, Modifier.eq_of_trees hmodifiers,
      Declarator.cores_eq declarators declarators' hdeclarators]
    rfl
termination_by structural x => x

theorem Declarator.cores_eq : (xs xs' : List Declarator) →
    Declarator.trees xs' = Tree.moveItems φ (Declarator.trees xs) →
      Declarator.cores id xs' = Declarator.cores φ xs
  | [], [], _ => rfl
  | [], _ :: _, h => by cases h
  | _ :: _, [], h => by cases h
  | ⟨pos, name, dims, init⟩ :: xs, ⟨pos', name', dims', init'⟩ :: xs', h => by
    obtain ⟨hx, hxs⟩ := List.cons.inj h
    simp only [Declarator.tree, Tree.move, Tree.moveFields, Tree.node.injEq, List.cons.injEq,
      Prod.mk.injEq, true_and, and_true, Tree.place.injEq, Tree.text.injEq] at hx
    obtain ⟨rfl, rfl, -, hinit⟩ := hx
    rw [Declarator.cores, Declarator.cores, Expr.coreOption_eq init init' hinit,
      Declarator.cores_eq xs xs' hxs]
    rfl
termination_by structural x => x

theorem SwitchGroup.cores_eq : (xs xs' : List SwitchGroup) →
    SwitchGroup.trees xs' = Tree.moveItems φ (SwitchGroup.trees xs) →
      SwitchGroup.cores id xs' = SwitchGroup.cores φ xs
  | [], [], _ => rfl
  | [], _ :: _, h => by cases h
  | _ :: _, [], h => by cases h
  | ⟨pos, labels, isDefault, body⟩ :: xs, ⟨pos', labels', isDefault', body'⟩ :: xs', h => by
    obtain ⟨hx, hxs⟩ := List.cons.inj h
    simp only [SwitchGroup.tree, Tree.move, Tree.moveFields, Tree.node.injEq, List.cons.injEq,
      Prod.mk.injEq, true_and, and_true, Tree.place.injEq, Tree.list.injEq, Tree.flag.injEq] at hx
    obtain ⟨rfl, hlabels, rfl, hbody⟩ := hx
    rw [SwitchGroup.cores, SwitchGroup.cores, Expr.cores_eq labels labels' hlabels,
      Stmt.cores_eq body body' hbody, SwitchGroup.cores_eq xs xs' hxs]
    rfl
termination_by structural x => x

theorem CatchClause.cores_eq : (xs xs' : List CatchClause) →
    CatchClause.trees xs' = Tree.moveItems φ (CatchClause.trees xs) →
      CatchClause.cores id xs' = CatchClause.cores φ xs
  | [], [], _ => rfl
  | [], _ :: _, h => by cases h
  | _ :: _, [], h => by cases h
  | ⟨pos, param, types, body⟩ :: xs, ⟨pos', param', types', body'⟩ :: xs', h => by
    obtain ⟨hx, hxs⟩ := List.cons.inj h
    simp only [CatchClause.tree, Tree.move, Tree.moveFields, Tree.node.injEq, List.cons.injEq,
      Prod.mk.injEq, true_and, and_true, Tree.place.injEq] at hx
    obtain ⟨rfl, hparam, -, hbody⟩ := hx
    rw [CatchClause.cores, CatchClause.cores, Param.core_eq hparam,
      Block.core_eq body body' hbody, CatchClause.cores_eq xs xs' hxs]
    rfl
termination_by structural x => x

theorem Member.core_eq : (x x' : Member) → x'.tree = x.tree.move φ → x'.core id = x.core φ
  | .field pos _ _ declarators, x', h => by
    obtain ⟨_, _, declarators', rfl, hdeclarators⟩ := Member.shows h
    rw [Member.core, Member.core, Declarator.cores_eq declarators declarators' hdeclarators]
    rfl
  | .method pos _ _ name params body, x', h => by
    obtain ⟨_, _, params', body', rfl, hparams, hbody⟩ := Member.shows h
    rw [Member.core, Member.core, Param.cores_eq hparams, Block.coreOption_eq body body' hbody]
    rfl
  | .initializer pos isStatic body, x', h => by
    obtain ⟨body', rfl, hbody⟩ := Member.shows h
    rw [Member.core, Member.core, Block.core_eq body body' hbody]
    rfl
  | .classDecl decl, x', h => by
    obtain ⟨decl', rfl, hdecl⟩ := Member.shows h
    rw [Member.core, Member.core, ClassDecl.core_eq decl decl' hdecl]
termination_by structural x => x

theorem Member.cores_eq : (xs xs' : List Member) →
    Member.trees xs' = Tree.moveItems φ (Member.trees xs) →
      Member.cores id xs' = Member.cores φ xs
  | [], [], _ => rfl
  | [], _ :: _, h => by cases h
  | _ :: _, [], h => by cases h
  | x :: xs, x' :: xs', h => by
    obtain ⟨hx, hxs⟩ := List.cons.inj h
    rw [Member.cores, Member.cores, Member.core_eq x x' hx, Member.cores_eq xs xs' hxs]
termination_by structural x => x

theorem ClassDecl.core_eq : (x x' : ClassDecl) → x'.tree = x.tree.move φ →
    x'.core id = x.core φ
  | ⟨pos, modifiers, name, members⟩, ⟨pos', modifiers', name', members'⟩, h => by
    simp only [ClassDecl.tree, Tree.move, Tree.moveFields, Tree.node.injEq, List.cons.injEq,
      Prod.mk.injEq, true_and, and_true, Tree.place.injEq, Tree.text.injEq, Tree.list.injEq] at h
    obtain ⟨rfl, -, rfl, hmembers⟩ := h
    rw [ClassDecl.core, ClassDecl.core, Member.cores_eq members members' hmembers]
    rfl
termination_by structural x => x

end

theorem ClassDecl.cores_eq {ds ds' : List ClassDecl}
    (h : ds'.map ClassDecl.tree = Tree.moveItems φ (ds.map ClassDecl.tree)) :
    ds'.map (ClassDecl.core id) = ds.map (ClassDecl.core φ) := by
  induction ds generalizing ds' with
  | nil =>
    obtain rfl := List.map_eq_nil_iff.1 h
    rfl
  | cons d ds ih =>
    obtain _ | ⟨d', ds'⟩ := ds'
    · cases h
    · obtain ⟨hd, hds⟩ := List.cons.inj h
      rw [List.map_cons, List.map_cons, ClassDecl.core_eq d d' hd, ih hds]

theorem Program.core_eq {p p' : Program} (h : p'.tree = p.tree.move φ) :
    p'.core id = p.core φ := by
  simp only [Program.tree, Tree.move, Tree.moveFields, Tree.node.injEq, List.cons.injEq,
    Prod.mk.injEq, true_and, and_true, Tree.list.injEq] at h
  rw [Program.core, Program.core, ClassDecl.cores_eq h]

theorem Member.className_ne (m : Member) :
    m.className ≠ "JModule" ∧ m.className ≠ "JBlock" := by
  cases m <;> simp [className, Text.ofString_inj]

theorem Fragment.label_tree (f : Fragment) : f.tree.label = f.className := by
  cases f with
  | program p => rfl
  | member m => exact m.label_tree
  | block b => exact b.label_tree

/-- A tree tells what kind of fragment it shows. -/
theorem Fragment.core_eq {f f' : Fragment} (h : f'.tree = f.tree.move φ) :
    f'.core id = f.core φ := by
  have hclass := Tree.label_eq h
  rw [f.label_tree, f'.label_tree] at hclass
  cases f with
  | program p =>
    cases f' with
    | program p' => exact congrArg Fragment.program (Program.core_eq h)
    | member m' => exact absurd hclass m'.className_ne.1
    | block b' => simp [className, Text.ofString_inj] at hclass
  | member m =>
    cases f' with
    | program p' => exact absurd hclass.symm m.className_ne.1
    | member m' => exact congrArg Fragment.member (Member.core_eq m m' h)
    | block b' => exact absurd hclass.symm m.className_ne.2
  | block b =>
    cases f' with
    | program p' => simp [className, Text.ofString_inj] at hclass
    | member m' => exact absurd hclass m'.className_ne.2
    | block b' => exact congrArg Fragment.block (Block.core_eq b b' h)

end WriteOnce
