import WriteOnce.Grammar.Statements
import WriteOnce.Proofs.MovedLists
import WriteOnce.Proofs.ParallelExpressions

/-!
# Statements of changed tokens
-/

namespace WriteOnce

variable {ρ : Recast} {whole s s₁ s₂ : TokenStream}

/-! ## Trees -/

theorem Stmt.trees_eq_map (ss : List Stmt) : Stmt.trees ss = ss.map Stmt.tree := by
  induction ss with
  | nil => rfl
  | cons s ss ih => rw [Stmt.trees, ih, List.map_cons]

theorem Declarator.trees_eq_map (ds : List Declarator) :
    Declarator.trees ds = ds.map Declarator.tree := by
  induction ds with
  | nil => rfl
  | cons d ds ih => rw [Declarator.trees, ih, List.map_cons]

theorem SwitchGroup.trees_eq_map (gs : List SwitchGroup) :
    SwitchGroup.trees gs = gs.map SwitchGroup.tree := by
  induction gs with
  | nil => rfl
  | cons g gs ih => rw [SwitchGroup.trees, ih, List.map_cons]

theorem CatchClause.trees_eq_map (cs : List CatchClause) :
    CatchClause.trees cs = cs.map CatchClause.tree := by
  induction cs with
  | nil => rfl
  | cons c cs ih => rw [CatchClause.trees, ih, List.map_cons]

theorem Expr.treeOption_eq (x : Option Expr) : Expr.treeOption x = Tree.option Expr.tree x := by
  cases x <;> rfl

theorem Stmt.treeOption_eq (x : Option Stmt) : Stmt.treeOption x = Tree.option Stmt.tree x := by
  cases x <;> rfl

theorem Block.treeOption_eq (x : Option Block) : Block.treeOption x = Tree.option Block.tree x := by
  cases x <;> rfl

/-- The statement that shows an expression in the head of a loop. -/
def Expr.statementTree (e : Expr) : Tree :=
  .node "JExprStmt" [("pos", .place e.pos), ("expr", e.tree)]

theorem Expr.statementTrees_eq_map (es : List Expr) :
    Expr.statementTrees es = es.map Expr.statementTree := by
  induction es with
  | nil => rfl
  | cons e es ih => rw [Expr.statementTrees, ih, List.map_cons]; rfl

theorem Yields.statement {e e' : Expr} (h : Yields ρ s s₁ e.tree e'.tree) :
    Yields ρ s s₁ e.statementTree e'.statementTree := by
  unfold Expr.statementTree
  rw [(Expr.of_tree h.moved).1]
  exact .placed e.pos (.cons h (.nil (.refl s₁))) (by simp)

/-! ## Productions -/

namespace Parser

variable {α : Type} {R : TokenStream → TokenStream → α → α → Prop} {p : Parser α}

theorem follows_unlessSeen (word : Text) (h : Follows ρ whole s p p (R s)) :
    Follows ρ whole s (Production.unlessSeen word p) (Production.unlessSeen word p) fun s₁ x y =>
      Maybe R s s₁ x y := by
  refine .seeing word fun found => .ite (fun _ => .pure (.none (.refl s))) fun _ => ?_
  exact h.bind fun s₁ a b _ hab => .pure (.some hab)

theorem follows_enclosed (enclosure : Enclosure) {closes : TokenStream → Bool}
    (hcloses : closes (s.recast ρ) = closes s) (h : Follows ρ whole s p p (R s)) :
    Follows ρ whole s (Production.enclosed enclosure closes p)
      (Production.enclosed enclosure closes p) fun s₁ x y => Maybe R s s₁ x y := by
  refine .looking hcloses fun found _ => .ite (fun _ => .pure (.none (.refl s))) fun _ => ?_
  refine .looking s.atEnd_recast fun atEnd _ => .ite (fun _ => follows_fail _) fun _ => ?_
  exact h.bind fun s₁ a b _ hab => .pure (.some hab)

end Parser

namespace Production

open WriteOnce.Parser

variable {g : Grammar} (hw : Readable ρ whole) (hg : Steady ρ whole g)

include hg

theorem follows_localClass :
    Follows ρ whole s (localClass g) (localClass g) (Reads ρ Stmt.tree s) := by
  refine .placing fun pos _ => follows_modifiers.bind ?_
  rintro s₁ _ ms hs₁ rfl
  refine (hg.classDecl s₁ pos ms).bind fun s₂ d d' _ hd => .pure (.pass hs₁ ?_)
  exact .placed pos (.cons hd (.nil (.refl s₂))) (by simp)

include hw

theorem follows_exprInParens :
    Follows ρ whole s (exprInParens g) (exprInParens g) (Reads ρ Expr.tree s) := by
  refine .closing hw "(" fun s₁ hs₁ => (follows_expr hw hg).bind fun s₂ e e' hs₂ he => ?_
  exact .closing hw ")" fun s₃ hs₃ => .pure ((Yields.left he hs₃).pass hs₁)

theorem follows_initialValue :
    Follows ρ whole s (initialValue g) (initialValue g) (Reads ρ Expr.tree s) := by
  refine .seeing "\x7b" fun found => .ite (fun _ => ?_) fun _ => follows_expr hw hg
  exact (follows_arrayLit hw hg).bind fun s₁ e e' _ h => .pure h

/-- The name of a declarator is a token of its own. -/
theorem follows_declaratorOf {s' : TokenStream} {name : Token} (hname : name.text.Coded)
    (htext : (name.recast ρ).text = name.text) (htaken : s'.ahead = name :: s.ahead) :
    Follows ρ whole s (declaratorOf g name) (declaratorOf g (name.recast ρ))
      (Reads ρ Declarator.tree s') := by
  refine follows_dims.bind ?_
  rintro s₁ n _ hs₁ rfl
  refine (follows_after "=" fun _ _ => follows_initialValue hw hg).bind fun s₂ x y _ hxy => ?_
  have hinit := hxy.yields
  rw [← Expr.treeOption_eq, ← Expr.treeOption_eq] at hinit
  exact .pure (.declaring (by simp) htaken rfl (.cons (.word htext hname hs₁)
    (.cons (.number _ (.refl s₁)) (.cons hinit (.nil (.refl s₂))))))

theorem follows_declarator :
    Follows ρ whole s (declarator g) (declarator g) (Reads ρ Declarator.tree s) :=
  .naming hw fun _ _ _ hname htext htaken => follows_declaratorOf hw hg hname htext htaken

theorem follows_localDecl :
    Follows ρ whole s (localDecl g) (localDecl g) (Reads ρ LocalDecl.tree s) := by
  refine .placing fun pos _ => follows_modifiers.bind ?_
  rintro s₁ _ ms hs₁ rfl
  refine (follows_typeRef hw hg).bind fun s₂ type type' hs₂ htype => ?_
  refine (follows_separatedBy "," fun _ _ => follows_declarator hw hg).bind fun s₃ ds ds' _ h => ?_
  exact .pure (.placed pos (.cons (.modifiers ms hs₁) (.cons htype
    (.cons (.list (h.trees Declarator.trees_eq_map)) (.nil (.refl s₃))))) (by simp))

theorem follows_block : Follows ρ whole s (block g) (block g) (Reads ρ Block.tree s) := by
  refine .expecting hw "\x7b" fun s₁ brace hs₁ _ => ?_
  refine (Follows.many fun s₂ _ => follows_enclosed .block (s₂.sees_recast _) (hg.stmt s₂)).bind ?_
  intro s₂ ss ss' hs₂ h
  refine .closing hw "\x7d" fun s₃ hs₃ => .pure (.pass hs₁ ?_)
  exact .placed brace.pos (.cons (.list (h.trees Stmt.trees_eq_map)) (.nil hs₃)) (by simp)

theorem follows_exprStmt : Follows ρ whole s (exprStmt g) (exprStmt g) (Reads ρ Stmt.tree s) := by
  refine .placing fun pos _ => (follows_expr hw hg).bind fun s₁ e e' hs₁ he => ?_
  exact .closing hw ";" fun s₂ hs₂ => .pure (.placed pos (.cons he (.nil hs₂)) (by simp))

theorem follows_ifStmt : Follows ρ whole s (ifStmt g) (ifStmt g) (Reads ρ Stmt.tree s) := by
  refine .expecting hw "if" fun s₁ word hs₁ _ => (follows_exprInParens hw hg).bind ?_
  intro s₂ c c' hs₂ hc
  refine (hg.stmt s₂).bind fun s₃ t t' hs₃ ht => ?_
  refine (follows_after "else" fun s₄ _ => hg.stmt s₄).bind fun s₄ x y hs₄ hxy => ?_
  have hfalse := hxy.yields
  rw [← Stmt.treeOption_eq, ← Stmt.treeOption_eq] at hfalse
  exact .pure (.pass hs₁ (.placed word.pos (.cons hc (.cons ht (.cons hfalse (.nil (.refl s₄)))))
    (by simp)))

theorem follows_whileStmt :
    Follows ρ whole s (whileStmt g) (whileStmt g) (Reads ρ Stmt.tree s) := by
  refine .expecting hw "while" fun s₁ word hs₁ _ => (follows_exprInParens hw hg).bind ?_
  intro s₂ c c' hs₂ hc
  refine (hg.stmt s₂).bind fun s₃ b b' hs₃ hb => .pure (.pass hs₁ ?_)
  exact .placed word.pos (.cons hc (.cons hb (.nil (.refl s₃)))) (by simp)

theorem follows_doStmt : Follows ρ whole s (doStmt g) (doStmt g) (Reads ρ Stmt.tree s) := by
  refine .expecting hw "do" fun s₁ word hs₁ _ => (hg.stmt s₁).bind fun s₂ b b' hs₂ hb => ?_
  refine .closing hw "while" fun s₃ hs₃ => (follows_exprInParens hw hg).bind ?_
  intro s₄ c c' hs₄ hc
  refine .closing hw ";" fun s₅ hs₅ => .pure (.pass hs₁ ?_)
  exact .placed word.pos (.cons (.left hb hs₃) (.cons hc (.nil hs₅))) (by simp)

theorem follows_forEachRest {pos : Pos} :
    Follows ρ whole s (forEachRest g pos) (forEachRest g (ρ.place pos)) (Reads ρ Stmt.tree s) := by
  refine follows_modifiers.bind ?_
  rintro s₁ _ ms hs₁ rfl
  refine (follows_typeRef hw hg).bind fun s₂ type type' hs₂ htype => ?_
  refine .naming hw fun s₃ name hs₃ hname htext htaken => .closing hw ":" fun s₄ hs₄ => ?_
  refine (follows_expr hw hg).bind fun s₅ e e' hs₅ he => .closing hw ")" fun s₆ hs₆ => ?_
  refine (hg.stmt s₆).bind fun s₇ b b' hs₇ hb => .pure (.pass (hs₁.trans hs₂) ?_)
  refine .placed pos (.cons (.declaring (by simp) htaken rfl ?_)
    (.cons he (.cons (.pass hs₆ hb) (.nil (.refl s₇))))) (by simp)
  exact .cons (.modifiers ms (.refl s₃)) (.cons (htype.anywhere (TypeRef.uses_tree _) (.refl s₃))
    (.cons (.word htext hname (.refl s₃)) (.cons (.flag false (.refl s₃)) (.nil hs₄))))

theorem follows_forInit : Follows ρ whole s (forInit g) (forInit g) (Reads ρ ForInit.tree s) := by
  refine .seeing ";" fun found => .ite (fun _ => .pure (.list (.nil (.refl s)))) fun _ => ?_
  refine .looking (by simp) fun declares _ => .ite (fun _ => ?_) fun _ => ?_
  · exact (follows_localDecl hw hg).bind fun s₁ d d' _ hd =>
      .pure (.list (.cons hd (.nil (.refl s₁))))
  · refine (follows_separatedBy "," fun _ _ => follows_expr hw hg).bind fun s₁ es es' _ hes => ?_
    have hstatements : Chain (Reads ρ Expr.statementTree) s s₁ es es' := hes.imp Yields.statement
    exact .pure (.list (hstatements.trees Expr.statementTrees_eq_map))

theorem follows_forRest {pos : Pos} :
    Follows ρ whole s (forRest g pos) (forRest g (ρ.place pos)) (Reads ρ Stmt.tree s) := by
  refine (follows_forInit hw hg).bind fun s₁ i i' hs₁ hi => .closing hw ";" fun s₂ hs₂ => ?_
  refine (follows_unlessSeen ";" (follows_expr hw hg)).bind fun s₃ c c' hs₃ hc => ?_
  refine .closing hw ";" fun s₄ hs₄ => ?_
  refine (follows_unlessSeen ")" (R := Reads ρ listTree) ?_).bind ?_
  · exact (follows_separatedBy "," fun _ _ => follows_expr hw hg).imp fun s₅ es es' _ h =>
      .list (exprItems h)
  intro s₅ u u' hs₅ hu
  refine .closing hw ")" fun s₆ hs₆ => (hg.stmt s₆).bind fun s₇ b b' hs₇ hb => .pure ?_
  have hcond := hc.yields
  rw [← Expr.treeOption_eq, ← Expr.treeOption_eq] at hcond
  have hupdate : Yields ρ s₄ s₅ (.list (Expr.trees (u.getD [])))
      (.list (Expr.trees (u'.getD []))) := by
    cases hu with
    | none hs => exact .list (.nil hs)
    | some h => exact h
  exact .placed pos (.cons (.left hi hs₂) (.cons (.left hcond hs₄) (.cons (.left hupdate hs₆)
    (.cons hb (.nil (.refl s₇)))))) (by simp)

theorem follows_forStmt : Follows ρ whole s (forStmt g) (forStmt g) (Reads ρ Stmt.tree s) := by
  refine .expecting hw "for" fun s₁ word hs₁ _ => .closing hw "(" fun s₂ hs₂ => ?_
  refine .looking (by simp) fun forEach _ => .ite (fun _ => ?_) fun _ => ?_
  · exact (follows_forEachRest hw hg).imp fun s₃ x y _ h => .pass (hs₁.trans hs₂) h
  · exact (follows_forRest hw hg).imp fun s₃ x y _ h => .pass (hs₁.trans hs₂) h

omit hg hw

theorem seesGroup_recast : seesGroup (s.recast ρ) = seesGroup s := by
  simp [seesGroup]

/-- Labels of a group, and whether one of them is `default`. -/
def ReadsLabels (ρ : Recast) (s s₁ : TokenStream) (a b : List Expr × Bool) : Prop :=
  b.2 = a.2 ∧ Reads ρ listTree s s₁ a.1 b.1

include hg hw

theorem follows_groupLabels {s' : TokenStream} {a b : List Expr × Bool}
    (h : ReadsLabels ρ s' s a b) :
    Follows ρ whole s (groupLabels g a) (groupLabels g b) fun s₁ x y =>
      x.isSome = y.isSome ∧ ReadsLabels ρ s' s₁ (x.getD a) (y.getD b) := by
  obtain ⟨es, _⟩ := a
  obtain ⟨es', isDefault⟩ := b
  obtain ⟨rfl, hes⟩ := h
  have hlabels : YieldsItems ρ s' s (Expr.trees es) (Expr.trees es') := .of_list hes
  have hcolon : ∀ s₁ x y, ReadsLabels ρ s' s₁ x y →
      Follows ρ whole s₁
        (do if ← sees "->" then fail .arrowGroup else discard (expect ":"); return some x)
        (do if ← sees "->" then fail .arrowGroup else discard (expect ":"); return some y)
        fun s₂ u v => u.isSome = v.isSome ∧
          ReadsLabels ρ s' s₂ (u.getD (es, isDefault)) (v.getD (es', isDefault)) := by
    intro s₁ x y h
    refine .seeing "->" fun found => .ite (fun _ => follows_fail _) fun _ => ?_
    exact .closing hw ":" fun s₂ hs₂ => .pure ⟨rfl, h.1, Yields.left h.2 hs₂⟩
  refine .looking seesGroup_recast fun found _ => .ite (fun _ => ?_) fun _ => .pure ⟨rfl, rfl, hes⟩
  refine .accepting "default" fun s₁ found hs₁ => .ite (fun _ => ?_) fun _ => ?_
  · exact hcolon s₁ _ _ ⟨rfl, Yields.left (.list hlabels) hs₁⟩
  · refine .skipping 1 fun s₂ hs₂ => ?_
    refine (follows_separatedBy "," fun _ _ => follows_conditional hw hg).bind ?_
    intro s₃ xs ys hs₃ hxs
    refine hcolon s₃ _ _ ⟨rfl, ?_⟩
    have hall := hlabels.append ((exprItems hxs).pass (hs₁.trans hs₂))
    rw [Reads, listTree, listTree, Expr.trees_eq_map, Expr.trees_eq_map, List.map_append,
      List.map_append, ← Expr.trees_eq_map, ← Expr.trees_eq_map, ← Expr.trees_eq_map,
      ← Expr.trees_eq_map]
    exact .list hall

theorem follows_switchGroup :
    Follows ρ whole s (switchGroup g) (switchGroup g) (Reads ρ SwitchGroup.tree s) := by
  refine .placing fun pos _ => .looking seesGroup_recast fun found _ => .ite (fun _ => ?_) fun _ =>
    follows_failWith _
  refine (Follows.iterate (R := ReadsLabels ρ s) (fun _ _ _ _ h => follows_groupLabels hw hg h)
    ⟨rfl, .list (.nil (.refl s))⟩).bind ?_
  rintro s₁ ⟨es, _⟩ ⟨es', isDefault⟩ hs₁ ⟨rfl, hes⟩
  refine (Follows.many fun s₂ _ => follows_enclosed .switch (by simp [seesGroup_recast])
    (hg.stmt s₂)).bind fun s₂ ss ss' _ h => .pure ?_
  exact .placed pos (.cons hes (.cons (.flag isDefault (.refl s₁))
    (.cons (.list (h.trees Stmt.trees_eq_map)) (.nil (.refl s₂))))) (by simp)

theorem follows_switchStmt :
    Follows ρ whole s (switchStmt g) (switchStmt g) (Reads ρ Stmt.tree s) := by
  refine .expecting hw "switch" fun s₁ word hs₁ _ => (follows_exprInParens hw hg).bind ?_
  intro s₂ e e' hs₂ he
  refine .closing hw "\x7b" fun s₃ hs₃ => ?_
  refine (Follows.many fun s₄ _ => follows_unlessSeen "\x7d" (follows_switchGroup hw hg)).bind ?_
  intro s₄ gs gs' _ h
  refine .closing hw "\x7d" fun s₅ hs₅ => .pure (.pass hs₁ ?_)
  exact .placed word.pos (.cons (.left he hs₃) (.cons (.list (h.trees SwitchGroup.trees_eq_map))
    (.nil hs₅))) (by simp)

theorem follows_catchClause :
    Follows ρ whole s (catchClause g) (catchClause g) fun s₁ x y =>
      Maybe (Reads ρ CatchClause.tree) s s₁ x y := by
  refine .seeing "catch" fun found => .ite (fun _ => ?_) fun _ => .pure (.none (.refl s))
  refine .taking hw fun s₁ hs₁ _ => .closing hw "(" fun s₂ hs₂ => follows_modifiers.bind ?_
  rintro s₃ _ ms hs₃ rfl
  refine (follows_typeRef hw hg).bind fun s₄ type type' hs₄ htype => ?_
  refine (Follows.many fun _ _ => follows_after "|" fun _ _ => follows_typeRef hw hg).bind ?_
  intro s₅ ts ts' hs₅ hts
  refine .naming hw fun s₆ name hs₆ hname htext htaken => .closing hw ")" fun s₇ hs₇ => ?_
  refine (follows_block hw hg).bind fun s₈ b b' hs₈ hb => .pure (Maybe.some ?_)
  have htypes : Yields ρ s₃ s₅ (typesTree (type :: ts)) (typesTree (type' :: ts')) :=
    .list (.cons htype hts.items)
  have huses : (typesTree (type :: ts)).uses = [] := by
    rw [typesTree, ← TypeRef.trees_eq_map]
    exact TypeRef.uses_trees _
  refine .pass (hs₁.trans (hs₂.trans (hs₃.trans (hs₄.trans hs₅)))) ?_
  refine .placed s.current.pos (.cons (.declaring (by simp) htaken rfl ?_)
    (.cons (htypes.anywhere huses hs₇) (.cons hb (.nil (.refl s₈))))) (by simp)
  exact .cons (.modifiers ms (.refl s₆)) (.cons (htype.anywhere (TypeRef.uses_tree _) (.refl s₆))
    (.cons (.word htext hname (.refl s₆)) (.cons (.flag false (.refl s₆)) (.nil (.refl s₆)))))

theorem follows_tryStmt : Follows ρ whole s (tryStmt g) (tryStmt g) (Reads ρ Stmt.tree s) := by
  refine .expecting hw "try" fun s₁ word hs₁ hpos => .seeing "(" fun found =>
    .ite (fun _ => follows_fail _) fun _ => (follows_block hw hg).bind fun s₂ b b' hs₂ hb => ?_
  refine (Follows.many fun _ _ => follows_catchClause hw hg).bind fun s₃ cs cs' hs₃ hcs => ?_
  refine (follows_after "finally" fun _ _ => follows_block hw hg).bind fun s₄ x y hs₄ hxy => ?_
  have hclauses : cs'.isEmpty = cs.isEmpty := by
    cases hcs <;> rfl
  have hcleanup : y.isNone = x.isNone := by
    cases hxy <;> rfl
  rw [hclauses, hcleanup]
  refine .ite (fun _ => follows_failAt hpos _) fun _ => .pure (.pass hs₁ ?_)
  have hfinally := hxy.yields
  rw [← Block.treeOption_eq, ← Block.treeOption_eq] at hfinally
  exact .placed word.pos (.cons hb (.cons (.list (hcs.trees CatchClause.trees_eq_map))
    (.cons hfinally (.nil (.refl s₄))))) (by simp)

theorem follows_returnStmt :
    Follows ρ whole s (returnStmt g) (returnStmt g) (Reads ρ Stmt.tree s) := by
  refine .expecting hw "return" fun s₁ word hs₁ _ => ?_
  refine (follows_unlessSeen ";" (follows_expr hw hg)).bind fun s₂ x y hs₂ hxy => ?_
  refine .closing hw ";" fun s₃ hs₃ => .pure (.pass hs₁ ?_)
  have hvalue := hxy.yields
  rw [← Expr.treeOption_eq, ← Expr.treeOption_eq] at hvalue
  exact .placed word.pos (.cons hvalue (.nil hs₃)) (by simp)

theorem follows_throwStmt :
    Follows ρ whole s (throwStmt g) (throwStmt g) (Reads ρ Stmt.tree s) := by
  refine .expecting hw "throw" fun s₁ word hs₁ _ => (follows_expr hw hg).bind ?_
  intro s₂ e e' hs₂ he
  refine .closing hw ";" fun s₃ hs₃ => .pure (.pass hs₁ ?_)
  exact .placed word.pos (.cons he (.nil hs₃)) (by simp)

omit hg

theorem follows_jumpStmt {jump : Pos → Option Text → Stmt}
    (hjump : ∀ {s s₁} pos label, Yields ρ s s₁ (Tree.option .text label) (Tree.option .text label) →
      Yields ρ s s₁ (jump pos label).tree (jump (ρ.place pos) label).tree) :
    Follows ρ whole s (jumpStmt jump) (jumpStmt jump) (Reads ρ Stmt.tree s) := by
  refine .taking hw fun s₁ hs₁ _ => .looking (by simp) fun named hnamed => ?_
  subst hnamed
  refine .ite (fun hident => ?_) fun _ => ?_
  · refine .taking hw fun s₂ hs₂ ht => .closing hw ";" fun s₃ hs₃ => .pure ?_
    rw [Token.text_recast_ident hident]
    exact .pass hs₁ (hjump s.current.pos _ (.text ht (hs₂.trans hs₃)))
  · refine .closing hw ";" fun s₂ hs₂ => .pure ?_
    exact .pass hs₁ (hjump s.current.pos none (.absent hs₂))

include hg

theorem follows_synchronizedStmt :
    Follows ρ whole s (synchronizedStmt g) (synchronizedStmt g) (Reads ρ Stmt.tree s) := by
  refine .expecting hw "synchronized" fun s₁ word hs₁ _ => (follows_exprInParens hw hg).bind ?_
  intro s₂ e e' hs₂ he
  refine (follows_block hw hg).bind fun s₃ b b' hs₃ hb => .pure (.pass hs₁ ?_)
  exact .placed word.pos (.cons (.list (.cons (Yields.statement he) (.cons hb (.nil (.refl s₃)))))
    (.nil (.refl s₃))) (by simp)

theorem follows_labeledStmt (hlabel : s.current.isIdent = true) :
    Follows ρ whole s (labeledStmt g) (labeledStmt g) (Reads ρ Stmt.tree s) := by
  refine .taking hw fun s₁ hs₁ ht => .skipping 1 fun s₂ hs₂ => (hg.stmt s₂).bind ?_
  intro s₃ b b' hs₃ hb
  refine .pure (.pass hs₁ ?_)
  have htext : (s.current.recast ρ).text = s.current.text := Token.text_recast_ident hlabel
  exact .placed s.current.pos (.cons (.word htext ht hs₂) (.cons hb (.nil (.refl s₃)))) (by simp)

theorem follows_localDeclStmt :
    Follows ρ whole s (localDeclStmt g) (localDeclStmt g) (Reads ρ Stmt.tree s) := by
  refine (follows_localDecl hw hg).bind fun s₁ d d' _ hd => .closing hw ";" fun s₂ hs₂ => ?_
  exact .pure (Yields.left hd hs₂)

theorem follows_plainStmt :
    Follows ρ whole s (plainStmt g) (plainStmt g) (Reads ρ Stmt.tree s) := by
  refine .looking (by simp) fun isClass _ => .ite (fun _ => follows_localClass hg) fun _ => ?_
  refine .looking (by simp [Token.reads_recast, mem_steeringWords]) fun labeled hlabeled => ?_
  subst hlabeled
  refine .ite (fun h => follows_labeledStmt hw hg (Bool.and_eq_true_iff.1 h).1) fun _ => ?_
  refine .looking (by simp) fun declares _ => .ite (fun _ => ?_) fun _ => follows_exprStmt hw hg
  exact follows_localDeclStmt hw hg

omit hg

theorem follows_emptyStmt : Follows ρ whole s emptyStmt emptyStmt (Reads ρ Stmt.tree s) :=
  .taking hw fun s₁ hs₁ _ =>
    .pure (.pass hs₁ (.placed s.current.pos (.nil (.refl s₁)) (by simp)))

include hg

/-- Every statement with a word or sign of its own goes the same way. -/
theorem follows_announcedStmts :
    ∀ e ∈ announcedStmts g, Follows ρ whole s e.2 e.2 (Reads ρ Stmt.tree s) := by
  simp only [announcedStmts, List.forall_mem_cons, List.not_mem_nil, false_implies, implies_true,
    and_true]
  refine ⟨?_, follows_emptyStmt hw, follows_ifStmt hw hg, follows_whileStmt hw hg,
    follows_doStmt hw hg, follows_forStmt hw hg, follows_switchStmt hw hg, follows_tryStmt hw hg,
    follows_returnStmt hw hg, follows_throwStmt hw hg, follows_jumpStmt hw ?_,
    follows_jumpStmt hw ?_, follows_synchronizedStmt hw hg⟩
  · exact (follows_block hw hg).bind fun s₁ b b' _ hb => .pure hb
  · exact fun pos label h => .placed pos (.cons h (.nil (.refl _))) (by simp)
  · exact fun pos label h => .placed pos (.cons h (.nil (.refl _))) (by simp)

theorem follows_stmt : Follows ρ whole s (stmt g) (stmt g) (Reads ρ Stmt.tree s) := by
  refine .atCurrent hw fun t _ _ => .ite (fun _ => follows_exprStmt hw hg) fun hquoted => ?_
  rw [Token.text_recast (Bool.eq_false_of_not_eq_true hquoted)]
  cases h : (announcedStmts g).lookup t.text with
  | none => exact follows_plainStmt hw hg
  | some p => exact follows_announcedStmts hw hg (t.text, p) (mem_of_lookup h)

end Production

end WriteOnce
