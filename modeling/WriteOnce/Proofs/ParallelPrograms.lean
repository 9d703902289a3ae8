import WriteOnce.Proofs.ParallelStatements
import WriteOnce.Syntax.Source

/-!
# Programs of changed tokens

Members and classes, and then the whole grammar at any limit of nesting.
-/

namespace WriteOnce

variable {ρ : Recast} {whole s s₁ s₂ : TokenStream}

namespace Production

open WriteOnce.Parser

theorem follows_skipTypeParams :
    Follows ρ whole s skipTypeParams skipTypeParams fun _ _ _ => True := by
  intro hs
  rw [skipTypeParams, skipTypeParams, s.sees_recast]
  split_ifs
  · have hscan : Lookahead.skipTypeParams? 0 (s.recast ρ).ahead.tail =
        (Lookahead.skipTypeParams? 0 s.ahead.tail).map (List.map (Token.recast ρ)) := by
      rw [TokenStream.ahead_recast, ← List.map_tail, Lookahead.skipTypeParams?_map]
    rw [hscan]
    cases h : Lookahead.skipTypeParams? 0 s.ahead.tail with
    | none => exact follows_fail _ hs
    | some rest =>
      have hsuffix := (Lookahead.skipTypeParams?_suffix h).trans (List.tail_suffix s.ahead)
      exact .ok (s := { s with ahead := rest }) ⟨⟨hsuffix, rfl⟩, trivial⟩
  · exact .ok ⟨.refl s, trivial⟩

theorem atConstructor_recast (className : Option Text) :
    atConstructor className (s.recast ρ) = atConstructor className s := by
  simp only [atConstructor, TokenStream.current_recast, TokenStream.next_recast,
    Token.isIdent_recast, Token.reads_recast, mem_steeringWords]
  cases hident : s.current.isIdent with
  | true => rw [Token.text_recast_ident hident]
  | false => rfl

variable {g : Grammar} (hw : Readable ρ whole) (hg : Steady ρ whole g)

include hg hw

theorem follows_methodRest {s' : TokenStream} {pos : Pos} {ms : List Modifier}
    (result result' : Option TypeRef) {name : Text} (hname : name.Coded)
    (hresult : Yields ρ s' s (Tree.option TypeRef.tree result) (Tree.option TypeRef.tree result')) :
    Follows ρ whole s (methodRest g pos ms result name) (methodRest g (ρ.place pos) ms result' name)
      (Reads ρ Member.tree s') := by
  refine .closing hw "(" fun s₁ hs₁ => (follows_paramList hw hg).bind fun s₂ ps qs hs₂ hps => ?_
  refine .closing hw ")" fun s₃ hs₃ => (follows_discard follows_dims).bind fun s₄ _ _ hs₄ _ => ?_
  refine (follows_discard (follows_after "throws" fun _ _ => (follows_separatedBy ","
    fun _ _ => follows_typeRef hw hg).imp fun _ _ _ _ h => .list h.items)).bind ?_
  intro s₅ _ _ hs₅ _
  have hparams : Yields ρ s s₅ (paramsTree ps) (paramsTree qs) :=
    .pass hs₁ (.left hps (hs₃.trans (hs₄.trans hs₅)))
  refine .accepting ";" fun s₆ found hs₆ => .ite (fun _ => .pure ?_) fun _ => ?_
  · exact .placed pos (.cons (.modifiers ms (.refl s')) (.cons hresult
      (.cons (.text hname (.refl s)) (.cons hparams (.cons (.absent hs₆) (.nil (.refl s₆)))))))
      (by simp)
  · refine (follows_block hw hg).bind fun s₇ b b' hs₇ hb => .pure ?_
    exact .placed pos (.cons (.modifiers ms (.refl s')) (.cons hresult
      (.cons (.text hname (.refl s)) (.cons hparams (.cons (.pass hs₆ hb) (.nil (.refl s₇)))))))
      (by simp)

theorem follows_typedMember {pos : Pos} {ms : List Modifier} :
    Follows ρ whole s (typedMember g pos ms) (typedMember g (ρ.place pos) ms)
      (Reads ρ Member.tree s) := by
  refine (follows_typeRef hw hg).bind fun s₁ type type' hs₁ htype => ?_
  refine .naming hw fun s₂ name hs₂ hname htext htaken => .seeing "(" fun found => ?_
  refine .ite (fun _ => ?_) fun _ => ?_
  · rw [htext]
    exact follows_methodRest hw hg (some type) (some type') hname
      (Yields.left htype hs₂)
  · refine (follows_declaratorOf hw hg hname htext htaken).bind fun s₃ d d' hs₃ hd => ?_
    refine (Follows.many fun _ _ => follows_after "," fun _ _ => follows_declarator hw hg).bind ?_
    intro s₄ ds ds' _ hds
    refine .closing hw ";" fun s₅ hs₅ => .pure ?_
    have hall : Chain (Reads ρ Declarator.tree) s₁ s₄ (d :: ds) (d' :: ds') := .cons hd hds
    exact .placed pos (.cons (.modifiers ms (.refl s)) (.cons htype
      (.cons (.list (hall.trees Declarator.trees_eq_map)) (.nil hs₅)))) (by simp)

theorem follows_member (className : Option Text) :
    Follows ρ whole s (member g className) (member g className) fun s₁ x y =>
      Maybe (Reads ρ Member.tree) s s₁ x y := by
  refine .placing fun pos _ => .accepting ";" fun s₁ found hs₁ => .ite (fun _ => .pure (.none hs₁))
    fun _ => follows_modifiers.bind ?_
  rintro s₂ _ ms hs₂ rfl
  have hs : s.Leaves s₂ := hs₁.trans hs₂
  refine .seeing "\x7b" fun found => .ite (fun _ => ?_) fun _ => .seeing "class" fun found =>
    .ite (fun _ => ?_) fun _ => ?_
  · refine (follows_block hw hg).bind fun s₃ b b' hs₃ hb => .pure (Maybe.some (.pass hs ?_))
    exact .placed pos (.cons (.flag _ (.refl s₂)) (.cons hb (.nil (.refl s₃)))) (by simp)
  · exact (hg.classDecl s₂ pos ms).bind fun s₃ d d' _ hd => .pure (Maybe.some (.pass hs hd))
  · refine follows_skipTypeParams.bind fun s₃ _ _ hs₃ _ => ?_
    refine .looking (atConstructor_recast className) fun constructs hconstructs => ?_
    subst hconstructs
    refine .ite (fun hconstructor => ?_) fun _ => ?_
    · refine .taking hw fun s₄ hs₄ hname => ?_
      have hident : s₃.current.isIdent = true :=
        (Bool.and_eq_true_iff.1 (Bool.and_eq_true_iff.1 hconstructor).1).1
      rw [Token.text_recast_ident hident]
      refine (follows_methodRest hw hg none none hname (.absent (.refl s₄))).bind ?_
      intro s₅ m m' _ hm
      exact .pure (Maybe.some (.pass (hs.trans (hs₃.trans hs₄)) hm))
    · exact (follows_typedMember hw hg).bind fun s₄ m m' _ hm =>
        .pure (Maybe.some (.pass (hs.trans hs₃) hm))

theorem follows_classBody (className : Option Text) :
    Follows ρ whole s (classBody g className) (classBody g className)
      (Reads ρ membersTree s) := by
  refine .closing hw "\x7b" fun s₁ hs₁ => ?_
  refine (Follows.many fun s₂ _ => follows_enclosed .classBody (s₂.sees_recast _)
    (follows_member hw hg className)).bind fun s₂ ms ms' _ hms => ?_
  refine .closing hw "\x7d" fun s₃ hs₃ => .pure (.pass hs₁ (.left (.list ?_) hs₃))
  rw [Member.trees_eq_map, Member.trees_eq_map]
  exact hms.presentItems

theorem follows_classDecl (pos : Pos) (ms : List Modifier) :
    Follows ρ whole s (classDecl g pos ms) (classDecl g (ρ.place pos) ms)
      (Reads ρ ClassDecl.tree s) := by
  refine .closing hw "class" fun s₁ hs₁ => .naming hw fun s₂ name hs₂ hname htext _ => ?_
  rw [htext]
  refine follows_skipTypeParams.bind fun s₃ _ _ hs₃ _ => ?_
  refine (follows_discard (follows_after "extends" fun _ _ => follows_typeRef hw hg)).bind ?_
  intro s₄ _ _ hs₄ _
  refine (follows_discard (follows_after "implements" fun _ _ => (follows_separatedBy ","
    fun _ _ => follows_typeRef hw hg).imp fun _ _ _ _ h => .list h.items)).bind ?_
  intro s₅ _ _ hs₅ _
  refine (follows_classBody hw hg (some name.text)).bind fun s₆ body body' _ hbody => .pure ?_
  have hs : s.Leaves s₅ := hs₁.trans (hs₂.trans (hs₃.trans (hs₄.trans hs₅)))
  exact .placed pos (.cons (.modifiers ms (.refl s)) (.cons (.text hname hs)
    (.cons hbody (.nil (.refl s₆))))) (by simp)

end Production

namespace Parser

/-! ## Levels of nesting -/

theorem steady_exhausted : Steady ρ whole .exhausted where
  typeRef _ := follows_fail _
  expr _ := follows_fail _
  conditional _ := follows_fail _
  unary _ := follows_fail _
  arrayLit _ := follows_fail _
  block _ := follows_fail _
  stmt _ := follows_fail _
  classBody _ _ := follows_fail _
  classDecl _ _ _ := follows_fail _

theorem Steady.nest {g : Grammar} (hw : Readable ρ whole) (hg : Steady ρ whole g) :
    Steady ρ whole g.nest where
  typeRef _ := Production.follows_typeRef hw hg
  expr _ := Production.follows_expr hw hg
  conditional _ := Production.follows_conditional hw hg
  unary _ := Production.follows_unary hw hg
  arrayLit _ := Production.follows_arrayLit hw hg
  block _ := Production.follows_block hw hg
  stmt _ := Production.follows_stmt hw hg
  classBody _ className := Production.follows_classBody hw hg className
  classDecl _ pos modifiers := Production.follows_classDecl hw hg pos modifiers

theorem steady_ofDepth (hw : Readable ρ whole) (depth : Nat) :
    Steady ρ whole (.ofDepth depth) := by
  induction depth with
  | zero => exact steady_exhausted
  | succ depth ih => exact ih.nest hw

end Parser

/-! ## Whole sources -/

namespace Grammar

open WriteOnce.Parser

variable {g : Grammar} (hw : Readable ρ whole) (hg : Steady ρ whole g)

include hg

theorem follows_topLevelClass :
    Follows ρ whole s (topLevelClass g) (topLevelClass g) fun s₁ x y =>
      Maybe (Reads ρ ClassDecl.tree) s s₁ x y := by
  refine .accepting ";" fun s₁ found hs₁ => .ite (fun _ => .pure (.none hs₁)) fun _ => ?_
  refine .placing fun pos _ => Production.follows_modifiers.bind ?_
  rintro s₂ _ ms hs₂ rfl
  exact (hg.classDecl s₂ pos ms).bind fun s₃ d d' _ hd =>
    .pure (Maybe.some (.pass (hs₁.trans hs₂) hd))

theorem follows_programItem :
    Follows ρ whole s (programItem g) (programItem g) fun s₁ x y =>
      Maybe (Maybe (Reads ρ ClassDecl.tree)) s s₁ x y := by
  refine .looking s.atEnd_recast fun atEnd _ => .ite (fun _ => .pure (.none (.refl s))) fun _ => ?_
  exact (follows_topLevelClass hg).bind fun s₁ x y _ h => .pure (Maybe.some h)

theorem follows_program :
    Follows ρ whole s (program g) (program g) (Reads ρ Program.tree s) := by
  refine (Follows.many fun _ _ => follows_programItem hg).bind fun s₁ ds ds' _ hds => .pure ?_
  have hclasses := hds.presentItems
  refine ⟨?_, ?_, fun p => ?_⟩
  · rw [Program.tree, Program.tree, Tree.recast_node (by simp)]
    exact congrArg (fun ts => Tree.node "JModule" [("classes", .list ts)]) hclasses.moved
  · exact ⟨hclasses.coded, trivial⟩
  · simpa [Program.tree, Tree.uses, Tree.usesFields, Tree.ownUses] using hclasses.uses p

theorem follows_wholeBlock :
    Follows ρ whole s (wholeBlock g) (wholeBlock g) (Reads ρ Block.tree s) := by
  refine (hg.block s).bind fun s₁ b b' _ hb => .looking s₁.atEnd_recast fun atEnd _ => ?_
  exact .ite (fun _ => .pure hb) fun _ => follows_failWith _

end Grammar

end WriteOnce
