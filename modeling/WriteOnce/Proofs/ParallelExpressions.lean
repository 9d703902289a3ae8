import WriteOnce.Grammar.Expressions
import WriteOnce.Proofs.ParallelTypes

/-!
# Expressions of changed tokens
-/

namespace WriteOnce

variable {ρ : Recast} {whole s s₁ s₂ : TokenStream}

/-! ## Trees -/

theorem Expr.trees_eq_map (es : List Expr) : Expr.trees es = es.map Expr.tree := by
  induction es with
  | nil => rfl
  | cons e es ih => rw [Expr.trees, ih, List.map_cons]

theorem Member.trees_eq_map (ms : List Member) : Member.trees ms = ms.map Member.tree := by
  induction ms with
  | nil => rfl
  | cons m ms ih => rw [Member.trees, ih, List.map_cons]

theorem Expr.ownPlace?_tree (e : Expr) : e.tree.ownPlace? = some e.pos := by
  cases e <;> rfl

/-- What the tree of an expression tells about it at once. -/
theorem Expr.of_tree {e e' : Expr} (h : e'.tree = e.tree.recast ρ) :
    e'.pos = ρ.place e.pos ∧ e'.isTarget = e.isTarget := by
  have hplace : (e.tree.recast ρ).ownPlace? = some (ρ.place e.pos) :=
    Tree.ownPlace?_recast e.ownPlace?_tree
  have hclass : e'.className = e.className := by
    rw [← label_tree, ← label_tree, h, Tree.label_recast]
  constructor
  · rw [← h, e'.ownPlace?_tree] at hplace
    exact Option.some.inj hplace
  · cases e <;> cases e' <;> first | rfl | simp [className] at hclass

theorem Literal.coded_kindName (l : Literal) : l.kindName.Coded := by
  cases l <;> exact Text.coded_ofString _

theorem StepOp.coded_symbol (op : StepOp) : op.symbol.Coded := by
  cases op <;> exact Text.coded_ofString _

theorem UnaryOp.coded_symbol (op : UnaryOp) : op.symbol.Coded := by
  cases op <;> exact Text.coded_ofString _

theorem BinaryOp.coded_symbol (op : BinaryOp) : op.symbol.Coded := by
  cases op <;> exact Text.coded_ofString _

theorem AssignOp.coded_symbol (op : AssignOp) : op.symbol.Coded := by
  cases op <;> exact Text.coded_ofString _

/-! ## Productions -/

namespace Production

open WriteOnce.Parser

/-- Expressions in one list. -/
def listTree (es : List Expr) : Tree := .list (Expr.trees es)

theorem exprItems {es es' : List Expr} (h : Chain (Reads ρ Expr.tree) s s₁ es es') :
    YieldsItems ρ s s₁ (Expr.trees es) (Expr.trees es') := h.trees Expr.trees_eq_map

variable {g : Grammar} (hw : Readable ρ whole) (hg : Steady ρ whole g)

include hg

theorem follows_argList : Follows ρ whole s (argList g) (argList g) (Reads ρ listTree s) := by
  refine .seeing ")" fun found => .ite (fun _ => .pure (.list (.nil (.refl s)))) fun _ => ?_
  exact (follows_separatedBy "," fun s₁ _ => hg.expr s₁).imp fun s₁ es es' _ h =>
    .list (exprItems h)

theorem follows_arrayElement :
    Follows ρ whole s (arrayElement g) (arrayElement g) (Reads ρ Expr.tree s) := by
  refine .seeing "\x7b" fun found => .ite (fun _ => ?_) fun _ => hg.expr s
  exact (hg.arrayLit s).bind fun s₁ e e' _ h => .pure h

theorem follows_nextArrayElement :
    Follows ρ whole s (nextArrayElement g) (nextArrayElement g) fun s₁ x y =>
      Maybe (Reads ρ Expr.tree) s s₁ x y := by
  refine .accepting "," fun s₁ found hs₁ => .ite (fun _ => ?_) fun _ => .pure (.none hs₁)
  refine .seeing "\x7d" fun found => .ite (fun _ => .pure (.none hs₁)) fun _ => ?_
  exact (follows_arrayElement hg).bind fun s₂ e e' _ h => .pure (.some (h.pass hs₁))

include hw

theorem follows_arrayLit :
    Follows ρ whole s (arrayLit g) (arrayLit g)
      (Reads ρ (fun e => (Expr.arrayLit e.1 e.2).tree) s) := by
  refine .expecting hw "\x7b" fun s₁ brace hs₁ _ => .accepting "\x7d" fun s₂ found hs₂ =>
    .ite (fun _ => ?_) fun _ => ?_
  · exact .pure (.placed _ (.cons (.list (.nil (hs₁.trans hs₂))) (.nil (.refl s₂))) (by simp))
  · refine (follows_arrayElement hg).bind fun s₃ e e' hs₃ he => ?_
    refine (Follows.many fun s₄ _ => follows_nextArrayElement hg).bind fun s₄ es es' hs₄ hes => ?_
    refine .closing hw "\x7d" fun s₅ hs₅ => .pure (.pass (hs₁.trans hs₂) ?_)
    exact .placed _ (.cons (.list (exprItems (.cons he hes))) (.nil hs₅)) (by simp)

/-- Sizes that are left out take nothing but tokens. -/
theorem follows_arraySize :
    Follows ρ whole s (arraySize g) (arraySize g) fun s₁ x y =>
      Maybe (Maybe (Reads ρ Expr.tree)) s s₁ x y := by
  refine .accepting "[" fun s₁ found hs₁ => .ite (fun _ => ?_) fun _ => .pure (.none hs₁)
  refine .accepting "]" fun s₂ found hs₂ => .ite (fun _ => ?_) fun _ => ?_
  · exact .pure (.some (.none (hs₁.trans hs₂)))
  · refine (hg.expr s₂).bind fun s₃ e e' hs₃ he => .closing hw "]" fun s₄ hs₄ => ?_
    exact .pure (.some (.some ((Yields.left he hs₄).pass (hs₁.trans hs₂))))

theorem follows_newExpr : Follows ρ whole s (newExpr g) (newExpr g) (Reads ρ Expr.tree s) := by
  refine .expecting hw "new" fun s₁ word hs₁ _ => (follows_typeRef hw hg).bind ?_
  intro s₂ type type' hs₂ htype
  obtain ⟨-, hname, -, hdims⟩ := TypeRef.of_tree htype.moved
  rw [hdims]
  refine .ite (fun _ => ?_) fun _ => .accepting "(" fun s₃ found hs₃ => .ite (fun _ => ?_) fun _ =>
    .seeing "[" fun found => .ite (fun _ => ?_) fun _ => ?_
  · refine (follows_arrayLit hw hg).bind ?_
    rintro s₃ ⟨pos, es⟩ ⟨pos', es'⟩ hs₃ hes
    refine .pure (.pass hs₁ (.placed word.pos (.cons htype (.cons (.list (.nil (.refl s₂)))
      (.cons (.list (.nil (.refl s₂))) (.cons hes (.cons (.absent (.refl s₃))
        (.nil (.refl s₃))))))) (by simp)))
  · refine (follows_argList hg).bind fun s₄ es es' hs₄ hes => .closing hw ")" fun s₅ hs₅ =>
      .seeing "\x7b" fun found => .ite (fun _ => ?_) fun _ => ?_
    · refine (hg.classBody s₅ none).bind fun s₆ ms ms' hs₆ hms => .pure (.pass hs₁ ?_)
      exact .placed word.pos (.cons htype (.cons (hes.pass hs₃) (.cons (.list (.nil hs₅))
        (.cons (.absent (.refl s₅)) (.cons hms (.nil (.refl s₆))))))) (by simp)
    · exact .pure (.pass hs₁ (.placed word.pos (.cons htype (.cons (hes.pass hs₃)
        (.cons (.list (.nil hs₅)) (.cons (.absent (.refl s₅)) (.cons (.absent (.refl s₅))
          (.nil (.refl s₅))))))) (by simp)))
  · refine (Follows.many fun s₄ _ => follows_arraySize hw hg).bind ?_
    intro s₄ sizes sizes' hs₄ hsizes
    rw [hsizes.length_eq]
    have hpresent := hsizes.presentItems
    rw [← Expr.trees_eq_map, ← Expr.trees_eq_map] at hpresent
    exact .pure (.pass hs₁ (.placed word.pos (.cons (htype.withDims _ hs₂)
      (.cons (.list (.nil hs₃)) (.cons (.list hpresent) (.cons (.absent (.refl s₄))
        (.cons (.absent (.refl s₄)) (.nil (.refl s₄))))))) (by simp)))
  · rw [hname]
    exact follows_fail _

/-- The parameters of a lambda take the first token, which is a name or a parenthesis. -/
theorem follows_lambdaParams :
    Follows ρ whole s (lambdaParams g) (lambdaParams g) fun s₁ ps qs =>
      Reads ρ paramsTree s s₁ ps qs ∧ s.Passes s₁ := by
  refine .looking (by simp) fun isIdent _ => .ite (fun _ => ?_) fun _ => ?_
  · exact (follows_inferredParam hw).bind fun s₁ p q _ ⟨h, hpasses⟩ =>
      .pure ⟨.list (.cons h (.nil (.refl s₁))), hpasses⟩
  · refine (follows_discard (follows_expect hw "(")).bind fun s₁ _ _ hs₁ ⟨_, _, _, hopen⟩ => ?_
    have hpasses := hopen (by decide)
    refine .looking (by simp [Token.reads_recast, mem_steeringWords]) fun inferred _ => ?_
    have hclose : ∀ s₂ ps qs, s₁.Leaves s₂ → Reads ρ paramsTree s₁ s₂ ps qs →
        Follows ρ whole s₂ (discard (expect ")") >>= fun _ => pure ps)
          (discard (expect ")") >>= fun _ => pure qs) fun s₃ ps qs =>
            Reads ρ paramsTree s s₃ ps qs ∧ s.Passes s₃ := fun s₂ ps qs hs₂ h =>
      .closing hw ")" fun s₃ hs₃ =>
        .pure ⟨(Yields.left h hs₃).pass hs₁, hpasses.left (hs₂.trans hs₃)⟩
    refine .ite (fun _ => ?_) fun _ => ?_
    · have hparam : ∀ s₂, s₁.Leaves s₂ → Follows ρ whole s₂ inferredParam inferredParam
          (Reads ρ Param.tree s₂) := fun _ _ => (follows_inferredParam hw).imp fun _ _ _ _ h => h.1
      exact (follows_separatedBy "," hparam).bind fun s₂ ps qs hs₂ h =>
        hclose s₂ ps qs hs₂ (.list h.items)
    · exact (follows_paramList hw hg).bind fun s₂ ps qs hs₂ h => hclose s₂ ps qs hs₂ h

theorem follows_lambda : Follows ρ whole s (lambda g) (lambda g) (Reads ρ Expr.tree s) := by
  refine follows_pos.bind ?_
  rintro _ _ _ - ⟨rfl, rfl, rfl, -⟩
  refine (follows_lambdaParams hw hg).bind fun s₁ ps qs hs₁ ⟨hps, hpasses⟩ => ?_
  have hnone := not_lambda_paramsTree ps
  refine (follows_discard (follows_expect hw "->")).bind fun s₂ _ _ hs₂ _ => ?_
  refine .seeing "\x7b" fun found => .ite (fun _ => ?_) fun _ => ?_
  · refine (hg.block s₂).bind fun s₃ b b' hs₃ hb => .pure ?_
    exact .lambda hpasses hps hnone (.cons (hb.pass hs₂) (.nil (.refl s₃)))
  · refine (hg.expr s₂).bind fun s₃ e e' hs₃ he => .pure ?_
    exact .lambda hpasses hps hnone (.cons (he.pass hs₂) (.nil (.refl s₃)))

omit hg hw

theorem literal?_recast (t : Token) :
    literal? (t.recast ρ) = (literal? t).map (Literal.recast ρ) := by
  obtain ⟨kind, text, pos⟩ := t
  cases kind with
  | int | float | string | char => rfl
  | _ =>
    change literal? ⟨_, text, ρ.place pos⟩ = _
    simp only [literal?]
    split_ifs <;> rfl

theorem isQuoted_of_literal?_eq_none {t : Token} (h : literal? t = none) : t.isQuoted = false := by
  obtain ⟨kind, text, pos⟩ := t
  cases kind with
  | string | char => cases h
  | _ => rfl

theorem coded_raw {t : Token} {value : Literal} (ht : t.text.Coded) (h : literal? t = some value) :
    value.raw.Coded := by
  obtain ⟨kind, text, pos⟩ := t
  cases kind <;> simp only [literal?] at h
  case int | float | string | char =>
    cases h
    exact ht
  all_goals
    split_ifs at h <;> cases h <;> exact Text.coded_ofString _

/-- The end of the input is no name. -/
theorem ahead_of_isNameWord {t : Token} (hcurrent : t = s.current) (hword : isNameWord t = true) :
    s.ahead = t :: (s.skip 1).ahead := by
  subst hcurrent
  obtain ⟨_ | ⟨t, ts⟩, stop⟩ := s
  · have hnone : isNameWord (.endAt ⟨0, 0⟩) = false := by decide
    exact absurd hword (Bool.eq_false_iff.1 hnone)
  · rfl

include hg hw

theorem follows_primary : Follows ρ whole s (primary g) (primary g) (Reads ρ Expr.tree s) := by
  refine (follows_current hw).bind ?_
  rintro _ t _ - ⟨rfl, hcurrent, rfl, ht, -⟩
  rw [literal?_recast]
  cases hvalue : literal? t with
  | some value =>
    refine .skipping 1 fun s₁ hs₁ => .pure (.leaf hs₁ (Expr.tree_recast_literal t.pos value) ?_ ?_)
    · exact ⟨trivial, Literal.coded_kindName value, coded_raw ht hvalue, trivial⟩
    · simp [Expr.tree, Tree.uses, Tree.usesFields, Tree.ownUses]
  | none =>
    have htext : (t.recast ρ).text = t.text :=
      Token.text_recast (isQuoted_of_literal?_eq_none hvalue)
    have hname : isNameWord (t.recast ρ) = isNameWord t := by
      rw [isNameWord, htext]
      rfl
    dsimp only [Option.map_none]
    rw [hname]
    refine .looking (by simp) fun atLambda _ => .ite (fun _ => follows_lambda hw hg) fun _ => ?_
    refine .ite (fun hword => ?_) fun _ => .accepting "(" fun s₁ found hs₁ =>
      .ite (fun _ => ?_) fun _ => ?_
    · refine (follows_skip 1).bind ?_
      rintro s₁ _ _ - rfl
      refine .pure (.declaring (by simp) (ahead_of_isNameWord hcurrent hword) rfl ?_)
      exact .cons (.word htext ht (.refl _)) (.nil (.refl _))
    · refine (hg.expr s₁).bind fun s₂ e e' hs₂ he => .closing hw ")" fun s₃ hs₃ => ?_
      exact .pure ((Yields.left he hs₃).pass hs₁)
    · refine .seeing "new" fun found => .ite (fun _ => ?_) fun _ => follows_failWith _
      exact (follows_newExpr hw hg).imp fun s₂ e e' _ he => he.pass hs₁

omit hg hw

/-- Operators are no quoted tokens. -/
theorem find?_symbol_recast (ρ : Recast) {ω : Type} (ops : List ω) (symbol : ω → Text) (t : Token) :
    (if (t.recast ρ).kind = .op then ops.find? fun op => symbol op = (t.recast ρ).text else none) =
      if t.kind = .op then ops.find? fun op => symbol op = t.text else none := by
  rw [Token.kind_recast]
  by_cases hkind : t.kind = .op
  · rw [Token.text_recast_op hkind]
  · rw [if_neg hkind, if_neg hkind]

theorem stepOp?_recast : stepOp? (s.recast ρ) = stepOp? s := by
  rw [stepOp?, TokenStream.current_recast]
  exact find?_symbol_recast ρ _ StepOp.symbol s.current

/-- Of an object that is read already, a longer expression is read. -/
theorem follows_fieldSuffix {s' : TokenStream} {e e' : Expr} (hw : Readable ρ whole)
    (he : Yields ρ s' s e.tree e'.tree) :
    Follows ρ whole s (fieldSuffix e) (fieldSuffix e') fun s₁ x y =>
      Yields ρ s' s₁ x.tree y.tree := by
  refine .atCurrent hw fun t ht _ => ?_
  simp only [Token.isIdent_recast, Token.reads_recast, mem_steeringWords]
  refine .ite (fun hfield => .skipping 1 fun s₁ hs₁ => .pure ?_) fun _ => follows_fail _
  have htext : (t.recast ρ).text = t.text := by
    simp only [Bool.or_eq_true, decide_eq_true_eq] at hfield
    rcases hfield with (hident | hclass) | hthis
    · exact Token.text_recast_ident hident
    · exact Token.text_recast_mem (by simp only [hclass, mem_steeringWords])
    · exact Token.text_recast_mem (by simp only [hthis, mem_steeringWords])
  rw [(Expr.of_tree he.moved).1]
  exact .placed e.pos (.cons he (.cons (.word htext ht hs₁) (.nil (.refl s₁)))) (by simp)

theorem follows_methodSuffix {s' : TokenStream} {e e' : Expr} (hw : Readable ρ whole)
    (he : Yields ρ s' s e.tree e'.tree) :
    Follows ρ whole s (methodSuffix e) (methodSuffix e') fun s₁ x y =>
      Yields ρ s' s₁ x.tree y.tree := by
  refine .atCurrent hw fun t ht _ => ?_
  simp only [Token.isIdent_recast, Token.reads_recast, mem_steeringWords]
  refine .ite (fun hmethod => .skipping 1 fun s₁ hs₁ => .pure ?_) fun _ => follows_fail _
  have htext : (t.recast ρ).text = t.text := by
    simp only [Bool.or_eq_true, decide_eq_true_eq] at hmethod
    rcases hmethod with hident | hnew
    · exact Token.text_recast_ident hident
    · exact Token.text_recast_mem (by simp only [hnew, mem_steeringWords])
  rw [(Expr.of_tree he.moved).1]
  exact .placed e.pos (.cons he (.cons (.word htext ht hs₁) (.nil (.refl s₁)))) (by simp)

include hg hw

theorem follows_suffix {s' : TokenStream} {e e' : Expr}
    (he : Yields ρ s' s e.tree e'.tree) :
    Follows ρ whole s (suffix g e) (suffix g e') fun s₁ x y =>
      x.isSome = y.isSome ∧ Yields ρ s' s₁ (x.getD e).tree (y.getD e').tree := by
  obtain ⟨hpos, htarget⟩ := Expr.of_tree he.moved
  refine .accepting "." fun s₁ found hs₁ => .ite (fun _ => ?_) fun _ =>
    .accepting "[" fun s₂ found hs₂ => .ite (fun _ => ?_) fun _ =>
    .accepting "(" fun s₃ found hs₃ => .ite (fun _ => ?_) fun _ =>
    .accepting "::" fun s₄ found hs₄ => .ite (fun _ => ?_) fun _ =>
    .looking stepOp?_recast fun x _ => ?_
  · exact (follows_fieldSuffix hw (he.left hs₁)).bind fun s₂ x y _ h => .pure ⟨rfl, h⟩
  · refine (hg.expr s₂).bind fun s₃ i i' hs₃ hi => .closing hw "]" fun s₄ hs₄ => .pure ⟨rfl, ?_⟩
    rw [Option.getD_some, Option.getD_some, hpos]
    exact .placed e.pos (.cons (he.left (hs₁.trans hs₂)) (.cons hi (.nil hs₄))) (by simp)
  · refine (follows_argList hg).bind fun s₄ as as' hs₄ has => .closing hw ")" fun s₅ hs₅ =>
      .pure ⟨rfl, ?_⟩
    rw [Option.getD_some, Option.getD_some, hpos]
    exact .placed e.pos (.cons (he.left (hs₁.trans (hs₂.trans hs₃)))
      (.cons has (.nil hs₅))) (by simp)
  · exact (follows_methodSuffix hw (he.left (hs₁.trans (hs₂.trans (hs₃.trans hs₄))))).bind
      fun s₅ x y _ h => .pure ⟨rfl, h⟩
  · have he₄ := he.left (hs₁.trans (hs₂.trans (hs₃.trans hs₄)))
    cases x with
    | none => exact .pure ⟨rfl, he₄⟩
    | some op =>
      rw [htarget]
      refine .ite (fun _ => .skipping 1 fun s₅ hs₅ => .pure ⟨rfl, ?_⟩) fun _ => follows_fail _
      rw [Option.getD_some, Option.getD_some, hpos]
      exact .placed e.pos (.cons (.text op.coded_symbol (.refl s'))
        (.cons (.flag false (.refl s')) (.cons (he₄.left hs₅) (.nil (.refl s₅))))) (by simp)

theorem follows_postfixed :
    Follows ρ whole s (postfixed g) (postfixed g) (Reads ρ Expr.tree s) := by
  refine (follows_primary hw hg).bind fun s₁ e e' hs₁ he => ?_
  exact Follows.iterate (R := Reads ρ Expr.tree s) (fun s₂ a b _ h => follows_suffix hw hg h) he

theorem follows_castExpr : Follows ρ whole s (castExpr g) (castExpr g) (Reads ρ Expr.tree s) := by
  refine .taking hw fun s₁ hs₁ _ => (follows_typeRef hw hg).bind fun s₂ type type' hs₂ htype => ?_
  refine .closing hw ")" fun s₃ hs₃ => (hg.unary s₃).bind fun s₄ e e' hs₄ he => .pure ?_
  apply Yields.pass hs₁
  exact .placed s.current.pos (.cons (.left htype hs₃) (.cons he (.nil (.refl s₄)))) (by simp)

omit hg hw

theorem unaryOp?_recast : unaryOp? (s.recast ρ) = unaryOp? s := by
  rw [unaryOp?, TokenStream.current_recast]
  exact find?_symbol_recast ρ _ UnaryOp.symbol s.current

include hg hw

theorem follows_unary : Follows ρ whole s (unary g) (unary g) (Reads ρ Expr.tree s) := by
  refine .placing fun pos hpos => .looking unaryOp?_recast fun x _ => ?_
  cases x with
  | some op =>
    refine .skipping 1 fun s₁ hs₁ => (hg.unary s₁).bind fun s₂ e e' hs₂ he => .pure (.pass hs₁ ?_)
    exact .placed pos (.cons (.text op.coded_symbol (.refl s₁)) (.cons he (.nil (.refl s₂))))
      (by simp)
  | none =>
    refine .looking stepOp?_recast fun x _ => ?_
    cases x with
    | some op =>
      refine .skipping 1 fun s₁ hs₁ => (hg.unary s₁).bind fun s₂ e e' hs₂ he => ?_
      rw [(Expr.of_tree he.moved).2]
      refine .ite (fun _ => .pure (.pass hs₁ ?_)) fun _ => follows_failAt hpos _
      exact .placed pos (.cons (.text op.coded_symbol (.refl s₁)) (.cons (.flag true (.refl s₁))
        (.cons he (.nil (.refl s₂))))) (by simp)
    | none =>
      exact .looking (by simp) fun atCast _ => .ite (fun _ => follows_castExpr hw hg) fun _ =>
        follows_postfixed hw hg

omit hg hw

/-! ## Binary operators -/

/-- An operator is recognized among the changed tokens as well. -/
def Recognized {γ : Type} (ρ : Recast) (whole : TokenStream) (op? : TokenStream → Option γ) :
    Prop := ∀ s, whole.Leaves s → op? (s.recast ρ) = op? s

/-- Wherever an expression is read, it is the same. -/
def SteadyExpr (ρ : Recast) (whole : TokenStream) (p : Parser Expr) : Prop :=
  ∀ s, Follows ρ whole s p p (Reads ρ Expr.tree s)

theorem recognized_operator? (ops : List BinaryOp) : Recognized ρ whole (operator? ops) := by
  intro s _
  simp [operator?]

include hw

theorem recognized_arrowRun? :
    Recognized ρ whole fun s => Lookahead.arrowRun? s.ahead := fun _ hs =>
  Lookahead.arrowRun?_map (hw.arrows.suffix hs.suffix)

theorem recognized_shiftOp? : Recognized ρ whole shiftOp? := by
  intro s hs
  have harrows := recognized_arrowRun? hw s hs
  simp only [shiftOp?, TokenStream.sees_recast, harrows]

theorem recognized_comparisonOp? : Recognized ρ whole comparisonOp? := by
  intro s hs
  have harrows := recognized_arrowRun? hw s hs
  simp only [comparisonOp?, recognized_operator? _ s hs, harrows]

theorem recognized_assignOp? : Recognized ρ whole assignOp? := by
  intro s hs
  have harrows := recognized_arrowRun? hw s hs
  have hsimple := find?_symbol_recast ρ simpleAssignOps AssignOp.symbol s.current
  simp only [assignOp?, TokenStream.current_recast, hsimple, harrows]

omit hw

variable {op? : TokenStream → Option (BinaryOp × Nat)} {operand : Parser Expr}

theorem follows_binaryStep {s' : TokenStream} {e e' : Expr} (hop : Recognized ρ whole op?)
    (hoperand : SteadyExpr ρ whole operand) (he : Reads ρ Expr.tree s' s e e') :
    Follows ρ whole s (binaryStep op? operand e) (binaryStep op? operand e') fun s₁ x y =>
      x.isSome = y.isSome ∧ Reads ρ Expr.tree s' s₁ (x.getD e) (y.getD e') := by
  refine .within fun hs => .looking (hop s hs) fun x _ => ?_
  cases x with
  | none => exact .pure ⟨rfl, he⟩
  | some found =>
    refine .skipping found.2 fun s₁ hs₁ => (hoperand s₁).bind fun s₂ r r' hs₂ hr => .pure ⟨rfl, ?_⟩
    rw [(Expr.of_tree he.moved).1]
    exact .placed e.pos (.cons (.text found.1.coded_symbol (.refl s')) (.cons (Yields.left he hs₁)
      (.cons hr (.nil (.refl s₂))))) (by simp)

theorem steady_chain (hop : Recognized ρ whole op?) (hoperand : SteadyExpr ρ whole operand) :
    SteadyExpr ρ whole (chain op? operand) := fun s =>
  (hoperand s).bind fun _ _ _ _ he =>
    Follows.iterate (fun _ _ _ _ h => follows_binaryStep hop hoperand h) he

include hg hw

theorem steady_shift : SteadyExpr ρ whole (shift g) := by
  have hunary : SteadyExpr ρ whole (unary g) := fun s => follows_unary hw hg
  have hproduct := steady_chain (recognized_operator? [.multiply, .divide, .remainder]) hunary
  have hsum := steady_chain (recognized_operator? [.add, .subtract]) hproduct
  exact steady_chain (recognized_shiftOp? hw) hsum

theorem follows_comparisonStep {s' : TokenStream} {e e' : Expr}
    (he : Reads ρ Expr.tree s' s e e') :
    Follows ρ whole s (comparisonStep g e) (comparisonStep g e') fun s₁ x y =>
      x.isSome = y.isSome ∧ Reads ρ Expr.tree s' s₁ (x.getD e) (y.getD e') := by
  refine .accepting "instanceof" fun s₁ found hs₁ => .ite (fun _ => ?_) fun _ => ?_
  · refine (follows_typeRef hw hg).bind fun s₂ type type' hs₂ htype => .pure ⟨rfl, ?_⟩
    rw [(Expr.of_tree he.moved).1]
    exact .placed e.pos (.cons (Yields.left he hs₁) (.cons htype (.nil (.refl s₂)))) (by simp)
  · exact follows_binaryStep (recognized_comparisonOp? hw) (steady_shift hw hg) (Yields.left he hs₁)

theorem steady_comparison : SteadyExpr ρ whole (comparison g) := fun s =>
  (steady_shift hw hg s).bind fun _ _ _ _ he =>
    Follows.iterate (fun _ _ _ _ h => follows_comparisonStep hw hg h) he

theorem steady_disjunction : SteadyExpr ρ whole (disjunction g) := by
  have hequality := steady_chain (recognized_operator? [.equal, .notEqual])
    (steady_comparison hw hg)
  have hbitAnd := steady_chain (recognized_operator? [.bitAnd]) hequality
  have hbitXor := steady_chain (recognized_operator? [.bitXor]) hbitAnd
  have hbitOr := steady_chain (recognized_operator? [.bitOr]) hbitXor
  have hconjunction := steady_chain (recognized_operator? [.and]) hbitOr
  exact steady_chain (recognized_operator? [.or]) hconjunction

/-! ## Conditionals and assignments -/

theorem follows_conditional :
    Follows ρ whole s (conditional g) (conditional g) (Reads ρ Expr.tree s) := by
  refine (steady_disjunction hw hg s).bind fun s₁ c c' hs₁ hc => ?_
  refine .accepting "?" fun s₂ found hs₂ => ?_
  refine .ite (fun _ => ?_) fun _ => .pure (Yields.left hc hs₂)
  refine (hg.expr s₂).bind fun s₃ t t' hs₃ ht => .closing hw ":" fun s₄ hs₄ => ?_
  refine (hg.conditional s₄).bind fun s₅ f f' hs₅ hf => .pure ?_
  rw [Reads, (Expr.of_tree hc.moved).1]
  exact .placed c.pos (.cons (Yields.left hc hs₂) (.cons (Yields.left ht hs₄)
    (.cons hf (.nil (.refl s₅))))) (by simp)

theorem follows_assignedValue (op : AssignOp) :
    Follows ρ whole s (assignedValue g op) (assignedValue g op) (Reads ρ Expr.tree s) := by
  refine .seeing "\x7b" fun found => .ite (fun _ => ?_) fun _ => hg.expr s
  exact (follows_arrayLit hw hg).bind fun s₁ e e' _ h => .pure h

theorem follows_expr : Follows ρ whole s (expr g) (expr g) (Reads ρ Expr.tree s) := by
  refine (follows_conditional hw hg).bind fun s₁ e e' hs₁ he => .within fun hs => ?_
  obtain ⟨hpos, htarget⟩ := Expr.of_tree he.moved
  refine .looking (recognized_assignOp? hw s₁ hs) fun x _ => ?_
  cases x with
  | none => exact .pure he
  | some found =>
    obtain ⟨op, count⟩ := found
    dsimp only
    rw [htarget]
    refine .ite (fun _ => .skipping count fun s₂ hs₂ => ?_) fun _ => follows_fail _
    refine (follows_assignedValue hw hg op).bind fun s₃ v v' hs₃ hv => .pure ?_
    rw [Reads, hpos]
    exact .placed e.pos (.cons (.text op.coded_symbol (.refl s)) (.cons (Yields.left he hs₂)
      (.cons hv (.nil (.refl s₃))))) (by simp)

end Production

end WriteOnce
