import WriteOnce.Grammar.Members
import WriteOnce.Proofs.EndingScans
import WriteOnce.Proofs.EnsuringParsers
import WriteOnce.Proofs.ShapedTrees

/-!
# Productions give shaped trees

What holds of the trees inside a tree is known from the productions that read them. A production
adds what it tests itself, such as that a target can be written to, and what it takes from a token,
such as a name that is declared.
-/

namespace WriteOnce

open WriteOnce.Tree

namespace Parser

variable {α β σ : Type}

/-- Among tokens whose names can be declared, this holds of what the parser returns. -/
def Gives (p : Parser α) (R : α → Prop) : Prop :=
  ∀ s : TokenStream, s.Named → p.Ensures s fun a s' => s'.Named ∧ R a

namespace Gives

variable {p q : Parser α} {f : α → Parser β} {R R' : α → Prop} {Q : β → Prop}

theorem mono (h : Gives p R) (himp : ∀ a, R a → R' a) : Gives p R' :=
  fun s hs => (h s hs).mono fun a _ ha => ⟨ha.1, himp a ha.2⟩

theorem pure {a : α} (h : R a) : Gives (pure a) R := fun _ hs => .pure ⟨hs, h⟩

theorem bind (h : Gives p R) (h' : ∀ a, R a → Gives (f a) Q) : Gives (p >>= f) Q :=
  fun s hs => .bind ((h s hs).mono fun a s' ha => h' a ha.2 s' ha.1)

theorem ite {c : Prop} [Decidable c] (h : c → Gives p R) (h' : ¬c → Gives q R) :
    Gives (if c then p else q) R :=
  fun s hs => .ite (fun hc => h hc s hs) fun hc => h' hc s hs

theorem fail {fault : ParseFault} : Gives (fail fault) R := fun _ _ => .fail

theorem failWith {fault : Text → ParseFault} : Gives (failWith fault) R := fun _ _ => .failWith

theorem failAt {pos : Pos} {fault : ParseFault} : Gives (failAt pos fault) R := fun _ _ => .failAt

theorem looking {view : TokenStream → α} (h : ∀ a, Gives (f a) Q) : Gives (look view >>= f) Q :=
  fun s hs => .looking (h (view s) s hs)

theorem seeing {view : TokenStream → Bool} (h : Gives p R) (h' : Gives q R) :
    Gives (look view >>= fun found => if found = true then p else q) R :=
  looking fun _ => ite (fun _ => h) fun _ => h'

theorem skip (count : Nat) : Gives (skip count) fun _ => True :=
  fun _ hs => .skip ⟨hs.left (List.drop_suffix _ _), trivial⟩

theorem take : Gives take fun _ => True :=
  fun _ hs => .take ⟨hs.left (List.drop_suffix _ _), trivial⟩

theorem expect (word : Text) : Gives (expect word) fun _ => True :=
  fun _ hs => .expect fun _ => ⟨hs.left (List.drop_suffix _ _), trivial⟩

theorem expectIdent : Gives expectIdent fun t => t.text.IsIdentifier :=
  fun _ hs => .expectIdent fun hident => ⟨hs.left (List.drop_suffix _ _), hs.current hident⟩

/-- A token that is taken where a name stands. -/
theorem takeName {s : TokenStream} {f : Token → Parser β} (hs : s.Named)
    (hident : s.current.isIdent = true) (h : ∀ t : Token, t.text.IsIdentifier → Gives (f t) Q) :
    (Parser.take >>= f).Ensures s fun b s' => s'.Named ∧ Q b :=
  .bind (.take (h _ (hs.current hident) _ (hs.left (List.drop_suffix _ _))))

theorem accept (word : Text) : Gives (accept word) fun _ => True := by
  intro s hs found s' hrun
  rw [Parser.accept] at hrun
  split_ifs at hrun <;> cases hrun
  · exact ⟨hs.left (List.drop_suffix _ _), trivial⟩
  · exact ⟨hs, trivial⟩

theorem accepting {word : Text} (h : Gives p R) (h' : Gives q R) :
    Gives (Parser.accept word >>= fun found => if found = true then p else q) R :=
  (accept word).bind fun _ _ => ite (fun _ => h) fun _ => h'

theorem discard (h : Gives p R) : Gives (discard p) fun _ => True :=
  fun s hs => .discard ((h s hs).mono fun _ _ ha => ⟨ha.1, trivial⟩)

theorem closing {word : Text} (h : Gives p R) :
    Gives (Functor.discard (Parser.expect word) >>= fun _ => p) R :=
  (expect word).discard.bind fun _ _ => h

theorem found (h : Gives p R) :
    Gives (p >>= fun a => Pure.pure (some a)) fun x => ∀ a ∈ x, R a :=
  h.bind fun _ ha => .pure (by simpa using ha)

theorem after {word : Text} (h : Gives p R) : Gives (after word p) fun x => ∀ a ∈ x, R a :=
  accepting h.found (.pure nofun)

section

variable {step : σ → Parser (Option σ)} {I : σ → Prop} {a : σ} {s : TokenStream}

theorem keeps (h : Gives (step a) fun x => ∀ b ∈ x, I b) (hs : s.Named) (ha : I a) :
    (step a).Ensures s fun x s' => s'.Named ∧ I (x.getD a) := by
  refine (h s hs).mono fun x s' hx => ⟨hx.1, ?_⟩
  cases x with
  | none => exact ha
  | some b => exact hx.2 b rfl

theorem iterate (ha : I a) (hstep : ∀ a, I a → Gives (step a) fun x => ∀ b ∈ x, I b) :
    Gives (iterate step a) I := fun _ hs =>
  .iterate (I := fun a s => s.Named ∧ I a) ⟨hs, ha⟩ fun a _ ha => (hstep a ha.2).keeps ha.1 ha.2

/-- A loop whose first step is not declined. -/
theorem iterate_first
    (hfirst : (step a).Ensures s fun x s' => s'.Named ∧ ∃ b, x = some b ∧ I b)
    (hstep : ∀ a, I a → Gives (step a) fun x => ∀ b ∈ x, I b) :
    (Parser.iterate step a).Ensures s fun a s' => s'.Named ∧ I a := by
  refine .iterate_first (I := fun a s => s.Named ∧ I a) (hfirst.mono ?_) fun a _ ha =>
    (hstep a ha.2).keeps ha.1 ha.2
  exact fun _ _ ⟨hs, b, hsome, hb⟩ => ⟨b, hsome, hs, hb⟩

end

theorem many {p : Parser (Option α)} (h : Gives p fun x => ∀ a ∈ x, R a) :
    Gives (many p) fun as => ∀ a ∈ as, R a :=
  fun _ hs => .many hs h

theorem separatedBy {separator : Text} (h : Gives p R) :
    Gives (separatedBy separator p) fun as => as ≠ [] ∧ ∀ a ∈ as, R a :=
  fun _ hs => .separatedBy h hs fun _ hs _ => hs.left (List.drop_suffix _ _)

theorem enclosed {enclosure : Enclosure} {closes : TokenStream → Bool} (h : Gives p R) :
    Gives (Production.enclosed enclosure closes p) fun x => ∀ a ∈ x, R a :=
  .seeing (.pure nofun) (.seeing .fail h.found)

theorem unlessSeen {word : Text} (h : Gives p R) :
    Gives (Production.unlessSeen word p) fun x => ∀ a ∈ x, R a :=
  .seeing (.pure nofun) h.found

end Gives

end Parser

open WriteOnce.Parser

/-- All productions that occur inside others give shaped trees. -/
structure Grammar.Shaping (g : Grammar) : Prop where
  typeRef : Gives g.typeRef fun _ => True
  expr : Gives g.expr (·.tree.Shaped)
  conditional : Gives g.conditional (·.tree.Shaped)
  unary : Gives g.unary (·.tree.Shaped)
  arrayLit : Gives g.arrayLit fun (_, elements) => ∀ e ∈ elements, e.tree.Shaped
  block : Gives g.block (·.tree.Shaped)
  stmt : Gives g.stmt (·.tree.Shaped)
  classBody (className : Option Text) :
    Gives (g.classBody className) fun members => ∀ m ∈ members, m.tree.Shaped
  classDecl (pos : Pos) (modifiers : List Modifier) :
    Gives (g.classDecl pos modifiers) (·.tree.Shaped)

namespace Production

/-! ## Types, modifiers and parameters -/

theorem gives_dims : Gives dims fun _ => True := by
  refine (Gives.many (R := fun _ => True) fun s hs a s' hrun => ?_).bind fun _ _ => .pure trivial
  rw [emptyBrackets] at hrun
  split_ifs at hrun <;> cases hrun
  · exact ⟨hs.left (List.drop_suffix _ _), fun _ _ => trivial⟩
  · exact ⟨hs, fun _ _ => trivial⟩

theorem gives_modifiers : Gives modifiers fun _ => True := by
  refine .iterate trivial fun modifiers _ s hs x s' hrun => ⟨?_, fun _ _ => trivial⟩
  rw [nextModifier] at hrun
  split_ifs at hrun
  · cases hrun
    exact hs.left (Lookahead.skipModifiers_suffix _)
  · split at hrun <;> cases hrun
    · exact hs.left (List.drop_suffix _ _)
    · exact hs

variable {g : Grammar} (hg : g.Shaping)

include hg

theorem gives_typeArg : Gives (typeArg g) fun _ => True := by
  refine .looking fun pos => .accepting (.looking fun _ => .looking fun _ => ?_) hg.typeRef
  refine .ite (fun _ => ?_) fun _ => .pure trivial
  exact (Gives.skip 1).bind fun _ _ => hg.typeRef.bind fun _ _ => .pure trivial

theorem gives_typeArgs : Gives (typeArgs g) fun _ => True := by
  refine .accepting (.accepting (.pure trivial) ?_) (.pure trivial)
  exact (gives_typeArg hg).separatedBy.bind fun _ _ => .closing (.pure trivial)

theorem gives_qualify (named : Text × List TypeRef) : Gives (qualify g named) fun _ => True := by
  refine .looking fun _ => .ite (fun _ => ?_) fun _ => .pure trivial
  exact (Gives.skip 1).bind fun _ _ => Gives.take.bind fun _ _ =>
    (gives_typeArgs hg).bind fun _ _ => .pure trivial

theorem gives_typeRef : Gives (typeRef g) fun _ => True := by
  refine .looking fun t => .ite (fun _ => ?_) fun _ => .ite (fun _ => ?_) fun _ => .failWith
  · exact (Gives.skip 1).bind fun _ _ => gives_dims.bind fun _ _ => .pure trivial
  · refine (Gives.skip 1).bind fun _ _ => (gives_typeArgs hg).bind fun args _ => ?_
    refine (Gives.iterate (I := fun _ => True) trivial fun named _ => ?_).bind fun _ _ => ?_
    · exact (gives_qualify hg named).mono fun _ _ _ _ => trivial
    · exact gives_dims.bind fun _ _ => .pure trivial

theorem gives_param : Gives (param g) (·.name.IsIdentifier) := by
  refine gives_modifiers.bind fun _ _ => (gives_typeRef hg).bind fun _ _ => ?_
  refine (Gives.accept "...").bind fun _ _ => Gives.expectIdent.bind fun _ hname => ?_
  exact gives_dims.bind fun _ _ => .pure hname

theorem gives_paramList : Gives (paramList g) fun ps => ∀ p ∈ ps, p.name.IsIdentifier :=
  .seeing (.pure nofun) ((gives_param hg).separatedBy.mono fun _ hps => hps.2)

omit hg

theorem gives_inferredParam : Gives inferredParam (·.name.IsIdentifier) :=
  Gives.expectIdent.bind fun _ hname => .pure hname

/-! ## Expressions -/

include hg

theorem gives_argList : Gives (argList g) fun es => ∀ e ∈ es, e.tree.Shaped :=
  .seeing (.pure nofun) (hg.expr.separatedBy.mono fun _ hes => hes.2)

theorem gives_arrayElement : Gives (arrayElement g) (·.tree.Shaped) := by
  refine .seeing (hg.arrayLit.bind fun _ helements => .pure ?_) hg.expr
  exact ⟨⟨.arrayLit, rfl, trivial⟩, trivial, Expr.shaped_trees helements, trivial⟩

theorem gives_nextArrayElement :
    Gives (nextArrayElement g) fun x => ∀ e ∈ x, e.tree.Shaped :=
  .accepting (.seeing (.pure nofun) (gives_arrayElement hg).found) (.pure nofun)

theorem gives_arrayLit :
    Gives (arrayLit g) fun (_, elements) => ∀ e ∈ elements, e.tree.Shaped := by
  refine (Gives.expect _).bind fun brace _ => .accepting (.pure nofun) ?_
  refine (gives_arrayElement hg).bind fun first hfirst => ?_
  refine (gives_nextArrayElement hg).many.bind fun others hothers => .closing (.pure ?_)
  exact List.forall_mem_cons.2 ⟨hfirst, hothers⟩

theorem gives_arraySize :
    Gives (arraySize g) fun x => ∀ size ∈ x, ∀ e ∈ size, e.tree.Shaped := by
  refine .accepting (.accepting (.pure (by simp)) ?_) (.pure nofun)
  exact hg.expr.bind fun _ he => .closing (.pure (by simpa using he))

theorem gives_newExpr : Gives (newExpr g) (·.tree.Shaped) := by
  refine (Gives.expect _).bind fun word _ => (gives_typeRef hg).bind fun type _ => ?_
  refine .ite (fun _ => ?_) fun _ => .accepting ?_ (.seeing ?_ .fail)
  · refine (gives_arrayLit hg).bind fun _ helements => .pure ?_
    have helements := Expr.shaped_trees helements
    exact ⟨⟨.creation, rfl, fun h => absurd rfl h, fun _ => ⟨rfl, rfl⟩⟩, trivial, type.shaped,
      trivial, trivial, ⟨⟨.arrayLit, rfl, trivial⟩, trivial, helements, trivial⟩, trivial, trivial⟩
  · refine (gives_argList hg).bind fun args hargs => .closing (.seeing ?_ (.pure ?_))
    · refine (hg.classBody none).bind fun members hmembers => .pure ?_
      have hmembers := Member.shaped_trees hmembers
      exact ⟨⟨.creation, rfl, fun _ => ⟨rfl, rfl⟩, fun h => absurd rfl h⟩, trivial, type.shaped,
        Expr.shaped_trees hargs, trivial, trivial, hmembers, trivial⟩
    · exact ⟨⟨.creation, rfl, fun h => absurd rfl h, fun h => absurd rfl h⟩, trivial, type.shaped,
        Expr.shaped_trees hargs, trivial, trivial, trivial, trivial⟩
  · refine (gives_arraySize hg).many.bind fun sizes hsizes => .pure ?_
    have hsized : ∀ e ∈ sizes.filterMap id, e.tree.Shaped := by
      intro e he
      obtain ⟨_, hsize, rfl⟩ := List.mem_filterMap.1 he
      exact hsizes _ hsize e rfl
    exact ⟨⟨.creation, rfl, fun h => absurd rfl h, fun h => absurd rfl h⟩, trivial,
      TypeRef.shaped _, trivial, Expr.shaped_trees hsized, trivial, trivial, trivial⟩

theorem gives_lambdaParams : Gives (lambdaParams g) fun ps => ∀ p ∈ ps, p.name.IsIdentifier := by
  refine .seeing (gives_inferredParam.bind fun _ hp => .pure (by simpa using hp)) ?_
  refine .closing (.seeing ?_ ?_)
  · exact gives_inferredParam.separatedBy.bind fun _ hps => .closing (.pure hps.2)
  · exact (gives_paramList hg).bind fun _ hps => .closing (.pure hps)

theorem gives_lambda : Gives (lambda g) (·.tree.Shaped) := by
  refine .looking fun pos => (gives_lambdaParams hg).bind fun params hparams => .closing ?_
  have hparams : ShapedItems (params.map Param.tree) :=
    shapedItems_map fun p hp => Param.shaped (hparams p hp)
  refine .seeing (hg.block.bind fun _ hbody => .pure ?_) (hg.expr.bind fun _ hbody => .pure ?_)
  · exact ⟨⟨.lambda, rfl, trivial⟩, trivial, hparams, hbody, trivial⟩
  · exact ⟨⟨.lambda, rfl, trivial⟩, trivial, hparams, hbody, trivial⟩

theorem gives_primary : Gives (primary g) (·.tree.Shaped) := by
  refine .looking fun t => ?_
  cases literal? t with
  | some value =>
    refine (Gives.skip 1).bind fun _ _ => .pure ?_
    exact ⟨⟨.literal, rfl, trivial⟩, trivial, trivial, trivial, trivial⟩
  | none =>
    refine .seeing (gives_lambda hg) (.ite (fun _ => ?_) fun _ => .accepting ?_
      (.seeing (gives_newExpr hg) .failWith))
    · refine (Gives.skip 1).bind fun _ _ => .pure ?_
      exact ⟨⟨.name, rfl, trivial⟩, trivial, trivial, trivial⟩
    · exact hg.expr.bind fun _ he => .closing (.pure he)

omit hg

theorem gives_fieldSuffix {object : Expr} (h : object.tree.Shaped) :
    Gives (fieldSuffix object) (·.tree.Shaped) := by
  refine .looking fun (t : Token) => .ite (fun _ => ?_) fun _ => .fail
  refine (Gives.skip 1).bind fun _ _ => .pure ?_
  exact ⟨⟨.fieldAccess, rfl, trivial⟩, trivial, h, trivial, trivial⟩

theorem gives_methodSuffix {object : Expr} (h : object.tree.Shaped) :
    Gives (methodSuffix object) (·.tree.Shaped) := by
  refine .looking fun (t : Token) => .ite (fun _ => ?_) fun _ => .fail
  refine (Gives.skip 1).bind fun _ _ => .pure ?_
  exact ⟨⟨.methodRef, rfl, trivial⟩, trivial, h, trivial, trivial⟩

include hg

theorem gives_suffix {e : Expr} (he : e.tree.Shaped) :
    Gives (suffix g e) fun x => ∀ e ∈ x, e.tree.Shaped := by
  refine .accepting (gives_fieldSuffix he).found (.accepting ?_ (.accepting ?_
    (.accepting (gives_methodSuffix he).found (.looking fun found => ?_))))
  · refine hg.expr.bind fun position hposition => .closing (.pure ?_)
    rintro _ ⟨⟩
    exact ⟨⟨.index, rfl, trivial⟩, trivial, he, hposition, trivial⟩
  · refine (gives_argList hg).bind fun args hargs => .closing (.pure ?_)
    rintro _ ⟨⟩
    exact ⟨⟨.call, rfl, trivial⟩, trivial, he, Expr.shaped_trees hargs, trivial⟩
  · cases found with
    | none => exact .pure nofun
    | some op =>
      refine .ite (fun htarget => (Gives.skip 1).bind fun _ _ => .pure ?_) fun _ => .fail
      rintro _ ⟨⟩
      exact ⟨⟨.step, rfl, Expr.isOf_of_isTarget htarget⟩, trivial, trivial, trivial, he, trivial⟩

theorem gives_postfixed : Gives (postfixed g) (·.tree.Shaped) :=
  (gives_primary hg).bind fun _ he => .iterate he fun _ he => gives_suffix hg he

theorem gives_castExpr : Gives (castExpr g) (·.tree.Shaped) := by
  refine Gives.take.bind fun _ _ => (gives_typeRef hg).bind fun type _ => .closing ?_
  refine hg.unary.bind fun operand hoperand => .pure ?_
  exact ⟨⟨.cast, rfl, trivial⟩, trivial, type.shaped, hoperand, trivial⟩

theorem gives_unary : Gives (unary g) (·.tree.Shaped) := by
  refine .looking fun pos => .looking fun found => ?_
  cases found with
  | some op =>
    refine (Gives.skip 1).bind fun _ _ => hg.unary.bind fun operand hoperand => .pure ?_
    exact ⟨⟨.unary, rfl, trivial⟩, trivial, trivial, hoperand, trivial⟩
  | none =>
    refine .looking fun found => ?_
    cases found with
    | some op =>
      refine (Gives.skip 1).bind fun _ _ => hg.unary.bind fun target h => .ite (fun htarget => ?_)
        fun _ => .failAt
      refine .pure ⟨⟨.step, rfl, Expr.isOf_of_isTarget htarget⟩, ?_⟩
      exact ⟨trivial, trivial, trivial, h, trivial⟩
    | none => exact .seeing (gives_castExpr hg) (gives_postfixed hg)

omit hg

/-! ### Binary operators -/

section

variable {op? : TokenStream → Option (BinaryOp × Nat)} {operand : Parser Expr}

theorem gives_binaryStep (h : Gives operand (·.tree.Shaped)) {left : Expr}
    (hleft : left.tree.Shaped) :
    Gives (binaryStep op? operand left) fun x => ∀ e ∈ x, e.tree.Shaped := by
  refine .looking fun found => ?_
  cases found with
  | none => exact .pure nofun
  | some found =>
    refine (Gives.skip found.2).bind fun _ _ => h.bind fun right hright => .pure ?_
    rintro _ ⟨⟩
    exact ⟨⟨.binary, rfl, trivial⟩, trivial, trivial, hleft, hright, trivial⟩

theorem gives_chain (h : Gives operand (·.tree.Shaped)) :
    Gives (chain op? operand) (·.tree.Shaped) :=
  h.bind fun _ hleft => .iterate hleft fun _ hleft => gives_binaryStep h hleft

end

include hg

theorem gives_shift : Gives (shift g) (·.tree.Shaped) :=
  gives_chain (gives_chain (gives_chain (gives_unary hg)))

theorem gives_comparisonStep {left : Expr} (hleft : left.tree.Shaped) :
    Gives (comparisonStep g left) fun x => ∀ e ∈ x, e.tree.Shaped := by
  refine .accepting ?_ (gives_binaryStep (gives_shift hg) hleft)
  refine (gives_typeRef hg).bind fun type _ => .pure ?_
  rintro _ ⟨⟩
  exact ⟨⟨.instanceOf, rfl, trivial⟩, trivial, hleft, type.shaped, trivial⟩

theorem gives_disjunction : Gives (disjunction g) (·.tree.Shaped) := by
  have hcomparison : Gives (comparison g) (·.tree.Shaped) :=
    (gives_shift hg).bind fun _ hleft => .iterate hleft fun _ h => gives_comparisonStep hg h
  have hbitOr : Gives (bitOr g) (·.tree.Shaped) :=
    gives_chain (gives_chain (gives_chain (gives_chain hcomparison)))
  exact gives_chain (gives_chain hbitOr)

/-! ### Conditionals and assignments -/

theorem gives_conditional : Gives (conditional g) (·.tree.Shaped) := by
  refine (gives_disjunction hg).bind fun cond hcond => .accepting ?_ (.pure hcond)
  refine hg.expr.bind fun onTrue hTrue => .closing (hg.conditional.bind fun onFalse hFalse => ?_)
  exact .pure ⟨⟨.conditional, rfl, trivial⟩, trivial, hcond, hTrue, hFalse, trivial⟩

theorem gives_assignedValue (op : AssignOp) : Gives (assignedValue g op) (·.tree.Shaped) := by
  refine .looking fun _ => .ite (fun _ => ?_) fun _ => hg.expr
  refine (gives_arrayLit hg).bind fun _ helements => .pure ?_
  exact ⟨⟨.arrayLit, rfl, trivial⟩, trivial, Expr.shaped_trees helements, trivial⟩

theorem gives_expr : Gives (expr g) (·.tree.Shaped) := by
  refine (gives_conditional hg).bind fun left hleft => .looking fun found => ?_
  cases found with
  | none => exact .pure hleft
  | some found =>
    refine .ite (fun htarget => (Gives.skip found.2).bind fun _ _ => ?_) fun _ => .fail
    refine (gives_assignedValue hg found.1).bind fun value hvalue => .pure ?_
    exact ⟨⟨.assign, rfl, Expr.isOf_of_isTarget htarget⟩, trivial, trivial, hleft, hvalue, trivial⟩

/-! ## Statements -/

theorem gives_exprInParens : Gives (exprInParens g) (·.tree.Shaped) :=
  .closing ((gives_expr hg).bind fun _ he => .closing (.pure he))

theorem gives_initialValue : Gives (initialValue g) (·.tree.Shaped) := by
  refine .seeing ((gives_arrayLit hg).bind fun _ helements => .pure ?_) (gives_expr hg)
  exact ⟨⟨.arrayLit, rfl, trivial⟩, trivial, Expr.shaped_trees helements, trivial⟩

theorem gives_declaratorOf {name : Token} (hname : name.text.IsIdentifier) :
    Gives (declaratorOf g name) (·.tree.Shaped) := by
  refine gives_dims.bind fun _ _ => (gives_initialValue hg).after.bind fun init hinit => .pure ?_
  exact ⟨⟨.declarator, rfl, _, rfl, hname⟩, trivial, trivial, trivial, Expr.shaped_option hinit,
    trivial⟩

theorem gives_declarator : Gives (declarator g) (·.tree.Shaped) :=
  Gives.expectIdent.bind fun _ hname => gives_declaratorOf hg hname

theorem gives_localDecl : Gives (localDecl g) (·.tree.Shaped) := by
  refine .looking fun pos => gives_modifiers.bind fun _ _ => ?_
  refine (gives_typeRef hg).bind fun type _ => ?_
  refine (gives_declarator hg).separatedBy.bind fun ds hds => .pure ?_
  exact ⟨⟨.localDecl, rfl, Declarator.hasItems hds.1⟩, trivial, shaped_texts _, type.shaped,
    Declarator.shaped_trees hds.2, trivial⟩

theorem gives_block : Gives (block g) (·.tree.Shaped) := by
  refine (Gives.expect _).bind fun _ _ => hg.stmt.enclosed.many.bind fun ss hss => ?_
  exact .closing (.pure ⟨⟨.block, rfl, trivial⟩, trivial, Stmt.shaped_trees hss, trivial⟩)

theorem gives_exprStmt : Gives (exprStmt g) (·.tree.Shaped) := by
  refine .looking fun pos => (gives_expr hg).bind fun e he => .closing (.pure ?_)
  exact ⟨⟨.exprStmt, rfl, trivial⟩, trivial, he, trivial⟩

theorem gives_ifStmt : Gives (ifStmt g) (·.tree.Shaped) := by
  refine (Gives.expect _).bind fun _ _ => (gives_exprInParens hg).bind fun cond hcond => ?_
  refine hg.stmt.bind fun onTrue hTrue => hg.stmt.after.bind fun onFalse hFalse => .pure ?_
  exact ⟨⟨.ifElse, rfl, trivial⟩, trivial, hcond, hTrue, Stmt.shaped_option hFalse, trivial⟩

theorem gives_whileStmt : Gives (whileStmt g) (·.tree.Shaped) := by
  refine (Gives.expect _).bind fun _ _ => (gives_exprInParens hg).bind fun cond hcond => ?_
  refine hg.stmt.bind fun body hbody => .pure ?_
  exact ⟨⟨.whileLoop, rfl, trivial⟩, trivial, hcond, hbody, trivial⟩

theorem gives_doStmt : Gives (doStmt g) (·.tree.Shaped) := by
  refine (Gives.expect _).bind fun _ _ => hg.stmt.bind fun body hbody => .closing ?_
  refine (gives_exprInParens hg).bind fun cond hcond => .closing (.pure ?_)
  exact ⟨⟨.doLoop, rfl, trivial⟩, trivial, hbody, hcond, trivial⟩

theorem gives_forEachRest (pos : Pos) : Gives (forEachRest g pos) (·.tree.Shaped) := by
  refine gives_modifiers.bind fun _ _ => (gives_typeRef hg).bind fun _ _ => ?_
  refine Gives.expectIdent.bind fun name hname => .closing ?_
  refine (gives_expr hg).bind fun iterable hiterable => .closing ?_
  refine hg.stmt.bind fun body hbody => .pure ?_
  exact ⟨⟨.forEach, rfl, trivial⟩, trivial, Param.shaped hname, hiterable, hbody, trivial⟩

theorem gives_forInit : Gives (forInit g) (·.tree.Shaped) := by
  refine .seeing (.pure trivial) (.seeing ?_ ?_)
  · exact (gives_localDecl hg).bind fun _ hdecl => .pure ⟨hdecl, trivial⟩
  · exact (gives_expr hg).separatedBy.bind fun _ hes => .pure (Expr.shaped_statementTrees hes.2)

theorem gives_forRest (pos : Pos) : Gives (forRest g pos) (·.tree.Shaped) := by
  refine (gives_forInit hg).bind fun init hinit => .closing ?_
  refine (gives_expr hg).unlessSeen.bind fun cond hcond => .closing ?_
  refine (gives_expr hg).separatedBy.unlessSeen.bind fun update hupdate => .closing ?_
  refine hg.stmt.bind fun body hbody => .pure ?_
  have hupdates : ∀ e ∈ update.getD [], e.tree.Shaped := by
    cases update with
    | none => exact nofun
    | some es => exact (hupdate es rfl).2
  exact ⟨⟨.forLoop, rfl, init.isLoopInit⟩, trivial, hinit, Expr.shaped_option hcond,
    Expr.shaped_trees hupdates, hbody, trivial⟩

theorem gives_forStmt : Gives (forStmt g) (·.tree.Shaped) := by
  refine (Gives.expect _).bind fun word _ => .closing (.seeing ?_ ?_)
  · exact gives_forEachRest hg word.pos
  · exact gives_forRest hg word.pos

/-- The labels in front of a group, of which there is one, or the word for all other cases. -/
def Labelled (labels : List Expr × Bool) : Prop :=
  (labels.1 ≠ [] ∨ labels.2 = true) ∧ ∀ e ∈ labels.1, e.tree.Shaped

/-- Where a group begins, a label is read. -/
theorem ensures_groupLabels {s : TokenStream} (hs : s.Named) (hgroup : seesGroup s = true)
    {labels : List Expr × Bool} (h : ∀ e ∈ labels.1, e.tree.Shaped) :
    (groupLabels g labels).Ensures s fun x s' => s'.Named ∧ ∃ l, x = some l ∧ Labelled l := by
  obtain ⟨values, isDefault⟩ := labels
  have hcolon : ∀ l, Labelled l → Gives
      (do if ← sees "->" then fail .arrowGroup else discard (expect ":"); return some l)
      fun x => ∃ l, x = some l ∧ Labelled l :=
    fun l hl => .seeing .fail (.closing (.pure ⟨l, rfl, hl⟩))
  have hdefault : Labelled (values, true) := ⟨.inr rfl, h⟩
  refine .seeing (fun _ => Gives.accepting (hcolon _ hdefault) ?_ s hs) fun hnone => ?_
  · refine (Gives.skip 1).bind fun _ _ => (gives_conditional hg).separatedBy.bind fun es hes => ?_
    have hnonempty : values ++ es ≠ [] := by simp [hes.1]
    exact hcolon _ ⟨.inl hnonempty, List.forall_mem_append.2 ⟨h, hes.2⟩⟩
  · exact absurd hgroup (Bool.eq_false_iff.1 hnone)

theorem gives_groupLabels {labels : List Expr × Bool} (h : Labelled labels) :
    Gives (groupLabels g labels) fun x => ∀ l ∈ x, Labelled l := by
  intro s hs
  by_cases hgroup : seesGroup s = true
  · refine (ensures_groupLabels hg hs hgroup h.2).mono fun x s' ⟨hs', l, hsome, hl⟩ => ⟨hs', ?_⟩
    rw [hsome]
    rintro _ ⟨⟩
    exact hl
  · exact .seeing (fun hseen => absurd hseen hgroup) fun _ => .pure ⟨hs, nofun⟩

theorem gives_switchGroup : Gives (switchGroup g) (·.tree.Shaped) := by
  refine .looking fun pos => fun s hs => .seeing (fun hgroup => ?_) fun _ => .failWith
  have hnone : ∀ e ∈ (([], false) : List Expr × Bool).1, e.tree.Shaped := nofun
  have hlabels := Gives.iterate_first (ensures_groupLabels hg hs hgroup hnone)
    fun _ => gives_groupLabels hg
  refine .bind (hlabels.mono fun labels s' ⟨hs', hlabelled, hshaped⟩ => ?_)
  refine (hg.stmt.enclosed.many.bind fun ss hss => .pure ?_) s' hs'
  refine ⟨⟨.switchGroup, rfl, ?_⟩, trivial, Expr.shaped_trees hshaped, trivial,
    Stmt.shaped_trees hss, trivial⟩
  exact hlabelled.imp Expr.hasItems (congrArg Tree.flag)

theorem gives_switchStmt : Gives (switchStmt g) (·.tree.Shaped) := by
  refine (Gives.expect _).bind fun _ _ => (gives_exprInParens hg).bind fun selector h => .closing ?_
  refine (gives_switchGroup hg).unlessSeen.many.bind fun groups hgroups => .closing (.pure ?_)
  exact ⟨⟨.switch, rfl, trivial⟩, trivial, h, SwitchGroup.shaped_trees hgroups, trivial⟩

theorem gives_catchClause : Gives (catchClause g) fun x => ∀ c ∈ x, c.tree.Shaped := by
  refine .seeing (Gives.take.bind fun _ _ => .closing ?_) (.pure nofun)
  refine gives_modifiers.bind fun _ _ => (gives_typeRef hg).bind fun type _ => ?_
  refine (Gives.many (R := fun _ => True) ?_).bind fun others _ => ?_
  · exact (gives_typeRef hg).after.mono fun _ _ _ _ => trivial
  · refine Gives.expectIdent.bind fun name hname => .closing ?_
    refine (gives_block hg).bind fun body hbody => .pure ?_
    rintro _ ⟨⟩
    exact ⟨⟨.catchClause, rfl, _, _, _, rfl, rfl, rfl⟩, trivial, Param.shaped hname,
      shapedItems_map fun t _ => t.shaped, hbody, trivial⟩

theorem gives_tryStmt : Gives (tryStmt g) (·.tree.Shaped) := by
  refine (Gives.expect _).bind fun _ _ => .seeing .fail ?_
  refine (gives_block hg).bind fun body hbody => (gives_catchClause hg).many.bind fun cs hcs => ?_
  refine (gives_block hg).after.bind fun cleanup hcleanup => .ite (fun _ => .failAt) fun h => ?_
  refine .pure ⟨⟨.tryCatch, rfl, ?_⟩, trivial, hbody, CatchClause.shaped_trees hcs,
    Block.shaped_option hcleanup, trivial⟩
  cases cs with
  | cons c cs => exact .inl ⟨_, _, rfl⟩
  | nil =>
    cases cleanup with
    | none => exact absurd rfl h
    | some b => exact .inr b.isOf

theorem gives_returnStmt : Gives (returnStmt g) (·.tree.Shaped) := by
  refine (Gives.expect _).bind fun _ _ => (gives_expr hg).unlessSeen.bind fun value hvalue => ?_
  exact .closing (.pure ⟨⟨.returnValue, rfl, trivial⟩, trivial, Expr.shaped_option hvalue, trivial⟩)

theorem gives_throwStmt : Gives (throwStmt g) (·.tree.Shaped) := by
  refine (Gives.expect _).bind fun _ _ => (gives_expr hg).bind fun value hvalue => ?_
  exact .closing (.pure ⟨⟨.throwValue, rfl, trivial⟩, trivial, hvalue, trivial⟩)

omit hg

/-- A jump names a label that can be declared, or none. -/
theorem gives_jumpStmt {jump : Pos → Option Text → Stmt}
    (h : ∀ pos label, (∀ word ∈ label, word.IsIdentifier) → (jump pos label).tree.Shaped) :
    Gives (jumpStmt jump) (·.tree.Shaped) := by
  refine Gives.take.bind fun word _ => fun s hs => .seeing (fun hident => ?_) fun _ => ?_
  · refine Gives.takeName hs hident fun label hlabel => .closing (.pure (h _ _ ?_))
    simpa using hlabel
  · have hnone : Gives (do discard (expect ";"); return jump word.pos none) (·.tree.Shaped) :=
      .closing (.pure (h word.pos none nofun))
    exact hnone s hs

include hg

theorem gives_synchronizedStmt : Gives (synchronizedStmt g) (·.tree.Shaped) := by
  refine (Gives.expect _).bind fun _ _ => (gives_exprInParens hg).bind fun lock hlock => ?_
  refine (gives_block hg).bind fun body hbody => .pure ?_
  exact ⟨⟨.block, rfl, trivial⟩, trivial, ⟨⟨⟨.exprStmt, rfl, trivial⟩, trivial, hlock, trivial⟩,
    hbody, trivial⟩, trivial⟩

theorem gives_localClass : Gives (localClass g) (·.tree.Shaped) := by
  refine .looking fun pos => gives_modifiers.bind fun modifiers _ => ?_
  refine (hg.classDecl pos modifiers).bind fun decl hdecl => .pure ?_
  exact ⟨⟨.localClass, rfl, trivial⟩, trivial, hdecl, trivial⟩

theorem ensures_labeledStmt {s : TokenStream} (hs : s.Named) (hident : s.current.isIdent = true) :
    (labeledStmt g).Ensures s fun stmt s' => s'.Named ∧ stmt.tree.Shaped := by
  refine Gives.takeName hs hident fun label hlabel => (Gives.skip 1).bind fun _ _ => ?_
  refine hg.stmt.bind fun body hbody => .pure ?_
  exact ⟨⟨.labeled, rfl, _, rfl, hlabel⟩, trivial, trivial, hbody, trivial⟩

theorem gives_localDeclStmt : Gives (localDeclStmt g) (·.tree.Shaped) :=
  (gives_localDecl hg).bind fun _ hdecl => .closing (.pure hdecl)

theorem gives_plainStmt : Gives (plainStmt g) (·.tree.Shaped) := by
  refine .seeing (gives_localClass hg) fun s hs => .seeing (fun hlabel => ?_) fun _ => ?_
  · exact ensures_labeledStmt hg hs (Bool.and_eq_true_iff.1 hlabel).1
  · exact Gives.seeing (gives_localDeclStmt hg) (gives_exprStmt hg) s hs

theorem gives_announcedStmts : ∀ e ∈ announcedStmts g, Gives e.2 (·.tree.Shaped) := by
  have hempty : Gives emptyStmt (·.tree.Shaped) :=
    Gives.take.bind fun _ _ => .pure ⟨⟨.empty, rfl, trivial⟩, trivial, trivial⟩
  have hlabel : ∀ label, (Tree.option Tree.text label).Shaped := fun label =>
    shaped_option fun _ _ => trivial
  have hbreak : Gives (jumpStmt .breakTo) (·.tree.Shaped) := gives_jumpStmt fun _ label h =>
    ⟨⟨.breakTo, rfl, label_of_isIdentifier h⟩, trivial, hlabel label, trivial⟩
  have hcontinue : Gives (jumpStmt .continueTo) (·.tree.Shaped) := gives_jumpStmt fun _ label h =>
    ⟨⟨.continueTo, rfl, label_of_isIdentifier h⟩, trivial, hlabel label, trivial⟩
  simp only [announcedStmts, List.forall_mem_cons, List.not_mem_nil, false_implies, implies_true,
    and_true]
  exact ⟨(gives_block hg).bind fun _ h => .pure h, hempty, gives_ifStmt hg, gives_whileStmt hg,
    gives_doStmt hg, gives_forStmt hg, gives_switchStmt hg, gives_tryStmt hg, gives_returnStmt hg,
    gives_throwStmt hg, hbreak, hcontinue, gives_synchronizedStmt hg⟩

theorem gives_stmt : Gives (stmt g) (·.tree.Shaped) := by
  refine .looking fun (t : Token) => .ite (fun _ => gives_exprStmt hg) fun _ => ?_
  cases hword : (announcedStmts g).lookup t.text with
  | none => exact gives_plainStmt hg
  | some p => exact gives_announcedStmts hg _ (mem_of_lookup hword)

/-! ## Classes and their members -/

omit hg

theorem gives_skipTypeParams : Gives skipTypeParams fun _ => True := by
  intro s hs _ s' hrun
  rw [skipTypeParams] at hrun
  split_ifs at hrun
  · split at hrun
    · rename_i hrest
      cases hrun
      exact ⟨hs.left ((Lookahead.skipTypeParams?_suffix hrest).trans (List.tail_suffix _)), trivial⟩
    · cases hrun
  · cases hrun
    exact ⟨hs, trivial⟩

include hg

theorem gives_typeNames (word : Text) :
    Gives (discard (after word (separatedBy "," (typeRef g)))) fun _ => True :=
  (gives_typeRef hg).separatedBy.after.discard

theorem gives_methodRest (pos : Pos) (modifiers : List Modifier) (result : Option TypeRef)
    (name : Text) : Gives (methodRest g pos modifiers result name) (·.tree.Shaped) := by
  refine .closing ((gives_paramList hg).bind fun params hparams => .closing ?_)
  refine gives_dims.discard.bind fun _ _ => (gives_typeNames hg _).bind fun _ _ => ?_
  have hshaped : ∀ body : Option Block, (∀ b ∈ body, b.tree.Shaped) →
      (Member.method pos modifiers result name params body).tree.Shaped := fun body hbody =>
    ⟨⟨.method, rfl, trivial⟩, trivial, shaped_texts _, shaped_option fun t _ => t.shaped, trivial,
      shapedItems_map fun p hp => Param.shaped (hparams p hp), Block.shaped_option hbody, trivial⟩
  refine .accepting (.pure (hshaped none nofun)) ?_
  exact (gives_block hg).bind fun body hbody => .pure (hshaped (some body) (by simpa using hbody))

theorem gives_typedMember (pos : Pos) (modifiers : List Modifier) :
    Gives (typedMember g pos modifiers) (·.tree.Shaped) := by
  refine (gives_typeRef hg).bind fun type _ => Gives.expectIdent.bind fun name hname => ?_
  refine .seeing (gives_methodRest hg pos modifiers (some type) name.text) ?_
  refine (gives_declaratorOf hg hname).bind fun first hfirst => ?_
  refine (gives_declarator hg).after.many.bind fun others hothers => .closing (.pure ?_)
  exact ⟨⟨.fieldDecl, rfl, _, _, rfl⟩, trivial, shaped_texts _, type.shaped,
    ⟨hfirst, Declarator.shaped_trees hothers⟩, trivial⟩

theorem gives_member (className : Option Text) :
    Gives (member g className) fun x => ∀ m ∈ x, m.tree.Shaped := by
  refine .looking fun pos => .accepting (.pure nofun) (gives_modifiers.bind fun modifiers _ => ?_)
  refine .seeing ?_ (.seeing ?_ (gives_skipTypeParams.bind fun _ _ => .seeing ?_ ?_))
  · refine (gives_block hg).bind fun body hbody => .pure ?_
    rintro _ ⟨⟩
    exact ⟨⟨.initializer, rfl, trivial⟩, trivial, trivial, hbody, trivial⟩
  · refine (hg.classDecl pos modifiers).bind fun decl hdecl => .pure ?_
    rintro _ ⟨⟩
    exact hdecl
  · exact Gives.take.bind fun name _ => (gives_methodRest hg pos modifiers none name.text).found
  · exact (gives_typedMember hg pos modifiers).found

theorem gives_classBody (className : Option Text) :
    Gives (classBody g className) fun ms => ∀ m ∈ ms, m.tree.Shaped := by
  refine .closing ((gives_member hg className).enclosed.many.bind fun ms hms => .closing (.pure ?_))
  intro m hm
  obtain ⟨_, hx, rfl⟩ := List.mem_filterMap.1 hm
  exact hms _ hx m rfl

theorem gives_classDecl (pos : Pos) (modifiers : List Modifier) :
    Gives (classDecl g pos modifiers) (·.tree.Shaped) := by
  refine .closing (Gives.expectIdent.bind fun name _ => gives_skipTypeParams.bind fun _ _ => ?_)
  refine (gives_typeRef hg).after.discard.bind fun _ _ => (gives_typeNames hg _).bind fun _ _ => ?_
  refine (gives_classBody hg (some name.text)).bind fun ms hms => .pure ?_
  exact ⟨⟨.classDecl, rfl, trivial⟩, trivial, shaped_texts _, trivial, Member.shaped_trees hms,
    trivial⟩

end Production

namespace Grammar

/-- The productions give shaped trees at every level of nesting. -/
theorem shaping_ofDepth (depth : Nat) : (ofDepth depth).Shaping := by
  induction depth with
  | zero =>
    exact ⟨.fail, .fail, .fail, .fail, .fail, .fail, .fail, fun _ => .fail, fun _ _ => .fail⟩
  | succ depth hg =>
    exact {
      typeRef := Production.gives_typeRef hg
      expr := Production.gives_expr hg
      conditional := Production.gives_conditional hg
      unary := Production.gives_unary hg
      arrayLit := Production.gives_arrayLit hg
      block := Production.gives_block hg
      stmt := Production.gives_stmt hg
      classBody := Production.gives_classBody hg
      classDecl := Production.gives_classDecl hg }

variable {g : Grammar} (hg : g.Shaping)

include hg

theorem gives_topLevelClass : Gives (topLevelClass g) fun x => ∀ d ∈ x, d.tree.Shaped :=
  .accepting (.pure nofun) (.looking fun pos => Production.gives_modifiers.bind fun modifiers _ =>
    (hg.classDecl pos modifiers).found)

theorem gives_program : Gives (program g) (·.tree.Shaped) := by
  have hitem : Gives (programItem g) fun x => ∀ item ∈ x, ∀ d ∈ item, d.tree.Shaped :=
    .seeing (.pure nofun) (gives_topLevelClass hg).found
  refine hitem.many.bind fun items hitems => .pure ⟨⟨.program, rfl, trivial⟩, ?_, trivial⟩
  refine shapedItems_map fun d hd => ?_
  obtain ⟨_, hitem, rfl⟩ := List.mem_filterMap.1 hd
  exact hitems _ hitem d rfl

theorem gives_wholeBlock : Gives (wholeBlock g) (·.tree.Shaped) :=
  hg.block.bind fun _ hbody => .seeing (.pure hbody) .failWith

end Grammar

end WriteOnce
