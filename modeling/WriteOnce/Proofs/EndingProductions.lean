import Mathlib.Data.List.Forall2
import WriteOnce.Grammar.Members
import WriteOnce.Proofs.EndingParsers

/-!
# Productions that end

A production ends if those inside it do, and it takes a token: of its own before others begin, or
one of the production that it begins with.
-/

namespace WriteOnce

open WriteOnce.Parser

variable {whole s : TokenStream} {cut : Prop} {inside : Bool}

/-- All productions that occur inside others end, and each of them takes a token. -/
structure Grammar.Ending (cut : Prop) (whole : TokenStream) (inside : Bool) (g g' : Grammar) :
    Prop where
  typeRef : Ends cut whole inside (fun _ => true) g.typeRef g'.typeRef
  expr : Ends cut whole inside (fun _ => true) g.expr g'.expr
  conditional : Ends cut whole inside (fun _ => true) g.conditional g'.conditional
  unary : Ends cut whole inside (fun _ => true) g.unary g'.unary
  arrayLit : Ends cut whole inside (fun _ => true) g.arrayLit g'.arrayLit
  block : Ends cut whole inside (fun _ => true) g.block g'.block
  stmt : Ends cut whole inside (fun _ => true) g.stmt g'.stmt
  classBody (className : Option Text) :
    Ends cut whole inside (fun _ => true) (g.classBody className) (g'.classBody className)
  classDecl (pos : Pos) (modifiers : List Modifier) :
    Ends cut whole inside (fun _ => true) (g.classDecl pos modifiers) (g'.classDecl pos modifiers)

namespace Production

/-! ## Types, modifiers and parameters -/

theorem ends_emptyBrackets : Ends cut whole inside Option.isSome emptyBrackets emptyBrackets := by
  intro s hs
  rw [EndsAt, emptyBrackets]
  split_ifs with h
  · have hahead := TokenStream.ahead_ne_nil_of_sees rfl (Bool.and_eq_true_iff.1 h).1
    refine .ok ⟨s.leaves_skip 2, fun _ => ?_⟩
    have := List.length_pos_iff.2 hahead
    simp only [TokenStream.skip, List.length_drop]
    omega
  · exact .ok ⟨.refl s, Bool.noConfusion⟩

theorem ends_dims : Ends cut whole inside (fun _ => false) dims dims :=
  (Ends.many ends_emptyBrackets).bind fun _ => .pure rfl

/-- Behind the mark of an annotation, less is left. -/
theorem length_skipModifiers_lt (hmark : s.current.text = "@") (hname : s.next.isIdent = true) :
    (Lookahead.skipModifiers s.ahead).length < s.ahead.length := by
  have hahead := TokenStream.ahead_ne_nil_of_text rfl hmark
  obtain ⟨_ | ⟨t, ts⟩, stop⟩ := s
  · exact absurd rfl hahead
  · have hident : Lookahead.headIsIdent ts = true := by
      cases ts with
      | nil => cases hname
      | cons u ts => exact hname
    have hstep : Lookahead.skipModifiers (t :: ts) = Lookahead.skipModifiersFrom .atName ts := by
      have htext : t.text = "@" := hmark
      simp [Lookahead.skipModifiers, Lookahead.skipModifiersFrom, htext, hident]
    rw [hstep]
    exact Nat.lt_succ_of_le (Lookahead.skipModifiersFrom_suffix _ ts).length_le

theorem ahead_ne_nil_of_modifier {m : Modifier} (h : modifier? s.current = some m) :
    s.ahead ≠ [] := by
  have hwords : ∀ m ∈ Modifier.all, m.word.isEmpty = false := by decide
  rw [modifier?] at h
  split_ifs at h
  have hword := List.find?_some h
  exact TokenStream.ahead_ne_nil_of_text (hwords m (List.mem_of_find?_eq_some h))
    (of_decide_eq_true hword).symm

theorem ends_nextModifier (modifiers : List Modifier) :
    Ends cut whole inside Option.isSome (nextModifier modifiers) (nextModifier modifiers) := by
  intro s hs
  rw [EndsAt, nextModifier]
  split_ifs with h
  · obtain ⟨hmark, hname⟩ := Bool.and_eq_true_iff.1 h
    have hless := length_skipModifiers_lt (of_decide_eq_true hmark) hname
    exact .ok (s := { s with ahead := Lookahead.skipModifiers s.ahead })
      ⟨⟨Lookahead.skipModifiers_suffix s.ahead, rfl⟩, fun _ => hless⟩
  · cases hm : modifier? s.current with
    | none => exact .ok ⟨.refl s, Bool.noConfusion⟩
    | some m =>
      have hless := TokenStream.length_skip_lt (ahead_ne_nil_of_modifier hm)
      exact .ok ⟨s.leaves_skip 1, fun _ => hless⟩

theorem ends_modifiers : Ends cut whole inside (fun _ => false) modifiers modifiers :=
  .iterate ends_nextModifier []

variable {g g' : Grammar} (hg : g.Ending cut whole true g')

include hg

theorem ends_typeArg : Ends cut whole true (fun _ => true) (typeArg g) (typeArg g') := by
  refine .looking fun pos => .accepting rfl (.looking fun _ => .looking fun _ => ?_) hg.typeRef
  refine .ite (fun _ => ?_) fun _ => .pure rfl
  exact (ends_skip 1).bind fun _ => hg.typeRef.bind fun _ => .pure rfl

theorem ends_typeArgs : Ends cut whole inside (fun _ => false) (typeArgs g) (typeArgs g') := by
  refine .accepting rfl (.accepting rfl (.pure rfl) ?_) (.pure rfl)
  exact (ends_separatedBy rfl (ends_typeArg hg)).bind fun _ => .closing rfl (.pure rfl)

theorem ends_qualify (named : Text × List TypeRef) :
    Ends cut whole inside Option.isSome (qualify g named) (qualify g' named) := by
  refine .lookingAt fun s hs => .ite (fun h => ?_) fun _ => .pure rfl
  have hahead := TokenStream.ahead_ne_nil_of_sees rfl (Bool.and_eq_true_iff.1 h).1
  exact (EndsAt.skip hahead).bind hs fun _ => ends_take.bind fun _ =>
    (ends_typeArgs hg).bind fun _ => .pure rfl

theorem ends_typeRef : Ends cut whole inside (fun _ => true) (typeRef g) (typeRef g') := by
  have hprimitive : Text.empty ∉ primitiveNames := by decide
  refine .lookingAt fun s hs => .ite (fun h => ?_) fun _ => .ite (fun h => ?_) fun _ =>
    ends_failWith (fun _ => ParseFault.noConfusion) s hs
  · have hname : s.current.text ∈ primitiveNames := of_decide_eq_true (Bool.and_eq_true_iff.1 h).1
    have hahead := TokenStream.ahead_ne_nil (P := fun t => t.text ∈ primitiveNames) hname hprimitive
    exact (EndsAt.skip hahead).bind hs fun _ => ends_dims.bind fun _ => .pure rfl
  · refine (EndsAt.skip (TokenStream.ahead_ne_nil_of_isIdent h)).bind hs fun _ => ?_
    refine (ends_typeArgs hg).bind fun _ => (Ends.iterate (ends_qualify hg) _).bind fun _ => ?_
    exact ends_dims.bind fun _ => .pure rfl

theorem ends_param : Ends cut whole inside (fun _ => true) (param g) (param g') := by
  refine ends_modifiers.bind fun _ => (ends_typeRef hg).bind fun _ => ?_
  refine Ends.bind (ends_accept rfl) fun _ => .naming fun _ => ?_
  exact ends_dims.bind fun _ => .pure rfl

theorem ends_paramList : Ends cut whole inside (fun _ => false) (paramList g) (paramList g') :=
  .seeing (.pure rfl) (ends_separatedBy rfl (ends_param hg)).behind

omit hg

theorem ends_inferredParam :
    Ends cut whole inside (fun _ => true) inferredParam inferredParam :=
  ends_expectIdent.bind fun _ => .pure rfl

/-! ## Expressions -/

include hg

theorem ends_argList : Ends cut whole true (fun _ => false) (argList g) (argList g') :=
  .seeing (.pure rfl) (ends_separatedBy rfl hg.expr).behind

theorem ends_arrayElement :
    Ends cut whole true (fun _ => true) (arrayElement g) (arrayElement g') :=
  .seeing (hg.arrayLit.bind fun _ => .pure rfl) hg.expr

theorem ends_nextArrayElement :
    Ends cut whole inside Option.isSome (nextArrayElement g) (nextArrayElement g') := by
  refine .accepting rfl (.seeing (.pure rfl) ?_) (.pure rfl)
  exact (ends_arrayElement hg).bind fun _ => .pure rfl

theorem ends_arrayLit : Ends cut whole inside (fun _ => true) (arrayLit g) (arrayLit g') := by
  refine .expecting rfl fun brace _ => .accepting rfl (.pure rfl) ?_
  refine (ends_arrayElement hg).bind fun _ => ?_
  exact (Ends.many (ends_nextArrayElement hg)).bind fun _ => .closing rfl (.pure rfl)

theorem ends_arraySize :
    Ends cut whole inside Option.isSome (arraySize g) (arraySize g') := by
  refine .accepting rfl (.accepting rfl (.pure rfl) ?_) (.pure rfl)
  exact hg.expr.bind fun _ => .closing rfl (.pure rfl)

theorem ends_newExpr : Ends cut whole inside (fun _ => true) (newExpr g) (newExpr g') := by
  refine .expecting rfl fun word _ => (ends_typeRef hg).bind fun type => ?_
  refine .ite (fun _ => ?_) fun _ =>
    .accepting rfl ?_ (.seeing ?_ (ends_fail ParseFault.noConfusion))
  · exact (ends_arrayLit hg).bind fun _ => .pure rfl
  · refine (ends_argList hg).bind fun _ => .closing rfl (.seeing ?_ (.pure rfl))
    exact (hg.classBody none).bind fun _ => .pure rfl
  · exact (Ends.many (ends_arraySize hg)).bind fun _ => .pure rfl

theorem ends_lambdaParams :
    Ends cut whole inside (fun _ => true) (lambdaParams g) (lambdaParams g') := by
  refine .seeing (ends_inferredParam.bind fun _ => .pure rfl) (.closing rfl (.seeing ?_ ?_))
  · exact (ends_separatedBy rfl ends_inferredParam).bind fun _ => .closing rfl (.pure rfl)
  · exact (ends_paramList hg).bind fun _ => .closing rfl (.pure rfl)

theorem ends_lambda : Ends cut whole inside (fun _ => true) (lambda g) (lambda g') := by
  refine .looking fun pos => (ends_lambdaParams hg).bind fun _ => .closing rfl (.seeing ?_ ?_)
  · exact hg.block.bind fun _ => .pure rfl
  · exact hg.expr.bind fun _ => .pure rfl

theorem ends_primary : Ends cut whole inside (fun _ => true) (primary g) (primary g') := by
  refine .lookingAt fun s hs => ?_
  cases hvalue : literal? s.current with
  | some value =>
    have hahead := TokenStream.ahead_ne_nil (P := fun t => literal? t = some value) hvalue nofun
    exact (EndsAt.skip hahead).bind hs fun _ => .pure rfl
  | none =>
    refine .looking (.ite (fun _ => ends_lambda hg s hs) fun _ => .ite (fun hname => ?_) fun _ =>
      (Ends.accepting rfl ?_ (.seeing (ends_newExpr hg) ?_)) s hs)
    · have hahead := TokenStream.ahead_ne_nil (P := fun t => isNameWord t = true) hname nofun
      exact (EndsAt.skip hahead).bind hs fun _ => .pure rfl
    · exact hg.expr.bind fun _ => .closing rfl (.pure rfl)
    · exact ends_failWith fun _ => ParseFault.noConfusion

omit hg

theorem kind_of_stepOp? {op : StepOp} (h : stepOp? s = some op) : s.current.kind = .op := by
  rw [stepOp?] at h
  split_ifs at h with hkind
  exact hkind

theorem kind_of_unaryOp? {op : UnaryOp} (h : unaryOp? s = some op) : s.current.kind = .op := by
  rw [unaryOp?] at h
  split_ifs at h with hkind
  exact hkind

theorem ends_fieldSuffix (object : Expr) :
    Ends cut whole inside (fun _ => false) (fieldSuffix object) (fieldSuffix object) :=
  .looking fun _ => .ite (fun _ => (ends_skip 1).bind fun _ => .pure rfl) fun _ =>
    ends_fail ParseFault.noConfusion

theorem ends_methodSuffix (object : Expr) :
    Ends cut whole inside (fun _ => false) (methodSuffix object) (methodSuffix object) :=
  .looking fun _ => .ite (fun _ => (ends_skip 1).bind fun _ => .pure rfl) fun _ =>
    ends_fail ParseFault.noConfusion

include hg

theorem ends_suffix (e : Expr) :
    Ends cut whole inside Option.isSome (suffix g e) (suffix g' e) := by
  refine .accepting rfl ((ends_fieldSuffix e).bind fun _ => .pure rfl) (.accepting rfl ?_
    (.accepting rfl ?_ (.accepting rfl ((ends_methodSuffix e).bind fun _ => .pure rfl)
      (.lookingAt fun s hs => ?_))))
  · exact hg.expr.bind fun _ => .closing rfl (.pure rfl)
  · exact (ends_argList hg).bind fun _ => .closing rfl (.pure rfl)
  · cases hop : stepOp? s with
    | none => exact .pure rfl
    | some op =>
      have hahead := TokenStream.ahead_ne_nil_of_op (kind_of_stepOp? hop)
      refine .ite (fun _ => ?_) fun _ => ends_fail ParseFault.noConfusion s hs
      exact (EndsAt.skip hahead).bind hs fun _ => .pure rfl

theorem ends_postfixed : Ends cut whole inside (fun _ => true) (postfixed g) (postfixed g') :=
  (ends_primary hg).bind fun _ => Ends.iterate (ends_suffix hg) _

theorem ends_castExpr : Ends cut whole inside (fun _ => true) (castExpr g) (castExpr g') :=
  ends_take.bind fun _ => (ends_typeRef hg).bind fun _ => .closing rfl
    (hg.unary.bind fun _ => .pure rfl)

theorem ends_unary : Ends cut whole inside (fun _ => true) (unary g) (unary g') := by
  refine .placing fun pos hpos => .lookingAt fun s hs => ?_
  cases hop : unaryOp? s with
  | some op =>
    have hahead := TokenStream.ahead_ne_nil_of_op (kind_of_unaryOp? hop)
    exact (EndsAt.skip hahead).bind hs fun _ => hg.unary.bind fun _ => .pure rfl
  | none =>
    refine Ends.lookingAt (fun s hs => ?_) s hs
    cases hop : stepOp? s with
    | some op =>
      have hahead := TokenStream.ahead_ne_nil_of_op (kind_of_stepOp? hop)
      refine (EndsAt.skip hahead).bind hs fun _ => hg.unary.bind fun _ => ?_
      exact .ite (fun _ => .pure rfl) fun _ => ends_failAt hpos ParseFault.noConfusion
    | none => exact Ends.seeing (ends_castExpr hg) (ends_postfixed hg) s hs

omit hg

/-! ### Binary operators -/

section

variable {op? : TokenStream → Option (BinaryOp × Nat)} {operand operand' : Parser Expr}

theorem ends_binaryStep (h : Ends cut whole inside (fun _ => true) operand operand') (left : Expr) :
    Ends cut whole inside Option.isSome (binaryStep op? operand left)
      (binaryStep op? operand' left) := by
  refine .looking fun found => ?_
  cases found with
  | none => exact .pure rfl
  | some found => exact (ends_skip found.2).bind fun _ => h.bind fun _ => .pure rfl

theorem ends_chain (h : Ends cut whole inside (fun _ => true) operand operand') :
    Ends cut whole inside (fun _ => true) (chain op? operand) (chain op? operand') :=
  h.bind fun _ => Ends.iterate (ends_binaryStep h.later) _

end

include hg

theorem ends_product : Ends cut whole inside (fun _ => true) (product g) (product g') :=
  ends_chain (ends_unary hg)

theorem ends_sum : Ends cut whole inside (fun _ => true) (sum g) (sum g') :=
  ends_chain (ends_product hg)

theorem ends_shift : Ends cut whole inside (fun _ => true) (shift g) (shift g') :=
  ends_chain (ends_sum hg)

theorem ends_comparisonStep (left : Expr) :
    Ends cut whole inside Option.isSome (comparisonStep g left) (comparisonStep g' left) :=
  .accepting rfl ((ends_typeRef hg).bind fun _ => .pure rfl) (ends_binaryStep (ends_shift hg) left)

theorem ends_comparison : Ends cut whole inside (fun _ => true) (comparison g) (comparison g') :=
  (ends_shift hg).bind fun _ => Ends.iterate (ends_comparisonStep hg) _

theorem ends_equality : Ends cut whole inside (fun _ => true) (equality g) (equality g') :=
  ends_chain (ends_comparison hg)

theorem ends_bitAnd : Ends cut whole inside (fun _ => true) (bitAnd g) (bitAnd g') :=
  ends_chain (ends_equality hg)

theorem ends_bitXor : Ends cut whole inside (fun _ => true) (bitXor g) (bitXor g') :=
  ends_chain (ends_bitAnd hg)

theorem ends_bitOr : Ends cut whole inside (fun _ => true) (bitOr g) (bitOr g') :=
  ends_chain (ends_bitXor hg)

theorem ends_conjunction :
    Ends cut whole inside (fun _ => true) (conjunction g) (conjunction g') :=
  ends_chain (ends_bitOr hg)

theorem ends_disjunction :
    Ends cut whole inside (fun _ => true) (disjunction g) (disjunction g') :=
  ends_chain (ends_conjunction hg)

/-! ### Conditionals and assignments -/

theorem ends_conditional :
    Ends cut whole inside (fun _ => true) (conditional g) (conditional g') := by
  refine (ends_disjunction hg).bind fun _ => .accepting rfl ?_ (.pure rfl)
  exact hg.expr.bind fun _ => .closing rfl (hg.conditional.bind fun _ => .pure rfl)

theorem ends_assignedValue (op : AssignOp) :
    Ends cut whole true (fun _ => true) (assignedValue g op) (assignedValue g' op) := by
  refine .looking fun _ => .ite (fun _ => ?_) fun _ => hg.expr
  exact (ends_arrayLit hg).bind fun _ => .pure rfl

theorem ends_expr : Ends cut whole inside (fun _ => true) (expr g) (expr g') := by
  refine (ends_conditional hg).bind fun left => .looking fun found => ?_
  cases found with
  | none => exact .pure rfl
  | some found =>
    refine .ite (fun _ => ?_) fun _ => ends_fail ParseFault.noConfusion
    exact (ends_skip found.2).bind fun _ => (ends_assignedValue hg found.1).bind fun _ => .pure rfl

/-! ## Statements -/

theorem ends_exprInParens :
    Ends cut whole inside (fun _ => true) (exprInParens g) (exprInParens g') :=
  .closing rfl ((ends_expr hg).bind fun _ => .closing rfl (.pure rfl))

theorem ends_initialValue :
    Ends cut whole inside (fun _ => true) (initialValue g) (initialValue g') :=
  .seeing ((ends_arrayLit hg).bind fun _ => .pure rfl) (ends_expr hg)

theorem ends_declaratorOf (name : Token) :
    Ends cut whole inside (fun _ => false) (declaratorOf g name) (declaratorOf g' name) :=
  ends_dims.bind fun _ => (ends_after rfl (ends_initialValue hg)).bind fun _ => .pure (by simp)

theorem ends_declarator :
    Ends cut whole inside (fun _ => true) (declarator g) (declarator g') :=
  .naming fun name => ends_declaratorOf hg name

theorem ends_localDecl :
    Ends cut whole inside (fun _ => true) (localDecl g) (localDecl g') := by
  refine .looking fun pos => ends_modifiers.bind fun _ => (ends_typeRef hg).bind fun _ => ?_
  exact (ends_separatedBy rfl (ends_declarator hg)).bind fun _ => .pure rfl

omit hg

section

variable {α : Type} {p p' : Parser α}

theorem ends_enclosed (enclosure : Enclosure) (closes : TokenStream → Bool)
    (h : Ends cut whole inside (fun _ => true) p p') :
    Ends cut whole inside Option.isSome (enclosed enclosure closes p)
      (enclosed enclosure closes p') :=
  .seeing (.pure rfl) (.seeing (ends_fail ParseFault.noConfusion) (h.bind fun _ => .pure rfl))

theorem ends_unlessSeen (word : Text) (h : Ends cut whole inside (fun _ => true) p p') :
    Ends cut whole inside Option.isSome (unlessSeen word p) (unlessSeen word p') :=
  .seeing (.pure rfl) (h.bind fun _ => .pure rfl)

end

include hg

theorem ends_block : Ends cut whole inside (fun _ => true) (block g) (block g') := by
  refine .expecting rfl fun brace _ => ?_
  exact (Ends.many (ends_enclosed .block _ hg.stmt)).bind fun _ => .closing rfl (.pure rfl)

theorem ends_exprStmt : Ends cut whole inside (fun _ => true) (exprStmt g) (exprStmt g') :=
  .looking fun _ => (ends_expr hg).bind fun _ => .closing rfl (.pure rfl)

theorem ends_ifStmt : Ends cut whole inside (fun _ => true) (ifStmt g) (ifStmt g') := by
  refine .expecting rfl fun word _ => (ends_exprInParens hg).bind fun _ => hg.stmt.bind fun _ => ?_
  exact (ends_after rfl hg.stmt).bind fun _ => .pure (by simp)

theorem ends_whileStmt : Ends cut whole inside (fun _ => true) (whileStmt g) (whileStmt g') :=
  .expecting rfl fun _ _ => (ends_exprInParens hg).bind fun _ => hg.stmt.bind fun _ => .pure rfl

theorem ends_doStmt : Ends cut whole inside (fun _ => true) (doStmt g) (doStmt g') := by
  refine .expecting rfl fun word _ => hg.stmt.bind fun _ => .closing rfl ?_
  exact (ends_exprInParens hg).bind fun _ => .closing rfl (.pure rfl)

theorem ends_forEachRest (pos : Pos) :
    Ends cut whole inside (fun _ => true) (forEachRest g pos) (forEachRest g' pos) := by
  refine ends_modifiers.bind fun _ => (ends_typeRef hg).bind fun _ => .naming fun _ => ?_
  refine .closing rfl ((ends_expr hg).bind fun _ => .closing rfl ?_)
  exact hg.stmt.bind fun _ => .pure rfl

theorem ends_forInit : Ends cut whole inside (fun _ => false) (forInit g) (forInit g') := by
  refine .seeing (.pure rfl) (.seeing ?_ ?_)
  · exact (ends_localDecl hg).bind fun _ => .pure rfl
  · exact (ends_separatedBy rfl (ends_expr hg)).bind fun _ => .pure rfl

theorem ends_forRest (pos : Pos) :
    Ends cut whole inside (fun _ => true) (forRest g pos) (forRest g' pos) := by
  refine (ends_forInit hg).bind fun _ => .closing rfl ?_
  refine (ends_unlessSeen ";" (ends_expr hg)).bind fun _ => .closing rfl ?_
  refine (ends_unlessSeen ")" (ends_separatedBy rfl (ends_expr hg))).bind fun _ => .closing rfl ?_
  exact hg.stmt.bind fun _ => .pure rfl

theorem ends_forStmt : Ends cut whole inside (fun _ => true) (forStmt g) (forStmt g') := by
  refine .expecting rfl fun word _ => .closing rfl (.seeing ?_ ?_)
  · exact (ends_forEachRest hg word.pos).behind
  · exact (ends_forRest hg word.pos).behind

/-- Where a group begins, a label is taken. -/
theorem endsAt_groupLabels (hs : whole.Within inside s) (h : seesGroup s = true)
    (labels : List Expr × Bool) :
    EndsAt cut whole s (fun _ => true) (groupLabels g labels) (groupLabels g' labels) := by
  obtain ⟨values, isDefault⟩ := labels
  have hcolon : ∀ x : List Expr × Bool, Ends cut whole true (fun _ => false)
      (do if ← sees "->" then fail .arrowGroup else discard (expect ":"); return some x)
      (do if ← sees "->" then fail .arrowGroup else discard (expect ":"); return some x) :=
    fun x => .seeing (ends_fail ParseFault.noConfusion) (.closing rfl (.pure rfl))
  refine .looking (.ite (fun _ => (Ends.accepting rfl (hcolon _) ?_) s hs) fun hgroup =>
    absurd h hgroup)
  exact (ends_skip 1).bind fun _ =>
    (ends_separatedBy rfl (ends_conditional hg)).bind fun _ => hcolon _

theorem ends_groupLabels (labels : List Expr × Bool) :
    Ends cut whole inside Option.isSome (groupLabels g labels) (groupLabels g' labels) := by
  intro s hs
  by_cases h : seesGroup s = true
  · exact (endsAt_groupLabels hg hs h labels).imp fun _ _ => rfl
  · refine .looking (.ite (fun hgroup => absurd hgroup h) fun _ => .pure rfl)

theorem ends_switchGroup :
    Ends cut whole inside (fun _ => true) (switchGroup g) (switchGroup g') := by
  refine .looking fun pos => .lookingAt fun s hs => .ite (fun h => ?_) fun _ =>
    ends_failWith (fun _ => ParseFault.noConfusion) s hs
  have hfirst := endsAt_groupLabels hg hs h ([], false)
  refine (EndsAt.iterate hs hfirst (ends_groupLabels hg)).bind hs fun _ => ?_
  exact (Ends.many (ends_enclosed .switch _ hg.stmt)).bind fun _ => .pure rfl

theorem ends_switchStmt : Ends cut whole inside (fun _ => true) (switchStmt g) (switchStmt g') := by
  refine .expecting rfl fun word _ => (ends_exprInParens hg).bind fun _ => .closing rfl ?_
  refine (Ends.many (ends_unlessSeen "\x7d" (ends_switchGroup hg))).bind fun _ => ?_
  exact .closing rfl (.pure rfl)

theorem ends_catchClause :
    Ends cut whole inside Option.isSome (catchClause g) (catchClause g') := by
  refine .seeing (ends_take.bind fun _ => .closing rfl ?_) (.pure rfl)
  refine ends_modifiers.bind fun _ => (ends_typeRef hg).bind fun _ => ?_
  refine (Ends.many (ends_after rfl (ends_typeRef hg))).bind fun _ => ?_
  exact .naming fun _ => .closing rfl ((ends_block hg).bind fun _ => .pure rfl)

theorem ends_tryStmt : Ends cut whole inside (fun _ => true) (tryStmt g) (tryStmt g') := by
  refine .expecting rfl fun word hpos => .seeing (ends_fail ParseFault.noConfusion) ?_
  refine (ends_block hg).bind fun _ => (Ends.many (ends_catchClause hg)).bind fun clauses => ?_
  refine (ends_after rfl (ends_block hg)).bind fun cleanup => .ite (fun _ => ?_) fun _ => ?_
  · exact ends_failAt hpos ParseFault.noConfusion
  · exact .pure (by simp)

theorem ends_returnStmt : Ends cut whole inside (fun _ => true) (returnStmt g) (returnStmt g') := by
  refine .expecting rfl fun word _ => (ends_unlessSeen ";" (ends_expr hg)).bind fun _ => ?_
  exact .closing rfl (.pure rfl)

theorem ends_throwStmt : Ends cut whole inside (fun _ => true) (throwStmt g) (throwStmt g') :=
  .expecting rfl fun _ _ => (ends_expr hg).bind fun _ => .closing rfl (.pure rfl)

omit hg

theorem ends_jumpStmt (jump : Pos → Option Text → Stmt) :
    Ends cut whole inside (fun _ => true) (jumpStmt jump) (jumpStmt jump) := by
  refine ends_take.bind fun word => .seeing ?_ (.closing rfl (.pure rfl))
  exact ends_take.bind fun _ => .closing rfl (.pure rfl)

include hg

theorem ends_synchronizedStmt :
    Ends cut whole inside (fun _ => true) (synchronizedStmt g) (synchronizedStmt g') := by
  refine .expecting rfl fun word _ => (ends_exprInParens hg).bind fun _ => ?_
  exact (ends_block hg).bind fun _ => .pure rfl

/-- Behind a label, a token is taken in any case. -/
theorem endsAt_labeledStmt (hs : whole.Within inside s) (h : s.current.isIdent = true) :
    EndsAt cut whole s (fun _ => true) (labeledStmt g) (labeledStmt g') := by
  refine (EndsAt.take (TokenStream.ahead_ne_nil_of_isIdent h)).bind hs fun label => ?_
  exact (ends_skip 1).bind fun _ => hg.stmt.bind fun _ => .pure rfl

theorem ends_localDeclStmt :
    Ends cut whole inside (fun _ => true) (localDeclStmt g) (localDeclStmt g') :=
  (ends_localDecl hg).bind fun _ => .closing rfl (.pure rfl)

variable (hclass : ∀ pos modifiers,
  Ends cut whole inside (fun _ => true) (g.classDecl pos modifiers) (g'.classDecl pos modifiers))

include hclass

omit hg

theorem ends_localClass :
    Ends cut whole inside (fun _ => true) (localClass g) (localClass g') := by
  refine .looking fun pos => ends_modifiers.bind fun modifiers => ?_
  exact (hclass pos modifiers).bind fun _ => .pure rfl

include hg

theorem ends_plainStmt :
    Ends cut whole inside (fun _ => true) (plainStmt g) (plainStmt g') := by
  refine .seeing (ends_localClass hclass) (.lookingAt fun s hs => .ite (fun h => ?_) fun _ => ?_)
  · exact endsAt_labeledStmt hg hs (Bool.and_eq_true_iff.1 h).1
  · exact Ends.seeing (ends_localDeclStmt hg) (ends_exprStmt hg) s hs

omit hclass hg

/-- Statements that are announced by the same word, both of which end where it stands. -/
def Announces (cut : Prop) (whole s : TokenStream) (e e' : Text × Parser Stmt) : Prop :=
  e'.1 = e.1 ∧ (s.current.text = e.1 → EndsAt cut whole s (fun _ => true) e.2 e'.2)

include hg

theorem announces_announcedStmts (hs : whole.Within inside s) :
    List.Forall₂ (Announces cut whole s) (announcedStmts g) (announcedStmts g') := by
  simp only [announcedStmts, List.forall₂_cons, List.forall₂_nil_left_iff, and_true]
  refine ⟨⟨rfl, fun _ => ?_⟩, ⟨rfl, fun h => ?_⟩, ⟨rfl, fun _ => ends_ifStmt hg s hs⟩,
    ⟨rfl, fun _ => ends_whileStmt hg s hs⟩, ⟨rfl, fun _ => ends_doStmt hg s hs⟩,
    ⟨rfl, fun _ => ends_forStmt hg s hs⟩, ⟨rfl, fun _ => ends_switchStmt hg s hs⟩,
    ⟨rfl, fun _ => ends_tryStmt hg s hs⟩, ⟨rfl, fun _ => ends_returnStmt hg s hs⟩,
    ⟨rfl, fun _ => ends_throwStmt hg s hs⟩, ⟨rfl, fun _ => ends_jumpStmt _ s hs⟩,
    ⟨rfl, fun _ => ends_jumpStmt _ s hs⟩, ⟨rfl, fun _ => ends_synchronizedStmt hg s hs⟩⟩
  · exact ((ends_block hg).bind fun _ => .pure rfl) s hs
  · exact (EndsAt.take (TokenStream.ahead_ne_nil_of_text rfl h)).bind hs fun _ => .pure rfl

include hclass

theorem ends_stmt : Ends cut whole inside (fun _ => true) (stmt g) (stmt g') := by
  refine .lookingAt fun s hs => .ite (fun _ => ends_exprStmt hg s hs) fun _ => ?_
  have hannounced := announces_announcedStmts hg hs
  generalize announcedStmts g = es, announcedStmts g' = es' at hannounced
  -- along the table of words, which both grammars have in common
  induction hannounced with
  | nil => exact ends_plainStmt hg hclass s hs
  | @cons e e' es es' he _ ih =>
    obtain ⟨word, p⟩ := e
    obtain ⟨word', p'⟩ := e'
    obtain ⟨rfl, hends⟩ := he
    rw [List.lookup_cons, List.lookup_cons]
    by_cases h : s.current.text = word'
    · rw [beq_iff_eq.2 h]
      exact hends h
    · rw [beq_eq_false_iff_ne.2 h]
      exact ih

omit hclass hg

/-! ## Classes and their members -/

theorem ends_skipTypeParams :
    Ends cut whole inside (fun _ => false) skipTypeParams skipTypeParams := by
  intro s hs
  rw [EndsAt, skipTypeParams]
  split_ifs
  · cases h : Lookahead.skipTypeParams? 0 s.ahead.tail with
    | none => exact .error (hs.leaves.allPlaces_subset s.current_pos_mem) ParseFault.noConfusion
    | some rest =>
      have hsuffix := (Lookahead.skipTypeParams?_suffix h).trans (List.tail_suffix s.ahead)
      exact .ok (s := { s with ahead := rest }) ⟨⟨hsuffix, rfl⟩, False.elim⟩
  · exact .ok ⟨.refl s, False.elim⟩

include hg

/-- The types behind `throws` or `implements`. -/
theorem ends_typeNames {word : Text} (hword : word.isEmpty = false) :
    Ends cut whole inside (fun _ => false)
      (discard (after word (separatedBy "," (typeRef g))))
      (discard (after word (separatedBy "," (typeRef g')))) :=
  ends_discard (ends_after hword (ends_separatedBy rfl (ends_typeRef hg))).behind

theorem ends_methodRest (pos : Pos) (modifiers : List Modifier) (result : Option TypeRef)
    (name : Text) :
    Ends cut whole inside (fun _ => true) (methodRest g pos modifiers result name)
      (methodRest g' pos modifiers result name) := by
  refine .closing rfl ((ends_paramList hg).bind fun _ => .closing rfl ?_)
  refine (ends_discard ends_dims).bind fun _ => (ends_typeNames hg rfl).bind fun _ => ?_
  refine .accepting rfl (.pure rfl) ?_
  exact (ends_block hg).bind fun _ => .pure rfl

theorem ends_typedMember (pos : Pos) (modifiers : List Modifier) :
    Ends cut whole inside (fun _ => true) (typedMember g pos modifiers)
      (typedMember g' pos modifiers) := by
  refine (ends_typeRef hg).bind fun type => .naming fun name => .seeing ?_ ?_
  · exact (ends_methodRest hg pos modifiers (some type) name.text).behind
  · refine (ends_declaratorOf hg name).bind fun first => ?_
    exact (Ends.many (ends_after rfl (ends_declarator hg))).bind fun _ => .closing rfl (.pure rfl)

include hclass

theorem ends_member (className : Option Text) :
    Ends cut whole inside (fun _ => true) (member g className) (member g' className) := by
  refine .looking fun pos => .accepting rfl (.pure rfl) (ends_modifiers.bind fun modifiers => ?_)
  refine .seeing ?_ (.seeing ?_ (ends_skipTypeParams.bind fun _ => .seeing ?_ ?_))
  · exact (ends_block hg).bind fun _ => .pure rfl
  · exact (hclass pos modifiers).bind fun _ => .pure rfl
  · refine ends_take.bind fun name => ?_
    exact (ends_methodRest hg pos modifiers none name.text).bind fun _ => .pure rfl
  · exact (ends_typedMember hg pos modifiers).bind fun _ => .pure rfl

omit hclass

theorem ends_classBody (className : Option Text) :
    Ends cut whole inside (fun _ => true) (classBody g className) (classBody g' className) := by
  refine .closing rfl ?_
  have hmember := ends_member hg hg.classDecl className
  refine (Ends.many (ends_enclosed .classBody _ hmember)).bind fun _ => ?_
  exact .closing rfl (.pure rfl)

theorem ends_classDecl (pos : Pos) (modifiers : List Modifier) :
    Ends cut whole inside (fun _ => true) (classDecl g pos modifiers)
      (classDecl g' pos modifiers) := by
  refine .closing rfl (.naming fun name => ends_skipTypeParams.bind fun _ => ?_)
  refine Ends.bind (ends_discard (ends_after rfl (ends_typeRef hg)).behind) fun _ => ?_
  refine (ends_typeNames hg rfl).bind fun _ => ?_
  exact (ends_classBody hg (some name.text)).bind fun _ => .pure rfl

end Production

namespace Grammar

variable {g g' : Grammar}

/-- What a production needs is that the productions inside it end, and a class among the statements
where it stands. -/
theorem Ending.nest (hg : g.Ending cut whole true g')
    (hclass : ∀ pos modifiers, Ends cut whole inside (fun _ => true)
      (g.classDecl pos modifiers) (g'.classDecl pos modifiers)) :
    (nest g).Ending cut whole inside (nest g') where
  typeRef := Production.ends_typeRef hg
  expr := Production.ends_expr hg
  conditional := Production.ends_conditional hg
  unary := Production.ends_unary hg
  arrayLit := Production.ends_arrayLit hg
  block := Production.ends_block hg
  stmt := Production.ends_stmt hg hclass
  classBody := Production.ends_classBody hg
  classDecl := Production.ends_classDecl hg

variable (hg : g.Ending cut whole inside g')

include hg

theorem ends_topLevelClass :
    Ends cut whole inside (fun _ => true) (topLevelClass g) (topLevelClass g') := by
  refine .accepting rfl (.pure rfl) (.looking fun pos => Production.ends_modifiers.bind ?_)
  exact fun modifiers => (hg.classDecl pos modifiers).bind fun _ => .pure rfl

theorem ends_programItem :
    Ends cut whole inside Option.isSome (programItem g) (programItem g') :=
  .seeing (.pure rfl) ((ends_topLevelClass hg).bind fun _ => .pure rfl)

theorem ends_program : Ends cut whole inside (fun _ => false) (program g) (program g') :=
  (Ends.many (ends_programItem hg)).bind fun _ => .pure rfl

theorem ends_wholeBlock :
    Ends cut whole inside (fun _ => true) (wholeBlock g) (wholeBlock g') :=
  hg.block.bind fun _ => .seeing (.pure rfl) (ends_failWith fun _ => ParseFault.noConfusion)

end Grammar

end WriteOnce
