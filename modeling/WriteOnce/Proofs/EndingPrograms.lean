import WriteOnce.Proofs.EndingProductions
import WriteOnce.Proofs.EndingScans

/-!
# Parsing ends

Whatever the tokens are, a parser comes to a tree or an error. It stands among the tokens all the
time, each production that returns has taken one, and so no loop goes on for ever. A limit of
nesting makes no difference but that it can cut a run off.
-/

namespace WriteOnce

open WriteOnce.Parser

variable {whole tokens s s₁ : TokenStream} {cut : Prop} {inside : Bool}

/-! ## Loops -/

namespace Parser

variable {α σ : Type}

/-- How a loop that collects values runs, however long it takes: until there is no value or an
error. -/
inductive Collects (p : Parser (Option α)) :
    TokenStream → Except ParseError (List α × TokenStream) → Prop
  | stop {s s₁ : TokenStream} (h : p s = .ok (none, s₁)) : Collects p s (.ok ([], s₁))
  | fail {s : TokenStream} {e : ParseError} (h : p s = .error e) : Collects p s (.error e)
  | next {s s₁ : TokenStream} {a : α} {result : Except ParseError (List α × TokenStream)}
    (h : p s = .ok (some a, s₁)) (hrest : Collects p s₁ result) :
    Collects p s (result.map fun (as, s₂) => (a :: as, s₂))

/-- How a loop that changes a value runs: until a step declines or there is an error. -/
inductive Iterates (step : σ → Parser (Option σ)) :
    σ → TokenStream → Except ParseError (σ × TokenStream) → Prop
  | stop {a : σ} {s s₁ : TokenStream} (h : step a s = .ok (none, s₁)) :
    Iterates step a s (.ok (a, s₁))
  | fail {a : σ} {s : TokenStream} {e : ParseError} (h : step a s = .error e) :
    Iterates step a s (.error e)
  | next {a b : σ} {s s₁ : TokenStream} {result : Except ParseError (σ × TokenStream)}
    (h : step a s = .ok (some b, s₁)) (hrest : Iterates step b s₁ result) :
    Iterates step a s result

/-- The tokens ahead are enough for a loop in which every value takes one. -/
theorem collects_many {p q : Parser (Option α)} (h : Ends cut whole inside Option.isSome p q)
    (hs : whole.Within inside s) : Collects p s (many p s) := by
  have hloop : ∀ (fuel : List Token) (inside : Bool) (s : TokenStream),
      Ends cut whole inside Option.isSome p q → whole.Within inside s →
      s.ahead.length ≤ fuel.length → Collects p s (many.loop p fuel s) := by
    intro fuel
    induction fuel with
    | nil =>
      intro inside s h hs hle
      change Collects p s (Except.bind (p s) _)
      rcases hrun : p s with e | ⟨_ | a, s₁⟩
      · exact .fail hrun
      · exact .stop hrun
      -- The fuel is used up, and so are the tokens: there is none that a value could take.
      · have hless := ((h s hs).of_ok hrun).2 rfl
        exact absurd (hless.trans_le hle) (Nat.not_lt_zero _)
    | cons t fuel ih =>
      intro inside s h hs hle
      change Collects p s (Except.bind (p s) _)
      rcases hrun : p s with e | ⟨_ | a, s₁⟩
      · exact .fail hrun
      · exact .stop hrun
      · obtain ⟨hs₁, hless⟩ := (h s hs).of_ok hrun
        have hrest := ih true s₁ h.later (hs.next hs₁ hless)
          (Nat.le_of_lt_succ ((hless rfl).trans_le hle))
        have hnext := Collects.next hrun hrest
        change Collects p s (Except.bind (many.loop p fuel s₁) _)
        cases hloop : many.loop p fuel s₁ <;> rwa [hloop] at hnext
  exact hloop s.ahead inside s h hs (Nat.le_refl _)

theorem iterates_iterate {step step' : σ → Parser (Option σ)}
    (h : ∀ a, Ends cut whole inside Option.isSome (step a) (step' a)) (a : σ)
    (hs : whole.Within inside s) : Iterates step a s (iterate step a s) := by
  have hloop : ∀ (fuel : List Token) (inside : Bool) (a : σ) (s : TokenStream),
      (∀ a, Ends cut whole inside Option.isSome (step a) (step' a)) → whole.Within inside s →
      s.ahead.length ≤ fuel.length → Iterates step a s (iterate.loop step fuel a s) := by
    intro fuel
    induction fuel with
    | nil =>
      intro inside a s h hs hle
      change Iterates step a s (Except.bind (step a s) _)
      rcases hrun : step a s with e | ⟨_ | b, s₁⟩
      · exact .fail hrun
      · exact .stop hrun
      · have hless := ((h a s hs).of_ok hrun).2 rfl
        exact absurd (hless.trans_le hle) (Nat.not_lt_zero _)
    | cons t fuel ih =>
      intro inside a s h hs hle
      change Iterates step a s (Except.bind (step a s) _)
      rcases hrun : step a s with e | ⟨_ | b, s₁⟩
      · exact .fail hrun
      · exact .stop hrun
      · obtain ⟨hs₁, hless⟩ := (h a s hs).of_ok hrun
        exact .next hrun (ih true b s₁ (fun a => (h a).later) (hs.next hs₁ hless)
          (Nat.le_of_lt_succ ((hless rfl).trans_le hle)))
  exact hloop s.ahead inside a s h hs (Nat.le_refl _)

/-- Wherever the loop is begun among the tokens, its fuel lasts. -/
def LoopEnds (p : Parser (Option α)) (tokens : TokenStream) : Prop :=
  ∀ s, tokens.Leaves s → Collects p s (many p s)

/-- The same for a loop that changes a value. -/
def IterationEnds (step : σ → Parser (Option σ)) (tokens : TokenStream) : Prop :=
  ∀ a s, tokens.Leaves s → Iterates step a s (iterate step a s)

theorem Ends.loopEnds {p q : Parser (Option α)} (h : Ends cut tokens false Option.isSome p q) :
    LoopEnds p tokens :=
  fun _ hs => collects_many h (TokenStream.within_false hs)

theorem Ends.iterationEnds {step step' : σ → Parser (Option σ)}
    (h : ∀ a, Ends cut tokens false Option.isSome (step a) (step' a)) :
    IterationEnds step tokens :=
  fun a _ hs => iterates_iterate h a (TokenStream.within_false hs)

/-! ## Indices -/

/-- Begun at any index of the list of tokens, the one for the end of the input included, the parser
stops at a further index, or fails at a token of the list. -/
def Advances (p : Parser α) (tokens : TokenStream) : Prop :=
  ∀ i < tokens.toList.length,
    (∃ a, ∃ j < tokens.toList.length, i < j ∧ p (tokens.skip i) = .ok (a, tokens.skip j)) ∨
    ∃ fault, ∃ t ∈ tokens.toList, p (tokens.skip i) = .error ⟨fault, t.pos⟩

end Parser

theorem TokenStream.Leaves.exists_skip (h : tokens.Leaves s) :
    ∃ i ≤ tokens.ahead.length, s = tokens.skip i := by
  refine ⟨tokens.ahead.length - s.ahead.length, Nat.sub_le .., ?_⟩
  obtain ⟨ahead, stop⟩ := s
  rw [skip, ← List.suffix_iff_eq_drop.1 h.suffix, ← h.stop]

theorem Parser.Ends.advances {α : Type} {p q : Parser α}
    (h : Ends cut tokens false (fun _ => true) p q) : Advances p tokens := by
  have hlength : tokens.toList.length = tokens.ahead.length + 1 := by
    simp [TokenStream.toList]
  intro i hi
  have hs := tokens.leaves_skip i
  have hrun := h _ (TokenStream.within_false hs)
  unfold EndsAt at hrun
  generalize p (tokens.skip i) = x, q (tokens.skip i) = y at hrun
  cases hrun with
  | @ok a s₁ hok =>
    obtain ⟨j, hj, rfl⟩ := (hs.trans hok.1).exists_skip
    have hless := hok.2 rfl
    rw [TokenStream.skip, TokenStream.skip, List.length_drop, List.length_drop] at hless
    exact .inl ⟨a, j, by omega, by omega, rfl⟩
  | error hpos =>
    obtain ⟨t, ht, rfl⟩ := List.mem_map.1 hpos
    exact .inr ⟨_, t, ht, rfl⟩
  | cut _ hpos =>
    obtain ⟨t, ht, rfl⟩ := List.mem_map.1 hpos
    exact .inr ⟨_, t, ht, rfl⟩

namespace Grammar

/-- Every production moves on, whatever it is that it returns. -/
structure Advancing (g : Grammar) (tokens : TokenStream) : Prop where
  typeRef : g.typeRef.Advances tokens
  expr : g.expr.Advances tokens
  conditional : g.conditional.Advances tokens
  unary : g.unary.Advances tokens
  arrayLit : g.arrayLit.Advances tokens
  block : g.block.Advances tokens
  stmt : g.stmt.Advances tokens
  switchGroup : (Production.switchGroup g).Advances tokens
  member (className : Option Text) : (Production.member g className).Advances tokens
  classBody (className : Option Text) : (g.classBody className).Advances tokens
  classDecl (pos : Pos) (modifiers : List Modifier) : (g.classDecl pos modifiers).Advances tokens

variable {g g' : Grammar}

theorem Ending.later (h : g.Ending cut whole false g') : g.Ending cut whole true g' :=
  ⟨h.typeRef.later, h.expr.later, h.conditional.later, h.unary.later, h.arrayLit.later,
    h.block.later, h.stmt.later, fun className => (h.classBody className).later,
    fun pos modifiers => (h.classDecl pos modifiers).later⟩

theorem Ending.advancing (h : g.Ending cut tokens false g') : g.Advancing tokens where
  typeRef := h.typeRef.advances
  expr := h.expr.advances
  conditional := h.conditional.advances
  unary := h.unary.advances
  arrayLit := h.arrayLit.advances
  block := h.block.advances
  stmt := h.stmt.advances
  switchGroup := (Production.ends_switchGroup h.later).advances
  member className := (Production.ends_member h.later h.classDecl className).advances
  classBody className := (h.classBody className).advances
  classDecl pos modifiers := (h.classDecl pos modifiers).advances

end Grammar

namespace Production

/-- The loops of all productions. -/
structure LoopsEnd (g : Grammar) (tokens : TokenStream) : Prop where
  brackets : LoopEnds emptyBrackets tokens
  modifiers : IterationEnds nextModifier tokens
  typeArgs : LoopEnds (after "," (typeArg g)) tokens
  nameParts : IterationEnds (qualify g) tokens
  params : LoopEnds (after "," (param g)) tokens
  inferredParams : LoopEnds (after "," inferredParam) tokens
  args : LoopEnds (after "," g.expr) tokens
  arrayElements : LoopEnds (nextArrayElement g) tokens
  arraySizes : LoopEnds (arraySize g) tokens
  suffixes : IterationEnds (suffix g) tokens
  comparisons : IterationEnds (comparisonStep g) tokens
  operands (op? : TokenStream → Option (BinaryOp × Nat)) : ∀ operand ∈ [unary g, product g, sum g,
    comparison g, equality g, bitAnd g, bitXor g, bitOr g, conjunction g],
      IterationEnds (binaryStep op? operand) tokens
  declarators : LoopEnds (after "," (declarator g)) tokens
  stmts : LoopEnds (enclosed .block (·.sees "\x7d") g.stmt) tokens
  exprs : LoopEnds (after "," (expr g)) tokens
  caseValues : LoopEnds (after "," (conditional g)) tokens
  groupLabels : IterationEnds (groupLabels g) tokens
  groupStmts : LoopEnds (enclosed .switch (fun s => seesGroup s || s.sees "\x7d") g.stmt) tokens
  groups : LoopEnds (unlessSeen "\x7d" (switchGroup g)) tokens
  catchTypes : LoopEnds (after "|" (typeRef g)) tokens
  catchClauses : LoopEnds (catchClause g) tokens
  typeNames : LoopEnds (after "," (typeRef g)) tokens
  members (className : Option Text) :
    LoopEnds (enclosed .classBody (·.sees "\x7d") (member g className)) tokens
  programItems : LoopEnds (Grammar.programItem g) tokens

variable {g g' : Grammar}

theorem loopsEnd (h : g.Ending cut tokens false g') : LoopsEnd g tokens where
  brackets := (ends_emptyBrackets : Ends cut _ _ _ _ _).loopEnds
  modifiers := Ends.iterationEnds fun modifiers =>
    (ends_nextModifier modifiers : Ends cut _ _ _ _ _)
  typeArgs := Ends.loopEnds (ends_after rfl (ends_typeArg h.later))
  nameParts := Ends.iterationEnds (ends_qualify h.later)
  params := Ends.loopEnds (ends_after rfl (ends_param h.later))
  inferredParams := Ends.loopEnds (ends_after rfl (ends_inferredParam : Ends cut _ _ _ _ _))
  args := Ends.loopEnds (ends_after rfl h.expr.later)
  arrayElements := Ends.loopEnds (ends_nextArrayElement h.later)
  arraySizes := Ends.loopEnds (ends_arraySize h.later)
  suffixes := Ends.iterationEnds (ends_suffix h.later)
  comparisons := Ends.iterationEnds (ends_comparisonStep h.later)
  operands op? := by
    have hstep : ∀ {operand operand' : Parser Expr},
        Ends cut tokens false (fun _ => true) operand operand' →
          IterationEnds (binaryStep op? operand) tokens := fun hoperand =>
      Ends.iterationEnds (ends_binaryStep hoperand)
    simp only [List.forall_mem_cons, List.not_mem_nil, false_implies, implies_true, and_true]
    exact ⟨hstep (ends_unary h.later), hstep (ends_product h.later), hstep (ends_sum h.later),
      hstep (ends_comparison h.later), hstep (ends_equality h.later), hstep (ends_bitAnd h.later),
      hstep (ends_bitXor h.later), hstep (ends_bitOr h.later), hstep (ends_conjunction h.later)⟩
  declarators := Ends.loopEnds (ends_after rfl (ends_declarator h.later))
  stmts := Ends.loopEnds (ends_enclosed .block _ h.stmt)
  exprs := Ends.loopEnds (ends_after rfl (ends_expr h.later))
  caseValues := Ends.loopEnds (ends_after rfl (ends_conditional h.later))
  groupLabels := Ends.iterationEnds (ends_groupLabels h.later)
  groupStmts := Ends.loopEnds (ends_enclosed .switch _ h.stmt)
  groups := Ends.loopEnds (ends_unlessSeen _ (ends_switchGroup h.later))
  catchTypes := Ends.loopEnds (ends_after rfl (ends_typeRef h.later))
  catchClauses := Ends.loopEnds (ends_catchClause h.later)
  typeNames := Ends.loopEnds (ends_after rfl (ends_typeRef h.later))
  members className :=
    Ends.loopEnds (ends_enclosed .classBody _ (ends_member h.later h.classDecl className))
  programItems := Ends.loopEnds (Grammar.ends_programItem h)

end Production

/-! ## Limits of nesting -/

namespace Grammar

/-- The productions of a grammar where they begin among these tokens, and those of another one
elsewhere. -/
def on (tokens : TokenStream) (g other : Grammar) : Grammar where
  typeRef s := if tokens.Leaves s then g.typeRef s else other.typeRef s
  expr s := if tokens.Leaves s then g.expr s else other.expr s
  conditional s := if tokens.Leaves s then g.conditional s else other.conditional s
  unary s := if tokens.Leaves s then g.unary s else other.unary s
  arrayLit s := if tokens.Leaves s then g.arrayLit s else other.arrayLit s
  block s := if tokens.Leaves s then g.block s else other.block s
  stmt s := if tokens.Leaves s then g.stmt s else other.stmt s
  classBody className s :=
    if tokens.Leaves s then g.classBody className s else other.classBody className s
  classDecl pos modifiers s :=
    if tokens.Leaves s then g.classDecl pos modifiers s else other.classDecl pos modifiers s

/-- The same at every level of nesting. -/
def ofDepthOn (tokens : TokenStream) (other : Grammar) : Nat → Grammar
  | 0 => exhausted
  | depth + 1 => (nest (ofDepthOn tokens other depth)).on tokens other

end Grammar

theorem Parser.Ends.on {α : Type} {takes : α → Bool} {p q q' : Parser α}
    (h : Ends cut whole inside takes p q) (htokens : tokens.Leaves whole) :
    Ends cut whole inside takes p fun s => if tokens.Leaves s then q s else q' s := by
  intro s hs
  rw [EndsAt, if_pos (htokens.trans hs.leaves)]
  exact h s hs

namespace Grammar

variable {g g' other : Grammar}

theorem Ending.on (h : g.Ending cut whole inside g') (htokens : tokens.Leaves whole) :
    g.Ending cut whole inside (g'.on tokens other) :=
  ⟨h.typeRef.on htokens, h.expr.on htokens, h.conditional.on htokens, h.unary.on htokens,
    h.arrayLit.on htokens, h.block.on htokens, h.stmt.on htokens,
    fun className => (h.classBody className).on htokens,
    fun pos modifiers => (h.classDecl pos modifiers).on htokens⟩

/-- At any limit of nesting all productions end, if they may be cut off. -/
theorem ending_ofDepth {depth more : Nat} (hmore : depth ≤ more) :
    (ofDepth depth).Ending True tokens false (ofDepthOn tokens other more) := by
  induction depth generalizing more with
  | zero =>
    have hcut : ∀ {α : Type} {q : Parser α},
        Ends True tokens false (fun _ => true) (fail .tooDeep) q := fun s hs =>
      .cut trivial (hs.leaves.allPlaces_subset s.current_pos_mem)
    exact ⟨hcut, hcut, hcut, hcut, hcut, hcut, hcut, fun _ => hcut, fun _ _ => hcut⟩
  | succ depth ih =>
    obtain ⟨more, rfl⟩ := Nat.exists_eq_add_of_le' (Nat.one_le_of_lt hmore)
    have hg := ih (Nat.le_of_succ_le_succ hmore)
    exact (hg.later.nest hg.classDecl).on (.refl tokens)

/-- What holds wherever a stream begins inside holds inside. -/
theorem Ending.of_inside (h : ∀ s, whole.Within true s → g.Ending cut s false g') :
    g.Ending cut whole true g' := by
  have hends : ∀ {α : Type} {takes : α → Bool} {p q : Parser α},
      (∀ s, whole.Within true s → Ends cut s false takes p q) → Ends cut whole true takes p q :=
    fun h s hs => (h s hs s (TokenStream.within_false (.refl s))).widen hs.leaves
  exact ⟨hends fun s hs => (h s hs).typeRef, hends fun s hs => (h s hs).expr,
    hends fun s hs => (h s hs).conditional, hends fun s hs => (h s hs).unary,
    hends fun s hs => (h s hs).arrayLit, hends fun s hs => (h s hs).block,
    hends fun s hs => (h s hs).stmt,
    fun className => hends fun s hs => (h s hs).classBody className,
    fun pos modifiers => hends fun s hs => (h s hs).classDecl pos modifiers⟩

/-- A limit of nesting that leaves two levels for each token, and two more, cuts nothing off: every
production takes a token before others begin inside it, up to a class among the statements. -/
theorem uncut_ofDepth (hwhole : tokens.Leaves whole) {depth more : Nat}
    (hdepth : 2 * whole.ahead.length + 2 ≤ depth) (hmore : depth ≤ more) :
    (ofDepth depth).Ending False whole false (ofDepthOn tokens other more) := by
  induction hn : whole.ahead.length using Nat.strong_induction_on
    generalizing whole depth more with
  | _ n ih =>
    have hinside : ∀ {depth more : Nat}, 2 * n ≤ depth → depth ≤ more →
        (ofDepth depth).Ending False whole true (ofDepthOn tokens other more) := by
      intro depth more hdepth hmore
      refine .of_inside fun s hs => ?_
      have hless := hs.less rfl
      exact ih _ (hn ▸ hless) (hwhole.trans hs.leaves) (by omega) hmore rfl
    -- One level is for this place. A class among the statements begins at the place of its
    -- statement, with no token between, and needs another one.
    obtain ⟨depth, rfl⟩ := Nat.exists_eq_add_of_le' (show 2 ≤ depth by omega)
    obtain ⟨more, rfl⟩ := Nat.exists_eq_add_of_le' (show 2 ≤ more by omega)
    have hbelow : (ofDepth depth).Ending False whole true (ofDepthOn tokens other more) :=
      hinside (by omega) (by omega)
    have hg : (ofDepth (depth + 1)).Ending False whole true (ofDepthOn tokens other (more + 1)) :=
      hinside (by omega) (by omega)
    exact (hg.nest fun pos modifiers =>
      (Production.ends_classDecl hbelow pos modifiers).on hwhole).on hwhole

end Grammar

/-! ## Results -/

namespace Parser

variable {α : Type} {places : List Pos} {R : TokenStream → α → Prop}
  {x y : Except ParseError (α × TokenStream)}

theorem Ended.eq_or_cut (h : Ended cut places R x y) :
    y = x ∨ cut ∧ ∃ pos, x = .error ⟨.tooDeep, pos⟩ := by
  cases h with
  | ok | error => exact .inl rfl
  | cut h => exact .inr ⟨h, _, rfl⟩

/-- A tree with an index of the list of tokens, or an error at a token of the list that is no
cut-off. -/
def Outcome (tokens : TokenStream) (result : Except ParseError (α × TokenStream)) : Prop :=
  (∃ a, ∃ i < tokens.toList.length, result = .ok (a, tokens.skip i)) ∨
    ∃ fault, fault ≠ .tooDeep ∧ ∃ t ∈ tokens.toList, result = .error ⟨fault, t.pos⟩

theorem EndsAt.outcome {takes : α → Bool} {p q : Parser α}
    (h : EndsAt False tokens tokens takes p q) : Outcome tokens (p tokens) := by
  unfold EndsAt at h
  generalize p tokens = x, q tokens = y at h
  cases h with
  | ok h =>
    obtain ⟨i, hi, rfl⟩ := h.1.exists_skip
    exact .inl ⟨_, i, by simpa [TokenStream.toList] using Nat.lt_succ_of_le hi, rfl⟩
  | error hpos hfault =>
    obtain ⟨t, ht, rfl⟩ := List.mem_map.1 hpos
    exact .inr ⟨_, hfault, t, ht, rfl⟩
  | cut h => exact h.elim

end Parser

namespace Grammar

/-- What a parser comes to if no limit cuts it off. Every limit that is high enough gives this
result, and a lower one gives the same or cuts the run off. It makes no difference what productions
would do away from the tokens: none of them is begun there. -/
structure Unlimited {α : Type} (p : Grammar → Parser α) (tokens : TokenStream)
    (result : Except ParseError (α × TokenStream)) : Prop where
  outcome : Outcome tokens result
  enough (depth : Nat) (h : 2 * tokens.ahead.length + 2 ≤ depth) :
    p (ofDepth depth) tokens = result
  among (depth : Nat) (h : 2 * tokens.ahead.length + 2 ≤ depth) (other : Grammar) :
    p (ofDepthOn tokens other depth) tokens = result
  less (depth : Nat) : p (ofDepth depth) tokens = result ∨
    ∃ pos, p (ofDepth depth) tokens = .error ⟨.tooDeep, pos⟩

theorem exists_unlimited {α : Type} {takes : α → Bool} {p : Grammar → Parser α}
    (hp : ∀ {cut g g'}, g.Ending cut tokens false g' →
      Ends cut tokens false takes (p g) (p g')) :
    ∃ result, Unlimited p tokens result := by
  set bound := 2 * tokens.ahead.length + 2 with hbound
  have hstart := TokenStream.within_false (.refl tokens)
  have hsame : ∀ {depth more : Nat} (other : Grammar), bound ≤ depth → depth ≤ more →
      p (ofDepthOn tokens other more) tokens = p (ofDepth depth) tokens := by
    intro depth more other hdepth hmore
    have hg : (ofDepth depth).Ending False tokens false (ofDepthOn tokens other more) :=
      uncut_ofDepth (.refl tokens) hdepth hmore
    exact (hp hg tokens hstart).eq_or_cut.resolve_right And.left
  have henough : ∀ depth, bound ≤ depth → p (ofDepth depth) tokens = p (ofDepth bound) tokens :=
    fun depth hdepth => (hsame exhausted hdepth (Nat.le_refl depth)).symm.trans
      (hsame exhausted (Nat.le_refl bound) hdepth)
  refine ⟨p (ofDepth bound) tokens, ?_, henough, fun depth hdepth other => ?_, fun depth => ?_⟩
  · have hg : (ofDepth bound).Ending False tokens false (ofDepthOn tokens exhausted bound) :=
      uncut_ofDepth (.refl tokens) (Nat.le_refl bound) (Nat.le_refl bound)
    exact (hp hg tokens hstart).outcome
  · exact hsame other (Nat.le_refl bound) hdepth
  · have hg : (ofDepth depth).Ending True tokens false
        (ofDepthOn tokens exhausted (max depth bound)) := ending_ofDepth (Nat.le_max_left ..)
    refine (hp hg tokens hstart).eq_or_cut.imp (fun heq => ?_) And.right
    rw [← heq]
    exact hsame exhausted (Nat.le_refl bound) (Nat.le_max_right ..)

/-- Parsing ends, whatever the tokens are: it comes to a result without a limit of nesting, all
productions move on among the tokens, and so do the loops in them and the scans ahead of them. -/
theorem parsing_ends (tokens : TokenStream) :
    (∃ result, Unlimited program tokens result) ∧ (∃ result, Unlimited wholeBlock tokens result) ∧
      (∃ result, Unlimited block tokens result) ∧
      (∀ depth, (ofDepth depth).Advancing tokens ∧
        Production.LoopsEnd (ofDepth depth) tokens) ∧
      ∀ s, tokens.Leaves s → Lookahead.ScansEnd s.ahead := by
  refine ⟨exists_unlimited ends_program, exists_unlimited ends_wholeBlock,
    exists_unlimited Ending.block, fun depth => ?_, fun s _ => Lookahead.scansEnd s.ahead⟩
  have hg : (ofDepth depth).Ending True tokens false (ofDepthOn tokens exhausted depth) :=
    ending_ofDepth (Nat.le_refl depth)
  exact ⟨hg.advancing, Production.loopsEnd hg⟩

end Grammar

end WriteOnce
