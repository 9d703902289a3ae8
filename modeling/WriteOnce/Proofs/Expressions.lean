import WriteOnce.Proofs.Surroundings

/-!
# Drafts of expressions

The draft of an expression implements its evaluation, as a test or for its value.
-/

namespace WriteOnce

open Execution Behavior

namespace FlowGraph

variable {rules : Rules} {r : Resolution} {s : Surroundings} {ctx : Context}

theorem Represents.write (hs : Represents rules s ctx) (pos : Pos) (target : Expr) :
    Implements rules ctx (draftWrite r s pos target) (write r s.guarded target) := by
  unfold draftWrite Execution.write
  cases r.target? target with
  | none => exact .holds
  | some v => exact hs.step _ rfl (Bool.or_false _) (.inl rfl) rfl

/-- A call or an allocation, which can always raise an exception. -/
theorem Represents.call (hs : Represents rules s ctx) {k : NodeKind} (pos : Pos)
    (hkind : k.isSilent = false) (hthrow : k.mayThrow = true) :
    Implements rules ctx (FlowGraph.step s k (some pos) [] []) (act true []) :=
  hs.step _ hkind (by rw [hthrow, Bool.or_true]) (.inl rfl) rfl

/-- Behind the value of an expression nothing distinguishes the outcomes. -/
theorem Implements.value {first : Frontier → Drafting Split} {a : Behavior}
    (ha : Implements rules ctx first a) :
    Implements rules ctx (fun ends => do return (← first ends).all) (seq a skip) :=
  ha.seqSplit .holds

theorem Implements.conjunction {first second : Frontier → Drafting Split} {a b : Behavior}
    (ha : Implements rules ctx first a) (hb : Implements rules ctx second b) :
    Implements rules ctx (fun ends => do
      let first ← first ends
      let second ← second first.onTrue
      return ⟨second.onTrue, first.onFalse ++ second.onFalse⟩ : Frontier → Drafting Split)
      (branch a b (leave (.fell false))) := by
  intro ends d r d' h hd hends hK
  obtain ⟨split, d₁, hfirst, h⟩ := bind_eq_ok.1 h
  obtain ⟨split', d₂, hsecond, h⟩ := bind_eq_ok.1 h
  cases pure_eq_ok.1 h
  have hfirst := ha _ _ _ _ hfirst hd hends hK
  have hsecond := hb _ _ _ _ hsecond hfirst.grows.after hfirst.below.onTrue hfirst.inside
  have hpass : Draws rules ctx (Starts ctx (leave (.fell false)) split.onFalse) d' d' _ :=
    .fails hsecond.grows.after (hfirst.below.onFalse.mono hsecond.grows.size) hsecond.inside
  exact (hfirst.branch hsecond hpass).same
    ⟨by simp [exits], by simp [exits, or_comm], by simp [exits]⟩

theorem Implements.disjunction {first second : Frontier → Drafting Split} {a b : Behavior}
    (ha : Implements rules ctx first a) (hb : Implements rules ctx second b) :
    Implements rules ctx (fun ends => do
      let first ← first ends
      let second ← second first.onFalse
      return ⟨first.onTrue ++ second.onTrue, second.onFalse⟩ : Frontier → Drafting Split)
      (branch a skip b) := by
  intro ends d r d' h hd hends hK
  obtain ⟨split, d₁, hfirst, h⟩ := bind_eq_ok.1 h
  obtain ⟨split', d₂, hsecond, h⟩ := bind_eq_ok.1 h
  cases pure_eq_ok.1 h
  have hfirst := ha _ _ _ _ hfirst hd hends hK
  have hpass : Draws rules ctx (Starts ctx skip split.onTrue) d₁ d₁ _ :=
    .holds hfirst.grows.after hfirst.below.onTrue hfirst.inside
  have hsecond := hb _ _ _ _ hsecond hfirst.grows.after hfirst.below.onFalse hfirst.inside
  exact (hfirst.branch hpass hsecond).same
    ⟨by simp [exits], by simp [exits], by simp [exits]⟩

theorem Implements.negation {first : Frontier → Drafting Split} {a : Behavior}
    (ha : Implements rules ctx first a) :
    Implements rules ctx (fun ends => do return (← first ends).swap) (swap a) := by
  intro ends d r d' h hd hends hK
  obtain ⟨split, d₁, hfirst, h⟩ := bind_eq_ok.1 h
  cases pure_eq_ok.1 h
  exact (ha _ _ _ _ hfirst hd hends hK).swap

/-- The value of a conditional expression, in front of what follows it. -/
theorem Implements.conditional [HasExits α] {cond first second : Frontier → Drafting Split}
    {next : Frontier → Drafting α} {a b c e : Behavior} (ha : Implements rules ctx cond a)
    (hb : Implements rules ctx first b) (hc : Implements rules ctx second c)
    (he : Implements rules ctx next e) :
    Implements rules ctx (fun ends => do
      let split ← cond ends
      let first := (← first split.onTrue).all
      let second := (← second split.onFalse).all
      next (first ++ second)) (seq (branch a b c) e) := by
  intro ends d r d' h hd hends hK
  obtain ⟨split, d₁, hcond, h⟩ := bind_eq_ok.1 h
  obtain ⟨split₁, d₂, hfirst, h⟩ := bind_eq_ok.1 h
  obtain ⟨split₂, d₃, hsecond, h⟩ := bind_eq_ok.1 h
  have hcond := ha _ _ _ _ hcond hd hends hK
  have hfirst := hb _ _ _ _ hfirst hcond.grows.after hcond.below.onTrue hcond.inside
  have hsecond := hc _ _ _ _ hsecond hfirst.grows.after
    (hcond.below.onFalse.mono hfirst.grows.size) hfirst.inside
  have hbranch := hcond.branch hfirst hsecond
  have hnext := he _ _ _ _ h hsecond.grows.after (Frontier.below_append.2
    ⟨hfirst.below.all.mono hsecond.grows.size, hsecond.below.all⟩) hsecond.inside
  refine hbranch.seq (hnext.of_mem fun x => ?_)
  simp only [Split.all, Exits.all, exits, List.mem_append]
  tauto

mutual

/-- The draft of an expression implements its evaluation. -/
theorem Represents.expr (hs : Represents rules s ctx) (test : Bool) : (e : Expr) →
    Implements rules ctx (draftExpr r s test e) (evaluate r s.guarded test e)
  | .literal pos value => by
    cases test with
    | true =>
      cases value with
      | bool way =>
        cases way with
        | true =>
          intro ends d a d' h hd hends hK
          cases pure_eq_ok.1 h
          exact .holds hd hends hK
        | false =>
          intro ends d a d' h hd hends hK
          cases pure_eq_ok.1 h
          exact .fails hd hends hK
      | _ => exact hs.settle true pos
    | false => exact hs.settle false pos
  | .name pos _ => hs.settle test pos
  | .field pos operand _ | .instanceOf pos operand _ | .cast pos _ operand
  | .methodRef pos operand _ => (hs.expr false operand).seqSplit (hs.settle test pos)
  | .index pos object position =>
    (hs.expr false object).seqSplit ((hs.expr false position).seqSplit (hs.settle test pos))
  | .call pos callee args =>
    (hs.expr false callee).seqSplit <| (hs.exprs args).seqEnds <|
      (hs.call pos rfl rfl).seqEnds (hs.settle test pos)
  | .newObject pos _ args | .newAnonymous pos _ args _ | .newArray pos _ args
  | .newArrayOf pos _ _ args =>
    (hs.exprs args).seqEnds ((hs.call pos rfl rfl).seqEnds (hs.settle test pos))
  | .arrayLit pos elements => (hs.exprs elements).seqEnds (hs.settle test pos)
  | .unary pos op operand => by
    by_cases h : (test && op = .not) = true
    · have hdraft : draftExpr r s test (.unary pos op operand) =
          fun ends => (do return (← draftExpr r s true operand ends).swap) := by
        funext ends
        rw [draftExpr, if_pos h]
      rw [hdraft, evaluate, if_pos h]
      exact (hs.expr true operand).negation
    · have hdraft : draftExpr r s test (.unary pos op operand) =
          fun ends => (do
            FlowGraph.settle s test pos (← draftExpr r s false operand ends).all) := by
        funext ends
        rw [draftExpr, if_neg h]
      rw [hdraft, evaluate, if_neg h]
      exact (hs.expr false operand).seqSplit (hs.settle test pos)
  | .step pos _ _ target =>
    (hs.target target).seqEnds ((hs.write pos target).seqEnds (hs.settle test pos))
  | .binary pos op left right => by
    cases op with
    | and => exact (hs.expr true left).conjunction (hs.expr true right)
    | or => exact (hs.expr true left).disjunction (hs.expr true right)
    | _ =>
      exact (hs.expr false left).seqSplit
        ((hs.expr false right).seqSplit (hs.settle test pos))
  | .conditional pos cond onTrue onFalse =>
    (hs.expr true cond).conditional (hs.expr false onTrue) (hs.expr false onFalse)
      (hs.settle test pos)
  | .assign pos _ target value =>
    (hs.target target).seqEnds <| (hs.expr false value).seqSplit <|
      (hs.write pos target).seqEnds (hs.settle test pos)
  | .lambda pos _ _ =>
    (hs.step (some pos) rfl (Bool.or_false _) (.inl rfl) rfl).seqEnds (hs.settle test pos)

theorem Represents.target (hs : Represents rules s ctx) : (e : Expr) →
    Implements rules ctx (draftTarget r s e) (evaluateTarget r s.guarded e)
  | .field _ object _ => (hs.expr false object).value
  | .index _ object position => (hs.expr false object).seqSplit (hs.expr false position).value
  | .literal .. | .name .. | .call .. | .newObject .. | .newAnonymous .. | .newArray ..
  | .newArrayOf .. | .arrayLit .. | .unary .. | .step .. | .binary .. | .instanceOf ..
  | .cast .. | .conditional .. | .assign .. | .lambda .. | .methodRef .. => .holds

theorem Represents.exprs (hs : Represents rules s ctx) : (es : List Expr) →
    Implements rules ctx (draftExprs r s es) (evaluateAll r s.guarded es)
  | [] => .holds
  | e :: es => (hs.expr false e).seqSplit (hs.exprs es)

end

end FlowGraph

end WriteOnce
