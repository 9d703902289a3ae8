import WriteOnce.Proofs.RoutineParts
import WriteOnce.Proofs.Surroundings

/-!
# Jumps without a target

A jump strays if none of the statements around it is its target. Only stray jumps make drafting
fail, and every one of them does: all code of a body is drafted at least once, whether or not it
can be reached.
-/

namespace WriteOnce

open Execution FlowGraph

/-! ## Stray jumps in the syntax -/

namespace Execution

def Target.labels : Target → List Text
  | .loop labels | .switch labels | .block labels => labels

def Target.isSwitch : Target → Bool
  | .switch _ => true
  | _ => false

end Execution

/-- Whether a jump has no target among the statements around it, innermost first: without a label
it needs a loop, or for a `break` also a switch; with one it needs a statement that has the label,
and for a `continue` the innermost such statement has to be a loop. -/
def isStray (around : List Target) : JumpWord → Option Text → Bool
  | .breakWord, none => !around.any fun t => t.isLoop || t.isSwitch
  | .continueWord, none => !around.any Target.isLoop
  | .breakWord, some label => !around.any (·.labels.contains label)
  | .continueWord, some label => !(around.find? (·.labels.contains label)).any Target.isLoop

mutual

/-- Whether a stray jump stands in a statement, apart from those in lambdas and classes. The labels
are those in front of the statement, outermost first. -/
def Stmt.strays (around : List Target) (labels : List Text) : Stmt → Bool
  | .block body => body.strays around
  | .ifElse _ _ onTrue onFalse => onTrue.strays around [] || straysOption around onFalse
  | .whileLoop _ _ body => body.strays (.loop labels :: around) []
  | .doLoop _ body _ => body.strays (.loop labels :: around) []
  | .forLoop _ _ _ _ body => body.strays (.loop labels :: around) []
  | .forEach _ _ _ body => body.strays (.loop labels :: around) []
  | .switch _ _ groups => straysGroups (.switch labels :: around) groups
  | .tryCatch _ body clauses cleanup =>
    body.strays around || (straysClauses around clauses || straysCleanup around cleanup)
  | .breakTo _ label => isStray around .breakWord label
  | .continueTo _ label => isStray around .continueWord label
  -- A loop, a switch or another labelled statement takes over the labels in front of it.
  | .labeled _ label body =>
    if takesLabels body then body.strays around (labels ++ [label])
    else body.strays (.block (labels ++ [label]) :: around) []
  | .localDecl .. | .expr .. | .returnValue .. | .throwValue .. | .empty .. | .localClass .. =>
    false

def Block.strays (around : List Target) : Block → Bool
  | ⟨_, stmts⟩ => straysAll around stmts

def straysAll (around : List Target) : List Stmt → Bool
  | [] => false
  | s :: ss => s.strays around [] || straysAll around ss

def straysOption (around : List Target) : Option Stmt → Bool
  | none => false
  | some s => s.strays around []

def straysGroups (around : List Target) : List SwitchGroup → Bool
  | [] => false
  | ⟨_, _, _, body⟩ :: gs => straysAll around body || straysGroups around gs

def straysCleanup (around : List Target) : Option Block → Bool
  | none => false
  | some b => b.strays around

def straysClauses (around : List Target) : List CatchClause → Bool
  | [] => false
  | ⟨_, _, _, body⟩ :: cs => body.strays around || straysClauses around cs

end

/-- A stray jump stands in the body itself. -/
def LambdaBody.strays : LambdaBody → Bool
  | .expr _ => false
  | .block body => body.strays []

/-- The fault of a jump. -/
def AnalysisFault.isJump : AnalysisFault → Bool
  | .misplacedJump _ | .continueToNoLoop => true
  | _ => false

namespace FlowGraph

/-! ## When drafting fails -/

variable {P : Prop} {lo lo' : Bool} {α β : Type}

/-- If `must` holds, the step fails on every draft. It fails only if `P` holds, and for a jump. -/
def Fails (must : Bool) (P : Prop) (m : Drafting α) : Prop :=
  ∀ d, match m d with
    | .ok _ => must = false
    | .error e => P ∧ e.fault.isJump = true

namespace Fails

theorem pure (a : α) : Fails false P (pure a) := fun _ => rfl

theorem throw {e : AnalysisError} (he : e.fault.isJump = true) (hP : P) :
    Fails true P (throw e : Drafting α) :=
  fun _ => ⟨hP, he⟩

theorem bindOk {m : Drafting α} {next : α → Drafting β} (h : Fails lo P m)
    (hnext : ∀ a d d', m d = .ok (a, d') → Fails lo' P (next a)) :
    Fails (lo || lo') P (m >>= next) := by
  intro d
  have hfirst := h d
  change match m d >>= fun p => next p.1 p.2 with
    | .ok _ => _
    | .error _ => _
  cases hm : m d with
  | error e =>
    rw [hm] at hfirst
    exact hfirst
  | ok p =>
    rw [hm] at hfirst
    have hsecond := hnext p.1 d p.2 hm p.2
    change match next p.1 p.2 with
      | .ok _ => _
      | .error _ => _
    cases hrest : next p.1 p.2 with
    | error e =>
      rw [hrest] at hsecond
      exact hsecond
    | ok q =>
      rw [hrest] at hsecond
      dsimp only at hfirst hsecond ⊢
      rw [hfirst, hsecond]
      rfl

theorem bind {m : Drafting α} {next : α → Drafting β} (h : Fails lo P m)
    (hnext : ∀ a, Fails lo' P (next a)) : Fails (lo || lo') P (m >>= next) :=
  h.bindOk fun a _ _ _ => hnext a

/-- What is drafted behind the step does not fail. -/
theorem close {m : Drafting α} {next : α → Drafting β} (h : Fails lo P m)
    (hnext : ∀ a, Fails false P (next a)) : Fails lo P (m >>= next) := by
  have hbind := h.bind hnext
  rwa [Bool.or_false] at hbind

/-- That a step has to fail may be forgotten. -/
theorem weaken {m : Drafting α} (h : Fails lo P m) : Fails false P m := by
  intro d
  have hd := h d
  cases hm : m d with
  | error e =>
    rw [hm] at hd
    exact hd
  | ok p => rfl

theorem addNode (kind : NodeKind) (pos : Option Pos) (binds : List Binding)
    (writes : List Variable) : Fails false P (addNode kind pos binds writes) := fun _ => rfl

theorem forM {xs : List α} {f : α → Drafting PUnit} (h : ∀ x, Fails false P (f x)) :
    Fails false P (xs.forM f) := by
  induction xs with
  | nil => exact pure _
  | cons x xs ih => exact (h x).bind fun _ => ih

theorem tie (ends : Frontier) (target : Nat) : Fails false P (tie ends target) :=
  forM fun _ _ => rfl

theorem tieAs (kind : EdgeKind) (ends : Frontier) (target : Nat) :
    Fails false P (tieAs kind ends target) :=
  forM fun _ _ => rfl

theorem emit (s : Surroundings) (kind : NodeKind) (pos : Option Pos) (binds : List Binding)
    (writes : List Variable) (ends : Frontier) :
    Fails false P (emit s kind pos binds writes ends) := by
  intro d
  rw [emit_eq]

theorem step (s : Surroundings) (kind : NodeKind) (pos : Option Pos) (binds : List Binding)
    (writes : List Variable) (ends : Frontier) :
    Fails false P (step s kind pos binds writes ends) :=
  (emit s kind pos binds writes ends).bind fun _ => pure _

theorem settle (s : Surroundings) (test : Bool) (pos : Pos) (ends : Frontier) :
    Fails false P (settle s test pos ends) := by
  unfold FlowGraph.settle
  cases test with
  | true => exact (emit s .branch (some pos) [] [] ends).bind fun _ => pure _
  | false => exact pure _

theorem rethrow (s : Surroundings) (ends : Frontier) : Fails false P (draftRethrow s ends) := by
  unfold draftRethrow
  split
  · exact pure _
  · exact (emit s .throwValue none [] [] ends).bind fun _ => pure _

theorem join (s : Surroundings) (pos : Pos) (flow : Flow) :
    Fails false P (draftJoin s pos flow) := by
  unfold draftJoin
  split
  · exact pure _
  · exact (step s .join (some pos) [] [] flow.next).bind fun _ => pure _

end Fails

/-! ## Surroundings -/

/-- What a frame is to a jump. -/
def Frame.target? : Frame → Option Target
  | .loop labels => some (.loop labels)
  | .switch labels => some (.switch labels)
  | .block labels => some (.block labels)
  | .cleanup _ => none

/-- The surroundings have these statements around the code, and copies of cleanup blocks fail only
if `P` holds. -/
structure Surroundings.Lexical (P : Prop) (around : List Target) (s : Surroundings) : Prop where
  targets : s.frames.filterMap Frame.target? = around
  copies : ∀ draft ∈ cleanups s.frames, ∀ ends, Fails false P (draft ends)

namespace Surroundings.Lexical

variable {around : List Target} {s : Surroundings}

theorem outermost : Surroundings.Lexical P [] .outermost := ⟨rfl, fun _ h => (by cases h)⟩

theorem inside (h : s.Lexical P around) (target : Target) :
    (s.inside target.frame).Lexical P (target :: around) := by
  cases target with
  | loop | switch | block => exact ⟨congrArg (_ :: ·) h.targets, h.copies⟩

theorem insideCleanup (h : s.Lexical P around) {draft : Frontier → Drafting Flow}
    (hdraft : ∀ ends, Fails false P (draft ends)) :
    (s.inside (.cleanup draft)).Lexical P around :=
  ⟨h.targets, List.forall_mem_cons.2 ⟨hdraft, h.copies⟩⟩

theorem handling (h : s.Lexical P around) (handlers : List Nat) :
    (s.handling handlers).Lexical P around :=
  ⟨h.targets, h.copies⟩

end Surroundings.Lexical

/-! ## Jumps -/

theorem fails_draftAll {drafts : List (Frontier → Drafting Flow)}
    (h : ∀ draft ∈ drafts, ∀ ends, Fails false P (draft ends)) (ends : Frontier) :
    Fails false P (draftAll drafts ends) := by
  induction drafts generalizing ends with
  | nil => exact .pure _
  | cons draft drafts ih =>
    obtain ⟨hdraft, hdrafts⟩ := List.forall_mem_cons.1 h
    exact (hdraft ends).bind fun first => (ih hdrafts first.next).bind fun _ => .pure _

/-- A route leads to the first frame that is a target of the jump. -/
theorem map_isLoop_route? (word : JumpWord) (label : Option Text) (frames : List Frame) :
    (route? word label frames).map Route.isLoop =
      ((frames.filterMap Frame.target?).find? fun t => t.frame.isTarget word label).map
        Target.isLoop := by
  induction frames with
  | nil => rfl
  | cons frame frames ih =>
    cases frame with
    | cleanup draft =>
      rw [route?, Option.map_map]
      exact ih
    | loop labels | switch labels | block labels =>
      simp only [route?, List.filterMap_cons, Frame.target?, List.find?_cons, Target.frame]
      split <;> rename_i htarget
      · rw [htarget]
        rfl
      · rw [Bool.eq_false_of_not_eq_true htarget]
        exact ih

theorem isTarget_frame (t : Target) (word : JumpWord) (label : Option Text) :
    t.frame.isTarget word label =
      match label, word with
      | some label, _ => t.labels.contains label
      | none, .breakWord => t.isLoop || t.isSwitch
      | none, .continueWord => t.isLoop := by
  cases t <;> cases label <;> cases word <;> rfl

/-- A jump strays if there is no target for it, or if it is a `continue` and the target no loop. -/
theorem isStray_eq (around : List Target) (word : JumpWord) (label : Option Text) :
    isStray around word label =
      match around.find? fun t => t.frame.isTarget word label with
      | none => true
      | some t => word = .continueWord && !t.isLoop := by
  have hany : ∀ p : Target → Bool, (!around.any p) = (around.find? p).isNone := fun p => by
    rw [← List.isSome_find?, Option.not_isSome]
  cases word with
  | breakWord =>
    have hbreak : isStray around .breakWord label =
        (around.find? fun t => t.frame.isTarget .breakWord label).isNone := by
      cases label <;> simp only [isStray, isTarget_frame, hany]
    rw [hbreak]
    cases around.find? fun t => t.frame.isTarget .breakWord label <;> rfl
  | continueWord =>
    cases label with
    | none =>
      simp only [isStray, isTarget_frame, hany]
      cases hfind : around.find? Target.isLoop with
      | none => rfl
      | some t =>
        have hloop := List.find?_some hfind
        simp [hloop]
    | some label =>
      simp only [isStray, isTarget_frame]
      cases around.find? fun t => t.labels.contains label <;> simp

variable {around : List Target} {s : Surroundings}

theorem Surroundings.Lexical.jump (h : s.Lexical P around) (pos : Pos) {word : JumpWord}
    {label : Option Text} (hP : isStray around word label = true → P) (ends : Frontier) :
    Fails (isStray around word label) P (draftJump s pos word label ends) := by
  have hloop := map_isLoop_route? word label s.frames
  rw [h.targets] at hloop
  have hstray := isStray_eq around word label
  unfold draftJump
  cases hroute : route? word label s.frames with
  | none =>
    rw [hroute] at hloop
    have hnone := Option.map_eq_none_iff.1 hloop.symm
    rw [hnone] at hstray
    dsimp only at hstray
    rw [hstray]
    exact .throw rfl (hP hstray)
  | some route =>
    rw [hroute] at hloop
    obtain ⟨t, ht, hroutes⟩ := Option.map_eq_some_iff.1 hloop.symm
    rw [ht] at hstray
    dsimp only at hstray ⊢
    rw [hroutes] at hstray
    split
    · rename_i hbad
      rw [hbad] at hstray
      rw [hstray]
      exact .throw rfl (hP hstray)
    · rename_i hgood
      rw [Bool.eq_false_of_not_eq_true hgood] at hstray
      rw [hstray]
      have hcopies := fun draft hdraft => h.copies draft (passed_subset hroute hdraft)
      exact (Fails.step s .jump (some pos) [] [] ends).bind fun ends =>
        (fails_draftAll hcopies ends).bind fun _ => .pure _

theorem Surroundings.Lexical.return (h : s.Lexical P around) (pos : Pos) (ends : Frontier) :
    Fails false P (draftReturn s pos ends) :=
  (Fails.step s .returnValue (some pos) [] [] ends).bind fun ends =>
    (fails_draftAll h.copies ends).bind fun flow =>
      (Fails.tie flow.next exitId).bind fun _ => .pure _

/-! ## Expressions -/

variable {r : Resolution}

theorem fails_draftWrite (r : Resolution) (s : Surroundings) (pos : Pos) (target : Expr)
    (ends : Frontier) : Fails false P (draftWrite r s pos target ends) := by
  unfold draftWrite
  split
  · exact .step s .write (some pos) [] _ ends
  · exact .pure _

mutual

/-- Drafting an expression does not fail: a lambda in it is a body of its own. -/
theorem fails_draftExpr (r : Resolution) (s : Surroundings) (test : Bool) :
    (e : Expr) → (ends : Frontier) → Fails false P (draftExpr r s test e ends)
  | .literal pos value, ends => by
    unfold draftExpr
    split
    · exact .pure _
    · exact .pure _
    · exact .settle s _ pos ends
  | .name pos _, ends => .settle s test pos ends
  | .field pos operand _, ends | .instanceOf pos operand _, ends | .cast pos _ operand, ends
  | .methodRef pos operand _, ends =>
    (fails_draftExpr r s false operand ends).bind fun _ => .settle s test pos _
  | .index pos object position, ends =>
    (fails_draftExpr r s false object ends).bind fun _ =>
      (fails_draftExpr r s false position _).bind fun _ => .settle s test pos _
  | .call pos callee args, ends =>
    (fails_draftExpr r s false callee ends).bind fun _ =>
      (fails_draftExprs r s args _).bind fun _ =>
        (Fails.step s .call (some pos) [] [] _).bind fun _ => .settle s test pos _
  | .newObject pos _ args, ends | .newAnonymous pos _ args _, ends | .newArray pos _ args, ends
  | .newArrayOf pos _ _ args, ends =>
    (fails_draftExprs r s args ends).bind fun _ =>
      (Fails.step s .new (some pos) [] [] _).bind fun _ => .settle s test pos _
  | .arrayLit pos elements, ends =>
    (fails_draftExprs r s elements ends).bind fun _ => .settle s test pos _
  | .unary pos op operand, ends => by
    simp only [draftExpr]
    split
    · exact (fails_draftExpr r s true operand ends).bind fun _ => .pure _
    · exact (fails_draftExpr r s false operand ends).bind fun _ => .settle s test pos _
  | .step pos _ _ target, ends =>
    (fails_draftTarget r s target ends).bind fun _ =>
      (fails_draftWrite r s pos target _).bind fun _ => .settle s test pos _
  | .binary pos op left right, ends => by
    simp only [draftExpr]
    split
    · exact (fails_draftExpr r s true left ends).bind fun _ =>
        (fails_draftExpr r s true right _).bind fun _ => .pure _
    · exact (fails_draftExpr r s true left ends).bind fun _ =>
        (fails_draftExpr r s true right _).bind fun _ => .pure _
    · exact (fails_draftExpr r s false left ends).bind fun _ =>
        (fails_draftExpr r s false right _).bind fun _ => .settle s test pos _
  | .conditional pos cond onTrue onFalse, ends =>
    (fails_draftExpr r s true cond ends).bind fun _ =>
      (fails_draftExpr r s false onTrue _).bind fun _ =>
        (fails_draftExpr r s false onFalse _).bind fun _ => .settle s test pos _
  | .assign pos _ target value, ends =>
    (fails_draftTarget r s target ends).bind fun _ =>
      (fails_draftExpr r s false value _).bind fun _ =>
        (fails_draftWrite r s pos target _).bind fun _ => .settle s test pos _
  | .lambda pos _ _, ends =>
    (Fails.step s .closure (some pos) [] _ ends).bind fun _ => .settle s test pos _
termination_by structural e => e

theorem fails_draftTarget (r : Resolution) (s : Surroundings) :
    (e : Expr) → (ends : Frontier) → Fails false P (draftTarget r s e ends)
  | .field _ object _, ends => (fails_draftExpr r s false object ends).bind fun _ => .pure _
  | .index _ object position, ends =>
    (fails_draftExpr r s false object ends).bind fun _ =>
      (fails_draftExpr r s false position _).bind fun _ => .pure _
  | .literal .., _ | .name .., _ | .call .., _ | .newObject .., _ | .newAnonymous .., _
  | .newArray .., _ | .newArrayOf .., _ | .arrayLit .., _ | .unary .., _ | .step .., _
  | .binary .., _ | .instanceOf .., _ | .cast .., _ | .conditional .., _ | .assign .., _
  | .lambda .., _ | .methodRef .., _ => .pure _
termination_by structural e => e

theorem fails_draftExprs (r : Resolution) (s : Surroundings) :
    (es : List Expr) → (ends : Frontier) → Fails false P (draftExprs r s es ends)
  | [], _ => .pure _
  | e :: es, ends =>
    (fails_draftExpr r s false e ends).bind fun _ => fails_draftExprs r s es _
termination_by structural es => es

end

/-! ## Statements -/

theorem fails_draftOption (r : Resolution) (s : Surroundings) (e : Option Expr) (ends : Frontier) :
    Fails false P (draftOption r s e ends) := by
  cases e with
  | none => exact .pure _
  | some e => exact (fails_draftExpr r s false e ends).bind fun _ => .pure _

theorem fails_draftCondition (r : Resolution) (s : Surroundings) (e : Option Expr)
    (ends : Frontier) : Fails false P (draftCondition r s e ends) := by
  cases e with
  | none => exact .pure _
  | some e => exact fails_draftExpr r s true e ends

/-- All places of the code are known to declare a variable. -/
abbrev Resolution.Knows (r : Resolution) (places : List Pos) : Prop :=
  ∀ pos ∈ places, (r.declared pos).isSome = true

theorem fails_draftDeclarators (s : Surroundings) {ds : List Declarator}
    (hplaces : r.Knows (ds.map Declarator.pos)) (ends : Frontier) :
    Fails false P (draftDeclarators r s ds ends) := by
  induction ds generalizing ends with
  | nil => exact .pure _
  | cons d ds ih =>
    obtain ⟨hd, hds⟩ := List.forall_mem_cons.1 hplaces
    have hdeclared : Fails false P (expectDeclared r d) := by
      unfold expectDeclared
      rw [if_pos hd]
      exact .pure _
    exact hdeclared.bind fun _ => (fails_draftOption r s d.init ends).bind fun ends =>
      (Fails.step s .declare (some d.pos) _ [] ends).bind fun ends => ih hds ends

theorem fails_draftForInit (s : Surroundings) {init : ForInit} (hplaces : r.Knows init.places)
    (ends : Frontier) : Fails false P (draftForInit r s init ends) := by
  cases init with
  | decl decl =>
    obtain ⟨pos, modifiers, type, declarators⟩ := decl
    exact fails_draftDeclarators s hplaces ends
  | exprs values => exact fails_draftExprs r s values ends

theorem fails_addHandlers (r : Resolution) (clauses : List CatchClause) :
    Fails false P (addHandlers r clauses) := by
  unfold addHandlers
  induction clauses with
  | nil => exact .pure _
  | cons clause clauses ih =>
    rw [List.mapM_cons]
    exact (Fails.addNode .handler (some clause.pos) _ []).bind fun _ => ih.bind fun _ => .pure _

theorem length_addHandlers {clauses : List CatchClause} {d d' : Draft} {ids : List Nat}
    (h : addHandlers r clauses d = .ok (ids, d')) : ids.length = clauses.length := by
  unfold addHandlers at h
  induction clauses generalizing d d' ids with
  | nil =>
    cases pure_eq_ok.1 h
    rfl
  | cons clause clauses ih =>
    rw [List.mapM_cons] at h
    obtain ⟨id, d₁, -, h⟩ := bind_eq_ok.1 h
    obtain ⟨others, d₂, hothers, h⟩ := bind_eq_ok.1 h
    cases pure_eq_ok.1 h
    exact congrArg (· + 1) (ih hothers)

/-! ## Code with handlers -/

namespace Surroundings.Lexical

variable {s : Surroundings} {around : List Target} {clauses : List CatchClause}
  {region : Surroundings → Frontier → Drafting Flow} {lo₁ lo₂ lo₃ : Bool}

theorem tryCatch (h : s.Lexical P around) (pos : Pos)
    (hregion : ∀ {s : Surroundings}, s.Lexical P around → ∀ ends, Fails lo₁ P (region s ends))
    {bodies : List Nat → Drafting Flow}
    (hbodies : ∀ {handlers}, handlers.length = clauses.length → Fails lo₂ P (bodies handlers))
    (ends : Frontier) :
    Fails (lo₁ || lo₂) P (do
      let handlers ← addHandlers r clauses
      let inner := s.handling (handlers ++ s.escapes)
      let ends ← step inner .tryBody (some pos) [] [] ends
      let first ← region inner ends
      let others ← bodies handlers
      return first ++ others) := by
  apply (fails_addHandlers r clauses).bindOk
  intro handlers _ _ hadd
  have hinner := h.handling (handlers ++ s.escapes)
  apply (Fails.step _ .tryBody (some pos) [] [] ends).bind
  intro ends
  exact (hregion hinner ends).bind fun first =>
    (hbodies (length_addHandlers hadd)).close fun _ => .pure _

/-- The copy for exceptions is always drafted, also where nothing falls out of the region. -/
theorem tryFinally (h : s.Lexical P around) (pos cleanupPos : Pos)
    (hregion : ∀ {s : Surroundings}, s.Lexical P around → ∀ ends, Fails lo₁ P (region s ends))
    {D : Surroundings → List Nat → Drafting Flow}
    (hbodies : ∀ {s : Surroundings}, s.Lexical P around → ∀ {handlers},
      handlers.length = clauses.length → Fails lo₂ P (D s handlers))
    {cleanup : Frontier → Drafting Flow} (hcleanup : ∀ ends, Fails lo₃ P (cleanup ends))
    (ends : Frontier) :
    Fails (lo₁ || (lo₂ || lo₃)) P (do
      let escape ← addNode .join (some cleanupPos) [] []
      let handlers ← addHandlers r clauses
      let inner := s.inside (.cleanup cleanup)
      let outer := inner.handling (handlers ++ [escape])
      let ends ← step outer .tryBody (some pos) [] [] ends
      let first ← region outer ends
      let others ← D (inner.handling [escape]) handlers
      let flow := first ++ others
      let after ← if flow.next.isEmpty then pure Flow.stopped else cleanup flow.next
      let escaped ← cleanup [⟨escape, .normal⟩]
      draftRethrow s escaped.next
      return (⟨after.next, flow.jumps ++ (after.jumps ++ escaped.jumps)⟩ : Flow)) := by
  have hinner := h.insideCleanup fun ends => (hcleanup ends).weaken
  apply (Fails.addNode .join (some cleanupPos) [] []).bind
  intro escape
  apply (fails_addHandlers r clauses).bindOk
  intro handlers _ _ hadd
  have houter := hinner.handling (handlers ++ [escape])
  apply (Fails.step _ .tryBody (some pos) [] [] ends).bind
  intro ends
  apply (hregion houter ends).bind
  intro first
  apply (hbodies (hinner.handling [escape]) (length_addHandlers hadd)).bind
  intro others
  have hescaped : ∀ after : Flow, Fails lo₃ P (do
      let escaped ← cleanup [⟨escape, .normal⟩]
      draftRethrow s escaped.next
      return (⟨after.next, (first ++ others).jumps ++ (after.jumps ++ escaped.jumps)⟩ : Flow)) :=
    fun after =>
      (hcleanup _).close fun escaped => (Fails.rethrow s escaped.next).bind fun _ => .pure _
  dsimp only
  split
  · exact (Fails.pure _).bind hescaped
  · exact (hcleanup _).weaken.bind hescaped

end Surroundings.Lexical

mutual

theorem fails_draftBlock {around : List Target} {s : Surroundings} (hs : s.Lexical P around) :
    (b : Block) → r.Knows b.places → (b.strays around = true → P) → (ends : Frontier) →
      Fails (b.strays around) P (draftBlock r s b ends)
  | ⟨_, stmts⟩, hplaces, hP, ends => fails_draftStmts hs stmts hplaces hP ends
termination_by structural b => b

theorem fails_draftStmts {around : List Target} {s : Surroundings} (hs : s.Lexical P around) :
    (stmts : List Stmt) → r.Knows (placesAll stmts) → (straysAll around stmts = true → P) →
      (ends : Frontier) → Fails (straysAll around stmts) P (draftStmts r s stmts ends)
  | [], _, _, _ => .pure _
  | stmt :: stmts, hplaces, hP, ends => by
    obtain ⟨hstmt, hstmts⟩ := List.forall_mem_append.1 hplaces
    have hP₁ := fun h => hP (Bool.or_eq_true_iff.2 (.inl h))
    have hP₂ := fun h => hP (Bool.or_eq_true_iff.2 (.inr h))
    exact (fails_draftStmt hs [] stmt hstmt hP₁ ends).bind fun first =>
      (fails_draftStmts hs stmts hstmts hP₂ first.next).close fun _ => .pure _
termination_by structural stmts => stmts

/-- Drafting a statement fails exactly if a stray jump stands in it. -/
theorem fails_draftStmt {around : List Target} {s : Surroundings} (hs : s.Lexical P around)
    (labels : List Text) : (stmt : Stmt) → r.Knows stmt.places →
      (stmt.strays around labels = true → P) → (ends : Frontier) →
        Fails (stmt.strays around labels) P (draftStmt r s labels stmt ends)
  | .block body, hplaces, hP, ends => fails_draftBlock hs body hplaces hP ends
  | .localDecl ⟨_, _, _, declarators⟩, hplaces, _, ends =>
    (fails_draftDeclarators s hplaces ends).bind fun _ => .pure _
  | .expr _ value, _, _, ends => (fails_draftExpr r s false value ends).bind fun _ => .pure _
  | .ifElse pos cond onTrue onFalse, hplaces, hP, ends => by
    obtain ⟨htrue, hfalse⟩ := List.forall_mem_append.1 hplaces
    have hP₁ := fun h => hP (Bool.or_eq_true_iff.2 (.inl h))
    have hP₂ := fun h => hP (Bool.or_eq_true_iff.2 (.inr h))
    exact (fails_draftExpr r s true cond ends).bind fun split =>
      (fails_draftStmt hs [] onTrue htrue hP₁ split.onTrue).bind fun first =>
        (fails_draftBranch hs onFalse hfalse hP₂ split.onFalse).close fun second =>
          .join s pos (first ++ second)
  | .whileLoop pos cond body, hplaces, hP, ends =>
    (Fails.emit s .loop (some pos) [] [] ends).bind fun head =>
      (fails_draftExpr r s true cond _).bind fun split =>
        (fails_draftStmt (hs.inside (.loop labels)) [] body hplaces hP split.onTrue).close
          fun flow => (Fails.tieAs .continueOn _ head).bind fun _ =>
            (Fails.tieAs .loopBack flow.next head).bind fun _ => .pure _
  | .doLoop pos body cond, hplaces, hP, ends =>
    (Fails.emit s .loop (some pos) [] [] ends).bind fun head =>
      (fails_draftStmt (hs.inside (.loop labels)) [] body hplaces hP _).close fun flow =>
        (fails_draftExpr r s true cond _).bind fun split =>
          (Fails.tieAs .loopBack split.onTrue head).bind fun _ => .pure _
  | .forLoop pos init cond update body, hplaces, hP, ends => by
    obtain ⟨hinit, hbody⟩ := List.forall_mem_append.1 hplaces
    exact (fails_draftForInit s hinit ends).bind fun _ =>
      (Fails.emit s .loop (some pos) [] [] _).bind fun head =>
        (fails_draftCondition r s cond _).bind fun split =>
          (fails_draftStmt (hs.inside (.loop labels)) [] body hbody hP split.onTrue).close
            fun flow => (fails_draftExprs r s update _).bind fun ends =>
              (Fails.tieAs .loopBack ends head).bind fun _ => .pure _
  | .forEach pos param iterable body, hplaces, hP, ends =>
    (fails_draftExpr r s false iterable ends).bind fun _ =>
      (Fails.emit s .loop (some pos) [] [] _).bind fun head =>
        (Fails.emit s .branch (some pos) [] [] _).bind fun test =>
          (Fails.step s .bind (some param.pos) _ [] _).bind fun ends =>
            (fails_draftStmt (hs.inside (.loop labels)) [] body
              (List.forall_mem_cons.1 hplaces).2 hP ends).close fun flow =>
              (Fails.tieAs .continueOn _ head).bind fun _ =>
                (Fails.tieAs .loopBack flow.next head).bind fun _ => .pure _
  | .switch pos selector groups, hplaces, hP, ends =>
    (fails_draftExpr r s false selector ends).bind fun _ =>
      (Fails.emit s .switch (some pos) [] [] _).bind fun test =>
        (fails_draftGroups (hs.inside (.switch labels)) test groups hplaces hP []).close
          fun _ => .pure _
  | .tryCatch pos body clauses none, hplaces, hP, ends => by
    obtain ⟨-, hplaces⟩ := List.forall_mem_append.1 hplaces
    obtain ⟨hbody, hplaces⟩ := List.forall_mem_append.1 hplaces
    obtain ⟨hclauses, -⟩ := List.forall_mem_append.1 hplaces
    have hstrays : (Stmt.tryCatch pos body clauses none).strays around labels =
        (body.strays around || straysClauses around clauses) := by
      simp only [Stmt.strays, straysCleanup, Bool.or_false]
    rw [hstrays] at hP ⊢
    have hP₁ := fun h => hP (Bool.or_eq_true_iff.2 (.inl h))
    have hP₂ := fun h => hP (Bool.or_eq_true_iff.2 (.inr h))
    exact hs.tryCatch pos (fun hregion => fails_draftBlock hregion body hbody hP₁)
      (fails_draftClauses hs clauses hclauses hP₂) ends
  | .tryCatch pos body clauses (some cleanup), hplaces, hP, ends => by
    obtain ⟨-, hplaces⟩ := List.forall_mem_append.1 hplaces
    obtain ⟨hbody, hplaces⟩ := List.forall_mem_append.1 hplaces
    obtain ⟨hclauses, hcleanup⟩ := List.forall_mem_append.1 hplaces
    have hP₁ := fun h => hP (Bool.or_eq_true_iff.2 (.inl h))
    have hP' := fun h => hP (Bool.or_eq_true_iff.2 (.inr h))
    have hP₂ := fun h => hP' (Bool.or_eq_true_iff.2 (.inl h))
    have hP₃ := fun h => hP' (Bool.or_eq_true_iff.2 (.inr h))
    exact hs.tryFinally pos cleanup.pos
      (fun hregion => fails_draftBlock hregion body hbody hP₁)
      (D := fun s => draftClauses r s clauses)
      (fun hinner => fails_draftClauses hinner clauses hclauses hP₂)
      (fails_draftBlock hs cleanup hcleanup hP₃) ends
  | .returnValue pos value, _, _, ends =>
    (fails_draftOption r s value ends).bind fun _ => hs.return pos _
  | .throwValue pos value, _, _, ends =>
    (fails_draftExpr r s false value ends).bind fun _ =>
      ((Fails.emit s .throwValue (some pos) [] [] _).bind fun _ => .pure _).bind fun _ => .pure _
  | .breakTo pos label, _, hP, ends => hs.jump pos hP ends
  | .continueTo pos label, _, hP, ends => hs.jump pos hP ends
  | .labeled _ label body, hplaces, hP, ends => by
    simp only [Stmt.strays] at hP ⊢
    simp only [draftStmt]
    split <;> rename_i htakes
    · rw [if_pos htakes] at hP
      exact fails_draftStmt hs (labels ++ [label]) body hplaces hP ends
    · rw [if_neg htakes] at hP
      exact (fails_draftStmt (hs.inside (.block (labels ++ [label]))) [] body hplaces hP ends).close
        fun _ => .pure _
  | .empty _, _, _, _ => .pure _
  | .localClass .., _, _, _ => .pure _
termination_by structural stmt => stmt

theorem fails_draftBranch {around : List Target} {s : Surroundings} (hs : s.Lexical P around) :
    (stmt : Option Stmt) → r.Knows (placesOption stmt) → (straysOption around stmt = true → P) →
      (ends : Frontier) → Fails (straysOption around stmt) P (draftBranch r s stmt ends)
  | none, _, _, _ => .pure _
  | some stmt, hplaces, hP, ends => fails_draftStmt hs [] stmt hplaces hP ends
termination_by structural stmt => stmt

theorem fails_draftGroups {around : List Target} {s : Surroundings} (hs : s.Lexical P around)
    (test : Nat) : (groups : List SwitchGroup) → r.Knows (placesGroups groups) →
      (straysGroups around groups = true → P) → (ends : Frontier) →
        Fails (straysGroups around groups) P (draftGroups r s test groups ends)
  | [], _, _, _ => .pure _
  | ⟨pos, _, _, body⟩ :: groups, hplaces, hP, ends => by
    obtain ⟨hbody, hgroups⟩ := List.forall_mem_append.1 hplaces
    have hP₁ := fun h => hP (Bool.or_eq_true_iff.2 (.inl h))
    have hP₂ := fun h => hP (Bool.or_eq_true_iff.2 (.inr h))
    exact (Fails.step s .join (some pos) [] [] _).bind fun ends =>
      (fails_draftStmts hs body hbody hP₁ ends).bind fun first =>
        (fails_draftGroups hs test groups hgroups hP₂ first.next).close fun _ => .pure _
termination_by structural groups => groups

theorem fails_draftClauses {around : List Target} {s : Surroundings} (hs : s.Lexical P around) :
    (clauses : List CatchClause) → r.Knows (placesClauses clauses) →
      (straysClauses around clauses = true → P) → {handlers : List Nat} →
        handlers.length = clauses.length →
          Fails (straysClauses around clauses) P (draftClauses r s clauses handlers)
  | ⟨_, _, _, body⟩ :: clauses, hplaces, hP, handler :: handlers, hlength => by
    obtain ⟨hbody, hclauses⟩ := List.forall_mem_append.1 hplaces
    have hP₁ := fun h => hP (Bool.or_eq_true_iff.2 (.inl h))
    have hP₂ := fun h => hP (Bool.or_eq_true_iff.2 (.inr h))
    exact (fails_draftBlock hs body hbody hP₁ _).bind fun first =>
      (fails_draftClauses hs clauses hclauses hP₂ (Nat.succ.inj hlength)).close fun _ => .pure _
  | [], _, _, _, _ => .pure _
  | ⟨_, _, _, _⟩ :: _, _, _, [], hlength => by cases hlength
termination_by structural clauses => clauses

end

/-! ## Routines -/

/-- The graph of a routine is drawn unless a stray jump stands in the body. -/
theorem ofRoutine_fails_iff {routine : Routine} (hplaces : r.Knows routine.body.places) :
    match ofRoutine r routine with
    | .ok _ => routine.body.strays = false
    | .error e => routine.body.strays = true ∧ e.fault.isJump = true := by
  have hbody : ∀ ends, Fails routine.body.strays (routine.body.strays = true)
      (draftBody r routine.body ends) := by
    intro ends
    cases hb : routine.body with
    | block body =>
      rw [hb] at hplaces
      exact fails_draftBlock .outermost body hplaces (fun h => h) ends
    | expr body =>
      exact (fails_draftExpr r .outermost false body ends).bind fun _ => .pure _
  have hroutine : Fails routine.body.strays (routine.body.strays = true)
      (draftRoutine r routine) :=
    (Fails.addNode .entry (some routine.site.pos) _ []).bind fun entry =>
      ((Fails.addNode .exit none [] []).bind fun _ => .pure _).bind fun _ =>
        ((Fails.addNode .exceptionExit none [] []).bind fun _ => .pure _).bind fun _ =>
          (hbody _).close fun flow => Fails.tie flow.next exitId
  have hrun := hroutine ⟨0, [], []⟩
  unfold ofRoutine
  cases hdraft : draftRoutine r routine ⟨0, [], []⟩ with
  | error e =>
    rw [hdraft] at hrun
    exact hrun
  | ok p =>
    rw [hdraft] at hrun
    exact hrun

end FlowGraph

end WriteOnce
