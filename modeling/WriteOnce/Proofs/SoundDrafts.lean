import WriteOnce.Proofs.Routines
import WriteOnce.Proofs.RoutineParts

/-!
# Sound drafts

Whatever is drafted, no edge enters the entry and none leaves an exit, because loose ends never
belong to an exit and exceptions never go to the entry. The nodes bind the variables of the
routine, and write variables that names or lambdas of the routine give them.
-/

namespace WriteOnce

namespace FlowGraph

/-- A node behind which code can go on. -/
def Inner (i : Nat) : Prop := i ≠ exitId ∧ i ≠ exceptionExitId

/-- The entry is not entered, the exits are not left, and only such variables are bound and
written. -/
structure Draft.Sound (B W : Variable → Prop) (d : Draft) : Prop where
  size : 3 ≤ d.size
  sources : ∀ e ∈ d.edges, Inner e.source
  targets : ∀ e ∈ d.edges, e.target ≠ entryId
  binds : ∀ n ∈ d.nodes, ∀ b ∈ n.binds, B b.var
  writes : ∀ n ∈ d.nodes, ∀ v ∈ n.writes, W v

/-! ## Loose ends -/

def Frontier.Open (ends : Frontier) : Prop := ∀ e ∈ ends, Inner e.source

structure Split.Open (s : Split) : Prop where
  onTrue : s.onTrue.Open
  onFalse : s.onFalse.Open

structure Flow.Open (f : Flow) : Prop where
  next : f.next.Open
  jumps : ∀ p ∈ f.jumps, Inner p.source

namespace Frontier

variable {ends ends' : Frontier}

theorem open_nil : Frontier.Open [] := by
  intro e he
  cases he

theorem Open.append (h : ends.Open) (h' : ends'.Open) : Frontier.Open (ends ++ ends') :=
  List.forall_mem_append.2 ⟨h, h'⟩

theorem open_single {i : Nat} (h : Inner i) (kind : EdgeKind) : Frontier.Open [⟨i, kind⟩] := by
  intro e he
  rw [List.mem_singleton.1 he]
  exact h

end Frontier

open Frontier (open_nil open_single)

theorem Split.Open.all {s : Split} (h : s.Open) : Frontier.Open s.all := h.onTrue.append h.onFalse

theorem Split.Open.swap {s : Split} (h : s.Open) : s.swap.Open := ⟨h.onFalse, h.onTrue⟩

namespace Flow

variable {f f' : Flow}

theorem open_through {ends : Frontier} (h : ends.Open) : (through ends).Open :=
  ⟨h, fun _ h => (by cases h)⟩

theorem open_stopped : stopped.Open := open_through open_nil

theorem Open.append (h : f.Open) (h' : f'.Open) : (f ++ f').Open :=
  ⟨h.next.append h'.next, List.forall_mem_append.2 ⟨h.jumps, h'.jumps⟩⟩

/-- The jumps of both flows leave, and what falls through the second one. -/
theorem Open.followed (h : f.Open) (h' : f'.Open) : Flow.Open ⟨f'.next, f.jumps ++ f'.jumps⟩ :=
  ⟨h'.next, (h.append h').jumps⟩

theorem Open.arriving (h : f.Open) (depth : Nat) (word : JumpWord) :
    Frontier.Open (f.arriving depth word) := by
  refine List.forall_mem_map.2 fun p hp => ?_
  exact h.jumps p (List.mem_filter.1 hp).1

theorem Open.passing (h : f.Open) (depth : Nat) : ∀ p ∈ f.passing depth, Inner p.source :=
  fun p hp => h.jumps p (List.mem_filter.1 hp).1

/-- A construct takes the jumps that are aimed at it. -/
theorem Open.caught (h : f.Open) (depth : Nat) {ends : Frontier} (hends : ends.Open) :
    Flow.Open ⟨ends ++ f.breaks depth, f.passing depth⟩ :=
  ⟨hends.append (h.arriving depth _), h.passing depth⟩

end Flow

open WriteOnce.FlowGraph.Flow (open_stopped open_through)

/-! ## Steps -/

variable {B W : Variable → Prop} {α β : Type} {Q : α → Prop} {R : β → Prop}

/-- The step keeps drafts sound, and what it gives is such. -/
def Keeps (B W : Variable → Prop) (m : Drafting α) (Q : α → Prop) : Prop :=
  ∀ d, d.Sound B W → ∀ a d', m d = .ok (a, d') → d'.Sound B W ∧ Q a

namespace Keeps

theorem pure {a : α} (h : Q a) : Keeps B W (pure a) Q := by
  intro d hd a d' hrun
  cases pure_eq_ok.1 hrun
  exact ⟨hd, h⟩

theorem bind {m : Drafting α} {next : α → Drafting β} (h : Keeps B W m Q)
    (hnext : ∀ a, Q a → Keeps B W (next a) R) : Keeps B W (m >>= next) R := by
  intro d hd b d' hrun
  obtain ⟨a, d₁, hfirst, hrun⟩ := bind_eq_ok.1 hrun
  obtain ⟨hd₁, ha⟩ := h d hd a d₁ hfirst
  exact hnext a ha d₁ hd₁ b d' hrun

theorem throw (e : AnalysisError) : Keeps B W (throw e : Drafting α) Q := by
  intro d hd a d' hrun
  cases hrun

theorem discard {m : Drafting α} (h : Keeps B W m Q) :
    Keeps B W (discard m) fun _ => True :=
  h.bind fun _ _ => .pure trivial

theorem forM {xs : List α} {f : α → Drafting PUnit}
    (h : ∀ x ∈ xs, Keeps B W (f x) fun _ => True) : Keeps B W (xs.forM f) fun _ => True := by
  induction xs with
  | nil => exact .pure trivial
  | cons x xs ih =>
    obtain ⟨hx, hxs⟩ := List.forall_mem_cons.1 h
    exact hx.bind fun _ _ => ih hxs

/-- A new node is behind the entry and the exits. -/
theorem addNode (kind : NodeKind) (pos : Option Pos) {binds : List Binding}
    {writes : List Variable} (hbinds : ∀ b ∈ binds, B b.var) (hwrites : ∀ v ∈ writes, W v) :
    Keeps B W (addNode kind pos binds writes) fun id => Inner id ∧ id ≠ entryId := by
  intro d hd id d' hrun
  cases hrun
  have hsize := hd.size
  refine ⟨⟨?_, hd.sources, hd.targets, ?_, ?_⟩, ?_⟩
  · exact Nat.le_succ_of_le hsize
  · exact List.forall_mem_cons.2 ⟨hbinds, hd.binds⟩
  · exact List.forall_mem_cons.2 ⟨hwrites, hd.writes⟩
  · simp only [Inner, exitId, exceptionExitId, entryId]
    omega

theorem connect {source target : Nat} (hsource : Inner source) (htarget : target ≠ entryId)
    (kind : EdgeKind) : Keeps B W (connect source target kind) fun _ => True := by
  intro d hd u d' hrun
  cases hrun
  refine ⟨⟨hd.size, ?_, ?_, hd.binds, hd.writes⟩, trivial⟩
  · exact List.forall_mem_cons.2 ⟨hsource, hd.sources⟩
  · exact List.forall_mem_cons.2 ⟨htarget, hd.targets⟩

theorem tie {ends : Frontier} (hends : ends.Open) {target : Nat} (htarget : target ≠ entryId) :
    Keeps B W (tie ends target) fun _ => True :=
  forM fun e he => connect (hends e he) htarget e.kind

theorem tieAs (kind : EdgeKind) {ends : Frontier} (hends : ends.Open) {target : Nat}
    (htarget : target ≠ entryId) : Keeps B W (tieAs kind ends target) fun _ => True :=
  forM fun e he => connect (hends e he) htarget kind

end Keeps

/-! ## Surroundings -/

/-- Exceptions do not go to the entry, and copies of cleanup blocks keep drafts sound. -/
structure Surroundings.Keeps (B W : Variable → Prop) (s : Surroundings) : Prop where
  handlers : ∀ handlers ∈ s.handlers, ∀ h ∈ handlers, h ≠ entryId
  copies : ∀ draft ∈ cleanups s.frames, ∀ ends, Frontier.Open ends →
    FlowGraph.Keeps B W (draft ends) Flow.Open

namespace Surroundings.Keeps

variable {s : Surroundings}

theorem outermost : Surroundings.Keeps B W .outermost :=
  ⟨fun _ h => (by cases h), fun _ h => (by cases h)⟩

/-- A construct that a jump can aim at. -/
theorem inside (h : s.Keeps B W) {frame : Frame} (hframe : cleanups [frame] = []) :
    (s.inside frame).Keeps B W := by
  refine ⟨h.handlers, ?_⟩
  cases frame with
  | cleanup => cases hframe
  | loop | switch | block => exact h.copies

theorem insideCleanup (h : s.Keeps B W) {draft : Frontier → Drafting Flow}
    (hdraft : ∀ ends, ends.Open → FlowGraph.Keeps B W (draft ends) Flow.Open) :
    (s.inside (.cleanup draft)).Keeps B W :=
  ⟨h.handlers, List.forall_mem_cons.2 ⟨hdraft, h.copies⟩⟩

theorem handling (h : s.Keeps B W) {handlers : List Nat} (hhandlers : ∀ i ∈ handlers, i ≠ entryId) :
    (s.handling handlers).Keeps B W := by
  refine ⟨fun other hother => ?_, h.copies⟩
  cases hother
  exact hhandlers

theorem escapes (h : s.Keeps B W) : ∀ i ∈ s.escapes, i ≠ entryId := by
  unfold Surroundings.escapes
  cases hhandlers : s.handlers with
  | none =>
    intro i hi
    rw [List.mem_singleton.1 hi]
    decide
  | some handlers => exact h.handlers handlers hhandlers

theorem raiseTargets (h : s.Keeps B W) (kind : NodeKind) :
    ∀ i ∈ raiseTargets s kind, i ≠ entryId :=
  fun i hi => h.escapes i (raiseTargets_subset s kind hi)

theorem emit (h : s.Keeps B W) (kind : NodeKind) (pos : Option Pos) {binds : List Binding}
    {writes : List Variable} (hbinds : ∀ b ∈ binds, B b.var) (hwrites : ∀ v ∈ writes, W v)
    {ends : Frontier} (hends : ends.Open) :
    FlowGraph.Keeps B W (emit s kind pos binds writes ends) fun id => Inner id ∧ id ≠ entryId := by
  unfold FlowGraph.emit
  apply (FlowGraph.Keeps.addNode kind pos hbinds hwrites).bind
  intro id hid
  apply (FlowGraph.Keeps.tie hends hid.2).bind
  intro _ _
  have hraise : FlowGraph.Keeps B W
      ((FlowGraph.raiseTargets s kind).forM fun target => connect id target .exception)
      fun _ => True :=
    .forM fun target htarget => .connect hid.1 (h.raiseTargets kind target htarget) .exception
  exact hraise.bind fun _ _ => .pure hid

/-- A node that neither binds nor writes. -/
theorem emitSilent (h : s.Keeps B W) (kind : NodeKind) (pos : Option Pos) {ends : Frontier}
    (hends : ends.Open) :
    FlowGraph.Keeps B W (FlowGraph.emit s kind pos [] [] ends) fun id =>
      Inner id ∧ id ≠ entryId :=
  h.emit kind pos (fun _ h => (by cases h)) (fun _ h => (by cases h)) hends

theorem step (h : s.Keeps B W) (kind : NodeKind) (pos : Option Pos) {binds : List Binding}
    {writes : List Variable} (hbinds : ∀ b ∈ binds, B b.var) (hwrites : ∀ v ∈ writes, W v)
    {ends : Frontier} (hends : ends.Open) :
    FlowGraph.Keeps B W (step s kind pos binds writes ends) Frontier.Open :=
  (h.emit kind pos hbinds hwrites hends).bind fun _ hid => .pure (open_single hid.1 .normal)

theorem stepSilent (h : s.Keeps B W) (kind : NodeKind) (pos : Option Pos) {ends : Frontier}
    (hends : ends.Open) :
    FlowGraph.Keeps B W (FlowGraph.step s kind pos [] [] ends) Frontier.Open :=
  (h.emitSilent kind pos hends).bind fun _ hid => .pure (open_single hid.1 .normal)

theorem settle (h : s.Keeps B W) (test : Bool) (pos : Pos) {ends : Frontier} (hends : ends.Open) :
    FlowGraph.Keeps B W (settle s test pos ends) Split.Open := by
  unfold FlowGraph.settle
  cases test with
  | true =>
    apply (h.emitSilent .branch (some pos) hends).bind
    intro id hid
    exact .pure ⟨open_single hid.1 .onTrue, open_single hid.1 .onFalse⟩
  | false => exact .pure ⟨hends, open_nil⟩

theorem rethrow (h : s.Keeps B W) {ends : Frontier} (hends : ends.Open) :
    FlowGraph.Keeps B W (draftRethrow s ends) fun _ => True := by
  unfold draftRethrow
  split
  · exact .pure trivial
  · exact (h.emitSilent .throwValue none hends).discard

theorem join (h : s.Keeps B W) (pos : Pos) {flow : Flow} (hflow : flow.Open) :
    FlowGraph.Keeps B W (draftJoin s pos flow) Flow.Open := by
  unfold draftJoin
  split
  · exact .pure hflow
  · exact (h.stepSilent .join (some pos) hflow.next).bind fun _ hends =>
      .pure ⟨hends, hflow.jumps⟩

end Surroundings.Keeps

/-! ## Jumps -/

theorem keeps_draftAll {drafts : List (Frontier → Drafting Flow)}
    (h : ∀ draft ∈ drafts, ∀ ends, Frontier.Open ends → Keeps B W (draft ends) Flow.Open)
    {ends : Frontier} (hends : ends.Open) : Keeps B W (draftAll drafts ends) Flow.Open := by
  induction drafts generalizing ends with
  | nil => exact .pure (open_through hends)
  | cons draft drafts ih =>
    obtain ⟨hdraft, hdrafts⟩ := List.forall_mem_cons.1 h
    apply (hdraft ends hends).bind
    intro first hfirst
    exact (ih hdrafts hfirst.next).bind fun others hothers => .pure (hfirst.followed hothers)

theorem Surroundings.Keeps.jump {s : Surroundings} (h : s.Keeps B W) (pos : Pos) (word : JumpWord)
    (label : Option Text) {ends : Frontier} (hends : ends.Open) :
    FlowGraph.Keeps B W (draftJump s pos word label ends) Flow.Open := by
  unfold draftJump
  cases hroute : route? word label s.frames with
  | none => exact .throw _
  | some route =>
    dsimp only
    split
    · exact .throw _
    · apply (h.stepSilent .jump (some pos) hends).bind
      intro ends hends
      have hpassed := passed_subset hroute
      apply (keeps_draftAll (fun draft hdraft => h.copies draft (hpassed hdraft)) hends).bind
      intro flow hflow
      refine .pure ⟨open_nil, List.forall_mem_append.2 ⟨hflow.jumps, ?_⟩⟩
      exact List.forall_mem_map.2 hflow.next

theorem Surroundings.Keeps.return {s : Surroundings} (h : s.Keeps B W) (pos : Pos)
    {ends : Frontier} (hends : ends.Open) :
    FlowGraph.Keeps B W (draftReturn s pos ends) Flow.Open := by
  apply (h.stepSilent .returnValue (some pos) hends).bind
  intro ends hends
  apply (keeps_draftAll h.copies hends).bind
  intro flow hflow
  exact (FlowGraph.Keeps.tie hflow.next (by decide)).bind fun _ _ =>
    .pure ⟨open_nil, hflow.jumps⟩

/-! ## Expressions -/

/-- What is declared at the own places may be bound, and what a name denotes or a lambda writes
may be written. -/
structure Resolution.Allows (own : Pos → Prop) (B W : Variable → Prop) (r : Resolution) :
    Prop where
  declared : ∀ p, own p → ∀ v ∈ r.declared p, B v
  denoted : ∀ p, ∀ v ∈ r.denoted p, W v
  summary : ∀ p, ∀ e ∈ r.summary p, W e.1

variable {own : Pos → Prop} {r : Resolution} {s : Surroundings} {ends : Frontier}

namespace Resolution.Allows

theorem binding (h : r.Allows own B W) {pos : Pos} (hpos : own pos) (hasValue : Bool) :
    ∀ b ∈ r.binding pos hasValue, B b.var := by
  intro b hb
  obtain ⟨v, hv, rfl⟩ := List.mem_map.1 hb
  exact h.declared pos hpos v (Option.mem_toList.1 hv)

theorem closureWrites (h : r.Allows own B W) (pos : Pos) : ∀ v ∈ r.closureWrites pos, W v := by
  intro v hv
  obtain ⟨e, he, hv⟩ := List.mem_flatMap.1 hv
  rw [(List.mem_replicate.1 hv).2]
  exact h.summary pos e he

theorem write (h : r.Allows own B W) (hs : s.Keeps B W) (pos : Pos) (target : Expr)
    (hends : ends.Open) : Keeps B W (draftWrite r s pos target ends) Frontier.Open := by
  unfold draftWrite
  cases htarget : r.target? target with
  | none => exact .pure hends
  | some v =>
    have hwrites : ∀ other ∈ [v], W other := by
      intro other hother
      rw [List.mem_singleton.1 hother]
      cases target with
      | name pos => exact h.denoted pos v htarget
      | _ => cases htarget
    exact hs.step .write (some pos) (fun _ h => (by cases h)) hwrites hends

end Resolution.Allows

mutual

theorem keeps_draftExpr (hr : r.Allows own B W) (hs : s.Keeps B W) (test : Bool) :
    (e : Expr) → {ends : Frontier} → ends.Open → Keeps B W (draftExpr r s test e ends) Split.Open
  | .literal pos value, ends, hends => by
    unfold draftExpr
    split
    · exact .pure ⟨hends, open_nil⟩
    · exact .pure ⟨open_nil, hends⟩
    · exact hs.settle _ pos hends
  | .name pos _, _, hends => hs.settle test pos hends
  | .field pos operand _, _, hends | .instanceOf pos operand _, _, hends
  | .cast pos _ operand, _, hends | .methodRef pos operand _, _, hends =>
    (keeps_draftExpr hr hs false operand hends).bind fun _ h => hs.settle test pos h.all
  | .index pos object position, _, hends =>
    (keeps_draftExpr hr hs false object hends).bind fun _ h =>
      (keeps_draftExpr hr hs false position h.all).bind fun _ h => hs.settle test pos h.all
  | .call pos callee args, _, hends =>
    (keeps_draftExpr hr hs false callee hends).bind fun _ h =>
      (keeps_draftExprs hr hs args h.all).bind fun _ h =>
        (hs.stepSilent .call (some pos) h).bind fun _ h => hs.settle test pos h
  | .newObject pos _ args, _, hends | .newAnonymous pos _ args _, _, hends
  | .newArray pos _ args, _, hends | .newArrayOf pos _ _ args, _, hends =>
    (keeps_draftExprs hr hs args hends).bind fun _ h =>
      (hs.stepSilent .new (some pos) h).bind fun _ h => hs.settle test pos h
  | .arrayLit pos elements, _, hends =>
    (keeps_draftExprs hr hs elements hends).bind fun _ h => hs.settle test pos h
  | .unary pos op operand, _, hends => by
    simp only [draftExpr]
    split
    · exact (keeps_draftExpr hr hs true operand hends).bind fun _ h => .pure h.swap
    · exact (keeps_draftExpr hr hs false operand hends).bind fun _ h => hs.settle test pos h.all
  | .step pos _ _ target, _, hends =>
    (keeps_draftTarget hr hs target hends).bind fun _ h =>
      (hr.write hs pos target h).bind fun _ h => hs.settle test pos h
  | .binary pos op left right, _, hends => by
    simp only [draftExpr]
    split
    · refine (keeps_draftExpr hr hs true left hends).bind fun first hfirst => ?_
      exact (keeps_draftExpr hr hs true right hfirst.onTrue).bind fun second hsecond =>
        .pure ⟨hsecond.onTrue, hfirst.onFalse.append hsecond.onFalse⟩
    · refine (keeps_draftExpr hr hs true left hends).bind fun first hfirst => ?_
      exact (keeps_draftExpr hr hs true right hfirst.onFalse).bind fun second hsecond =>
        .pure ⟨hfirst.onTrue.append hsecond.onTrue, hsecond.onFalse⟩
    · exact (keeps_draftExpr hr hs false left hends).bind fun _ h =>
        (keeps_draftExpr hr hs false right h.all).bind fun _ h => hs.settle test pos h.all
  | .conditional pos cond onTrue onFalse, _, hends =>
    (keeps_draftExpr hr hs true cond hends).bind fun _ hsplit =>
      (keeps_draftExpr hr hs false onTrue hsplit.onTrue).bind fun _ hfirst =>
        (keeps_draftExpr hr hs false onFalse hsplit.onFalse).bind fun _ hsecond =>
          hs.settle test pos (hfirst.all.append hsecond.all)
  | .assign pos _ target value, _, hends =>
    (keeps_draftTarget hr hs target hends).bind fun _ h =>
      (keeps_draftExpr hr hs false value h).bind fun _ h =>
        (hr.write hs pos target h.all).bind fun _ h => hs.settle test pos h
  | .lambda pos _ _, _, hends =>
    (hs.step .closure (some pos) (fun _ h => (by cases h)) (hr.closureWrites pos) hends).bind
      fun _ h => hs.settle test pos h
termination_by structural e => e

theorem keeps_draftTarget (hr : r.Allows own B W) (hs : s.Keeps B W) :
    (e : Expr) → {ends : Frontier} → ends.Open → Keeps B W (draftTarget r s e ends) Frontier.Open
  | .field _ object _, _, hends =>
    (keeps_draftExpr hr hs false object hends).bind fun _ h => .pure h.all
  | .index _ object position, _, hends =>
    (keeps_draftExpr hr hs false object hends).bind fun _ h =>
      (keeps_draftExpr hr hs false position h.all).bind fun _ h => .pure h.all
  | .literal .., _, hends | .name .., _, hends | .call .., _, hends | .newObject .., _, hends
  | .newAnonymous .., _, hends | .newArray .., _, hends | .newArrayOf .., _, hends
  | .arrayLit .., _, hends | .unary .., _, hends | .step .., _, hends | .binary .., _, hends
  | .instanceOf .., _, hends | .cast .., _, hends | .conditional .., _, hends
  | .assign .., _, hends | .lambda .., _, hends | .methodRef .., _, hends => .pure hends
termination_by structural e => e

theorem keeps_draftExprs (hr : r.Allows own B W) (hs : s.Keeps B W) :
    (es : List Expr) → {ends : Frontier} → ends.Open →
      Keeps B W (draftExprs r s es ends) Frontier.Open
  | [], _, hends => .pure hends
  | e :: es, _, hends =>
    (keeps_draftExpr hr hs false e hends).bind fun _ h => keeps_draftExprs hr hs es h.all
termination_by structural es => es

end

/-! ## Statements -/

theorem keeps_draftOption (hr : r.Allows own B W) (hs : s.Keeps B W) (e : Option Expr)
    (hends : ends.Open) : Keeps B W (draftOption r s e ends) Frontier.Open := by
  cases e with
  | none => exact .pure hends
  | some e => exact (keeps_draftExpr hr hs false e hends).bind fun _ h => .pure h.all

theorem keeps_draftCondition (hr : r.Allows own B W) (hs : s.Keeps B W) (e : Option Expr)
    (hends : ends.Open) : Keeps B W (draftCondition r s e ends) Split.Open := by
  cases e with
  | none => exact .pure ⟨hends, open_nil⟩
  | some e => exact keeps_draftExpr hr hs true e hends

theorem keeps_draftDeclarators (hr : r.Allows own B W) (hs : s.Keeps B W) {ds : List Declarator}
    (hown : ∀ p ∈ ds.map Declarator.pos, own p) {ends : Frontier} (hends : ends.Open) :
    Keeps B W (draftDeclarators r s ds ends) Frontier.Open := by
  induction ds generalizing ends with
  | nil => exact .pure hends
  | cons d ds ih =>
    obtain ⟨hd, hds⟩ := List.forall_mem_cons.1 hown
    have hdeclared : Keeps B W (expectDeclared r d) fun _ => True := by
      unfold expectDeclared
      split
      · exact .pure trivial
      · exact .throw _
    apply hdeclared.bind
    intro _ _
    apply (keeps_draftOption hr hs d.init hends).bind
    intro ends hends
    apply (hs.step .declare (some d.pos) (hr.binding hd _) (fun _ h => (by cases h)) hends).bind
    intro ends hends
    exact ih hds hends

theorem keeps_draftForInit (hr : r.Allows own B W) (hs : s.Keeps B W) {init : ForInit}
    (hown : ∀ p ∈ init.places, own p) (hends : ends.Open) :
    Keeps B W (draftForInit r s init ends) Frontier.Open := by
  cases init with
  | decl decl =>
    obtain ⟨pos, modifiers, type, declarators⟩ := decl
    exact keeps_draftDeclarators hr hs hown hends
  | exprs values => exact keeps_draftExprs hr hs values hends

theorem keeps_addHandlers (hr : r.Allows own B W) {clauses : List CatchClause}
    (hown : ∀ p ∈ clauses.map (fun clause => clause.param.pos), own p) :
    Keeps B W (addHandlers r clauses) fun ids => ∀ i ∈ ids, Inner i ∧ i ≠ entryId := by
  unfold addHandlers
  induction clauses with
  | nil => exact .pure fun _ h => (by cases h)
  | cons clause clauses ih =>
    obtain ⟨hclause, hclauses⟩ := List.forall_mem_cons.1 hown
    rw [List.mapM_cons]
    apply (Keeps.addNode .handler (some clause.pos) (hr.binding hclause true)
      (fun _ h => (by cases h))).bind
    intro id hid
    exact (ih hclauses).bind fun ids hids => .pure (List.forall_mem_cons.2 ⟨hid, hids⟩)

/-! ## Constructs -/

/-- Whatever open ends come to the code, its draft keeps drafts sound. -/
abbrev KeepsAll (B W : Variable → Prop) (draft : Frontier → Drafting α) (Q : α → Prop) : Prop :=
  ∀ {ends : Frontier}, ends.Open → Keeps B W (draft ends) Q

namespace Surroundings.Keeps

variable {cond : Frontier → Drafting Split} {body : Frontier → Drafting Flow}

theorem whileLoop (h : s.Keeps B W) (pos : Pos) (hcond : KeepsAll B W cond Split.Open)
    (hbody : KeepsAll B W body Flow.Open) :
    KeepsAll B W (fun ends => do
      let head ← FlowGraph.emit s .loop (some pos) [] [] ends
      let split ← cond [⟨head, .normal⟩]
      let flow ← body split.onTrue
      tieAs .continueOn (flow.continues s.depth) head
      tieAs .loopBack flow.next head
      return ⟨split.onFalse ++ flow.breaks s.depth, flow.passing s.depth⟩) Flow.Open := by
  intro ends hends
  apply (h.emitSilent .loop (some pos) hends).bind
  intro head hhead
  apply (hcond (open_single hhead.1 .normal)).bind
  intro split hsplit
  apply (hbody hsplit.onTrue).bind
  intro flow hflow
  exact (FlowGraph.Keeps.tieAs .continueOn (hflow.arriving s.depth _) hhead.2).bind fun _ _ =>
    (FlowGraph.Keeps.tieAs .loopBack hflow.next hhead.2).bind fun _ _ =>
      .pure (hflow.caught s.depth hsplit.onFalse)

/-- The node of the test is that of a condition. -/
theorem forEach (h : s.Keeps B W) (pos : Pos) {bind : Frontier → Drafting Frontier}
    (hbind : KeepsAll B W bind Frontier.Open) (hbody : KeepsAll B W body Flow.Open) :
    KeepsAll B W (fun ends => do
      let head ← FlowGraph.emit s .loop (some pos) [] [] ends
      let test ← FlowGraph.emit s .branch (some pos) [] [] [⟨head, .normal⟩]
      let ends ← bind [⟨test, .onTrue⟩]
      let flow ← body ends
      tieAs .continueOn (flow.continues s.depth) head
      tieAs .loopBack flow.next head
      return ⟨⟨test, .onFalse⟩ :: flow.breaks s.depth, flow.passing s.depth⟩) Flow.Open := by
  have hinside : KeepsAll B W (fun ends => bind ends >>= body) Flow.Open :=
    fun hends => (hbind hends).bind fun _ hends => hbody hends
  intro ends hends
  have hloop := h.whileLoop pos (h.settle true pos) hinside hends
  simp only [FlowGraph.settle, if_true, bind_assoc, pure_bind] at hloop
  exact hloop

theorem doLoop (h : s.Keeps B W) (pos : Pos) (hcond : KeepsAll B W cond Split.Open)
    (hbody : KeepsAll B W body Flow.Open) :
    KeepsAll B W (fun ends => do
      let head ← FlowGraph.emit s .loop (some pos) [] [] ends
      let flow ← body [⟨head, .normal⟩]
      let split ← cond (flow.next ++ flow.continues s.depth)
      tieAs .loopBack split.onTrue head
      return ⟨split.onFalse ++ flow.breaks s.depth, flow.passing s.depth⟩) Flow.Open := by
  intro ends hends
  apply (h.emitSilent .loop (some pos) hends).bind
  intro head hhead
  apply (hbody (open_single hhead.1 .normal)).bind
  intro flow hflow
  have hround := hflow.next.append (hflow.arriving s.depth .continueWord)
  exact (hcond hround).bind fun split hsplit =>
    (FlowGraph.Keeps.tieAs .loopBack hsplit.onTrue hhead.2).bind fun _ _ =>
      .pure (hflow.caught s.depth hsplit.onFalse)

theorem forLoop (h : s.Keeps B W) (pos : Pos) (hcond : KeepsAll B W cond Split.Open)
    (hbody : KeepsAll B W body Flow.Open) {update : Frontier → Drafting Frontier}
    (hupdate : KeepsAll B W update Frontier.Open) :
    KeepsAll B W (fun ends => do
      let head ← FlowGraph.emit s .loop (some pos) [] [] ends
      let split ← cond [⟨head, .normal⟩]
      let flow ← body split.onTrue
      let ends ← update (flow.next ++ flow.continues s.depth)
      tieAs .loopBack ends head
      return ⟨split.onFalse ++ flow.breaks s.depth, flow.passing s.depth⟩) Flow.Open := by
  intro ends hends
  apply (h.emitSilent .loop (some pos) hends).bind
  intro head hhead
  apply (hcond (open_single hhead.1 .normal)).bind
  intro split hsplit
  apply (hbody hsplit.onTrue).bind
  intro flow hflow
  have hround := hflow.next.append (hflow.arriving s.depth .continueWord)
  exact (hupdate hround).bind fun _ hround =>
    (FlowGraph.Keeps.tieAs .loopBack hround hhead.2).bind fun _ _ =>
      .pure (hflow.caught s.depth hsplit.onFalse)

theorem switch (h : s.Keeps B W) (pos : Pos) (hasDefault : Bool) {groups : Nat → Drafting Flow}
    (hgroups : ∀ {test}, Inner test → FlowGraph.Keeps B W (groups test) Flow.Open) :
    KeepsAll B W (fun ends => do
      let test ← FlowGraph.emit s .switch (some pos) [] [] ends
      let flow ← groups test
      let skipped : Frontier := if hasDefault then [] else [⟨test, .onFalse⟩]
      return ⟨flow.next ++ (skipped ++ flow.breaks s.depth), flow.passing s.depth⟩) Flow.Open := by
  intro ends hends
  apply (h.emitSilent .switch (some pos) hends).bind
  intro test htest
  apply (hgroups htest.1).bind
  intro flow hflow
  have hskipped : Frontier.Open (if hasDefault then [] else [⟨test, .onFalse⟩]) := by
    split
    · exact open_nil
    · exact open_single htest.1 .onFalse
  exact .pure ⟨hflow.next.append (hskipped.append (hflow.arriving s.depth _)),
    hflow.passing s.depth⟩

section Try

variable {clauses : List CatchClause} {region : Surroundings → Frontier → Drafting Flow}

theorem tryCatch (h : s.Keeps B W) (pos : Pos)
    (hadd : FlowGraph.Keeps B W (addHandlers r clauses) fun ids =>
      ∀ i ∈ ids, Inner i ∧ i ≠ entryId)
    (hregion : ∀ {s : Surroundings}, s.Keeps B W → KeepsAll B W (region s) Flow.Open)
    {bodies : List Nat → Drafting Flow}
    (hbodies : ∀ {handlers}, (∀ i ∈ handlers, Inner i) →
      FlowGraph.Keeps B W (bodies handlers) Flow.Open) :
    KeepsAll B W (fun ends => do
      let handlers ← addHandlers r clauses
      let inner := s.handling (handlers ++ s.escapes)
      let ends ← FlowGraph.step inner .tryBody (some pos) [] [] ends
      let first ← region inner ends
      let others ← bodies handlers
      return first ++ others) Flow.Open := by
  intro ends hends
  apply hadd.bind
  intro handlers hhandlers
  have hinner : (s.handling (handlers ++ s.escapes)).Keeps B W :=
    h.handling (List.forall_mem_append.2 ⟨fun i hi => (hhandlers i hi).2, h.escapes⟩)
  apply (hinner.stepSilent .tryBody (some pos) hends).bind
  intro ends hends
  apply (hregion hinner hends).bind
  intro first hfirst
  exact (hbodies fun i hi => (hhandlers i hi).1).bind fun others hothers =>
    .pure (hfirst.append hothers)

theorem tryFinally (h : s.Keeps B W) (pos cleanupPos : Pos)
    (hadd : FlowGraph.Keeps B W (addHandlers r clauses) fun ids =>
      ∀ i ∈ ids, Inner i ∧ i ≠ entryId)
    (hregion : ∀ {s : Surroundings}, s.Keeps B W → KeepsAll B W (region s) Flow.Open)
    {D : Surroundings → List Nat → Drafting Flow}
    (hbodies : ∀ {s : Surroundings}, s.Keeps B W → ∀ {handlers}, (∀ i ∈ handlers, Inner i) →
      FlowGraph.Keeps B W (D s handlers) Flow.Open)
    {cleanup : Frontier → Drafting Flow} (hcleanup : KeepsAll B W cleanup Flow.Open) :
    KeepsAll B W (fun ends => do
      let escape ← addNode .join (some cleanupPos) [] []
      let handlers ← addHandlers r clauses
      let inner := s.inside (.cleanup cleanup)
      let outer := inner.handling (handlers ++ [escape])
      let ends ← FlowGraph.step outer .tryBody (some pos) [] [] ends
      let first ← region outer ends
      let others ← D (inner.handling [escape]) handlers
      let flow := first ++ others
      let after ← if flow.next.isEmpty then pure Flow.stopped else cleanup flow.next
      let escaped ← cleanup [⟨escape, .normal⟩]
      draftRethrow s escaped.next
      return ⟨after.next, flow.jumps ++ (after.jumps ++ escaped.jumps)⟩) Flow.Open := by
  intro ends hends
  apply (FlowGraph.Keeps.addNode .join (some cleanupPos) (fun _ h => (by cases h))
    (fun _ h => (by cases h))).bind
  intro escape hescape
  apply hadd.bind
  intro handlers hhandlers
  have hinner := h.insideCleanup fun _ hends => hcleanup hends
  have hescapes : ∀ i ∈ [escape], i ≠ entryId :=
    fun i hi => List.mem_singleton.1 hi ▸ hescape.2
  have houter := hinner.handling
    (List.forall_mem_append.2 ⟨fun i hi => (hhandlers i hi).2, hescapes⟩)
  apply (houter.stepSilent .tryBody (some pos) hends).bind
  intro ends hends
  apply (hregion houter hends).bind
  intro first hfirst
  apply (hbodies (hinner.handling hescapes) fun i hi => (hhandlers i hi).1).bind
  intro others hothers
  have hflow := hfirst.append hothers
  have hrest : ∀ after : Flow, after.Open → FlowGraph.Keeps B W (do
      let escaped ← cleanup [⟨escape, .normal⟩]
      draftRethrow s escaped.next
      return (⟨after.next, (first ++ others).jumps ++ (after.jumps ++ escaped.jumps)⟩ : Flow))
      Flow.Open := fun after hafter =>
    (hcleanup (open_single hescape.1 .normal)).bind fun escaped hescaped =>
      (h.rethrow hescaped.next).bind fun _ _ =>
        .pure ⟨hafter.next, (hflow.append (hafter.append hescaped)).jumps⟩
  dsimp only
  split
  · exact (FlowGraph.Keeps.pure open_stopped).bind hrest
  · exact (hcleanup hflow.next).bind hrest

end Try

end Surroundings.Keeps

mutual

theorem keeps_draftBlock (hr : r.Allows own B W) {s : Surroundings} (hs : s.Keeps B W) :
    (b : Block) → (∀ p ∈ b.places, own p) → {ends : Frontier} → ends.Open →
      Keeps B W (draftBlock r s b ends) Flow.Open
  | ⟨_, stmts⟩, hown, _, hends => keeps_draftStmts hr hs stmts hown hends
termination_by structural b => b

theorem keeps_draftStmts (hr : r.Allows own B W) {s : Surroundings} (hs : s.Keeps B W) :
    (stmts : List Stmt) → (∀ p ∈ placesAll stmts, own p) → {ends : Frontier} → ends.Open →
      Keeps B W (draftStmts r s stmts ends) Flow.Open
  | [], _, _, hends => .pure (open_through hends)
  | stmt :: stmts, hown, _, hends => by
    obtain ⟨hstmt, hstmts⟩ := List.forall_mem_append.1 hown
    exact (keeps_draftStmt hr hs [] stmt hstmt hends).bind fun first hfirst =>
      (keeps_draftStmts hr hs stmts hstmts hfirst.next).bind fun others hothers =>
        .pure (hfirst.followed hothers)
termination_by structural stmts => stmts

theorem keeps_draftStmt (hr : r.Allows own B W) {s : Surroundings} (hs : s.Keeps B W)
    (labels : List Text) : (stmt : Stmt) → (∀ p ∈ stmt.places, own p) → {ends : Frontier} →
      ends.Open → Keeps B W (draftStmt r s labels stmt ends) Flow.Open
  | .block body, hown, _, hends => keeps_draftBlock hr hs body hown hends
  | .localDecl ⟨_, _, _, declarators⟩, hown, _, hends =>
    (keeps_draftDeclarators hr hs hown hends).bind fun _ h => .pure (open_through h)
  | .expr _ value, _, _, hends =>
    (keeps_draftExpr hr hs false value hends).bind fun _ h => .pure (open_through h.all)
  | .ifElse pos cond onTrue onFalse, hown, _, hends => by
    obtain ⟨hfirst, hsecond⟩ := List.forall_mem_append.1 hown
    exact (keeps_draftExpr hr hs true cond hends).bind fun _ hsplit =>
      (keeps_draftStmt hr hs [] onTrue hfirst hsplit.onTrue).bind fun _ hfirst =>
        (keeps_draftBranch hr hs onFalse hsecond hsplit.onFalse).bind fun _ hsecond =>
          hs.join pos (hfirst.append hsecond)
  | .whileLoop pos cond body, hown, _, hends =>
    hs.whileLoop pos (keeps_draftExpr hr hs true cond)
      (keeps_draftStmt hr (hs.inside rfl) [] body hown) hends
  | .doLoop pos body cond, hown, _, hends =>
    hs.doLoop pos (keeps_draftExpr hr hs true cond)
      (keeps_draftStmt hr (hs.inside rfl) [] body hown) hends
  | .forLoop pos init cond update body, hown, _, hends => by
    obtain ⟨hinit, hbody⟩ := List.forall_mem_append.1 hown
    exact (keeps_draftForInit hr hs hinit hends).bind fun _ hends =>
      hs.forLoop pos (keeps_draftCondition hr hs cond)
        (keeps_draftStmt hr (hs.inside rfl) [] body hbody) (keeps_draftExprs hr hs update) hends
  | .forEach pos param iterable body, hown, _, hends => by
    obtain ⟨hparam, hbody⟩ := List.forall_mem_cons.1 hown
    have hbind : KeepsAll B W
        (step s .bind (some param.pos) (r.binding param.pos true) []) Frontier.Open :=
      hs.step .bind (some param.pos) (hr.binding hparam true) fun _ h => (by cases h)
    exact (keeps_draftExpr hr hs false iterable hends).bind fun _ hends =>
      hs.forEach pos hbind (keeps_draftStmt hr (hs.inside rfl) [] body hbody) hends.all
  | .switch pos selector groups, hown, _, hends =>
    (keeps_draftExpr hr hs false selector hends).bind fun _ hends =>
      hs.switch pos (groups.any (·.isDefault))
        (fun htest => keeps_draftGroups hr (hs.inside rfl) htest groups hown open_nil) hends.all
  | .tryCatch pos body clauses none, hown, _, hends => by
    obtain ⟨hparams, hown⟩ := List.forall_mem_append.1 hown
    obtain ⟨hbody, hown⟩ := List.forall_mem_append.1 hown
    obtain ⟨hclauses, -⟩ := List.forall_mem_append.1 hown
    exact hs.tryCatch pos (keeps_addHandlers hr hparams)
      (fun hregion => keeps_draftBlock hr hregion body hbody)
      (keeps_draftClauses hr hs clauses hclauses) hends
  | .tryCatch pos body clauses (some cleanup), hown, _, hends => by
    obtain ⟨hparams, hown⟩ := List.forall_mem_append.1 hown
    obtain ⟨hbody, hown⟩ := List.forall_mem_append.1 hown
    obtain ⟨hclauses, hcleanup⟩ := List.forall_mem_append.1 hown
    exact hs.tryFinally pos cleanup.pos (keeps_addHandlers hr hparams)
      (fun hregion => keeps_draftBlock hr hregion body hbody)
      (D := fun s => draftClauses r s clauses)
      (fun hinner => keeps_draftClauses hr hinner clauses hclauses)
      (keeps_draftBlock hr hs cleanup hcleanup) hends
  | .returnValue pos value, _, _, hends =>
    (keeps_draftOption hr hs value hends).bind fun _ h => hs.return pos h
  | .throwValue pos value, _, _, hends =>
    (keeps_draftExpr hr hs false value hends).bind fun _ h =>
      (hs.emitSilent .throwValue (some pos) h.all).discard.bind fun _ _ => .pure open_stopped
  | .breakTo pos label, _, _, hends => hs.jump pos .breakWord label hends
  | .continueTo pos label, _, _, hends => hs.jump pos .continueWord label hends
  | .labeled _ label body, hown, _, hends => by
    simp only [draftStmt]
    split
    · exact keeps_draftStmt hr hs (labels ++ [label]) body hown hends
    · have hinside : (s.inside (.block (labels ++ [label]))).Keeps B W := hs.inside rfl
      exact (keeps_draftStmt hr hinside [] body hown hends).bind fun flow hflow =>
        .pure (hflow.caught s.depth hflow.next)
  | .empty _, _, _, hends => .pure (open_through hends)
  | .localClass .., _, _, hends => .pure (open_through hends)
termination_by structural stmt => stmt

theorem keeps_draftBranch (hr : r.Allows own B W) {s : Surroundings} (hs : s.Keeps B W) :
    (stmt : Option Stmt) → (∀ p ∈ placesOption stmt, own p) → {ends : Frontier} → ends.Open →
      Keeps B W (draftBranch r s stmt ends) Flow.Open
  | none, _, _, hends => .pure (open_through hends)
  | some stmt, hown, _, hends => keeps_draftStmt hr hs [] stmt hown hends
termination_by structural stmt => stmt

theorem keeps_draftGroups (hr : r.Allows own B W) {s : Surroundings} (hs : s.Keeps B W)
    {test : Nat} (htest : Inner test) : (groups : List SwitchGroup) →
      (∀ p ∈ placesGroups groups, own p) → {ends : Frontier} → ends.Open →
        Keeps B W (draftGroups r s test groups ends) Flow.Open
  | [], _, _, hends => .pure (open_through hends)
  | ⟨pos, _, _, body⟩ :: groups, hown, _, hends => by
    obtain ⟨hbody, hgroups⟩ := List.forall_mem_append.1 hown
    have hentered := hends.append (open_single htest .onTrue)
    exact (hs.stepSilent .join (some pos) hentered).bind fun _ hends =>
      (keeps_draftStmts hr hs body hbody hends).bind fun first hfirst =>
        (keeps_draftGroups hr hs htest groups hgroups hfirst.next).bind fun others hothers =>
          .pure (hfirst.followed hothers)
termination_by structural groups => groups

theorem keeps_draftClauses (hr : r.Allows own B W) {s : Surroundings} (hs : s.Keeps B W) :
    (clauses : List CatchClause) → (∀ p ∈ placesClauses clauses, own p) →
      {handlers : List Nat} → (∀ i ∈ handlers, Inner i) →
        Keeps B W (draftClauses r s clauses handlers) Flow.Open
  | ⟨_, _, _, body⟩ :: clauses, hown, _ :: _, hhandlers => by
    obtain ⟨hbody, hclauses⟩ := List.forall_mem_append.1 hown
    obtain ⟨hhandler, hhandlers⟩ := List.forall_mem_cons.1 hhandlers
    exact (keeps_draftBlock hr hs body hbody (open_single hhandler .normal)).bind
      fun first hfirst => (keeps_draftClauses hr hs clauses hclauses hhandlers).bind
        fun others hothers => .pure (hfirst.append hothers)
  | [], _, _, _ => .pure open_stopped
  | ⟨_, _, _, _⟩ :: _, _, [], _ => .pure open_stopped
termination_by structural clauses => clauses

end

/-! ## Routines -/

theorem keeps_draftBody (hr : r.Allows own B W) {body : LambdaBody}
    (hown : ∀ p ∈ body.places, own p) (hends : ends.Open) :
    Keeps B W (draftBody r body ends) Flow.Open := by
  cases body with
  | block body => exact keeps_draftBlock hr .outermost body hown hends
  | expr body =>
    exact (keeps_draftExpr hr .outermost false body hends).bind fun _ h =>
      .pure (open_through h.all)

theorem Draft.sound_opened {routine : Routine} (hparams : ∀ v ∈ routine.params, B v) :
    (Draft.opened routine).Sound B W := by
  constructor
  · exact Nat.le_refl 3
  · intro e he
    cases he
  · intro e he
    cases he
  · intro n hn b hb
    simp only [Draft.opened, List.mem_cons, List.not_mem_nil, or_false] at hn
    rcases hn with rfl | rfl | rfl
    · cases hb
    · cases hb
    · obtain ⟨v, hv, rfl⟩ := List.mem_map.1 hb
      exact hparams v hv
  · intro n hn v hv
    simp only [Draft.opened, List.mem_cons, List.not_mem_nil, or_false] at hn
    rcases hn with rfl | rfl | rfl <;> cases hv

/-- The whole graph of a routine is drafted soundly. -/
theorem Drawn.sound {routine : Routine} {d₁ d : Draft} {flow : Flow}
    (h : Drawn r routine d₁ d flow) (hr : r.Allows own B W)
    (hown : ∀ p ∈ routine.body.places, own p) (hparams : ∀ v ∈ routine.params, B v) :
    d.Sound B W := by
  have hentry : Inner entryId := by
    constructor <;> decide
  obtain ⟨hsound, hflow⟩ := keeps_draftBody hr hown (open_single hentry .normal) _
    (Draft.sound_opened hparams) _ _ h.body
  rw [h.closing]
  refine ⟨hsound.size, ?_, ?_, hsound.binds, hsound.writes⟩
  · refine List.forall_mem_append.2 ⟨?_, hsound.sources⟩
    intro e he
    obtain ⟨loose, hloose, rfl⟩ := List.mem_map.1 (List.mem_reverse.1 he)
    exact hflow.next loose hloose
  · refine List.forall_mem_append.2 ⟨?_, hsound.targets⟩
    intro e he
    obtain ⟨loose, hloose, rfl⟩ := List.mem_map.1 (List.mem_reverse.1 he)
    change exitId ≠ entryId
    decide

end FlowGraph

end WriteOnce
