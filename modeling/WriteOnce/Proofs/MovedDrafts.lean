import Mathlib.Data.List.Forall2
import WriteOnce.FlowGraph.OfRoutine
import WriteOnce.Proofs.Cores

/-!
# Drafting the core of a routine

Drafting looks at positions and variables only to write them into nodes. The draft of the core
of a routine is therefore that of the routine, with other positions and variables in it.
-/

namespace WriteOnce

/-- Another position in place of each, and another variable. -/
structure Motion where
  pos : Pos → Pos
  var : Variable → Variable

namespace AnalysisError

/-- What two analyses come to: results that are related, or the same fault. The fault is at the
same place, or the second one is where the first one is moved to. -/
inductive Alike (φ : Pos → Pos) (R : α → β → Prop) :
    Except AnalysisError α → Except AnalysisError β → Prop
  | ok {a : α} {b : β} (h : R a b) : Alike φ R (.ok a) (.ok b)
  | moved (fault : AnalysisFault) (pos : Pos) :
    Alike φ R (.error ⟨fault, pos⟩) (.error ⟨fault, φ pos⟩)
  | same (e : AnalysisError) : Alike φ R (.error e) (.error e)

theorem Alike.bind {φ : Pos → Pos} {R : α → β → Prop} {S : γ → δ → Prop}
    {x : Except AnalysisError α} {y : Except AnalysisError β} {f : α → Except AnalysisError γ}
    {g : β → Except AnalysisError δ} (h : Alike φ R x y)
    (hnext : ∀ a b, R a b → Alike φ S (f a) (g b)) : Alike φ S (x >>= f) (y >>= g) := by
  cases h with
  | ok h => exact hnext _ _ h
  | moved fault pos => exact .moved fault pos
  | same e => exact .same e

theorem Alike.imp {φ : Pos → Pos} {R S : α → β → Prop} {x : Except AnalysisError α}
    {y : Except AnalysisError β} (h : Alike φ R x y)
    (himp : ∀ a b, x = .ok a → y = .ok b → R a b → S a b) : Alike φ S x y := by
  cases h with
  | ok h => exact .ok (himp _ _ rfl rfl h)
  | moved fault pos => exact .moved fault pos
  | same e => exact .same e

theorem Alike.eq {x y : Except AnalysisError α} (h : Alike id Eq x y) : x = y := by
  cases h with
  | ok h => exact congrArg _ h
  | moved | same => rfl

end AnalysisError

open AnalysisError (Alike)

namespace FlowGraph

variable (μ : Motion)

def Binding.move (b : Binding) : Binding := ⟨μ.var b.var, b.hasValue⟩

def Node.move (n : Node) : Node :=
  ⟨n.id, n.kind, n.pos.map μ.pos, n.binds.map (Binding.move μ), n.writes.map μ.var⟩

def Draft.move (d : Draft) : Draft := ⟨d.size, d.nodes.map (Node.move μ), d.edges⟩

/-- The variables that a node binds or writes. -/
def Node.vars (n : Node) : List Variable := n.binds.map Binding.var ++ n.writes

/-- No other variables occur than these. -/
def Draft.Within (known : Variable → Prop) (d : Draft) : Prop :=
  ∀ n ∈ d.nodes, ∀ v ∈ n.vars, known v

variable {μ : Motion} {known : Variable → Prop} {α β : Type}

/-- From moved drafts the second step comes to what the first one comes to from the drafts
themselves, moved. -/
def Moves (μ : Motion) (known : Variable → Prop) (m m' : Drafting α) : Prop :=
  ∀ d : Draft, d.Within known →
    Alike μ.pos (fun r r' => r' = (r.1, r.2.move μ) ∧ r.2.Within known) (m d) (m' (d.move μ))

namespace Moves

theorem pure (a : α) : Moves μ known (pure a) (pure a) := fun _ hd => .ok ⟨rfl, hd⟩

theorem bind {m m' : Drafting α} {next next' : α → Drafting β} (h : Moves μ known m m')
    (hnext : ∀ a, Moves μ known (next a) (next' a)) :
    Moves μ known (m >>= next) (m' >>= next') := by
  intro d hd
  refine (h d hd).bind ?_
  rintro ⟨a, d₁⟩ _ ⟨rfl, hd₁⟩
  exact hnext a d₁ hd₁

theorem throw (fault : AnalysisFault) (pos : Pos) :
    Moves μ known (throw ⟨fault, pos⟩ : Drafting α) (throw ⟨fault, μ.pos pos⟩) :=
  fun _ _ => .moved fault pos

theorem addNode (kind : NodeKind) (pos : Option Pos) {binds : List Binding}
    {writes : List Variable} (hbinds : ∀ b ∈ binds, known b.var) (hwrites : ∀ v ∈ writes, known v) :
    Moves μ known (addNode kind pos binds writes)
      (addNode kind (pos.map μ.pos) (binds.map (Binding.move μ)) (writes.map μ.var)) := by
  refine fun d hd => .ok ⟨rfl, List.forall_mem_cons.2 ⟨?_, hd⟩⟩
  exact List.forall_mem_append.2 ⟨List.forall_mem_map.2 hbinds, hwrites⟩

theorem addSilent (kind : NodeKind) (pos : Option Pos) :
    Moves μ known (FlowGraph.addNode kind pos [] [])
      (FlowGraph.addNode kind (pos.map μ.pos) [] []) :=
  addNode kind pos (fun _ h => (by cases h)) (fun _ h => (by cases h))

theorem connect (source target : Nat) (kind : EdgeKind) :
    Moves μ known (connect source target kind) (connect source target kind) :=
  fun _ hd => .ok ⟨rfl, hd⟩

theorem forM {xs : List β} {f f' : β → Drafting PUnit} (h : ∀ x, Moves μ known (f x) (f' x)) :
    Moves μ known (xs.forM f) (xs.forM f') := by
  induction xs with
  | nil => exact pure _
  | cons x xs ih => exact (h x).bind fun _ => ih

theorem tie (ends : Frontier) (target : Nat) : Moves μ known (tie ends target) (tie ends target) :=
  forM fun e => connect e.source target e.kind

theorem tieAs (kind : EdgeKind) (ends : Frontier) (target : Nat) :
    Moves μ known (tieAs kind ends target) (tieAs kind ends target) :=
  forM fun e => connect e.source target kind

theorem discard {m m' : Drafting α} (h : Moves μ known m m') :
    Moves μ known (discard m) (discard m') :=
  h.bind fun _ => pure _

end Moves

/-- Constructs that differ in what they draft for cleanup blocks, and there in positions and
variables alone. -/
inductive Frame.Moves (μ : Motion) (known : Variable → Prop) : Frame → Frame → Prop
  | loop (labels : List Text) : Frame.Moves μ known (.loop labels) (.loop labels)
  | switch (labels : List Text) : Frame.Moves μ known (.switch labels) (.switch labels)
  | block (labels : List Text) : Frame.Moves μ known (.block labels) (.block labels)
  | cleanup {draft draft' : Frontier → Drafting Flow}
    (h : ∀ ends, FlowGraph.Moves μ known (draft ends) (draft' ends)) :
    Frame.Moves μ known (.cleanup draft) (.cleanup draft')

/-- The same surroundings, for code that is moved. -/
structure Surroundings.Moves (μ : Motion) (known : Variable → Prop) (s s' : Surroundings) :
    Prop where
  handlers : s'.handlers = s.handlers
  frames : List.Forall₂ (Frame.Moves μ known) s.frames s'.frames

/-- The same resolution, for code that is moved. It resolves to no other variables than these. -/
structure Resolution.Moves (μ : Motion) (known : Variable → Prop) (r r' : Resolution) : Prop where
  denoted : ∀ p, r'.denoted (μ.pos p) = (r.denoted p).map μ.var
  declared : ∀ p, r'.declared (μ.pos p) = (r.declared p).map μ.var
  summary : ∀ p, r'.summary (μ.pos p) = (r.summary p).map fun e => (μ.var e.1, e.2)
  knownDenoted : ∀ p, ∀ v ∈ r.denoted p, known v
  knownDeclared : ∀ p, ∀ v ∈ r.declared p, known v
  knownSummary : ∀ p, ∀ e ∈ r.summary p, known e.1

variable {s s' : Surroundings} {r r' : Resolution}

namespace Surroundings.Moves

theorem outermost : Surroundings.Moves μ known .outermost .outermost := ⟨rfl, .nil⟩

theorem inside (h : s.Moves μ known s') {frame frame' : Frame}
    (hframe : frame.Moves μ known frame') : (s.inside frame).Moves μ known (s'.inside frame') :=
  ⟨h.handlers, .cons hframe h.frames⟩

theorem handling (h : s.Moves μ known s') (handlers : List Nat) :
    (s.handling handlers).Moves μ known (s'.handling handlers) :=
  ⟨rfl, h.frames⟩

theorem depth (h : s.Moves μ known s') : s'.depth = s.depth := h.frames.length_eq.symm

theorem escapes (h : s.Moves μ known s') : s'.escapes = s.escapes := by
  simp only [Surroundings.escapes, h.handlers]

theorem raiseTargets (h : s.Moves μ known s') (kind : NodeKind) :
    raiseTargets s' kind = raiseTargets s kind := by
  simp only [FlowGraph.raiseTargets, h.handlers]

/-! ## Nodes -/

theorem emit (h : s.Moves μ known s') (kind : NodeKind) (pos : Option Pos) {binds : List Binding}
    {writes : List Variable} (hbinds : ∀ b ∈ binds, known b.var) (hwrites : ∀ v ∈ writes, known v)
    (ends : Frontier) :
    FlowGraph.Moves μ known (emit s kind pos binds writes ends)
      (emit s' kind (pos.map μ.pos) (binds.map (Binding.move μ)) (writes.map μ.var) ends) := by
  unfold FlowGraph.emit
  rw [h.raiseTargets]
  exact (Moves.addNode kind pos hbinds hwrites).bind fun id => (Moves.tie ends id).bind fun _ =>
    (Moves.forM fun target => Moves.connect id target .exception).bind fun _ => .pure id

theorem emitSilent (h : s.Moves μ known s') (kind : NodeKind) (pos : Option Pos)
    (ends : Frontier) :
    FlowGraph.Moves μ known (FlowGraph.emit s kind pos [] [] ends)
      (FlowGraph.emit s' kind (pos.map μ.pos) [] [] ends) :=
  h.emit kind pos (fun _ h => (by cases h)) (fun _ h => (by cases h)) ends

theorem step (h : s.Moves μ known s') (kind : NodeKind) (pos : Option Pos) {binds : List Binding}
    {writes : List Variable} (hbinds : ∀ b ∈ binds, known b.var) (hwrites : ∀ v ∈ writes, known v)
    (ends : Frontier) :
    FlowGraph.Moves μ known (step s kind pos binds writes ends)
      (step s' kind (pos.map μ.pos) (binds.map (Binding.move μ)) (writes.map μ.var) ends) :=
  (h.emit kind pos hbinds hwrites ends).bind fun _ => .pure _

theorem stepSilent (h : s.Moves μ known s') (kind : NodeKind) (pos : Option Pos)
    (ends : Frontier) :
    FlowGraph.Moves μ known (FlowGraph.step s kind pos [] [] ends)
      (FlowGraph.step s' kind (pos.map μ.pos) [] [] ends) :=
  (h.emitSilent kind pos ends).bind fun _ => .pure _

theorem settle (h : s.Moves μ known s') (test : Bool) (pos : Pos) (ends : Frontier) :
    FlowGraph.Moves μ known (settle s test pos ends) (settle s' test (μ.pos pos) ends) := by
  unfold FlowGraph.settle
  cases test with
  | true => exact (h.emitSilent .branch (some pos) ends).bind fun _ => .pure _
  | false => exact .pure _

theorem rethrow (h : s.Moves μ known s') (ends : Frontier) :
    FlowGraph.Moves μ known (draftRethrow s ends) (draftRethrow s' ends) := by
  unfold draftRethrow
  split
  · exact .pure _
  · exact (h.emitSilent .throwValue none ends).discard

theorem join (h : s.Moves μ known s') (pos : Pos) (flow : Flow) :
    FlowGraph.Moves μ known (draftJoin s pos flow) (draftJoin s' (μ.pos pos) flow) := by
  unfold draftJoin
  split
  · exact .pure _
  · exact (h.stepSilent .join (some pos) flow.next).bind fun _ => .pure _

end Surroundings.Moves

/-! ## Jumps -/

/-- Cleanup blocks that differ in positions and variables alone. -/
abbrev MovesAll (μ : Motion) (known : Variable → Prop) :
    List (Frontier → Drafting Flow) → List (Frontier → Drafting Flow) → Prop :=
  List.Forall₂ fun draft draft' => ∀ ends, Moves μ known (draft ends) (draft' ends)

theorem MovesAll.draftAll {drafts drafts' : List (Frontier → Drafting Flow)}
    (h : MovesAll μ known drafts drafts') (ends : Frontier) :
    Moves μ known (draftAll drafts ends) (draftAll drafts' ends) := by
  induction h generalizing ends with
  | nil => exact .pure _
  | cons hdraft _ ih => exact (hdraft ends).bind fun first => (ih first.next).bind fun _ => .pure _

theorem movesAll_cleanups {frames frames' : List Frame}
    (h : List.Forall₂ (Frame.Moves μ known) frames frames') :
    MovesAll μ known (cleanups frames) (cleanups frames') := by
  induction h with
  | nil => exact .nil
  | cons hframe _ ih =>
    cases hframe with
    | cleanup hdraft => exact .cons hdraft ih
    | loop | switch | block => exact ih

/-- Both jumps have no target, or the same one behind cleanup blocks that correspond. -/
inductive MovesRoute (μ : Motion) (known : Variable → Prop) : Option Route → Option Route → Prop
  | none : MovesRoute μ known none none
  | some (depth : Nat) (isLoop : Bool) {drafts drafts' : List (Frontier → Drafting Flow)}
    (h : MovesAll μ known drafts drafts') :
    MovesRoute μ known (some ⟨depth, isLoop, drafts⟩) (some ⟨depth, isLoop, drafts'⟩)

theorem movesRoute_next {word : JumpWord} {label : Option Text} {frame frame' : Frame}
    {frames frames' : List Frame} (hlabels : frame.isTarget word label = frame'.isTarget word label)
    (hloop : frame.isLoop = frame'.isLoop) (hlength : frames.length = frames'.length)
    (h : MovesRoute μ known (route? word label frames) (route? word label frames')) :
    MovesRoute μ known
      (if frame.isTarget word label then Option.some ⟨frames.length, frame.isLoop, []⟩
        else route? word label frames)
      (if frame'.isTarget word label then Option.some ⟨frames'.length, frame'.isLoop, []⟩
        else route? word label frames') := by
  rw [hlabels, hloop, hlength]
  split
  · exact .some _ _ .nil
  · exact h

theorem movesRoute_route? (word : JumpWord) (label : Option Text) {frames frames' : List Frame}
    (h : List.Forall₂ (Frame.Moves μ known) frames frames') :
    MovesRoute μ known (route? word label frames) (route? word label frames') := by
  induction h with
  | nil => exact .none
  | cons hframe hframes ih =>
    cases hframe with
    | cleanup hdraft =>
      simp only [route?]
      generalize route? word label _ = route at ih ⊢
      generalize route? word label _ = route' at ih ⊢
      cases ih with
      | none => exact .none
      | some depth isLoop h => exact .some depth isLoop (.cons hdraft h)
    | loop | switch | block => exact movesRoute_next rfl rfl hframes.length_eq ih

theorem Surroundings.Moves.jump (h : s.Moves μ known s') (pos : Pos) (word : JumpWord)
    (label : Option Text) (ends : Frontier) :
    FlowGraph.Moves μ known (draftJump s pos word label ends)
      (draftJump s' (μ.pos pos) word label ends) := by
  unfold draftJump
  have hroute := movesRoute_route? word label h.frames
  generalize route? word label s.frames = route at hroute ⊢
  generalize route? word label s'.frames = route' at hroute ⊢
  cases hroute with
  | none => exact .throw _ pos
  | some depth isLoop hpassed =>
    dsimp only
    split
    · exact .throw _ pos
    · exact (h.stepSilent .jump (some pos) ends).bind fun ends =>
        (hpassed.draftAll ends).bind fun _ => .pure _

theorem Surroundings.Moves.return (h : s.Moves μ known s') (pos : Pos) (ends : Frontier) :
    FlowGraph.Moves μ known (draftReturn s pos ends) (draftReturn s' (μ.pos pos) ends) :=
  (h.stepSilent .returnValue (some pos) ends).bind fun ends =>
    ((movesAll_cleanups h.frames).draftAll ends).bind fun flow =>
      (FlowGraph.Moves.tie flow.next exitId).bind fun _ => .pure _

/-! ## Expressions -/

theorem Resolution.Moves.target? (h : r.Moves μ known r') (target : Expr) :
    r'.target? (target.core μ.pos) = (r.target? target).map μ.var := by
  cases target with
  | name pos => exact h.denoted pos
  | _ => rfl

theorem Resolution.Moves.known_target? (h : r.Moves μ known r') {target : Expr} {v : Variable}
    (hv : r.target? target = some v) : known v := by
  cases target with
  | name pos => exact h.knownDenoted pos v hv
  | _ => cases hv

theorem Resolution.Moves.binding (h : r.Moves μ known r') (pos : Pos) (hasValue : Bool) :
    r'.binding (μ.pos pos) hasValue = (r.binding pos hasValue).map (Binding.move μ) := by
  unfold Resolution.binding
  rw [h.declared]
  cases r.declared pos <;> rfl

theorem Resolution.Moves.known_binding (h : r.Moves μ known r') (pos : Pos) (hasValue : Bool) :
    ∀ b ∈ r.binding pos hasValue, known b.var := by
  intro b hb
  obtain ⟨v, hv, rfl⟩ := List.mem_map.1 hb
  exact h.knownDeclared pos v (Option.mem_toList.1 hv)

theorem Resolution.Moves.closureWrites (h : r.Moves μ known r') (pos : Pos) :
    r'.closureWrites (μ.pos pos) = (r.closureWrites pos).map μ.var := by
  unfold Resolution.closureWrites
  rw [h.summary, List.flatMap_map, List.map_flatMap]
  simp only [List.map_replicate]

theorem Resolution.Moves.known_closureWrites (h : r.Moves μ known r') (pos : Pos) :
    ∀ v ∈ r.closureWrites pos, known v := by
  intro v hv
  obtain ⟨e, he, hv⟩ := List.mem_flatMap.1 hv
  rw [List.eq_of_mem_replicate hv]
  exact h.knownSummary pos e he

theorem moves_draftWrite (hr : r.Moves μ known r') (hs : s.Moves μ known s') (pos : Pos)
    (target : Expr) (ends : Frontier) :
    Moves μ known (draftWrite r s pos target ends)
      (draftWrite r' s' (μ.pos pos) (target.core μ.pos) ends) := by
  unfold draftWrite
  rw [hr.target?]
  cases hv : r.target? target with
  | none => exact .pure _
  | some v =>
    refine hs.step .write (some pos) (fun _ h => by cases h) ?_ ends
    exact List.forall_mem_singleton.2 (hr.known_target? hv)

mutual

theorem moves_draftExpr (hr : r.Moves μ known r') (hs : s.Moves μ known s') (test : Bool) :
    (e : Expr) → (ends : Frontier) →
    Moves μ known (draftExpr r s test e ends) (draftExpr r' s' test (e.core μ.pos) ends)
  | .literal pos value, ends => by
    simp only [Expr.core, draftExpr]
    split
    · exact .pure _
    · exact .pure _
    · exact hs.settle test pos ends
  | .name pos _, ends => hs.settle test pos ends
  | .field pos operand _, ends | .instanceOf pos operand _, ends | .cast pos _ operand, ends
  | .methodRef pos operand _, ends =>
    (moves_draftExpr hr hs false operand ends).bind fun _ => hs.settle test pos _
  | .index pos object position, ends =>
    (moves_draftExpr hr hs false object ends).bind fun _ =>
      (moves_draftExpr hr hs false position _).bind fun _ => hs.settle test pos _
  | .call pos callee args, ends =>
    (moves_draftExpr hr hs false callee ends).bind fun _ =>
      (moves_draftExprs hr hs args _).bind fun _ =>
        (hs.stepSilent .call (some pos) _).bind fun _ => hs.settle test pos _
  | .newObject pos _ args, ends | .newAnonymous pos _ args _, ends | .newArray pos _ args, ends
  | .newArrayOf pos _ _ args, ends =>
    (moves_draftExprs hr hs args ends).bind fun _ =>
      (hs.stepSilent .new (some pos) _).bind fun _ => hs.settle test pos _
  | .arrayLit pos elements, ends =>
    (moves_draftExprs hr hs elements ends).bind fun _ => hs.settle test pos _
  | .unary pos op operand, ends => by
    simp only [Expr.core, draftExpr]
    split
    · exact (moves_draftExpr hr hs true operand ends).bind fun _ => .pure _
    · exact (moves_draftExpr hr hs false operand ends).bind fun _ => hs.settle test pos _
  | .step pos _ _ target, ends =>
    (moves_draftTarget hr hs target ends).bind fun _ =>
      (moves_draftWrite hr hs pos target _).bind fun _ => hs.settle test pos _
  | .binary pos op left right, ends => by
    simp only [Expr.core, draftExpr]
    split
    · exact (moves_draftExpr hr hs true left ends).bind fun first =>
        (moves_draftExpr hr hs true right first.onTrue).bind fun _ => .pure _
    · exact (moves_draftExpr hr hs true left ends).bind fun first =>
        (moves_draftExpr hr hs true right first.onFalse).bind fun _ => .pure _
    · exact (moves_draftExpr hr hs false left ends).bind fun _ =>
        (moves_draftExpr hr hs false right _).bind fun _ => hs.settle test pos _
  | .conditional pos cond onTrue onFalse, ends =>
    (moves_draftExpr hr hs true cond ends).bind fun split =>
      (moves_draftExpr hr hs false onTrue split.onTrue).bind fun _ =>
        (moves_draftExpr hr hs false onFalse split.onFalse).bind fun _ => hs.settle test pos _
  | .assign pos _ target value, ends =>
    (moves_draftTarget hr hs target ends).bind fun _ =>
      (moves_draftExpr hr hs false value _).bind fun _ =>
        (moves_draftWrite hr hs pos target _).bind fun _ => hs.settle test pos _
  | .lambda pos _ _, ends => by
    simp only [Expr.core, draftExpr]
    rw [hr.closureWrites]
    exact (hs.step .closure (some pos) (fun _ h => by cases h)
      (hr.known_closureWrites pos) ends).bind fun _ => hs.settle test pos _
termination_by structural e => e

theorem moves_draftTarget (hr : r.Moves μ known r') (hs : s.Moves μ known s') :
    (e : Expr) → (ends : Frontier) →
    Moves μ known (draftTarget r s e ends) (draftTarget r' s' (e.core μ.pos) ends)
  | .field _ object _, ends => (moves_draftExpr hr hs false object ends).bind fun _ => .pure _
  | .index _ object position, ends =>
    (moves_draftExpr hr hs false object ends).bind fun _ =>
      (moves_draftExpr hr hs false position _).bind fun _ => .pure _
  | .literal .., _ | .name .., _ | .call .., _ | .newObject .., _ | .newAnonymous .., _
  | .newArray .., _ | .newArrayOf .., _ | .arrayLit .., _ | .unary .., _ | .step .., _
  | .binary .., _ | .instanceOf .., _ | .cast .., _ | .conditional .., _ | .assign .., _
  | .lambda .., _ | .methodRef .., _ => .pure _
termination_by structural e => e

theorem moves_draftExprs (hr : r.Moves μ known r') (hs : s.Moves μ known s') :
    (es : List Expr) → (ends : Frontier) →
    Moves μ known (draftExprs r s es ends) (draftExprs r' s' (Expr.cores μ.pos es) ends)
  | [], _ => .pure _
  | e :: es, ends =>
    (moves_draftExpr hr hs false e ends).bind fun _ => moves_draftExprs hr hs es _
termination_by structural es => es

end

/-! ## Statements -/

theorem moves_draftOption (hr : r.Moves μ known r') (hs : s.Moves μ known s') (e : Option Expr)
    (ends : Frontier) :
    Moves μ known (draftOption r s e ends) (draftOption r' s' (Expr.coreOption μ.pos e) ends) := by
  cases e with
  | none => exact .pure _
  | some e => exact (moves_draftExpr hr hs false e ends).bind fun _ => .pure _

theorem moves_draftCondition (hr : r.Moves μ known r') (hs : s.Moves μ known s')
    (e : Option Expr) (ends : Frontier) :
    Moves μ known (draftCondition r s e ends)
      (draftCondition r' s' (Expr.coreOption μ.pos e) ends) := by
  cases e with
  | none => exact .pure _
  | some e => exact moves_draftExpr hr hs true e ends

theorem Resolution.Moves.expectDeclared (h : r.Moves μ known r') {d d' : Declarator}
    (hpos : d'.pos = μ.pos d.pos) (hname : d'.name = d.name) :
    FlowGraph.Moves μ known (expectDeclared r d) (expectDeclared r' d') := by
  simp only [FlowGraph.expectDeclared, hpos, hname, h.declared, Option.isSome_map]
  split
  · exact .pure _
  · exact .throw (.undeclaredLocal d.name) d.pos

theorem moves_draftDeclarators (hr : r.Moves μ known r') (hs : s.Moves μ known s')
    (ds : List Declarator) (ends : Frontier) :
    Moves μ known (draftDeclarators r s ds ends)
      (draftDeclarators r' s' (Declarator.cores μ.pos ds) ends) := by
  induction ds generalizing ends with
  | nil => exact .pure _
  | cons d ds ih =>
    obtain ⟨pos, name, dims, init⟩ := d
    have hsome : (Expr.coreOption μ.pos init).isSome = init.isSome := by cases init <;> rfl
    have hdeclared : Moves μ known (expectDeclared r ⟨pos, name, dims, init⟩)
        (expectDeclared r' ⟨μ.pos pos, name, 0, Expr.coreOption μ.pos init⟩) :=
      hr.expectDeclared rfl rfl
    refine hdeclared.bind fun _ => ?_
    refine (moves_draftOption hr hs init ends).bind fun ends => Moves.bind ?_ fun _ => ih _
    simp only [hsome, hr.binding]
    exact hs.step .declare (some pos) (hr.known_binding pos _) (fun _ h => by cases h) ends

theorem moves_draftForInit (hr : r.Moves μ known r') (hs : s.Moves μ known s') (init : ForInit)
    (ends : Frontier) :
    Moves μ known (draftForInit r s init ends) (draftForInit r' s' (init.core μ.pos) ends) := by
  cases init with
  | decl decl =>
    obtain ⟨pos, modifiers, type, declarators⟩ := decl
    exact moves_draftDeclarators hr hs declarators ends
  | exprs values => exact moves_draftExprs hr hs values ends

theorem moves_addHandlers (hr : r.Moves μ known r') (clauses : List CatchClause) :
    Moves μ known (addHandlers r clauses) (addHandlers r' (CatchClause.cores μ.pos clauses)) := by
  unfold addHandlers
  induction clauses with
  | nil => exact .pure _
  | cons clause clauses ih =>
    obtain ⟨pos, param, types, body⟩ := clause
    rw [CatchClause.cores, List.mapM_cons, List.mapM_cons]
    refine Moves.bind ?_ fun _ => ih.bind fun _ => .pure _
    rw [show r'.binding (param.core μ.pos).pos true = _ from hr.binding param.pos true]
    exact .addNode .handler (some pos) (hr.known_binding param.pos true) (fun _ h => by cases h)

theorem takesLabels_core (s : Stmt) : takesLabels (s.core μ.pos) = takesLabels s := by
  cases s <;> rfl

theorem any_isDefault_cores (groups : List SwitchGroup) :
    (SwitchGroup.cores μ.pos groups).any (·.isDefault) = groups.any (·.isDefault) := by
  induction groups with
  | nil => rfl
  | cons group groups ih =>
    obtain ⟨pos, labels, isDefault, body⟩ := group
    exact congrArg (isDefault || ·) ih

theorem pos_core (b : Block) : (b.core μ.pos).pos = μ.pos b.pos := by
  cases b
  rfl

mutual

theorem moves_draftBlock (hr : r.Moves μ known r') {s s' : Surroundings}
    (hs : s.Moves μ known s') : (b : Block) → (ends : Frontier) →
    Moves μ known (draftBlock r s b ends) (draftBlock r' s' (b.core μ.pos) ends)
  | ⟨_, stmts⟩, ends => moves_draftStmts hr hs stmts ends
termination_by structural b => b

theorem moves_draftStmts (hr : r.Moves μ known r') {s s' : Surroundings}
    (hs : s.Moves μ known s') : (stmts : List Stmt) → (ends : Frontier) →
    Moves μ known (draftStmts r s stmts ends) (draftStmts r' s' (Stmt.cores μ.pos stmts) ends)
  | [], _ => .pure _
  | stmt :: stmts, ends =>
    (moves_draftStmt hr hs [] stmt ends).bind fun first =>
      (moves_draftStmts hr hs stmts first.next).bind fun _ => .pure _
termination_by structural stmts => stmts

theorem moves_draftStmt (hr : r.Moves μ known r') {s s' : Surroundings}
    (hs : s.Moves μ known s') (labels : List Text) : (stmt : Stmt) → (ends : Frontier) →
    Moves μ known (draftStmt r s labels stmt ends) (draftStmt r' s' labels (stmt.core μ.pos) ends)
  | .block body, ends => moves_draftBlock hr hs body ends
  | .localDecl ⟨_, _, _, declarators⟩, ends =>
    (moves_draftDeclarators hr hs declarators ends).bind fun _ => .pure _
  | .expr _ value, ends => (moves_draftExpr hr hs false value ends).bind fun _ => .pure _
  | .ifElse pos cond onTrue onFalse, ends =>
    (moves_draftExpr hr hs true cond ends).bind fun split =>
      (moves_draftStmt hr hs [] onTrue split.onTrue).bind fun first =>
        (moves_draftBranch hr hs onFalse split.onFalse).bind fun second =>
          hs.join pos (first ++ second)
  | .whileLoop pos cond body, ends => by
    simp only [Stmt.core, draftStmt, hs.depth]
    exact (hs.emitSilent .loop (some pos) ends).bind fun head =>
      (moves_draftExpr hr hs true cond _).bind fun split =>
        (moves_draftStmt hr (hs.inside (.loop labels)) [] body split.onTrue).bind fun flow =>
          (Moves.tieAs .continueOn _ head).bind fun _ =>
            (Moves.tieAs .loopBack flow.next head).bind fun _ => .pure _
  | .doLoop pos body cond, ends => by
    simp only [Stmt.core, draftStmt, hs.depth]
    exact (hs.emitSilent .loop (some pos) ends).bind fun head =>
      (moves_draftStmt hr (hs.inside (.loop labels)) [] body _).bind fun flow =>
        (moves_draftExpr hr hs true cond _).bind fun split =>
          (Moves.tieAs .loopBack split.onTrue head).bind fun _ => .pure _
  | .forLoop pos init cond update body, ends => by
    simp only [Stmt.core, draftStmt, hs.depth]
    exact (moves_draftForInit hr hs init ends).bind fun _ =>
      (hs.emitSilent .loop (some pos) _).bind fun head =>
        (moves_draftCondition hr hs cond _).bind fun split =>
          (moves_draftStmt hr (hs.inside (.loop labels)) [] body split.onTrue).bind fun flow =>
            (moves_draftExprs hr hs update _).bind fun ends =>
              (Moves.tieAs .loopBack ends head).bind fun _ => .pure _
  | .forEach pos param iterable body, ends => by
    simp only [Stmt.core, draftStmt, hs.depth,
      show r'.binding (param.core μ.pos).pos true = _ from hr.binding param.pos true]
    exact (moves_draftExpr hr hs false iterable ends).bind fun _ =>
      (hs.emitSilent .loop (some pos) _).bind fun head =>
        (hs.emitSilent .branch (some pos) _).bind fun test =>
          (hs.step .bind (some param.pos) (hr.known_binding param.pos true)
            (fun _ h => by cases h) _).bind fun ends =>
            (moves_draftStmt hr (hs.inside (.loop labels)) [] body ends).bind fun flow =>
              (Moves.tieAs .continueOn _ head).bind fun _ =>
                (Moves.tieAs .loopBack flow.next head).bind fun _ => .pure _
  | .switch pos selector groups, ends => by
    simp only [Stmt.core, draftStmt, hs.depth, any_isDefault_cores]
    exact (moves_draftExpr hr hs false selector ends).bind fun _ =>
      (hs.emitSilent .switch (some pos) _).bind fun test =>
        (moves_draftGroups hr (hs.inside (.switch labels)) test groups []).bind fun _ => .pure _
  | .tryCatch pos body clauses none, ends => by
    simp only [Stmt.core, Block.coreOption, draftStmt, hs.escapes]
    exact (moves_addHandlers hr clauses).bind fun handlers =>
      have hregion := hs.handling (handlers ++ s.escapes)
      (hregion.stepSilent .tryBody (some pos) ends).bind fun ends =>
        (moves_draftBlock hr hregion body ends).bind fun first =>
          (moves_draftClauses hr hs clauses handlers).bind fun _ => .pure _
  | .tryCatch pos body clauses (some cleanup), ends => by
    have hcleanup := fun ends => moves_draftBlock hr hs cleanup ends
    have hinner := hs.inside (.cleanup hcleanup)
    simp only [Stmt.core, Block.coreOption, draftStmt, pos_core]
    refine (Moves.addSilent .join (some cleanup.pos)).bind fun escape =>
      (moves_addHandlers hr clauses).bind fun handlers => ?_
    have hregion := hinner.handling (handlers ++ [escape])
    refine (hregion.stepSilent .tryBody (some pos) ends).bind fun ends =>
      (moves_draftBlock hr hregion body ends).bind fun first =>
        (moves_draftClauses hr (hinner.handling [escape]) clauses handlers).bind fun others => ?_
    split
    · exact (Moves.pure _).bind fun after => (hcleanup _).bind fun escaped =>
        (hs.rethrow escaped.next).bind fun _ => .pure _
    · exact (hcleanup _).bind fun after => (hcleanup _).bind fun escaped =>
        (hs.rethrow escaped.next).bind fun _ => .pure _
  | .returnValue pos value, ends => (moves_draftOption hr hs value ends).bind fun _ =>
      hs.return pos _
  | .throwValue pos value, ends =>
    (moves_draftExpr hr hs false value ends).bind fun _ =>
      (hs.emitSilent .throwValue (some pos) _).discard.bind fun _ => .pure _
  | .breakTo pos label, ends => hs.jump pos .breakWord label ends
  | .continueTo pos label, ends => hs.jump pos .continueWord label ends
  | .labeled _ label body, ends => by
    simp only [Stmt.core, draftStmt, hs.depth, takesLabels_core]
    split
    · exact moves_draftStmt hr hs (labels ++ [label]) body ends
    · exact (moves_draftStmt hr (hs.inside (.block _)) [] body ends).bind fun _ => .pure _
  | .empty _, _ => .pure _
  | .localClass .., _ => .pure _
termination_by structural stmt => stmt

theorem moves_draftBranch (hr : r.Moves μ known r') {s s' : Surroundings}
    (hs : s.Moves μ known s') : (stmt : Option Stmt) → (ends : Frontier) →
    Moves μ known (draftBranch r s stmt ends)
      (draftBranch r' s' (Stmt.coreOption μ.pos stmt) ends)
  | none, _ => .pure _
  | some stmt, ends => moves_draftStmt hr hs [] stmt ends
termination_by structural stmt => stmt

theorem moves_draftGroups (hr : r.Moves μ known r') {s s' : Surroundings}
    (hs : s.Moves μ known s') (test : Nat) : (groups : List SwitchGroup) → (ends : Frontier) →
    Moves μ known (draftGroups r s test groups ends)
      (draftGroups r' s' test (SwitchGroup.cores μ.pos groups) ends)
  | [], _ => .pure _
  | ⟨pos, _, _, body⟩ :: groups, _ =>
    (hs.stepSilent .join (some pos) _).bind fun ends =>
      (moves_draftStmts hr hs body ends).bind fun first =>
        (moves_draftGroups hr hs test groups first.next).bind fun _ => .pure _
termination_by structural groups => groups

theorem moves_draftClauses (hr : r.Moves μ known r') {s s' : Surroundings}
    (hs : s.Moves μ known s') : (clauses : List CatchClause) → (handlers : List Nat) →
    Moves μ known (draftClauses r s clauses handlers)
      (draftClauses r' s' (CatchClause.cores μ.pos clauses) handlers)
  | ⟨_, _, _, body⟩ :: clauses, _ :: handlers =>
    (moves_draftBlock hr hs body _).bind fun _ =>
      (moves_draftClauses hr hs clauses handlers).bind fun _ => .pure _
  | [], _ => .pure _
  | ⟨_, _, _, _⟩ :: _, [] => .pure _
termination_by structural clauses => clauses

end

/-! ## Routines -/

theorem moves_draftBody (hr : r.Moves μ known r') (body : LambdaBody) (ends : Frontier) :
    Moves μ known (draftBody r body ends) (draftBody r' (body.core μ.pos) ends) := by
  cases body with
  | block body => exact moves_draftBlock hr .outermost body ends
  | expr body => exact (moves_draftExpr hr .outermost false body ends).bind fun _ => .pure _

end FlowGraph

def Declaration.move (μ : Motion) (d : Declaration) : Declaration := ⟨μ.var d.var, d.scope⟩

/-- The same routine, moved; labels do not count. -/
structure Routine.Moves (μ : Motion) (r r' : Routine) : Prop where
  isClosure : r'.isClosure = r.isClosure
  pos : r'.site.pos = μ.pos r.site.pos
  body : r'.body = r.body.core μ.pos
  params : r'.params = r.params.map μ.var
  declarations : r'.declarations = r.declarations.map (Declaration.move μ)

namespace FlowGraph

theorem moves_draftRoutine (hr : r.Moves μ known r') {routine routine' : Routine}
    (h : routine.Moves μ routine') (hparams : ∀ v ∈ routine.params, known v) :
    Moves μ known (draftRoutine r routine) (draftRoutine r' routine') := by
  unfold draftRoutine
  rw [h.pos, h.body, h.params, List.map_map]
  have hbinds : ((fun v => Binding.mk v true) ∘ μ.var : Variable → Binding) =
      Binding.move μ ∘ fun v => Binding.mk v true := rfl
  rw [hbinds, ← List.map_map]
  exact (Moves.addNode .entry (some routine.site.pos) (List.forall_mem_map.2 hparams)
    (fun _ h => by cases h)).bind fun entry =>
    (Moves.addSilent .exit none).discard.bind fun _ =>
      (Moves.addSilent .exceptionExit none).discard.bind fun _ =>
        (moves_draftBody hr routine.body _).bind fun flow => Moves.tie flow.next exitId

/-- A graph with other positions and variables, under another label. -/
def move (μ : Motion) (label : Text) (g : FlowGraph) : FlowGraph :=
  { g with label := label, nodes := g.nodes.map (Node.move μ) }

/-- The graph of a moved routine is the graph of the routine, moved. -/
theorem alike_ofRoutine (hr : r.Moves μ known r') {routine routine' : Routine}
    (h : routine.Moves μ routine') (hparams : ∀ v ∈ routine.params, known v) :
    Alike μ.pos (fun g g' => g' = g.move μ routine'.label ∧ ∀ n ∈ g.nodes, ∀ v ∈ n.vars, known v)
      (ofRoutine r routine) (ofRoutine r' routine') := by
  have hdraft := moves_draftRoutine hr h hparams ⟨0, [], []⟩ fun _ h => by cases h
  refine hdraft.bind ?_
  rintro ⟨_, d⟩ _ ⟨rfl, hd⟩
  refine .ok ⟨?_, fun n hn => hd n (List.mem_reverse.1 hn)⟩
  simp only [ofDraft, move, Draft.move, List.map_reverse]

end FlowGraph

end WriteOnce
