import Mathlib.Data.List.Perm.Subperm
import WriteOnce.Proofs.Landmarks
import WriteOnce.Proofs.SoundDrafts

/-!
# Ordered drafts

Drafting comes to one node after the other. Most nodes are come to as soon as they are made, but
the nodes of handlers wait until the code that can raise exceptions to them is drafted, and the
exits wait to the end. In the order in which nodes are come to, every edge leads forward, except
that a loop is tied back to its head. The heads are those of the loops of the body, and the nodes of
lambdas write what the resolution of names says about them.
-/

namespace WriteOnce

namespace FlowGraph

/-! ## Stages of a draft -/

/-- The nodes that have been come to, in this order, and the heads of loops among them. -/
structure Stage where
  opened : List Nat
  heads : List Nat

namespace Stage

variable {σ σ₁ σ₂ : Stage} {e : Edge}

structure Within (σ σ' : Stage) : Prop where
  opened : σ.opened ⊆ σ'.opened
  heads : σ.heads ⊆ σ'.heads

theorem Within.refl (σ : Stage) : σ.Within σ := ⟨List.Subset.refl _, List.Subset.refl _⟩

theorem Within.trans (h : σ.Within σ₁) (h' : σ₁.Within σ₂) : σ.Within σ₂ :=
  ⟨List.Subset.trans h.opened h'.opened, List.Subset.trans h.heads h'.heads⟩

/-- One more node is come to. -/
def enter (σ : Stage) (i : Nat) (isHead : Bool) : Stage :=
  ⟨σ.opened ++ [i], if isHead then i :: σ.heads else σ.heads⟩

theorem within_enter (σ : Stage) (i : Nat) (isHead : Bool) : σ.Within (σ.enter i isHead) := by
  refine ⟨List.subset_append_left _ _, ?_⟩
  cases isHead with
  | true => exact List.subset_cons_self _ _
  | false => exact List.Subset.refl _

theorem mem_opened_enter (σ : Stage) (i : Nat) (isHead : Bool) :
    i ∈ (σ.enter i isHead).opened :=
  List.mem_append_right _ (List.mem_singleton_self i)

/-- The edge leads back to the head of a loop. -/
def Returns (σ : Stage) (e : Edge) : Prop :=
  (e.kind = .loopBack ∨ e.kind = .continueOn) ∧ e.target ∈ σ.heads

/-- The edge leads on to a node that is come to later, or back to the head of a loop. A node that
has not been come to has an index behind all others. -/
structure Orders (σ : Stage) (e : Edge) : Prop where
  source : e.source ∈ σ.opened
  leads : σ.opened.idxOf e.source < σ.opened.idxOf e.target ∨ σ.Returns e

/-- An edge to a node that has not been come to. -/
theorem orders_of_not_mem (hsource : e.source ∈ σ.opened) (htarget : e.target ∉ σ.opened) :
    σ.Orders e := by
  refine ⟨hsource, .inl ?_⟩
  rw [List.idxOf_eq_length htarget]
  exact List.idxOf_lt_length_iff.2 hsource

/-- The order stays as it is when more nodes are come to. -/
theorem Orders.enter (h : σ.Orders e) (i : Nat) (isHead : Bool) : (σ.enter i isHead).Orders e := by
  obtain ⟨hopened, hheads⟩ := σ.within_enter i isHead
  refine ⟨hopened h.source, h.leads.imp (fun hlt => ?_) fun hback => ⟨hback.1, hheads hback.2⟩⟩
  dsimp only [Stage.enter]
  rw [List.idxOf_append_of_mem h.source]
  by_cases htarget : e.target ∈ σ.opened
  · rwa [List.idxOf_append_of_mem htarget]
  · rw [List.idxOf_append_of_notMem htarget]
    exact (List.idxOf_lt_length_iff.2 h.source).trans_le (Nat.le_add_right _ _)

/-- An edge to the node that was come to last. -/
theorem orders_enter {i : Nat} (hsource : e.source ∈ σ.opened) (hi : i ∉ σ.opened)
    (htarget : e.target = i) (isHead : Bool) : (σ.enter i isHead).Orders e :=
  (orders_of_not_mem hsource (htarget ▸ hi)).enter i isHead

end Stage

/-- Loops and lambdas are such, and lambdas write what is said of them. -/
structure Node.Shows (r : Resolution) (own : Landmark → Prop) (n : Node) : Prop where
  loop : n.kind = .loop → ∃ pos, own (.loop pos)
  closure : n.kind = .closure →
    ∃ l, own (.lambda l) ∧ n.pos = some l.1 ∧ n.writes = r.closureWrites l.1

theorem Node.Shows.plain {r : Resolution} {own : Landmark → Prop} {n : Node}
    (hloop : n.kind ≠ .loop) (hclosure : n.kind ≠ .closure) : n.Shows r own :=
  ⟨fun h => absurd h hloop, fun h => absurd h hclosure⟩

theorem Node.Shows.head {r : Resolution} {own : Landmark → Prop} {pos : Pos} (h : own (.loop pos))
    (i : Nat) : Node.Shows r own ⟨i, .loop, some pos, [], []⟩ :=
  ⟨fun _ => ⟨pos, h⟩, fun h => (by cases h)⟩

theorem Node.Shows.lambda {r : Resolution} {own : Landmark → Prop} {l : PlacedBody}
    (h : own (.lambda l)) (i : Nat) :
    Node.Shows r own ⟨i, .closure, some l.1, [], r.closureWrites l.1⟩ :=
  ⟨fun h => (by cases h), fun _ => ⟨l, h, rfl, rfl⟩⟩

/-- The draft has come so far, and some nodes wait to be come to. -/
structure Draft.Ordered (r : Resolution) (own : Landmark → Prop) (σ : Stage) (W : List Nat)
    (d : Draft) : Prop where
  opened : ∀ i ∈ σ.opened, i < d.size
  waiting : ∀ i ∈ W, i < d.size ∧ i ∉ σ.opened
  nodup : W.Nodup
  edges : ∀ e ∈ d.edges, σ.Orders e
  heads : ∀ i ∈ σ.heads, ∃ n ∈ d.nodes, n.id = i ∧ n.kind = .loop
  nodes : ∀ n ∈ d.nodes, n.Shows r own

variable {r : Resolution} {own : Landmark → Prop} {σ σ₁ σ₂ : Stage} {W W₁ : List Nat} {d : Draft}

namespace Draft.Ordered

theorem push (h : d.Ordered r own σ W) {n : Node} (hn : n.Shows r own) :
    (d.push n).Ordered r own σ W where
  opened i hi := Nat.lt_succ_of_lt (h.opened i hi)
  waiting i hi := ⟨Nat.lt_succ_of_lt (h.waiting i hi).1, (h.waiting i hi).2⟩
  nodup := h.nodup
  edges := h.edges
  heads i hi :=
    let ⟨m, hm, hid⟩ := h.heads i hi
    ⟨m, .tail _ hm, hid⟩
  nodes := List.forall_mem_cons.2 ⟨hn, h.nodes⟩

theorem link (h : d.Ordered r own σ W) {es : List Edge} (hes : ∀ e ∈ es, σ.Orders e) :
    (d.link es).Ordered r own σ W where
  opened := h.opened
  waiting := h.waiting
  nodup := h.nodup
  edges := List.forall_mem_append.2 ⟨fun e he => hes e (List.mem_reverse.1 he), h.edges⟩
  heads := h.heads
  nodes := h.nodes

/-- A node that waits is come to. -/
theorem enter {i : Nat} {isHead : Bool} (h : d.Ordered r own σ (i :: W))
    (hhead : isHead = true → ∃ n ∈ d.nodes, n.id = i ∧ n.kind = .loop) :
    d.Ordered r own (σ.enter i isHead) W where
  opened := List.forall_mem_append.2
    ⟨h.opened, fun j hj => List.mem_singleton.1 hj ▸ (h.waiting i (.head _)).1⟩
  waiting j hj := by
    refine ⟨(h.waiting j (.tail _ hj)).1, fun hopened => ?_⟩
    rcases List.mem_append.1 hopened with hopened | hopened
    · exact (h.waiting j (.tail _ hj)).2 hopened
    · exact (List.nodup_cons.1 h.nodup).1 (List.mem_singleton.1 hopened ▸ hj)
  nodup := (List.nodup_cons.1 h.nodup).2
  edges e he := (h.edges e he).enter i isHead
  heads j hj := by
    cases isHead with
    | false => exact h.heads j hj
    | true =>
      rcases List.mem_cons.1 hj with rfl | hj
      · exact hhead rfl
      · exact h.heads j hj
  nodes := h.nodes

/-- A new node waits. -/
theorem await (h : d.Ordered r own σ W) {n : Node} (hid : n.id = d.size) (hn : n.Shows r own) :
    (d.push n).Ordered r own σ (n.id :: W) where
  opened := (h.push hn).opened
  waiting := by
    refine List.forall_mem_cons.2 ⟨⟨hid ▸ Nat.lt_succ_self _, fun hopened => ?_⟩,
      (h.push hn).waiting⟩
    exact (h.opened _ hopened).ne hid
  nodup := List.nodup_cons.2 ⟨fun hW => (h.waiting _ hW).1.ne hid, h.nodup⟩
  edges := (h.push hn).edges
  heads := (h.push hn).heads
  nodes := (h.push hn).nodes

/-- It does not matter in which order nodes wait, or if some are never come to. -/
theorem subperm (h : d.Ordered r own σ W) (hsub : W₁.Subperm W) : d.Ordered r own σ W₁ where
  opened := h.opened
  waiting i hi := h.waiting i (hsub.subset hi)
  nodup :=
    let ⟨_, hperm, hsub⟩ := hsub
    hperm.nodup_iff.1 (h.nodup.sublist hsub)
  edges := h.edges
  heads := h.heads
  nodes := h.nodes

end Draft.Ordered

/-! ## Loose ends -/

/-- The ends are of nodes that have been come to. -/
def Frontier.From (ends : Frontier) (σ : Stage) : Prop := ∀ e ∈ ends, e.source ∈ σ.opened

structure Split.From (s : Split) (σ : Stage) : Prop where
  onTrue : s.onTrue.From σ
  onFalse : s.onFalse.From σ

structure Flow.From (f : Flow) (σ : Stage) : Prop where
  next : f.next.From σ
  jumps : ∀ p ∈ f.jumps, p.source ∈ σ.opened

namespace Frontier

variable {ends ends' : Frontier}

theorem from_nil : Frontier.From [] σ := fun _ h => (by cases h)

theorem From.append (h : ends.From σ) (h' : ends'.From σ) : Frontier.From (ends ++ ends') σ :=
  List.forall_mem_append.2 ⟨h, h'⟩

theorem from_single {i : Nat} (h : i ∈ σ.opened) (kind : EdgeKind) :
    Frontier.From [⟨i, kind⟩] σ :=
  fun _ he => List.mem_singleton.1 he ▸ h

theorem From.mono (h : ends.From σ) (hσ : σ.Within σ₁) : ends.From σ₁ :=
  fun e he => hσ.opened (h e he)

end Frontier

open Frontier (from_nil from_single)

namespace Split.From

variable {s : Split}

theorem all (h : s.From σ) : Frontier.From s.all σ := h.onTrue.append h.onFalse

theorem swap (h : s.From σ) : s.swap.From σ := ⟨h.onFalse, h.onTrue⟩

theorem mono (h : s.From σ) (hσ : σ.Within σ₁) : s.From σ₁ := ⟨h.onTrue.mono hσ, h.onFalse.mono hσ⟩

end Split.From

namespace Flow

variable {f f' : Flow}

theorem from_through {ends : Frontier} (h : ends.From σ) : (through ends).From σ :=
  ⟨h, fun _ h => (by cases h)⟩

theorem from_stopped : stopped.From σ := from_through from_nil

theorem From.append (h : f.From σ) (h' : f'.From σ) : (f ++ f').From σ :=
  ⟨h.next.append h'.next, List.forall_mem_append.2 ⟨h.jumps, h'.jumps⟩⟩

theorem From.followed (h : f.From σ) (h' : f'.From σ) :
    Flow.From ⟨f'.next, f.jumps ++ f'.jumps⟩ σ :=
  ⟨h'.next, (h.append h').jumps⟩

theorem From.arriving (h : f.From σ) (depth : Nat) (word : JumpWord) :
    Frontier.From (f.arriving depth word) σ :=
  List.forall_mem_map.2 fun p hp => h.jumps p (List.mem_filter.1 hp).1

/-- A construct takes the jumps that are aimed at it. -/
theorem From.caught (h : f.From σ) (depth : Nat) {ends : Frontier} (hends : ends.From σ) :
    Flow.From ⟨ends ++ f.breaks depth, f.passing depth⟩ σ :=
  ⟨hends.append (h.arriving depth _), fun p hp => h.jumps p (List.mem_filter.1 hp).1⟩

theorem From.mono (h : f.From σ) (hσ : σ.Within σ₁) : f.From σ₁ :=
  ⟨h.next.mono hσ, fun p hp => hσ.opened (h.jumps p hp)⟩

end Flow

open WriteOnce.FlowGraph.Flow (from_stopped from_through)

/-! ## Steps -/

variable {α β : Type} {Q : α → Stage → Prop} {R : β → Stage → Prop}

/-- Drafting goes on from this stage with some nodes waiting. Which nodes wait then depends on what
it gives. -/
def Proceeds (r : Resolution) (own : Landmark → Prop) (σ : Stage) (W : List Nat) (m : Drafting α)
    (W' : α → List Nat) (Q : α → Stage → Prop) : Prop :=
  ∀ d, d.Ordered r own σ W → ∀ a d', m d = .ok (a, d') →
    ∃ σ', σ.Within σ' ∧ d'.Ordered r own σ' (W' a) ∧ Q a σ'

/-- The same nodes wait behind the step. -/
abbrev Advances (r : Resolution) (own : Landmark → Prop) (σ : Stage) (W : List Nat) (m : Drafting α)
    (Q : α → Stage → Prop) : Prop := Proceeds r own σ W m (fun _ => W) Q

namespace Proceeds

variable {W' : α → List Nat} {W'' : β → List Nat}

theorem give (W' : α → List Nat) {a : α} (h : Q a σ) :
    Proceeds r own σ (W' a) (pure a) W' Q := by
  intro d hd a' d' hrun
  cases pure_eq_ok.1 hrun
  exact ⟨σ, .refl σ, hd, h⟩

theorem pure {a : α} (h : Q a σ) : Advances r own σ W (pure a) Q :=
  give (fun _ => W) h

theorem bind {m : Drafting α} {next : α → Drafting β} (h : Proceeds r own σ W m W' Q)
    (hnext : ∀ a σ₁, σ.Within σ₁ → Q a σ₁ → Proceeds r own σ₁ (W' a) (next a) W'' R) :
    Proceeds r own σ W (m >>= next) W'' R := by
  intro d hd b d' hrun
  obtain ⟨a, d₁, hfirst, hrun⟩ := bind_eq_ok.1 hrun
  obtain ⟨σ₁, hσ₁, hd₁, ha⟩ := h d hd a d₁ hfirst
  obtain ⟨σ', hσ', hd', hb⟩ := hnext a σ₁ hσ₁ ha d₁ hd₁ b d' hrun
  exact ⟨σ', hσ₁.trans hσ', hd', hb⟩

theorem throw (e : AnalysisError) : Proceeds r own σ W (throw e : Drafting α) W' Q := by
  intro d hd a d' hrun
  cases hrun

theorem imp {m : Drafting α} {Q' : α → Stage → Prop} (h : Proceeds r own σ W m W' Q)
    (hQ : ∀ a σ', Q a σ' → Q' a σ') : Proceeds r own σ W m W' Q' := by
  intro d hd a d' hrun
  obtain ⟨σ', hσ, hd', ha⟩ := h d hd a d' hrun
  exact ⟨σ', hσ, hd', hQ a σ' ha⟩

theorem discard {m : Drafting α} (h : Advances r own σ W m Q) :
    Advances r own σ W (discard m) fun _ _ => True :=
  h.bind fun _ _ _ _ => .pure trivial

/-- A node that waits is come to before the step. -/
theorem entering {i : Nat} {m : Drafting α}
    (h : ∀ σ₁, σ.Within σ₁ → i ∈ σ₁.opened → Proceeds r own σ₁ W m W' Q) :
    Proceeds r own σ (i :: W) m W' Q := by
  intro d hd a d' hrun
  have hσ := σ.within_enter i false
  obtain ⟨σ', hσ', hd', ha⟩ := h _ hσ (σ.mem_opened_enter i false) d (hd.enter nofun) a d' hrun
  exact ⟨σ', hσ.trans hσ', hd', ha⟩

theorem leaving {m : Drafting α} (h : Proceeds r own σ W₁ m W' Q) (hsub : W₁.Subperm W) :
    Proceeds r own σ W m W' Q := fun d hd => h d (hd.subperm hsub)

/-- A new node waits. -/
theorem addNode (kind : NodeKind) (pos : Option Pos) (binds : List Binding)
    (hplain : kind ≠ .loop ∧ kind ≠ .closure) :
    Proceeds r own σ W (addNode kind pos binds []) (fun i => i :: W) fun _ _ => True := by
  intro d hd i d' hrun
  cases hrun
  have hn : Node.Shows r own ⟨d.size, kind, pos, binds, []⟩ := .plain hplain.1 hplain.2
  exact ⟨σ, .refl σ, hd.await rfl hn, trivial⟩

/-- Loose ends are tied to a node that waits. -/
theorem tie {ends : Frontier} (hends : ends.From σ) {i : Nat} (hi : i ∈ W) :
    Advances r own σ W (tie ends i) fun _ _ => True := by
  intro d hd _ d' hrun
  cases (tie_eq ends i d).symm.trans hrun
  refine ⟨σ, .refl σ, hd.link (List.forall_mem_map.2 fun e he => ?_), trivial⟩
  exact Stage.orders_of_not_mem (hends e he) (hd.waiting i hi).2

/-- Loose ends are tied back to the head of a loop. -/
theorem tieBack {kind : EdgeKind} (hkind : kind = .loopBack ∨ kind = .continueOn) {ends : Frontier}
    (hends : ends.From σ) {i : Nat} (hi : i ∈ σ.heads) :
    Advances r own σ W (tieAs kind ends i) fun _ _ => True := by
  intro d hd _ d' hrun
  cases (tieAs_eq kind ends i d).symm.trans hrun
  refine ⟨σ, .refl σ, hd.link (List.forall_mem_map.2 fun e he => ?_), trivial⟩
  exact ⟨hends e he, .inr ⟨hkind, hi⟩⟩

/-- A node that is come to at once. -/
theorem emit {s : Surroundings} (hs : s.escapes ⊆ W) {kind : NodeKind} {pos : Option Pos}
    {binds : List Binding} {writes : List Variable}
    (hn : ∀ i, Node.Shows r own ⟨i, kind, pos, binds, writes⟩) {ends : Frontier}
    (hends : ends.From σ) :
    Advances r own σ W (emit s kind pos binds writes ends) fun i σ' =>
      i ∈ σ'.opened ∧ (kind = .loop → i ∈ σ'.heads) := by
  intro d hd i d' hrun
  cases (emit_eq s kind pos binds writes ends d).symm.trans hrun
  have hnew : d.size ∉ σ.opened := fun hi => (hd.opened _ hi).ne rfl
  have hopened : (d.push ⟨d.size, kind, pos, binds, writes⟩).Ordered r own
      (σ.enter d.size (decide (kind = .loop))) W := by
    refine (hd.await rfl (hn d.size)).enter fun hloop => ?_
    exact ⟨_, .head _, rfl, of_decide_eq_true hloop⟩
  refine ⟨_, σ.within_enter _ _, (hopened.link ?_).link ?_, σ.mem_opened_enter _ _, fun hloop => ?_⟩
  · exact List.forall_mem_map.2 fun e he => Stage.orders_enter (hends e he) hnew rfl _
  · refine List.forall_mem_map.2 fun target htarget => ?_
    exact Stage.orders_of_not_mem (σ.mem_opened_enter _ _)
      (hopened.waiting target (hs (raiseTargets_subset s kind htarget))).2
  · rw [Stage.enter, if_pos (decide_eq_true hloop)]
    exact .head _

end Proceeds

/-! ## Surroundings -/

/-- Exceptions and returns go to nodes that wait, and so they do in copies of cleanup blocks, as
long as these nodes wait. -/
structure Surroundings.Faces (r : Resolution) (own : Landmark → Prop) (W : List Nat)
    (s : Surroundings) : Prop where
  escapes : s.escapes ⊆ W
  exit : exitId ∈ W
  copies : ∀ draft ∈ cleanups s.frames, ∀ W', W ⊆ W' → ∀ σ ends, Frontier.From ends σ →
    Advances r own σ W' (draft ends) Flow.From

namespace Surroundings.Faces

variable {s : Surroundings} {ends : Frontier}

theorem mono (h : s.Faces r own W) (hW : W ⊆ W₁) : s.Faces r own W₁ :=
  ⟨List.Subset.trans h.escapes hW, hW h.exit,
    fun draft hdraft W' hW' => h.copies draft hdraft W' (List.Subset.trans hW hW')⟩

/-- A construct that a jump can aim at. -/
theorem inside (h : s.Faces r own W) {frame : Frame} (hframe : cleanups [frame] = []) :
    (s.inside frame).Faces r own W := by
  refine ⟨h.escapes, h.exit, ?_⟩
  cases frame with
  | cleanup => cases hframe
  | loop | switch | block => exact h.copies

theorem insideCleanup (h : s.Faces r own W) {draft : Frontier → Drafting Flow}
    (hdraft : ∀ W', W ⊆ W' → ∀ σ ends, Frontier.From ends σ →
      Advances r own σ W' (draft ends) Flow.From) :
    (s.inside (.cleanup draft)).Faces r own W :=
  ⟨h.escapes, h.exit, List.forall_mem_cons.2 ⟨hdraft, h.copies⟩⟩

theorem handling (h : s.Faces r own W) {handlers : List Nat} (hhandlers : handlers ⊆ W) :
    (s.handling handlers).Faces r own W :=
  ⟨hhandlers, h.exit, h.copies⟩

/-- A node of which nothing special is said. -/
theorem emitPlain (h : s.Faces r own W) (kind : NodeKind) (pos : Option Pos)
    (binds : List Binding) (writes : List Variable) (hends : ends.From σ)
    (hplain : kind ≠ .loop ∧ kind ≠ .closure := by decide) :
    Advances r own σ W (emit s kind pos binds writes ends) fun i σ' => i ∈ σ'.opened :=
  (Proceeds.emit h.escapes (fun _ => .plain hplain.1 hplain.2) hends).imp fun _ _ hi => hi.1

/-- The head of a loop. -/
theorem emitHead (h : s.Faces r own W) {pos : Pos} (hpos : own (.loop pos)) (hends : ends.From σ) :
    Advances r own σ W (emit s .loop (some pos) [] [] ends) fun i σ' =>
      i ∈ σ'.opened ∧ i ∈ σ'.heads :=
  (Proceeds.emit h.escapes (Node.Shows.head hpos) hends).imp
    fun _ _ hi => ⟨hi.1, hi.2 rfl⟩

theorem stepPlain (h : s.Faces r own W) (kind : NodeKind) (pos : Option Pos)
    (binds : List Binding) (writes : List Variable) (hends : ends.From σ)
    (hplain : kind ≠ .loop ∧ kind ≠ .closure := by decide) :
    Advances r own σ W (step s kind pos binds writes ends) Frontier.From :=
  (h.emitPlain kind pos binds writes hends hplain).bind fun _ _ _ hi =>
    .pure (from_single hi .normal)

/-- The creation of a lambda. -/
theorem stepClosure (h : s.Faces r own W) {l : PlacedBody} (hl : own (.lambda l))
    (hends : ends.From σ) :
    Advances r own σ W (step s .closure (some l.1) [] (r.closureWrites l.1) ends) Frontier.From :=
  (Proceeds.emit h.escapes (Node.Shows.lambda hl) hends).bind
    fun _ _ _ hi => .pure (from_single hi.1 .normal)

theorem settle (h : s.Faces r own W) (test : Bool) (pos : Pos) (hends : ends.From σ) :
    Advances r own σ W (settle s test pos ends) Split.From := by
  unfold FlowGraph.settle
  cases test with
  | true =>
    exact (h.emitPlain .branch (some pos) [] [] hends).bind fun _ _ _ hi =>
      .pure ⟨from_single hi .onTrue, from_single hi .onFalse⟩
  | false => exact .pure ⟨hends, from_nil⟩

theorem write (h : s.Faces r own W) (pos : Pos) (target : Expr) (hends : ends.From σ) :
    Advances r own σ W (draftWrite r s pos target ends) Frontier.From := by
  unfold draftWrite
  split
  · exact h.stepPlain .write (some pos) [] _ hends
  · exact .pure hends

theorem rethrow (h : s.Faces r own W) (hends : ends.From σ) :
    Advances r own σ W (draftRethrow s ends) fun _ _ => True := by
  unfold draftRethrow
  split
  · exact .pure trivial
  · exact (h.emitPlain .throwValue none [] [] hends).discard

theorem join (h : s.Faces r own W) (pos : Pos) {flow : Flow} (hflow : flow.From σ) :
    Advances r own σ W (draftJoin s pos flow) Flow.From := by
  unfold draftJoin
  split
  · exact .pure hflow
  · exact (h.stepPlain .join (some pos) [] [] hflow.next).bind fun _ _ hσ hends =>
      .pure ⟨hends, (hflow.mono hσ).jumps⟩

end Surroundings.Faces

/-! ## Jumps -/

theorem advances_draftAll {drafts : List (Frontier → Drafting Flow)}
    (h : ∀ draft ∈ drafts, ∀ σ ends, Frontier.From ends σ →
      Advances r own σ W (draft ends) Flow.From)
    {ends : Frontier} (hends : ends.From σ) :
    Advances r own σ W (draftAll drafts ends) Flow.From := by
  induction drafts generalizing σ ends with
  | nil => exact .pure (from_through hends)
  | cons draft drafts ih =>
    obtain ⟨hdraft, hdrafts⟩ := List.forall_mem_cons.1 h
    refine (hdraft σ ends hends).bind fun first σ₁ _ hfirst => ?_
    exact (ih hdrafts hfirst.next).bind fun others _ hσ hothers =>
      .pure ((hfirst.mono hσ).followed hothers)

namespace Surroundings.Faces

variable {s : Surroundings} {ends : Frontier}

theorem jump (h : s.Faces r own W) (pos : Pos) (word : JumpWord) (label : Option Text)
    (hends : ends.From σ) : Advances r own σ W (draftJump s pos word label ends) Flow.From := by
  unfold draftJump
  cases hroute : route? word label s.frames with
  | none => exact .throw _
  | some route =>
    dsimp only
    split
    · exact .throw _
    · refine (h.stepPlain .jump (some pos) [] [] hends).bind fun ends _ _ hends => ?_
      have hpassed := passed_subset hroute
      refine (advances_draftAll (fun draft hdraft =>
        h.copies draft (hpassed hdraft) W (List.Subset.refl W)) hends).bind fun flow _ _ hflow => ?_
      exact .pure ⟨from_nil, List.forall_mem_append.2
        ⟨hflow.jumps, List.forall_mem_map.2 hflow.next⟩⟩

theorem returns (h : s.Faces r own W) (pos : Pos) (hends : ends.From σ) :
    Advances r own σ W (draftReturn s pos ends) Flow.From := by
  refine (h.stepPlain .returnValue (some pos) [] [] hends).bind fun ends _ _ hends => ?_
  refine (advances_draftAll (fun draft hdraft =>
    h.copies draft hdraft W (List.Subset.refl W)) hends).bind fun flow _ _ hflow => ?_
  exact (Proceeds.tie hflow.next h.exit).bind fun _ _ hσ _ =>
    .pure ⟨from_nil, (hflow.mono hσ).jumps⟩

end Surroundings.Faces

/-! ## Expressions -/

variable {s : Surroundings}

mutual

theorem ordered_draftExpr (hs : s.Faces r own W) (test : Bool) : (e : Expr) →
    (∀ m ∈ e.landmarks, own m) → {σ : Stage} → {ends : Frontier} → ends.From σ →
      Advances r own σ W (draftExpr r s test e ends) Split.From
  | .literal pos value, _, _, ends, hends => by
    unfold draftExpr
    split
    · exact .pure ⟨hends, from_nil⟩
    · exact .pure ⟨from_nil, hends⟩
    · exact hs.settle _ pos hends
  | .name pos _, _, _, _, hends => hs.settle test pos hends
  | .index pos object position, hown, _, _, hends =>
    have hown := List.forall_mem_append.1 hown
    (ordered_draftExpr hs false object hown.1 hends).bind fun _ _ _ h =>
      (ordered_draftExpr hs false position hown.2 h.all).bind fun _ _ _ h =>
        hs.settle test pos h.all
  | .call pos callee args, hown, _, _, hends =>
    have hown := List.forall_mem_append.1 hown
    (ordered_draftExpr hs false callee hown.1 hends).bind fun _ _ _ h =>
      (ordered_draftExprs hs args hown.2 h.all).bind fun _ _ _ h =>
        (hs.stepPlain .call (some pos) [] [] h).bind fun _ _ _ h => hs.settle test pos h
  | .newObject pos _ args, hown, _, _, hends | .newAnonymous pos _ args _, hown, _, _, hends
  | .newArray pos _ args, hown, _, _, hends | .newArrayOf pos _ _ args, hown, _, _, hends =>
    (ordered_draftExprs hs args hown hends).bind fun _ _ _ h =>
      (hs.stepPlain .new (some pos) [] [] h).bind fun _ _ _ h => hs.settle test pos h
  | .arrayLit pos elements, hown, _, _, hends =>
    (ordered_draftExprs hs elements hown hends).bind fun _ _ _ h => hs.settle test pos h
  | .unary pos op operand, hown, _, _, hends => by
    simp only [draftExpr]
    split
    · exact (ordered_draftExpr hs true operand hown hends).bind fun _ _ _ h => .pure h.swap
    · exact (ordered_draftExpr hs false operand hown hends).bind fun _ _ _ h =>
        hs.settle test pos h.all
  | .step pos _ _ target, hown, _, _, hends =>
    (ordered_draftTarget hs target hown hends).bind fun _ _ _ h =>
      (hs.write pos target h).bind fun _ _ _ h => hs.settle test pos h
  | .binary pos op left right, hown, _, _, hends => by
    obtain ⟨hleft, hright⟩ := List.forall_mem_append.1 hown
    simp only [draftExpr]
    split
    · refine (ordered_draftExpr hs true left hleft hends).bind fun first _ _ hfirst => ?_
      exact (ordered_draftExpr hs true right hright hfirst.onTrue).bind fun second _ hσ hsecond =>
        .pure ⟨hsecond.onTrue, (hfirst.mono hσ).onFalse.append hsecond.onFalse⟩
    · refine (ordered_draftExpr hs true left hleft hends).bind fun first _ _ hfirst => ?_
      exact (ordered_draftExpr hs true right hright hfirst.onFalse).bind fun second _ hσ hsecond =>
        .pure ⟨(hfirst.mono hσ).onTrue.append hsecond.onTrue, hsecond.onFalse⟩
    · exact (ordered_draftExpr hs false left hleft hends).bind fun _ _ _ h =>
        (ordered_draftExpr hs false right hright h.all).bind fun _ _ _ h =>
          hs.settle test pos h.all
  | .field pos operand _, hown, _, _, hends | .instanceOf pos operand _, hown, _, _, hends
  | .cast pos _ operand, hown, _, _, hends | .methodRef pos operand _, hown, _, _, hends =>
    (ordered_draftExpr hs false operand hown hends).bind fun _ _ _ h => hs.settle test pos h.all
  | .conditional pos cond onTrue onFalse, hown, _, _, hends => by
    obtain ⟨hcond, hown⟩ := List.forall_mem_append.1 hown
    obtain ⟨htrue, hfalse⟩ := List.forall_mem_append.1 hown
    exact (ordered_draftExpr hs true cond hcond hends).bind fun _ _ _ hsplit =>
      (ordered_draftExpr hs false onTrue htrue hsplit.onTrue).bind fun _ _ hσ hfirst =>
        (ordered_draftExpr hs false onFalse hfalse (hsplit.mono hσ).onFalse).bind
          fun _ _ hσ hsecond => hs.settle test pos ((hfirst.mono hσ).all.append hsecond.all)
  | .assign pos _ target value, hown, _, _, hends =>
    have hown := List.forall_mem_append.1 hown
    (ordered_draftTarget hs target hown.1 hends).bind fun _ _ _ h =>
      (ordered_draftExpr hs false value hown.2 h).bind fun _ _ _ h =>
        (hs.write pos target h.all).bind fun _ _ _ h => hs.settle test pos h
  | .lambda pos _ _, hown, _, _, hends =>
    (hs.stepClosure (hown _ (.head _)) hends).bind fun _ _ _ h => hs.settle test pos h
termination_by structural e => e

theorem ordered_draftTarget (hs : s.Faces r own W) : (e : Expr) → (∀ m ∈ e.landmarks, own m) →
    {σ : Stage} → {ends : Frontier} → ends.From σ →
      Advances r own σ W (draftTarget r s e ends) Frontier.From
  | .field _ object _, hown, _, _, hends =>
    (ordered_draftExpr hs false object hown hends).bind fun _ _ _ h => .pure h.all
  | .index _ object position, hown, _, _, hends =>
    have hown := List.forall_mem_append.1 hown
    (ordered_draftExpr hs false object hown.1 hends).bind fun _ _ _ h =>
      (ordered_draftExpr hs false position hown.2 h.all).bind fun _ _ _ h => .pure h.all
  | .literal .., _, _, _, hends | .name .., _, _, _, hends | .call .., _, _, _, hends
  | .newObject .., _, _, _, hends | .newAnonymous .., _, _, _, hends
  | .newArray .., _, _, _, hends | .newArrayOf .., _, _, _, hends | .arrayLit .., _, _, _, hends
  | .unary .., _, _, _, hends | .step .., _, _, _, hends | .binary .., _, _, _, hends
  | .instanceOf .., _, _, _, hends | .cast .., _, _, _, hends | .conditional .., _, _, _, hends
  | .assign .., _, _, _, hends | .lambda .., _, _, _, hends | .methodRef .., _, _, _, hends =>
    .pure hends
termination_by structural e => e

theorem ordered_draftExprs (hs : s.Faces r own W) : (es : List Expr) →
    (∀ m ∈ Expr.landmarksAll es, own m) → {σ : Stage} → {ends : Frontier} → ends.From σ →
      Advances r own σ W (draftExprs r s es ends) Frontier.From
  | [], _, _, _, hends => .pure hends
  | e :: es, hown, _, _, hends =>
    have hown := List.forall_mem_append.1 hown
    (ordered_draftExpr hs false e hown.1 hends).bind fun _ _ _ h =>
      ordered_draftExprs hs es hown.2 h.all
termination_by structural es => es

end

/-! ## Statements -/

theorem ordered_draftOption (hs : s.Faces r own W) {e : Option Expr}
    (hown : ∀ m ∈ Expr.landmarksOption e, own m) {ends : Frontier} (hends : ends.From σ) :
    Advances r own σ W (draftOption r s e ends) Frontier.From := by
  cases e with
  | none => exact .pure hends
  | some e => exact (ordered_draftExpr hs false e hown hends).bind fun _ _ _ h => .pure h.all

theorem ordered_draftCondition (hs : s.Faces r own W) {e : Option Expr}
    (hown : ∀ m ∈ Expr.landmarksOption e, own m) {ends : Frontier} (hends : ends.From σ) :
    Advances r own σ W (draftCondition r s e ends) Split.From := by
  cases e with
  | none => exact .pure ⟨hends, from_nil⟩
  | some e => exact ordered_draftExpr hs true e hown hends

theorem ordered_draftDeclarators (hs : s.Faces r own W) {ds : List Declarator}
    (hown : ∀ m ∈ Declarator.landmarksAll ds, own m) {ends : Frontier} (hends : ends.From σ) :
    Advances r own σ W (draftDeclarators r s ds ends) Frontier.From := by
  induction ds generalizing σ ends with
  | nil => exact .pure hends
  | cons d ds ih =>
    obtain ⟨pos, name, dims, init⟩ := d
    obtain ⟨hinit, hds⟩ := List.forall_mem_append.1 hown
    have hdeclared : Advances r own σ W (expectDeclared r ⟨pos, name, dims, init⟩)
        fun _ _ => True := by
      unfold expectDeclared
      split
      · exact .pure trivial
      · exact .throw _
    refine hdeclared.bind fun _ _ hσ _ => ?_
    refine (ordered_draftOption hs hinit (hends.mono hσ)).bind fun ends _ _ hends => ?_
    exact (hs.stepPlain .declare _ _ [] hends).bind fun _ _ _ hends => ih hds hends

theorem ordered_draftForInit (hs : s.Faces r own W) {init : ForInit}
    (hown : ∀ m ∈ init.landmarks, own m) {ends : Frontier} (hends : ends.From σ) :
    Advances r own σ W (draftForInit r s init ends) Frontier.From := by
  cases init with
  | decl decl =>
    obtain ⟨pos, modifiers, type, declarators⟩ := decl
    exact ordered_draftDeclarators hs hown hends
  | exprs values => exact ordered_draftExprs hs values hown hends

theorem proceeds_addHandlers (clauses : List CatchClause) :
    Proceeds r own σ W (addHandlers r clauses) (fun handlers => handlers ++ W) fun _ _ => True := by
  unfold addHandlers
  induction clauses generalizing σ W with
  | nil =>
    have hgive : Proceeds r own σ ([] ++ W) (pure []) (fun handlers => handlers ++ W)
        fun _ _ => True := .give (fun handlers => handlers ++ W) trivial
    exact hgive
  | cons clause clauses ih =>
    rw [List.mapM_cons]
    refine (Proceeds.addNode .handler (some clause.pos) _ (by decide)).bind fun handler _ _ _ => ?_
    refine ih.bind fun handlers σ' _ _ => ?_
    have hgive : Proceeds r own σ' ((handler :: handlers) ++ W) (pure (handler :: handlers))
        (fun handlers => handlers ++ W) fun _ _ => True :=
      .give (fun handlers => handlers ++ W) trivial
    exact hgive.leaving List.perm_middle.symm.subperm

/-! ## Constructs -/

/-- Whatever loose ends come to the code, drafting it goes on in order. -/
abbrev Orderly (r : Resolution) (own : Landmark → Prop) (W : List Nat)
    (draft : Frontier → Drafting α) (Q : α → Stage → Prop) : Prop :=
  ∀ {σ : Stage} {ends : Frontier}, ends.From σ → Advances r own σ W (draft ends) Q

namespace Surroundings.Faces

variable {cond : Frontier → Drafting Split} {body : Frontier → Drafting Flow} {pos : Pos}

/-- What begins another round is tied back to the head, which has been come to. -/
theorem whileLoop (h : s.Faces r own W) (hpos : own (.loop pos))
    (hcond : Orderly r own W cond Split.From) (hbody : Orderly r own W body Flow.From) :
    Orderly r own W (fun ends => do
      let head ← emit s .loop (some pos) [] [] ends
      let split ← cond [⟨head, .normal⟩]
      let flow ← body split.onTrue
      tieAs .continueOn (flow.continues s.depth) head
      tieAs .loopBack flow.next head
      return ⟨split.onFalse ++ flow.breaks s.depth, flow.passing s.depth⟩) Flow.From := by
  intro σ ends hends
  apply (h.emitHead hpos hends).bind
  intro head _ _ hhead
  apply (hcond (from_single hhead.1 .normal)).bind
  intro split σ₂ hσ₂ hsplit
  apply (hbody hsplit.onTrue).bind
  intro flow σ₃ hσ₃ hflow
  have hback := hσ₃.heads (hσ₂.heads hhead.2)
  apply (Proceeds.tieBack (.inr rfl) (hflow.arriving s.depth _) hback).bind
  intro _ _ hσ₄ _
  apply (Proceeds.tieBack (.inl rfl) (hflow.mono hσ₄).next (hσ₄.heads hback)).bind
  intro _ _ hσ₅ _
  have hσ := hσ₄.trans hσ₅
  exact .pure ((hflow.mono hσ).caught s.depth (hsplit.mono (hσ₃.trans hσ)).onFalse)

/-- The node of the test is that of a condition. -/
theorem forEach (h : s.Faces r own W) (hpos : own (.loop pos))
    {bind : Frontier → Drafting Frontier} (hbind : Orderly r own W bind Frontier.From)
    (hbody : Orderly r own W body Flow.From) :
    Orderly r own W (fun ends => do
      let head ← emit s .loop (some pos) [] [] ends
      let test ← emit s .branch (some pos) [] [] [⟨head, .normal⟩]
      let ends ← bind [⟨test, .onTrue⟩]
      let flow ← body ends
      tieAs .continueOn (flow.continues s.depth) head
      tieAs .loopBack flow.next head
      return ⟨⟨test, .onFalse⟩ :: flow.breaks s.depth, flow.passing s.depth⟩) Flow.From := by
  have hinside : Orderly r own W (fun ends => bind ends >>= body) Flow.From :=
    fun hends => (hbind hends).bind fun _ _ _ hends => hbody hends
  intro σ ends hends
  have hloop := h.whileLoop hpos (h.settle true pos) hinside hends
  simp only [FlowGraph.settle, if_true, bind_assoc, pure_bind] at hloop
  exact hloop

theorem doLoop (h : s.Faces r own W) (hpos : own (.loop pos))
    (hcond : Orderly r own W cond Split.From) (hbody : Orderly r own W body Flow.From) :
    Orderly r own W (fun ends => do
      let head ← emit s .loop (some pos) [] [] ends
      let flow ← body [⟨head, .normal⟩]
      let split ← cond (flow.next ++ flow.continues s.depth)
      tieAs .loopBack split.onTrue head
      return ⟨split.onFalse ++ flow.breaks s.depth, flow.passing s.depth⟩) Flow.From := by
  intro σ ends hends
  apply (h.emitHead hpos hends).bind
  intro head _ _ hhead
  apply (hbody (from_single hhead.1 .normal)).bind
  intro flow σ₂ hσ₂ hflow
  have hround := hflow.next.append (hflow.arriving s.depth .continueWord)
  apply (hcond hround).bind
  intro split σ₃ hσ₃ hsplit
  have hback := hσ₃.heads (hσ₂.heads hhead.2)
  apply (Proceeds.tieBack (.inl rfl) hsplit.onTrue hback).bind
  intro _ _ hσ₄ _
  exact .pure ((hflow.mono (hσ₃.trans hσ₄)).caught s.depth (hsplit.mono hσ₄).onFalse)

theorem forLoop (h : s.Faces r own W) (hpos : own (.loop pos))
    (hcond : Orderly r own W cond Split.From) (hbody : Orderly r own W body Flow.From)
    {update : Frontier → Drafting Frontier} (hupdate : Orderly r own W update Frontier.From) :
    Orderly r own W (fun ends => do
      let head ← emit s .loop (some pos) [] [] ends
      let split ← cond [⟨head, .normal⟩]
      let flow ← body split.onTrue
      let ends ← update (flow.next ++ flow.continues s.depth)
      tieAs .loopBack ends head
      return ⟨split.onFalse ++ flow.breaks s.depth, flow.passing s.depth⟩) Flow.From := by
  intro σ ends hends
  apply (h.emitHead hpos hends).bind
  intro head _ _ hhead
  apply (hcond (from_single hhead.1 .normal)).bind
  intro split σ₂ hσ₂ hsplit
  apply (hbody hsplit.onTrue).bind
  intro flow σ₃ hσ₃ hflow
  have hround := hflow.next.append (hflow.arriving s.depth .continueWord)
  apply (hupdate hround).bind
  intro _ σ₄ hσ₄ hround
  have hback := hσ₄.heads (hσ₃.heads (hσ₂.heads hhead.2))
  apply (Proceeds.tieBack (.inl rfl) hround hback).bind
  intro _ _ hσ₅ _
  have hσ := hσ₄.trans hσ₅
  exact .pure ((hflow.mono hσ).caught s.depth (hsplit.mono (hσ₃.trans hσ)).onFalse)

theorem switch (h : s.Faces r own W) (pos : Pos) (hasDefault : Bool)
    {groups : Nat → Drafting Flow}
    (hgroups : ∀ {σ test}, test ∈ σ.opened → Advances r own σ W (groups test) Flow.From) :
    Orderly r own W (fun ends => do
      let test ← emit s .switch (some pos) [] [] ends
      let flow ← groups test
      let skipped : Frontier := if hasDefault then [] else [⟨test, .onFalse⟩]
      return ⟨flow.next ++ (skipped ++ flow.breaks s.depth), flow.passing s.depth⟩) Flow.From := by
  intro σ ends hends
  apply (h.emitPlain .switch (some pos) [] [] hends).bind
  intro test _ _ htest
  apply (hgroups htest).bind
  intro flow σ₁ hσ hflow
  have hskipped : Frontier.From (if hasDefault then [] else [⟨test, .onFalse⟩]) σ₁ := by
    split
    · exact from_nil
    · exact from_single (hσ.opened htest) .onFalse
  exact .pure ⟨hflow.next.append (hskipped.append (hflow.arriving s.depth _)),
    (hflow.caught s.depth hflow.next).jumps⟩

section Try

variable {clauses : List CatchClause} {region : Surroundings → Frontier → Drafting Flow}

theorem tryCatch (h : s.Faces r own W) (pos : Pos)
    (hregion : ∀ {s : Surroundings} {W : List Nat}, s.Faces r own W →
      Orderly r own W (region s) Flow.From)
    {bodies : List Nat → Drafting Flow}
    (hbodies : ∀ {σ handlers},
      Proceeds r own σ (handlers ++ W) (bodies handlers) (fun _ => W) Flow.From) :
    Orderly r own W (fun ends => do
      let handlers ← addHandlers r clauses
      let inner := s.handling (handlers ++ s.escapes)
      let ends ← step inner .tryBody (some pos) [] [] ends
      let first ← region inner ends
      let others ← bodies handlers
      return first ++ others) Flow.From := by
  intro σ ends hends
  apply (proceeds_addHandlers clauses).bind
  intro handlers _ hσ _
  have hinner : (s.handling (handlers ++ s.escapes)).Faces r own (handlers ++ W) :=
    (h.mono (List.subset_append_right _ _)).handling
      (List.append_subset.2 ⟨List.subset_append_left _ _,
        List.Subset.trans h.escapes (List.subset_append_right _ _)⟩)
  apply (hinner.stepPlain .tryBody (some pos) [] [] (hends.mono hσ)).bind
  intro ends _ _ hends
  apply (hregion hinner hends).bind
  intro first _ _ hfirst
  exact hbodies.bind fun others _ hσ hothers => .pure ((hfirst.mono hσ).append hothers)

/-- The copy of the cleanup block for exceptions begins at a node that has waited. -/
theorem escaped (h : s.Faces r own W) {cleanup : Frontier → Drafting Flow}
    (hcleanup : Orderly r own W cleanup Flow.From) {before after : Flow}
    (hbefore : before.From σ) (hafter : after.From σ) (escape : Nat) :
    Proceeds r own σ (escape :: W) (do
      let escaped ← cleanup [⟨escape, .normal⟩]
      draftRethrow s escaped.next
      return (⟨after.next, before.jumps ++ (after.jumps ++ escaped.jumps)⟩ : Flow))
      (fun _ => W) Flow.From := by
  refine Proceeds.entering fun σ₁ hσ₁ hescape => ?_
  apply (hcleanup (from_single hescape .normal)).bind
  intro escaped _ hσ₂ hescaped
  apply (h.rethrow hescaped.next).bind
  intro _ _ hσ₃ _
  have hσ := hσ₁.trans (hσ₂.trans hσ₃)
  exact .pure ⟨(hafter.mono hσ).next,
    ((hbefore.mono hσ).append ((hafter.mono hσ).append (hescaped.mono hσ₃))).jumps⟩

theorem tryFinally (h : s.Faces r own W) (pos cleanupPos : Pos)
    (hregion : ∀ {s : Surroundings} {W : List Nat}, s.Faces r own W →
      Orderly r own W (region s) Flow.From)
    {D : Surroundings → List Nat → Drafting Flow}
    (hbodies : ∀ {s : Surroundings} {W : List Nat}, s.Faces r own W → ∀ {σ handlers},
      Proceeds r own σ (handlers ++ W) (D s handlers) (fun _ => W) Flow.From)
    {cleanup : Frontier → Drafting Flow}
    (hcleanup : ∀ {W' : List Nat}, W ⊆ W' → Orderly r own W' cleanup Flow.From) :
    Orderly r own W (fun ends => do
      let escape ← addNode .join (some cleanupPos) [] []
      let handlers ← addHandlers r clauses
      let inner := s.inside (.cleanup cleanup)
      let outer := inner.handling (handlers ++ [escape])
      let ends ← step outer .tryBody (some pos) [] [] ends
      let first ← region outer ends
      let others ← D (inner.handling [escape]) handlers
      let flow := first ++ others
      let after ← if flow.next.isEmpty then pure Flow.stopped else cleanup flow.next
      let escaped ← cleanup [⟨escape, .normal⟩]
      draftRethrow s escaped.next
      return ⟨after.next, flow.jumps ++ (after.jumps ++ escaped.jumps)⟩) Flow.From := by
  intro σ ends hends
  apply (Proceeds.addNode .join (some cleanupPos) [] (by decide)).bind
  intro escape _ hσ₁ _
  apply (proceeds_addHandlers clauses).bind
  intro handlers _ hσ₂ _
  have hinner := (h.insideCleanup fun _ hW _ _ hends => hcleanup hW hends).mono
    (List.subset_cons_self escape W)
  have houter := (hinner.mono (List.subset_append_right handlers _)).handling
    (show handlers ++ [escape] ⊆ handlers ++ escape :: W by simp)
  apply (houter.stepPlain .tryBody (some pos) [] [] (hends.mono (hσ₁.trans hσ₂))).bind
  intro ends _ _ hends
  apply (hregion houter hends).bind
  intro first _ _ hfirst
  have hescape := hinner.handling (List.cons_subset_cons escape (List.nil_subset W))
  apply (hbodies hescape).bind
  intro others _ hσ₃ hothers
  have hflow := (hfirst.mono hσ₃).append hothers
  have hcopy : Orderly r own W cleanup Flow.From := hcleanup (List.Subset.refl W)
  dsimp only
  split
  · exact (Proceeds.pure from_stopped).bind fun after _ hσ hafter =>
      h.escaped hcopy (hflow.mono hσ) hafter escape
  · exact (hcleanup (List.subset_cons_self escape W) hflow.next).bind fun after _ hσ hafter =>
      h.escaped hcopy (hflow.mono hσ) hafter escape

end Try

end Surroundings.Faces

mutual

theorem ordered_draftBlock {W : List Nat} {s : Surroundings} (hs : s.Faces r own W) : (b : Block) →
    (∀ m ∈ b.landmarks, own m) → {σ : Stage} → {ends : Frontier} → ends.From σ →
      Advances r own σ W (draftBlock r s b ends) Flow.From
  | ⟨_, stmts⟩, hown, _, _, hends => ordered_draftStmts hs stmts hown hends
termination_by structural b => b

theorem ordered_draftStmts {W : List Nat} {s : Surroundings} (hs : s.Faces r own W) :
    (stmts : List Stmt) →
    (∀ m ∈ Stmt.landmarksAll stmts, own m) → {σ : Stage} → {ends : Frontier} → ends.From σ →
      Advances r own σ W (draftStmts r s stmts ends) Flow.From
  | [], _, _, _, hends => .pure (from_through hends)
  | stmt :: stmts, hown, _, _, hends =>
    have hown := List.forall_mem_append.1 hown
    (ordered_draftStmt hs [] stmt hown.1 hends).bind fun _ _ _ hfirst =>
      (ordered_draftStmts hs stmts hown.2 hfirst.next).bind fun _ _ hσ hothers =>
        .pure ((hfirst.mono hσ).followed hothers)
termination_by structural stmts => stmts

theorem ordered_draftStmt {W : List Nat} {s : Surroundings} (hs : s.Faces r own W)
    (labels : List Text) :
    (stmt : Stmt) → (∀ m ∈ stmt.landmarks, own m) → {σ : Stage} → {ends : Frontier} → ends.From σ →
      Advances r own σ W (draftStmt r s labels stmt ends) Flow.From
  | .block body, hown, _, _, hends => ordered_draftBlock hs body hown hends
  | .localDecl ⟨_, _, _, _⟩, hown, _, _, hends =>
    (ordered_draftDeclarators hs hown hends).bind fun _ _ _ h => .pure (from_through h)
  | .expr _ value, hown, _, _, hends =>
    (ordered_draftExpr hs false value hown hends).bind fun _ _ _ h => .pure (from_through h.all)
  | .ifElse pos cond onTrue onFalse, hown, _, _, hends => by
    obtain ⟨hcond, hown⟩ := List.forall_mem_append.1 hown
    obtain ⟨htrue, hfalse⟩ := List.forall_mem_append.1 hown
    exact (ordered_draftExpr hs true cond hcond hends).bind fun _ _ _ hsplit =>
      (ordered_draftStmt hs [] onTrue htrue hsplit.onTrue).bind fun _ _ hσ hfirst =>
        (ordered_draftBranch hs onFalse hfalse (hsplit.mono hσ).onFalse).bind
          fun _ _ hσ hsecond => hs.join pos ((hfirst.mono hσ).append hsecond)
  | .whileLoop pos cond body, hown, _, _, hends => by
    obtain ⟨hloop, hown⟩ := List.forall_mem_cons.1 hown
    obtain ⟨hcond, hbody⟩ := List.forall_mem_append.1 hown
    exact hs.whileLoop hloop (ordered_draftExpr hs true cond hcond)
      (ordered_draftStmt (hs.inside rfl) [] body hbody) hends
  | .doLoop pos body cond, hown, _, _, hends => by
    obtain ⟨hloop, hown⟩ := List.forall_mem_cons.1 hown
    obtain ⟨hbody, hcond⟩ := List.forall_mem_append.1 hown
    exact hs.doLoop hloop (ordered_draftExpr hs true cond hcond)
      (ordered_draftStmt (hs.inside rfl) [] body hbody) hends
  | .forLoop pos init cond update body, hown, _, _, hends => by
    obtain ⟨hloop, hown⟩ := List.forall_mem_cons.1 hown
    obtain ⟨hinit, hown⟩ := List.forall_mem_append.1 hown
    obtain ⟨hhead, hbody⟩ := List.forall_mem_append.1 hown
    obtain ⟨hcond, hupdate⟩ := List.forall_mem_append.1 hhead
    exact (ordered_draftForInit hs hinit hends).bind fun _ _ _ hends =>
      hs.forLoop hloop (ordered_draftCondition hs hcond)
        (ordered_draftStmt (hs.inside rfl) [] body hbody)
        (ordered_draftExprs hs update hupdate) hends
  | .forEach pos param iterable body, hown, _, _, hends => by
    obtain ⟨hloop, hown⟩ := List.forall_mem_cons.1 hown
    obtain ⟨hiterable, hbody⟩ := List.forall_mem_append.1 hown
    exact (ordered_draftExpr hs false iterable hiterable hends).bind fun _ _ _ hends =>
      hs.forEach hloop (hs.stepPlain .bind (some param.pos) (r.binding param.pos true) [])
        (ordered_draftStmt (hs.inside rfl) [] body hbody) hends.all
  | .switch pos selector groups, hown, _, _, hends => by
    obtain ⟨hselector, hgroups⟩ := List.forall_mem_append.1 hown
    exact (ordered_draftExpr hs false selector hselector hends).bind fun _ _ _ hends =>
      hs.switch pos (groups.any (·.isDefault)) (fun htest =>
        ordered_draftGroups (hs.inside rfl) groups hgroups htest from_nil) hends.all
  | .tryCatch pos body clauses none, hown, _, _, hends => by
    obtain ⟨hbody, hown⟩ := List.forall_mem_append.1 hown
    obtain ⟨hclauses, -⟩ := List.forall_mem_append.1 hown
    exact hs.tryCatch pos (fun hregion => ordered_draftBlock hregion body hbody)
      (ordered_draftClauses hs clauses hclauses) hends
  | .tryCatch pos body clauses (some cleanup), hown, _, _, hends => by
    obtain ⟨hbody, hown⟩ := List.forall_mem_append.1 hown
    obtain ⟨hclauses, hcleanup⟩ := List.forall_mem_append.1 hown
    exact hs.tryFinally pos cleanup.pos (fun hregion => ordered_draftBlock hregion body hbody)
      (D := fun s => draftClauses r s clauses)
      (fun hinner => ordered_draftClauses hinner clauses hclauses)
      (fun hW => ordered_draftBlock (hs.mono hW) cleanup hcleanup) hends
  | .returnValue pos value, hown, _, _, hends =>
    (ordered_draftOption hs hown hends).bind fun _ _ _ h => hs.returns pos h
  | .throwValue pos value, hown, _, _, hends =>
    (ordered_draftExpr hs false value hown hends).bind fun _ _ _ h =>
      (hs.emitPlain .throwValue (some pos) [] [] h.all).discard.bind fun _ _ _ _ =>
        .pure from_stopped
  | .breakTo pos label, _, _, _, hends => hs.jump pos .breakWord label hends
  | .continueTo pos label, _, _, _, hends => hs.jump pos .continueWord label hends
  | .labeled _ label body, hown, _, _, hends => by
    simp only [draftStmt]
    split
    · exact ordered_draftStmt hs (labels ++ [label]) body hown hends
    · have hinside : (s.inside (.block (labels ++ [label]))).Faces r own W := hs.inside rfl
      exact (ordered_draftStmt hinside [] body hown hends).bind fun flow _ _ hflow =>
        .pure (hflow.caught s.depth hflow.next)
  | .empty _, _, _, _, hends => .pure (from_through hends)
  | .localClass .., _, _, _, hends => .pure (from_through hends)
termination_by structural stmt => stmt

theorem ordered_draftBranch {W : List Nat} {s : Surroundings} (hs : s.Faces r own W) :
    (stmt : Option Stmt) →
    (∀ m ∈ Stmt.landmarksOption stmt, own m) → {σ : Stage} → {ends : Frontier} → ends.From σ →
      Advances r own σ W (draftBranch r s stmt ends) Flow.From
  | none, _, _, _, hends => .pure (from_through hends)
  | some stmt, hown, _, _, hends => ordered_draftStmt hs [] stmt hown hends
termination_by structural stmt => stmt

theorem ordered_draftGroups {W : List Nat} {s : Surroundings} (hs : s.Faces r own W) :
    (groups : List SwitchGroup) → (∀ m ∈ SwitchGroup.landmarksAll groups, own m) → {σ : Stage} →
      {test : Nat} → test ∈ σ.opened → {ends : Frontier} → ends.From σ →
        Advances r own σ W (draftGroups r s test groups ends) Flow.From
  | [], _, _, _, _, _, hends => .pure (from_through hends)
  | ⟨pos, _, _, body⟩ :: groups, hown, _, _, htest, _, hends => by
    obtain ⟨-, hown⟩ := List.forall_mem_append.1 hown
    obtain ⟨hbody, hgroups⟩ := List.forall_mem_append.1 hown
    have hentered := hends.append (from_single htest .onTrue)
    exact (hs.stepPlain .join (some pos) [] [] hentered).bind fun _ _ hσ₁ hends =>
      (ordered_draftStmts hs body hbody hends).bind fun first _ hσ₂ hfirst =>
        (ordered_draftGroups hs groups hgroups (hσ₂.opened (hσ₁.opened htest)) hfirst.next).bind
          fun others _ hσ hothers => .pure ((hfirst.mono hσ).followed hothers)
termination_by structural groups => groups

/-- Each handler is come to when its body begins. -/
theorem ordered_draftClauses {W : List Nat} {s : Surroundings} (hs : s.Faces r own W) :
    (clauses : List CatchClause) → (∀ m ∈ CatchClause.landmarksAll clauses, own m) → {σ : Stage} →
      {handlers : List Nat} →
        Proceeds r own σ (handlers ++ W) (draftClauses r s clauses handlers) (fun _ => W) Flow.From
  | ⟨_, _, _, body⟩ :: clauses, hown, σ, handler :: handlers => by
    obtain ⟨hbody, hclauses⟩ := List.forall_mem_append.1 hown
    refine Proceeds.entering fun σ₁ hσ₁ hhandler => ?_
    have hwaiting : s.Faces r own (handlers ++ W) := hs.mono (List.subset_append_right _ _)
    exact (ordered_draftBlock hwaiting body hbody (from_single hhandler .normal)).bind
      fun first _ _ hfirst => (ordered_draftClauses hs clauses hclauses).bind
        fun others _ hσ hothers => .pure ((hfirst.mono hσ).append hothers)
  | [], _, _, _ => (Proceeds.pure from_stopped).leaving (List.sublist_append_right _ _).subperm
  | ⟨_, _, _, _⟩ :: _, _, _, [] => .pure from_stopped
termination_by structural clauses => clauses

end

/-! ## Routines -/

theorem faces_outermost : Surroundings.Faces r own [exitId, exceptionExitId] .outermost := by
  refine ⟨fun i hi => ?_, .head _, fun _ h => (by cases h)⟩
  rw [List.mem_singleton.1 hi]
  exact .tail _ (.head _)

theorem ordered_draftBody {body : LambdaBody} (hown : ∀ m ∈ body.landmarks, own m)
    {ends : Frontier} (hends : ends.From σ) :
    Advances r own σ [exitId, exceptionExitId] (draftBody r body ends) Flow.From := by
  cases body with
  | block body => exact ordered_draftBlock faces_outermost body hown hends
  | expr body =>
    exact (ordered_draftExpr faces_outermost false body hown hends).bind fun _ _ _ h =>
      .pure (from_through h.all)

theorem Draft.ordered_opened (routine : Routine) :
    (Draft.opened routine).Ordered r own ⟨[entryId], []⟩ [exitId, exceptionExitId] where
  opened i hi := by
    rw [List.mem_singleton.1 hi]
    exact Nat.zero_lt_succ 2
  waiting := (by decide : ∀ i ∈ [exitId, exceptionExitId], i < 3 ∧ i ∉ [entryId])
  nodup := by decide
  edges _ he := by cases he
  heads _ hi := by cases hi
  nodes n hn := by
    simp only [Draft.opened, List.mem_cons, List.not_mem_nil, or_false] at hn
    rcases hn with rfl | rfl | rfl <;>
      exact .plain (fun h => (by cases h)) fun h => (by cases h)

/-- The whole graph of a routine is drafted in order. -/
theorem Drawn.ordered {routine : Routine} {d₁ d : Draft} {flow : Flow}
    (h : Drawn r routine d₁ d flow) (hown : ∀ m ∈ routine.body.landmarks, own m) :
    ∃ σ, d.Ordered r own σ [exitId, exceptionExitId] := by
  have hentry : Frontier.From [⟨entryId, .normal⟩] ⟨[entryId], []⟩ :=
    from_single (List.mem_singleton_self entryId) .normal
  obtain ⟨σ, -, hordered, hflow⟩ := ordered_draftBody hown hentry _ (Draft.ordered_opened routine)
    _ _ h.body
  refine ⟨σ, ?_⟩
  rw [h.closing]
  refine hordered.link (List.forall_mem_map.2 fun e he => ?_)
  exact Stage.orders_of_not_mem (hflow.next e he) (hordered.waiting exitId (.head _)).2

end FlowGraph

end WriteOnce
