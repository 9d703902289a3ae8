import WriteOnce.Analysis.Error
import WriteOnce.FlowGraph.Basic

/-!
# Drafting a graph

A graph is drafted from the front of the code to its end. What has been drafted
so far has loose ends, the frontier, which are tied to the node that is emitted
next. A node that can raise an exception is also tied to wherever an exception
goes at that place.
-/

namespace WriteOnce

namespace FlowGraph

/-! The first three nodes of every draft. -/

def entryId : Nat := 0

def exitId : Nat := 1

def exceptionExitId : Nat := 2

/-- An end that will be tied to the next node by an edge of this kind. -/
structure LooseEnd where
  source : Nat
  kind : EdgeKind

abbrev Frontier := List LooseEnd

/-- Nodes and edges, latest first. An edge may be drafted more than once. -/
structure Draft where
  size : Nat
  nodes : List Node
  edges : List Edge

abbrev Drafting := StateT Draft (Except AnalysisError)

/-- A jump on its way to the construct with so many constructs around it. -/
structure Parked where
  depth : Nat
  word : JumpWord
  source : Nat

/-- What a stretch of code leaves: the ends that fall through and the jumps that leave it. -/
structure Flow where
  next : Frontier
  jumps : List Parked

namespace Flow

/-- Nothing falls through and nothing jumps. -/
def stopped : Flow := ⟨[], []⟩

def through (next : Frontier) : Flow := ⟨next, []⟩

/-- Both flows, side by side. -/
instance : Append Flow where
  append f g := ⟨f.next ++ g.next, f.jumps ++ g.jumps⟩

/-- The jumps of one kind to the construct at this depth, as loose ends. -/
def arriving (f : Flow) (depth : Nat) (word : JumpWord) : Frontier :=
  (f.jumps.filter fun p => p.depth = depth && p.word = word).map fun p =>
    ⟨p.source, match word with | .breakWord => .breakOut | .continueWord => .continueOn⟩

def breaks (f : Flow) (depth : Nat) : Frontier := f.arriving depth .breakWord

def continues (f : Flow) (depth : Nat) : Frontier := f.arriving depth .continueWord

/-- The jumps that go on past the construct at this depth. -/
def passing (f : Flow) (depth : Nat) : List Parked := f.jumps.filter fun p => p.depth ≠ depth

end Flow

/-- A construct that a jump can aim at or has to pass. Passing a cleanup block runs it: the frame
holds how to draft a copy of it, with the constructs that are around it. -/
inductive Frame
  | loop (labels : List Text)
  | switch (labels : List Text)
  | block (labels : List Text)
  | cleanup (draft : Frontier → Drafting Flow)

/-- What is around a stretch of code: where an exception raised in it goes, unless that is out of
the routine, and the constructs around it, innermost first. -/
structure Surroundings where
  handlers : Option (List Nat)
  frames : List Frame

namespace Surroundings

def outermost : Surroundings := ⟨none, []⟩

def inside (s : Surroundings) (frame : Frame) : Surroundings :=
  { s with frames := frame :: s.frames }

def handling (s : Surroundings) (handlers : List Nat) : Surroundings :=
  { s with handlers := some handlers }

/-- Where an exception goes if it is not handled here. -/
def escapes (s : Surroundings) : List Nat := s.handlers.getD [exceptionExitId]

def depth (s : Surroundings) : Nat := s.frames.length

end Surroundings

/-! ## Nodes and edges -/

/-- Nodes that only direct control; nothing is evaluated there. -/
def NodeKind.isSilent : NodeKind → Bool
  | join | loop | jump => true
  | _ => false

/-- Nodes that can raise an exception even where nothing handles it. -/
def NodeKind.mayThrow : NodeKind → Bool
  | call | new | throwValue => true
  | _ => false

def addNode (kind : NodeKind) (pos : Option Pos) (binds : List Binding) (writes : List Variable) :
    Drafting Nat := fun d =>
  .ok (d.size, { d with
    size := d.size + 1, nodes := ⟨d.size, kind, pos, binds, writes⟩ :: d.nodes })

def connect (source target : Nat) (kind : EdgeKind) : Drafting Unit := fun d =>
  .ok ((), { d with edges := ⟨source, target, kind⟩ :: d.edges })

/-- Ties all loose ends to a node. -/
def tie (ends : Frontier) (target : Nat) : Drafting Unit :=
  ends.forM fun e => connect e.source target e.kind

/-- Ties all loose ends to a node by edges of one kind. -/
def tieAs (kind : EdgeKind) (ends : Frontier) (target : Nat) : Drafting Unit :=
  ends.forM fun e => connect e.source target kind

/-- Where an exception at a node of this kind goes. -/
def raiseTargets (s : Surroundings) (kind : NodeKind) : List Nat :=
  if kind.isSilent then []
  else
    match s.handlers with
    | some handlers => handlers
    | none => if kind.mayThrow then [exceptionExitId] else []

/-- A node behind the frontier, and where it can raise exceptions to. -/
def emit (s : Surroundings) (kind : NodeKind) (pos : Option Pos) (binds : List Binding)
    (writes : List Variable) (ends : Frontier) : Drafting Nat := do
  let id ← addNode kind pos binds writes
  tie ends id
  (raiseTargets s kind).forM fun target => connect id target .exception
  return id

/-- A node that falls through. -/
def step (s : Surroundings) (kind : NodeKind) (pos : Option Pos) (binds : List Binding)
    (writes : List Variable) (ends : Frontier) : Drafting Frontier := do
  return [⟨← emit s kind pos binds writes ends, .normal⟩]

/-! ## Jumps -/

/-- Where a jump goes: how many constructs are around its target, and how to draft the cleanup
blocks that it passes, innermost first. -/
structure Route where
  depth : Nat
  isLoop : Bool
  passed : List (Frontier → Drafting Flow)

def Frame.labels : Frame → List Text
  | .loop labels | .switch labels | .block labels => labels
  | .cleanup _ => []

def Frame.isLoop : Frame → Bool
  | .loop _ => true
  | _ => false

/-- Whether a jump aims at a construct: by its label, or else at the next loop; a break also at
the next switch. -/
def Frame.isTarget (word : JumpWord) (label : Option Text) (frame : Frame) : Bool :=
  match label with
  | some label => frame.labels.contains label
  | none =>
    match frame with
    | .loop _ => true
    | .switch _ => word = .breakWord
    | _ => false

def route? (word : JumpWord) (label : Option Text) : List Frame → Option Route
  | [] => none
  | .cleanup draft :: frames =>
    (route? word label frames).map fun r => { r with passed := draft :: r.passed }
  | frame :: frames =>
    if frame.isTarget word label then some ⟨frames.length, frame.isLoop, []⟩
    else route? word label frames

/-- The cleanup blocks on the way out of the routine, innermost first. -/
def cleanups : List Frame → List (Frontier → Drafting Flow)
  | [] => []
  | .cleanup draft :: frames => draft :: cleanups frames
  | _ :: frames => cleanups frames

/-- Copies of cleanup blocks one behind the other. -/
def draftAll : List (Frontier → Drafting Flow) → Frontier → Drafting Flow
  | [], ends => return .through ends
  | draft :: drafts, ends => do
    let first ← draft ends
    let others ← draftAll drafts first.next
    return ⟨others.next, first.jumps ++ others.jumps⟩

/-- A jump to a construct that is around it. -/
def draftJump (s : Surroundings) (pos : Pos) (word : JumpWord) (label : Option Text)
    (ends : Frontier) : Drafting Flow := do
  match route? word label s.frames with
  | none => throw ⟨.misplacedJump word, pos⟩
  | some route =>
    if word = .continueWord && !route.isLoop then
      throw ⟨.continueToNoLoop, pos⟩
    else
      let ends ← step s .jump (some pos) [] [] ends
      let flow ← draftAll route.passed ends
      return ⟨[], flow.jumps ++ flow.next.map fun e => ⟨route.depth, word, e.source⟩⟩

end FlowGraph

end WriteOnce
