import WriteOnce.Proofs.Reach
import WriteOnce.Proofs.Routines

/-!
# Paths and executions

The graph of a routine has the executions of the routine as its paths. Executions
are paths unless the rules let an exception be raised where a cleanup block begins,
and paths are executions if the rules let one be raised behind a bare `return`.
-/

namespace WriteOnce

open Execution Behavior

namespace FlowGraph

/-- The traces of all paths, by the node where they end. -/
def pathLabels (g : FlowGraph) : Labels :=
  ⟨fun i => {t | ∃ n, n.id = i ∧ g.Arrives t n}, fun i => {t | ∃ n, n.id = i ∧ g.Performs t n}⟩

section OfDraft

variable {label : Text} {d : Draft}

theorem mem_ofDraft_nodes {n : Node} : n ∈ (ofDraft label d).nodes ↔ n ∈ d.nodes :=
  List.mem_reverse

theorem mem_ofDraft_edges {e : Edge} : e ∈ (ofDraft label d).edges ↔ e ∈ d.edges := by
  simp [ofDraft]

theorem Draft.Tidy.eq_of_id (hd : d.Tidy) {m n : Node} (hm : m ∈ d.nodes) (hn : n ∈ d.nodes)
    (h : m.id = n.id) : m = n := by
  refine List.inj_on_of_nodup_map ?_ hm hn h
  rw [hd.ids]
  exact List.nodup_reverse.2 List.nodup_range

theorem Draft.Tidy.wellFormed (hd : d.Tidy) (hsize : 0 < d.size) (label : Text) :
    (ofDraft label d).WellFormed where
  nodup := by
    have : (ofDraft label d).nodes.map Node.id = List.range d.size := by
      simp [ofDraft, hd.ids]
    rw [this]
    exact List.nodup_range
  entry := by
    obtain ⟨n, hn, hid⟩ := hd.exists_node hsize
    exact ⟨n, mem_ofDraft_nodes.2 hn, hid⟩
  source e he := by
    obtain ⟨n, hn, hid⟩ := hd.exists_node (hd.edges e (mem_ofDraft_edges.1 he)).1
    exact ⟨n, mem_ofDraft_nodes.2 hn, hid⟩
  target e he := by
    obtain ⟨n, hn, hid⟩ := hd.exists_node (hd.edges e (mem_ofDraft_edges.1 he)).2
    exact ⟨n, mem_ofDraft_nodes.2 hn, hid⟩

/-- The traces of paths are a closed labelling. -/
theorem closed_pathLabels (hd : d.Tidy) (label : Text) :
    (pathLabels (ofDraft label d)).Closed d := by
  constructor
  · rintro n hn t ⟨m, hid, hm⟩
    cases hd.eq_of_id (mem_ofDraft_nodes.1 hm.mem) hn hid
    exact ⟨_, rfl, t, hm, rfl⟩
  · rintro ⟨source, target, kind⟩ he t ⟨m, rfl, u, hm, rfl⟩
    obtain ⟨n, hn, rfl⟩ := hd.exists_node (hd.edges _ he).2
    exact ⟨n, rfl, hm.step (mem_ofDraft_edges.2 he) (mem_ofDraft_nodes.2 hn)⟩

/-- No closed labelling that allows the empty trace at the entry has less than the paths. -/
theorem Labels.Closed.arrive_of_arrives {Y : Labels} (hY : Y.Closed d)
    (hentry : [] ∈ Y.arrive entryId) {t : Trace} {n : Node}
    (h : (ofDraft label d).Arrives t n) : t ∈ Y.arrive n.id := by
  induction h with
  | entry hn hid => rwa [hid]
  | step hm he hn ih =>
    exact hY.edge _ (mem_ofDraft_edges.1 he) (hY.node _ (mem_ofDraft_nodes.1 hm.mem) _ ih)

theorem Labels.Closed.leave_of_performs {Y : Labels} (hY : Y.Closed d)
    (hentry : [] ∈ Y.arrive entryId) {t : Trace} {n : Node}
    (h : (ofDraft label d).Performs t n) : t ∈ Y.leave n.id := by
  obtain ⟨u, hu, rfl⟩ := h
  exact hY.node n (mem_ofDraft_nodes.1 hu.mem) u (hY.arrive_of_arrives hentry hu)

end OfDraft

variable {rules : Rules} {r : Resolution} {routine : Routine} {d₁ d : Draft} {flow : Flow}
  {label : Text} {t : Trace} {o : Ending}

/-- What the entry does. -/
def paramTrace (routine : Routine) : Trace := routine.params.map fun v => .bind v true

theorem entryNode_trace (routine : Routine) : (entryNode routine).trace = paramTrace routine := by
  simp [entryNode, Node.trace, paramTrace, Binding.event]

/-- An execution binds the parameters, and is cut off there or goes on with the body. -/
theorem executes_iff : executes r rules routine t o ↔
    ∃ u, t = paramTrace routine ++ u ∧
      (runBody r rules routine.body u o ∨ u = [] ∧ o = .cut) := by
  constructor
  · rintro ⟨_, u, mid, ⟨rfl, rfl | rfl | ⟨h, -⟩⟩, hu, rfl⟩
    · exact ⟨u, rfl, .inl hu⟩
    · obtain ⟨rfl, rfl⟩ := hu
      exact ⟨[], rfl, .inr ⟨rfl, rfl⟩⟩
    · cases h
  · rintro ⟨u, rfl, hu | ⟨rfl, rfl⟩⟩
    · exact ⟨_, u, .fell true, ⟨rfl, .inl rfl⟩, hu, rfl⟩
    · exact ⟨_, [], .cut, ⟨rfl, .inr (.inl rfl)⟩, ⟨rfl, rfl⟩, rfl⟩

/-- The routine does this and ends without an exception. -/
def Finishes (r : Resolution) (rules : Rules) (routine : Routine) (t : Trace) : Prop :=
  executes r rules routine t .returned ∨ ∃ way, executes r rules routine t (.fell way)

/-- Where the paths end that stand for executions with this ending. -/
def EndsAt (g : FlowGraph) (n : Node) : Ending → Prop
  | .fell _ | .returned => g.exit = some n.id
  | .raised => g.exceptionExit = some n.id
  | .cut => True
  | .jumped .. => False

namespace Drawn

theorem tidy (h : Drawn r routine d₁ d flow) : d.Tidy := h.grows.after

theorem wellFormed (h : Drawn r routine d₁ d flow) (label : Text) :
    (ofDraft label d).WellFormed :=
  h.tidy.wellFormed (h.grows.size.trans' (by simp [Draft.opened])) label

/-- A node that has the number of one of the first three is that node. -/
theorem eq_of_id (h : Drawn r routine d₁ d flow) {m n : Node}
    (hm : m ∈ (Draft.opened routine).nodes) (hn : n ∈ (ofDraft label d).nodes)
    (hid : n.id = m.id) : n = m :=
  h.tidy.eq_of_id (mem_ofDraft_nodes.1 hn) (h.grows.nodes hm) hid

/-- The aim that every ending meets where the paths for it end. -/
def pathAim (g : FlowGraph) : Aim where
  enters := (pathLabels g).arrive
  cut := {t | ∃ n, g.Performs t n}
  stray := ∅
  falls := fun _ => (pathLabels g).arrive exitId
  parked := fun _ _ => Set.univ

theorem body_meets (h : Drawn r routine d₁ d flow) (hrules : rules.atCleanup = false)
    (label : Text) : (pathLabels (ofDraft label d)).leave entryId ⊆
      Context.demand ⟨[exceptionExitId], []⟩ (runBody r rules routine.body)
        (pathAim (ofDraft label d)) := by
  have hclosed := closed_pathLabels h.tidy label
  rw [h.closing, Labels.closed_link, ← h.closing] at hclosed
  obtain ⟨hclosed, hexit⟩ := hclosed
  have hfalls : (exits flow).claim (pathAim (ofDraft label d))
      (pathLabels (ofDraft label d)).leave := by
    refine ⟨fun e he => ?_, holds_nil, fun _ _ => Set.subset_univ _⟩
    exact hexit _ (List.mem_map_of_mem he)
  have hstarts := ((h.draws rules).carries (pathAim (ofDraft label d))).sound hrules _ hclosed
    (fun i _ t ⟨n, _, hn⟩ => ⟨n, hn⟩) (fun _ _ => Set.Subset.rfl) hfalls
  exact (holds_cons.1 hstarts).1

/-! ## Executions are paths -/

theorem performs_of_arrive {g : FlowGraph} {i : Nat}
    (hsilent : ∀ n ∈ g.nodes, n.id = i → n.trace = []) (h : t ∈ (pathLabels g).arrive i) :
    ∃ n, n.id = i ∧ g.Performs t n := by
  obtain ⟨n, hid, hn⟩ := h
  refine ⟨n, hid, t, hn, ?_⟩
  rw [hsilent n hn.mem hid, List.append_nil]

/-- Whatever a routine may do is done on a path of its graph, to the exit for this ending. -/
theorem performs_of_executes (h : Drawn r routine d₁ d flow) (hrules : rules.atCleanup = false)
    (label : Text) (hx : executes r rules routine t o) :
    ∃ n, (ofDraft label d).Performs t n ∧ (ofDraft label d).EndsAt n o := by
  have hexit : ∀ n ∈ (ofDraft label d).nodes, n.id = exitId → n.trace = [] := by
    intro n hn hid
    rw [h.eq_of_id (m := exitNode) (by simp [Draft.opened]) hn hid]
    rfl
  have hexceptionExit :
      ∀ n ∈ (ofDraft label d).nodes, n.id = exceptionExitId → n.trace = [] := by
    intro n hn hid
    rw [h.eq_of_id (m := exceptionExitNode) (by simp [Draft.opened]) hn hid]
    rfl
  have hentry : (ofDraft label d).Performs (paramTrace routine) (entryNode routine) :=
    ⟨[], .entry (mem_ofDraft_nodes.2 (h.grows.nodes (by simp [Draft.opened]))) rfl,
      (entryNode_trace routine).symm⟩
  rcases executes_iff.1 hx with ⟨u, rfl, hu | ⟨rfl, rfl⟩⟩
  · have hmeets := h.body_meets hrules label ⟨_, rfl, hentry⟩ u o hu
    cases o with
    | fell way =>
      obtain ⟨n, hid, hn⟩ := performs_of_arrive hexit hmeets
      exact ⟨n, hn, congrArg some hid.symm⟩
    | cut =>
      obtain ⟨n, hn⟩ := hmeets
      exact ⟨n, hn, trivial⟩
    | jumped word label => exact hmeets.elim
    | returned =>
      obtain ⟨n, hid, hn⟩ := performs_of_arrive hexit hmeets
      exact ⟨n, hn, congrArg some hid.symm⟩
    | raised =>
      obtain ⟨n, hid, hn⟩ := performs_of_arrive hexceptionExit (hmeets _ (.head _))
      exact ⟨n, hn, congrArg some hid.symm⟩
  · rw [List.append_nil]
    exact ⟨_, hentry, trivial⟩

/-! ## Paths are executions -/

/-- The aim that is met by the traces that belong to an execution. -/
def executionAim (r : Resolution) (rules : Rules) (routine : Routine) : Aim where
  enters i := {t | if i = exitId then Finishes r rules routine t
    else executes r rules routine t .raised}
  cut := {t | executes r rules routine t .cut}
  stray := Set.univ
  falls := fun _ => {t | Finishes r rules routine t}
  parked := fun _ _ => Set.univ

/-- Labels of the first three nodes by the traces of executions. -/
def executionLabels (r : Resolution) (rules : Rules) (routine : Routine) : Labels :=
  let Q := executionAim r rules routine
  ⟨fun i => if i = entryId then {[]} else Q.enters i ∩ Q.cut,
    fun i => if i = entryId then {paramTrace routine} else Q.enters i ∩ Q.cut⟩

theorem closed_executionLabels : (executionLabels r rules routine).Closed (.opened routine) := by
  constructor
  · intro n hn t ht
    simp only [Draft.opened, List.mem_cons, List.not_mem_nil, or_false] at hn
    rcases hn with rfl | rfl | rfl
    · rw [show exceptionExitNode.trace = [] from rfl, List.append_nil]
      exact ht
    · rw [show exitNode.trace = [] from rfl, List.append_nil]
      exact ht
    · obtain rfl : t = [] := ht
      exact entryNode_trace routine
  · intro e he
    cases he

theorem executionLabels_leave_subset (i : Nat) :
    (executionLabels r rules routine).leave i ⊆ (executionAim r rules routine).cut := by
  simp only [executionLabels]
  split_ifs
  · rintro t rfl
    exact executes_iff.2 ⟨[], (List.append_nil _).symm, .inr ⟨rfl, rfl⟩⟩
  · exact Set.inter_subset_right

/-- What the body does behind the parameters is an execution of the routine. -/
theorem paramTrace_mem_demand : paramTrace routine ∈
    Context.demand ⟨[exceptionExitId], []⟩ (runBody r rules routine.body)
      (executionAim r rules routine) := by
  intro u o hu
  have hx : executes r rules routine (paramTrace routine ++ u) o :=
    executes_iff.2 ⟨u, rfl, .inl hu⟩
  cases o with
  | fell way => exact .inr ⟨way, hx⟩
  | cut => exact hx
  | jumped word label => exact Set.mem_univ _
  | returned => exact .inl hx
  | raised =>
    intro i hi
    obtain rfl := List.mem_singleton.1 hi
    exact hx

/-- Labels of the whole draft that stay within the executions. -/
theorem exists_labels (h : Drawn r routine d₁ d flow) (hrules : rules.atBareReturn = true) :
    ∃ Z : Labels, (executionLabels r rules routine).Agrees Z 3 ∧ Z.Closed d ∧
      ∀ i, Z.leave i ⊆ (executionAim r rules routine).cut := by
  have henters : ∀ i, Context.Leads ⟨[exceptionExitId], []⟩ i →
      (executionAim r rules routine).enters i ∩ (executionAim r rules routine).cut ⊆
        (executionLabels r rules routine).arrive i := by
    intro i hi
    have hne : i ≠ entryId := by
      rcases leads_outermost.1 hi with rfl | rfl
      · simp [exceptionExitId, entryId]
      · simp [exitId, entryId]
    simp only [executionLabels, if_neg hne]
    exact Set.Subset.rfl
  have hstarts : Starts ⟨[exceptionExitId], []⟩ (runBody r rules routine.body)
      [⟨entryId, .normal⟩] (executionAim r rules routine)
      (executionLabels r rules routine).leave := by
    refine holds_cons.2 ⟨?_, holds_nil⟩
    rintro t rfl
    exact paramTrace_mem_demand
  obtain ⟨Z, hagrees, hclosed, hcut, hfalls, -, -⟩ :=
    ((h.draws rules).carries (executionAim r rules routine)).precise hrules _
      closed_executionLabels executionLabels_leave_subset henters hstarts
  refine ⟨Z, hagrees, ?_, hcut⟩
  rw [h.closing, Labels.closed_link]
  refine ⟨hclosed, ?_⟩
  rw [List.forall_mem_map]
  intro e he t ht
  rw [(hagrees exitId (by simp [Draft.opened, exitId])).1]
  exact ⟨hfalls e he ht, hcut _ ht⟩

theorem executes_of_performs (h : Drawn r routine d₁ d flow) (hrules : rules.atBareReturn = true)
    {n : Node} (hn : (ofDraft label d).Performs t n) :
    executes r rules routine t .cut ∧
      (n.id = exitId → Finishes r rules routine t) ∧
      (n.id = exceptionExitId → executes r rules routine t .raised) := by
  obtain ⟨Z, hagrees, hclosed, hcut⟩ := h.exists_labels hrules
  have hentry : [] ∈ Z.arrive entryId := by
    rw [(hagrees entryId (by simp [entryId])).1]
    rfl
  have hleave := hclosed.leave_of_performs hentry hn
  refine ⟨hcut _ hleave, fun hid => ?_, fun hid => ?_⟩
  · rw [hid, (hagrees exitId (by simp [exitId])).2] at hleave
    exact hleave.1
  · rw [hid, (hagrees exceptionExitId (by simp [exceptionExitId])).2] at hleave
    exact hleave.1

end Drawn

/-- Pruning keeps where the paths end. -/
theorem endsAt_prune {g : FlowGraph} (hg : g.WellFormed) {n : Node} (hn : n ∈ g.nodes)
    (hr : g.Reaches n) : g.prune.EndsAt n o ↔ g.EndsAt n o := by
  have hexit : g.prune.exit = some n.id ↔ g.exit = some n.id :=
    (mem_filter_reachable hg hn).trans (and_iff_left hr)
  have hexceptionExit : g.prune.exceptionExit = some n.id ↔ g.exceptionExit = some n.id :=
    (mem_filter_reachable hg hn).trans (and_iff_left hr)
  cases o with
  | fell way => exact hexit
  | cut => exact .rfl
  | jumped word label => exact .rfl
  | returned => exact hexit
  | raised => exact hexceptionExit

theorem Performs.reaches {g : FlowGraph} {n : Node} (h : g.Performs t n) : g.Reaches n := by
  obtain ⟨u, hu, _⟩ := h
  exact ⟨u, hu⟩

theorem exists_ok_of_any {ε α : Type} {x : Except ε α} {p : α → Bool} (h : x.toOption.any p) :
    ∃ a, x = .ok a ∧ p a := by
  cases x with
  | error e => cases h
  | ok a => exact ⟨a, rfl, h⟩

/-! ## The graph of a routine -/

variable {g : FlowGraph} {n : Node}

theorem wellFormed_ofRoutine (hg : ofRoutine r routine = .ok g) : g.WellFormed := by
  obtain ⟨d, hdraft, rfl⟩ := ofRoutine_eq_ok hg
  obtain ⟨flow, d₁, h⟩ := draftRoutine_eq_ok hdraft
  exact h.wellFormed routine.label

theorem exclusive_ofRoutine (hg : ofRoutine r routine = .ok g) :
    ∀ n ∈ g.nodes, n.binds = [] ∨ n.writes = [] := by
  obtain ⟨d, hdraft, rfl⟩ := ofRoutine_eq_ok hg
  obtain ⟨flow, d₁, h⟩ := draftRoutine_eq_ok hdraft
  exact fun n hn => h.tidy.exclusive n (mem_ofDraft_nodes.1 hn)

/-- Every execution of a routine is a path of its graph, which ends at the exit for the ending of
the execution. -/
theorem ofRoutine_sound (hg : ofRoutine r routine = .ok g) (hrules : rules.atCleanup = false)
    (hx : executes r rules routine t o) : ∃ n, g.prune.Performs t n ∧ g.prune.EndsAt n o := by
  obtain ⟨d, hdraft, rfl⟩ := ofRoutine_eq_ok hg
  obtain ⟨flow, d₁, h⟩ := draftRoutine_eq_ok hdraft
  have hwf := h.wellFormed routine.label
  obtain ⟨n, hn, hends⟩ := h.performs_of_executes hrules routine.label hx
  exact ⟨n, (performs_prune hwf).2 hn, (endsAt_prune hwf hn.mem hn.reaches).2 hends⟩

/-! A cleanup block that is left by a jump takes the place of an exception. -/

namespace LeavingCleanup

/-- `{ int x; L: { try { try { x = 1; } finally { break L; } } catch (E e) { x = 2; } } }` -/
def block : Block :=
  let write (pos valuePos : Pos) (digits : Text) : Stmt :=
    .expr pos (.assign pos .plain (.name pos "x") (.literal valuePos (.int digits)))
  ⟨⟨1, 1⟩, [
    .localDecl ⟨⟨1, 3⟩, [], ⟨⟨1, 3⟩, "int", [], 0⟩, [⟨⟨1, 7⟩, "x", 0, none⟩]⟩,
    .labeled ⟨1, 10⟩ "L" (.block ⟨⟨1, 13⟩, [
      .tryCatch ⟨1, 15⟩
        ⟨⟨1, 19⟩, [.tryCatch ⟨1, 21⟩ ⟨⟨1, 25⟩, [write ⟨1, 27⟩ ⟨1, 31⟩ "1"]⟩ []
          (some ⟨⟨1, 44⟩, [.breakTo ⟨1, 46⟩ (some "L")]⟩)]⟩
        [⟨⟨1, 59⟩, ⟨⟨1, 68⟩, [], none, "e", false⟩, [],
          ⟨⟨1, 71⟩, [write ⟨1, 73⟩ ⟨1, 77⟩ "2"]⟩⟩]
        none]⟩)]⟩

def collection : Collection := .ofBlock "f" block

def x : Variable := ⟨"x", .localVariable, 1, 7, "f", false, false⟩

def e : Variable := ⟨"e", .catchParameter, 1, 68, "f", false, false⟩

/-- From the cleanup block to the handler, which writes once more. -/
def trace : Trace := [.bind x false, .write x, .bind e true, .write x]

theorem executes_of_rules (rules : Rules) :
    executes (collection.resolution []) rules collection.root [.bind x false, .write x]
      (.fell true) ∧
    (rules.atCleanup = true →
      executes (collection.resolution []) rules collection.root trace (.fell true)) := by
  have hwrites : collection.lookup? ⟨1, 27⟩ = some x ∧ collection.lookup? ⟨1, 73⟩ = some x := by
    decide
  have hsites : collection.declared? ⟨1, 7⟩ = some x ∧ collection.declared? ⟨1, 68⟩ = some e := by
    decide
  have hbody : ∀ P : Post,
      [] ∈ wp (runBody (collection.resolution []) rules collection.root.body) P →
      [.bind x false, .write x] ∈ P (.fell true) ∧
        (rules.atCleanup = true → trace ∈ P (.fell true)) := by
    intro P
    rw [show collection.root.body = .block block from rfl]
    simp [runBody, block, runBlock, runAll, run, declare, evaluateOption, bindAt,
      Resolution.binding, Collection.resolution, hsites, wp_seq, Post.falling, mem_wp_act,
      takesLabels, wp_catching, wp_handling, wp_ensuring, mem_wp_risk, evaluate, evaluateTarget,
      write, Resolution.target?, hwrites, decideOn, mem_wp_anyOf, runClauses, Target.takes,
      Binding.event, trace]
    tauto
  constructor
  · refine executes_iff.2 ⟨_, rfl, .inl (Behavior.of_not_mem_wp fun h => ?_)⟩
    exact (hbody _ h).1 ⟨rfl, rfl⟩
  · intro hrules
    refine executes_iff.2 ⟨_, rfl, .inl (Behavior.of_not_mem_wp fun h => ?_)⟩
    exact (hbody _ h).2 hrules ⟨rfl, rfl⟩

theorem exists_graph : ∃ g, ofRoutine (collection.resolution []) collection.root = .ok g ∧
    ∀ n, ¬g.prune.Performs trace n := by
  let before (i : Nat) : Nat := if i ∈ [1, 6, 9, 10] then 1 else 0
  let behind (i : Nat) : Nat := if i ∈ [1, 6, 8, 9, 10, 11] then 1 else 0
  obtain ⟨g, hg, hbounds⟩ := exists_ok_of_any
    (x := ofRoutine (collection.resolution []) collection.root)
    (p := fun g =>
      (∀ n ∈ g.prune.nodes, before n.id + List.count (.write x) n.trace ≤ behind n.id) ∧
      ∀ e ∈ g.prune.edges, behind e.source ≤ before e.target)
    (by decide +kernel)
  obtain ⟨hnode, hedge⟩ := of_decide_eq_true hbounds
  refine ⟨g, hg, fun n hn => ?_⟩
  have hcount : List.count (.write x) trace ≤ behind n.id := hn.count_le hnode hedge
  have hle : behind n.id ≤ 1 := by
    simp only [behind]
    split_ifs <;> omega
  exact absurd (hcount.trans hle) (by decide)

theorem ofRoutine_sound_leaving : ∃ g,
    ofRoutine (collection.resolution []) collection.root = .ok g ∧
    executes (collection.resolution []) ⟨false, true⟩ collection.root [.bind x false, .write x]
      (.fell true) ∧
    ∃ n, g.prune.Performs [.bind x false, .write x] n ∧ g.prune.EndsAt n (.fell true) := by
  obtain ⟨g, hg, -⟩ := exists_graph
  have hx := (executes_of_rules ⟨false, true⟩).1
  exact ⟨g, hg, hx, ofRoutine_sound hg rfl hx⟩

/-- If an exception may be raised where the cleanup block begins, not every execution is a path. -/
theorem executes_off_path_atCleanup : ∃ g,
    ofRoutine (collection.resolution []) collection.root = .ok g ∧
    executes (collection.resolution []) ⟨true, false⟩ collection.root trace (.fell true) ∧
    ∀ n, ¬g.prune.Performs trace n := by
  obtain ⟨g, hg, hoff⟩ := exists_graph
  exact ⟨g, hg, (executes_of_rules ⟨true, false⟩).2 rfl, hoff⟩

end LeavingCleanup

/-- Every path of the graph of a routine is a beginning of an execution, and all of one that ends
there if the path ends at an exit. -/
theorem ofRoutine_precise (hg : ofRoutine r routine = .ok g)
    (hrules : rules.atBareReturn = true) (hn : g.prune.Performs t n) :
    executes r rules routine t .cut ∧
      (g.prune.exit = some n.id → Finishes r rules routine t) ∧
      (g.prune.exceptionExit = some n.id → executes r rules routine t .raised) := by
  obtain ⟨d, hdraft, rfl⟩ := ofRoutine_eq_ok hg
  obtain ⟨flow, d₁, h⟩ := draftRoutine_eq_ok hdraft
  have hwf := h.wellFormed routine.label
  have hn := (performs_prune hwf).1 hn
  obtain ⟨hcut, hfinishes, hraised⟩ := h.executes_of_performs hrules hn
  refine ⟨hcut, fun hexit => hfinishes ?_, fun hexit => hraised ?_⟩
  · have hends := (endsAt_prune (o := .returned) hwf hn.mem hn.reaches).1 hexit
    exact (Option.some.inj hends).symm
  · have hends := (endsAt_prune (o := .raised) hwf hn.mem hn.reaches).1 hexit
    exact (Option.some.inj hends).symm

/-! A `return` without a value in a handler, inside another `try`. -/

namespace ReturningHandler

/-- `{ try { try { } catch (E e) { return; } } catch (F g) { } }` -/
def block : Block :=
  ⟨⟨1, 1⟩, [
    .tryCatch ⟨1, 3⟩
      ⟨⟨1, 7⟩, [.tryCatch ⟨1, 9⟩ ⟨⟨1, 13⟩, []⟩
        [⟨⟨1, 17⟩, ⟨⟨1, 26⟩, [], none, "e", false⟩, [], ⟨⟨1, 29⟩, [.returnValue ⟨1, 31⟩ none]⟩⟩]
        none]⟩
      [⟨⟨1, 43⟩, ⟨⟨1, 52⟩, [], none, "g", false⟩, [], ⟨⟨1, 55⟩, []⟩⟩] none]⟩

def collection : Collection := .ofBlock "f" block

def inner : Variable := ⟨"e", .catchParameter, 1, 26, "f", false, false⟩

def outer : Variable := ⟨"g", .catchParameter, 1, 52, "f", false, false⟩

/-- From one handler to the other. -/
def trace : Trace := [.bind inner true, .bind outer true]

theorem exists_graph : ∃ graph n,
    ofRoutine (collection.resolution []) collection.root = .ok graph ∧
    graph.prune.Performs trace n := by
  let entry : Node := ⟨0, .entry, some ⟨1, 1⟩, [], []⟩
  let nodes : List Node :=
    [entry, ⟨4, .tryBody, some ⟨1, 3⟩, [], []⟩, ⟨6, .tryBody, some ⟨1, 9⟩, [], []⟩,
      ⟨5, .handler, some ⟨1, 17⟩, [⟨inner, true⟩], []⟩, ⟨7, .returnValue, some ⟨1, 31⟩, [], []⟩,
      ⟨3, .handler, some ⟨1, 43⟩, [⟨outer, true⟩], []⟩]
  let edges : List Edge :=
    [⟨0, 4, .normal⟩, ⟨4, 6, .normal⟩, ⟨6, 5, .exception⟩, ⟨5, 7, .normal⟩, ⟨7, 3, .exception⟩]
  obtain ⟨graph, hgraph, hpath⟩ := exists_ok_of_any
    (x := ofRoutine (collection.resolution []) collection.root)
    (p := fun graph =>
      graph.prune.entry = 0 ∧ nodes ⊆ graph.prune.nodes ∧ edges ⊆ graph.prune.edges)
    (by decide +kernel)
  obtain ⟨hentry, hnodes, hedges⟩ := of_decide_eq_true hpath
  simp only [nodes, edges, List.cons_subset] at hnodes hedges
  obtain ⟨h₀, h₄, h₆, h₅, h₇, h₃, -⟩ := hnodes
  obtain ⟨h₀₄, h₄₆, h₆₅, h₅₇, h₇₃, -⟩ := hedges
  have hstart : graph.prune.Performs [] entry := ⟨[], .entry h₀ hentry.symm, rfl⟩
  have hhandler := ((hstart.step h₀₄ h₄).step h₄₆ h₆).step h₆₅ h₅
  exact ⟨graph, _, hgraph, (hhandler.step h₅₇ h₇).step h₇₃ h₃⟩

theorem ofRoutine_precise_returning : ∃ graph n,
    ofRoutine (collection.resolution []) collection.root = .ok graph ∧
    graph.prune.Performs trace n ∧
    executes (collection.resolution []) ⟨false, true⟩ collection.root trace .cut := by
  obtain ⟨graph, n, hgraph, hn⟩ := exists_graph
  exact ⟨graph, n, hgraph, hn, (ofRoutine_precise hgraph rfl hn).1⟩

/-- If no exception may be raised behind a bare `return`, not every path is an execution. -/
theorem performs_off_execution_atBareReturn : ∃ graph n,
    ofRoutine (collection.resolution []) collection.root = .ok graph ∧
    graph.prune.Performs trace n ∧
    ¬executes (collection.resolution []) ⟨true, false⟩ collection.root trace .cut := by
  obtain ⟨graph, n, hgraph, hn⟩ := exists_graph
  refine ⟨graph, n, hgraph, hn, fun hx => ?_⟩
  have hsites : collection.declared? ⟨1, 26⟩ = some inner ∧
      collection.declared? ⟨1, 52⟩ = some outer := by decide
  have hwp : [] ∈ wp (runBody (collection.resolution []) ⟨true, false⟩ collection.root.body)
      fun _ => {t | t ≠ trace} := by
    rw [show collection.root.body = .block block from rfl]
    simp [runBody, block, runBlock, runAll, run, evaluateOption, bindAt, Resolution.binding,
      Collection.resolution, hsites, wp_seq, Post.falling, mem_wp_act, wp_handling, mem_wp_anyOf,
      runClauses, Binding.event, trace]
  rcases executes_iff.1 hx with ⟨u, hu, hbody | ⟨rfl, -⟩⟩
  · exact hwp u _ hbody hu.symm
  · cases hu

end ReturningHandler

end FlowGraph

end WriteOnce
