import WriteOnce.Analysis.Program
import WriteOnce.Proofs.Verdicts

/-!
# What an analysis comes to

Where nothing stops an analysis, its result depends on nothing but the syntax and the
owner. It is written down here without session, log and cache, and every run of an
undisturbed session without a cache is shown to end with it.
-/

namespace WriteOnce

/-! ## Outcomes -/

/-- The graph of a routine, without the nodes that cannot be reached. -/
def Collection.graph? (c : Collection) (sums : Summaries) (r : Routine) :
    Except AnalysisError FlowGraph := do
  return (← FlowGraph.ofRoutine (c.resolution sums) r).prune

namespace Verdicts

/-- Verdicts with those on some declarations added, as far as they are bound. -/
def judged (w : WriteCount) (bound written : List Variable) : List Declaration → Verdicts → Verdicts
  | [], vs => vs
  | d :: ds, vs =>
    if bound.contains d.var then
      judged w bound written ds
        (vs.insert d (d.judge (written.contains d.var) (w.reason? d.var)))
    else judged w bound written ds vs

/-- The verdicts on some routines, the last one of the source first. -/
def ofRoutines (c : Collection) : List Routine → Summaries → Verdicts →
    Except AnalysisError Verdicts
  | [], _, vs => return vs
  | r :: rs, sums, vs => do
    let g ← c.graph? sums r
    let w ← WriteCount.ofGraph g
    ofRoutines c rs (Analysis.summarize r w ++ sums)
      (judged w g.bound g.written r.declarations vs)

end Verdicts

namespace Fragment

/-- What the analysis of a fragment comes to, before options. -/
def verdicts (f : Fragment) (owner : Text) : Except AnalysisError Verdicts := do
  let c ← Collection.ofFragment owner f
  return (← Verdicts.ofRoutines c c.routines.reverse [] []).sort

end Fragment

namespace OwnedMember

/-- What the analysis of a member alone comes to. -/
def verdicts (m : OwnedMember) : Except AnalysisError Verdicts :=
  (Fragment.member m.member).verdicts m.owner

/-- Whether the analysis of the member fails. -/
def fails (m : OwnedMember) : Bool := !m.verdicts.toBool

/-- The verdicts on a member, or none if its analysis fails. -/
def found (m : OwnedMember) : Verdicts := m.verdicts.toOption.getD []

end OwnedMember

/-- What the analysis of a program comes to: the verdicts of all members together, and the members
without verdicts. -/
def Program.report (p : Program) (options : Option Options) : Report where
  verdicts :=
    ((p.ownedMembers.foldl (fun (vs : Verdicts) m => vs.insertAll m.found) []).hide options).sort
  failed := (p.ownedMembers.filter OwnedMember.fails).map OwnedMember.owner

namespace Analysis

variable {α β : Type} {s s' s₁ : Session}

/-! ## Undisturbed sessions -/

theorem run_bind_ok {m : Analysis α} {a : α} (h : m.run s = (.ok a, s₁)) (next : α → Analysis β) :
    (m >>= next).run s = (next a).run s₁ := by
  change ExceptT.bindCont next (m.run s).1 (m.run s).2 = _
  rw [h]
  rfl

theorem run_bind_error {m : Analysis α} {e : Halt} (h : m.run s = (.error e, s₁))
    (next : α → Analysis β) : (m >>= next).run s = (.error e, s₁) := by
  change ExceptT.bindCont next (m.run s).1 (m.run s).2 = _
  rw [h]
  rfl

theorem run_get_bind (next : Session → Analysis β) : (get >>= next).run s = (next s).run s := rfl

/-- Nothing will stop an analysis. -/
structure Undisturbed (s : Session) : Prop where
  patience : s.patience = none
  stopAtGraph : s.stopAtGraph = none

theorem undisturbed_fresh (cache : Option Cache) : Undisturbed (.fresh cache) := ⟨rfl, rfl⟩

/-- An analysis ends with this result, unless it is told to stop; it leaves the cache alone. -/
def Settles (m : Analysis α) (x : Except AnalysisError α) : Prop :=
  ∀ s, ∃ s', s'.cache = s.cache ∧
    (m.run s = (x.mapError .failed, s') ∧ (Undisturbed s → Undisturbed s') ∨
      m.run s = (.error .cancelled, s') ∧ ¬ Undisturbed s)

/-- Where nothing stops it, it ends with this result. -/
theorem Settles.undisturbed {m : Analysis α} {x : Except AnalysisError α} (h : Settles m x)
    (hs : Undisturbed s) :
    ∃ s', m.run s = (x.mapError .failed, s') ∧ Undisturbed s' ∧ s'.cache = s.cache := by
  obtain ⟨s', hcache, ⟨hrun, hs'⟩ | ⟨-, hnot⟩⟩ := h s
  · exact ⟨s', hrun, hs' hs, hcache⟩
  · exact absurd hs hnot

/-- An analysis that is never told to stop. -/
theorem Settles.of_run {m : Analysis α} {x : Except AnalysisError α}
    (h : ∀ s, ∃ s', m.run s = (x.mapError .failed, s') ∧ (Undisturbed s → Undisturbed s') ∧
      s'.cache = s.cache) : Settles m x := fun s =>
  let ⟨s', hrun, hs', hcache⟩ := h s
  ⟨s', hcache, .inl ⟨hrun, hs'⟩⟩

theorem Settles.pure (a : α) : Settles (pure a) (.ok a) := .of_run fun s => ⟨s, rfl, id, rfl⟩

theorem Settles.bind {m : Analysis α} {x : Except AnalysisError α} {next : α → Analysis β}
    {y : α → Except AnalysisError β} (hm : Settles m x) (hnext : ∀ a, Settles (next a) (y a)) :
    Settles (m >>= next) (x >>= y) := by
  intro s
  obtain ⟨s₁, hcache, ⟨hrun, hs₁⟩ | ⟨hrun, hnot⟩⟩ := hm s
  · cases x with
    | error e => exact ⟨s₁, hcache, .inl ⟨run_bind_error hrun next, hs₁⟩⟩
    | ok a =>
      have hgoes := run_bind_ok hrun next
      obtain ⟨s', hcache', ⟨hrun', hs'⟩ | ⟨hrun', hnot⟩⟩ := hnext a s₁
      · exact ⟨s', hcache'.trans hcache, .inl ⟨hgoes.trans hrun', hs' ∘ hs₁⟩⟩
      · exact ⟨s', hcache'.trans hcache, .inr ⟨hgoes.trans hrun', mt hs₁ hnot⟩⟩
  · exact ⟨s₁, hcache, .inr ⟨run_bind_error hrun next, hnot⟩⟩

/-- An analysis that is run for its effect alone. -/
theorem Settles.andThen {m : Analysis Unit} {next : Analysis β} {y : Except AnalysisError β}
    (hm : Settles m (.ok ())) (hnext : Settles next y) : Settles (m >>= fun _ => next) y :=
  hm.bind fun _ => hnext

theorem settles_ofExcept (x : Except AnalysisError α) : Settles (ofExcept x) x :=
  .of_run fun s => by
    cases x with
    | error e => exact ⟨s, rfl, id, rfl⟩
    | ok a => exact ⟨s, rfl, id, rfl⟩

theorem settles_log (event : LogEvent) : Settles (log event) (.ok ()) :=
  .of_run fun s => ⟨{ s with log := event :: s.log }, rfl, fun hs => ⟨hs.1, hs.2⟩, rfl⟩

theorem settles_checks (times : Nat) : Settles (checks times) (.ok ()) := by
  intro s
  unfold checks
  rw [run_get_bind]
  cases hpatience : s.patience with
  | none => exact ⟨s, rfl, .inl ⟨rfl, id⟩⟩
  | some left =>
    have hnot : ¬ Undisturbed s := fun hs => by simp [hs.patience] at hpatience
    refine ⟨{ s with patience := some (left - times) }, rfl, ?_⟩
    by_cases hleft : left < times
    · exact .inr ⟨by simp only [hleft, if_true]; rfl, hnot⟩
    · exact .inl ⟨by simp only [hleft, if_false]; rfl, fun hs => absurd hs hnot⟩

theorem settles_keep (g : FlowGraph) : Settles (keep g) (.ok ()) := by
  refine .of_run fun s => ⟨_, rfl, fun hs => ?_, ?_⟩
  · have hstop := hs.stopAtGraph
    cases s
    cases hstop
    exact ⟨hs.patience, rfl⟩
  · cases hstop : s.stopAtGraph with
    | none => simp only [hstop]
    | some n =>
      simp only [hstop]
      split <;> rfl

/-! ## Fragments -/

theorem settles_graphOf (c : Collection) (sums : Summaries) (r : Routine) :
    Settles (graphOf c sums r) (c.graph? sums r) := by
  refine (settles_checks 1).andThen ((settles_ofExcept _).bind fun whole => ?_)
  refine (settles_checks _).andThen ?_
  dsimp only
  split
  · exact (settles_log _).andThen ((settles_log _).andThen (.pure _))
  · exact (settles_log _).andThen (.pure _)

theorem settles_countWrites (g : FlowGraph) : Settles (countWrites g) (WriteCount.ofGraph g) := by
  have hcounted : WriteCount.ofGraph g = WriteCount.ofGraph g >>= pure := by
    cases WriteCount.ofGraph g <;> rfl
  rw [hcounted]
  refine (settles_checks _).andThen ((settles_ofExcept _).bind fun w => ?_)
  exact (settles_checks _).andThen ((settles_log _).andThen (.pure w))

theorem settles_judgeAll (r : Routine) (w : WriteCount) (bound written : List Variable)
    (ds : List Declaration) (vs : Verdicts) :
    Settles (judgeAll r w bound written ds vs) (.ok (.judged w bound written ds vs)) := by
  induction ds generalizing vs with
  | nil => exact .pure vs
  | cons d ds ih =>
    rw [judgeAll, Verdicts.judged]
    split
    · exact ih _
    · exact (settles_log _).andThen (ih vs)

theorem settles_analyzeAll (c : Collection) (rs : List Routine) (sums : Summaries)
    (vs : Verdicts) : Settles (analyzeAll c rs sums vs) (Verdicts.ofRoutines c rs sums vs) := by
  induction rs generalizing sums vs with
  | nil => exact .pure vs
  | cons r rs ih =>
    refine (settles_checks 1).andThen ((settles_graphOf c sums r).bind fun g => ?_)
    refine (settles_keep g).andThen ((settles_countWrites g).bind fun w => ?_)
    exact (settles_judgeAll r w _ _ r.declarations vs).bind fun vs => ih _ vs

theorem settles_compute (f : Fragment) (owner : Text) :
    Settles (compute f owner) (f.verdicts owner) :=
  (settles_ofExcept _).bind fun c => (settles_analyzeAll c _ _ _).bind fun _ => .pure _

/-- In the sessions described, the analysis of a fragment comes to its verdicts and leaves such a
session behind. -/
def Answers (Inv : Session → Prop) (f : Fragment) (owner : Text) : Prop :=
  ∀ s, Inv s → ∃ s', (fragment f owner).run s = ((f.verdicts owner).mapError .failed, s') ∧ Inv s'

/-- Nothing will stop an analysis, and nothing is remembered. -/
structure Plain (s : Session) : Prop extends Undisturbed s where
  cache : s.cache = none

theorem plain_fresh : Plain (.fresh none) := ⟨undisturbed_fresh none, rfl⟩

theorem answers_plain (f : Fragment) (owner : Text) : Answers Plain f owner := by
  intro s hs
  obtain ⟨s₁, hcheck, hs₁, hcache₁⟩ := (settles_checks 1).undisturbed hs.toUndisturbed
  obtain ⟨s', hrun, hs', hcache'⟩ := (settles_compute f owner).undisturbed hs₁
  refine ⟨s', ?_, ⟨hs', hcache'.trans (hcache₁.trans hs.cache)⟩⟩
  unfold fragment
  rw [check, run_bind_ok hcheck, run_get_bind, hcache₁, hs.cache]
  exact hrun

/-! ## Programs -/

theorem fails_eq_false {m : OwnedMember} {vs : Verdicts} (h : m.verdicts = .ok vs) :
    m.fails = false ∧ m.found = vs := by
  rw [OwnedMember.fails, OwnedMember.found, h]
  exact ⟨rfl, rfl⟩

theorem fails_eq_true {m : OwnedMember} {e : AnalysisError} (h : m.verdicts = .error e) :
    m.fails = true ∧ m.found = [] := by
  rw [OwnedMember.fails, OwnedMember.found, h]
  exact ⟨rfl, rfl⟩

theorem run_tryCatch {m : Analysis α} {r : Except Halt α} (h : m.run s = (r, s₁))
    (handler : Halt → Analysis α) :
    (tryCatch m handler).run s =
      match r with
      | .ok a => (.ok a, s₁)
      | .error e => (handler e).run s₁ := by
  have h : m s = (r, s₁) := h
  simp only [tryCatch, tryCatchThe, MonadExceptOf.tryCatch, ExceptT.tryCatch, ExceptT.run,
    ExceptT.mk, bind, StateT.bind, h]
  cases r <;> rfl

section Members

variable {m : OwnedMember} (ms : List OwnedMember) (vs : Verdicts)

/-- The verdicts on a member are added to those on earlier ones. -/
theorem run_members_ok {found : Verdicts}
    (h : (fragment (.member m.member) m.owner).run s = (.ok found, s₁)) :
    (members (m :: ms) vs).run s = (members ms (vs.insertAll found)).run s₁ := by
  have hsome : (some <$> fragment (.member m.member) m.owner : Analysis _).run s =
      (.ok (some found), s₁) := by
    rw [map_eq_pure_bind, run_bind_ok h]
    rfl
  rw [members, run_bind_ok (run_tryCatch hsome _)]

/-- A member that fails is named, and the others are gone through as without it. -/
theorem run_members_failed {e : AnalysisError}
    (h : (fragment (.member m.member) m.owner).run s = (.error (.failed e), s₁)) :
    (members (m :: ms) vs).run s =
      (members ms vs >>= fun (vs, failed) => pure (vs, m.owner :: failed)).run
        { s₁ with log := .skipping m.owner e :: s₁.log } := by
  have hnone : (some <$> fragment (.member m.member) m.owner : Analysis _).run s =
      (.error (.failed e), s₁) := by
    rw [map_eq_pure_bind, run_bind_error h]
  rw [members, run_bind_ok (a := none) (run_tryCatch hnone _)]

/-- A member at which the analysis is told to stop ends it. -/
theorem run_members_cancelled
    (h : (fragment (.member m.member) m.owner).run s = (.error .cancelled, s₁)) :
    (members (m :: ms) vs).run s = (.error .cancelled, s₁) := by
  have hstopped : (some <$> fragment (.member m.member) m.owner : Analysis _).run s =
      (.error .cancelled, s₁) := by
    rw [map_eq_pure_bind, run_bind_error h]
  rw [members, run_bind_error (run_tryCatch hstopped _)]

end Members

variable {Inv : Session → Prop}

/-- If all members are answered, their verdicts are taken together and the others are named. -/
theorem run_members (hlog : ∀ s event, Inv s → Inv { s with log := event :: s.log })
    (ms : List OwnedMember) (hms : ∀ m ∈ ms, Answers Inv (.member m.member) m.owner)
    (vs : Verdicts) (hs : Inv s) :
    ∃ s', (members ms vs).run s =
      (.ok (ms.foldl (fun vs m => vs.insertAll m.found) vs,
        (ms.filter OwnedMember.fails).map OwnedMember.owner), s') ∧ Inv s' := by
  induction ms generalizing vs s with
  | nil => exact ⟨s, rfl, hs⟩
  | cons m ms ih =>
    have ih := fun vs {s} => @ih s (fun m hm => hms m (.tail _ hm)) vs
    obtain ⟨s₁, hrun, hs₁⟩ := hms m (.head _) s hs
    change _ = (m.verdicts.mapError _, _) at hrun
    rw [List.foldl_cons]
    cases hm : m.verdicts with
    | ok found =>
      rw [hm] at hrun
      obtain ⟨s', hrest, hs'⟩ := ih (vs.insertAll m.found) hs₁
      obtain ⟨hfails, hfound⟩ := fails_eq_false hm
      refine ⟨s', ?_, hs'⟩
      rw [run_members_ok ms vs hrun, List.filter_cons_of_neg (by simp [hfails]), ← hrest, hfound]
    | error e =>
      rw [hm] at hrun
      obtain ⟨s', hrest, hs'⟩ := ih (vs.insertAll m.found) (hlog s₁ (.skipping m.owner e) hs₁)
      obtain ⟨hfails, hfound⟩ := fails_eq_true hm
      refine ⟨s', ?_, hs'⟩
      rw [run_members_failed ms vs hrun, List.filter_cons_of_pos hfails, List.map_cons]
      rw [hfound] at hrest ⊢
      exact run_bind_ok hrest _

theorem run_program (hlog : ∀ s event, Inv s → Inv { s with log := event :: s.log })
    (p : Program) (hms : ∀ m ∈ p.ownedMembers, Answers Inv (.member m.member) m.owner)
    (options : Option Options) (hs : Inv s) :
    ∃ s', (program p options).run s = (.ok (p.report options), s') ∧ Inv s' := by
  obtain ⟨s', hrun, hs'⟩ := run_members hlog p.ownedMembers hms [] hs
  exact ⟨s', run_bind_ok hrun _, hs'⟩

/-- Without a cache, the analysis of a program comes to its report. -/
theorem program_plain (p : Program) (options : Option Options) (hs : Plain s) :
    ∃ s', (program p options).run s = (.ok (p.report options), s') ∧ Plain s' :=
  run_program (fun _ _ h => ⟨⟨h.patience, h.stopAtGraph⟩, h.cache⟩) p
    (fun m _ => answers_plain (.member m.member) m.owner) options hs

end Analysis

end WriteOnce
