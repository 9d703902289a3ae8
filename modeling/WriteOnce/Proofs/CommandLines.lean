import WriteOnce.CommandLine.Outcome
import WriteOnce.Proofs.Caching

/-!
# Command lines with several files

All files of a command line are analyzed in one session, in their order or in one that several jobs
come to. What is found in a file is nevertheless what is found if it stands alone: its verdicts are
those of a session without a cache, and its graphs are drawn anew whatever was logged before.
-/

namespace WriteOnce

namespace Analysis

variable {α β : Type}

/-! ## Sessions that differ in their log -/

/-- What was logged before is of no concern: it changes neither the result nor what else is left
behind. -/
def IgnoresLog (m : Analysis α) : Prop :=
  ∀ s log, ∃ log', m.run { s with log := log } = ((m.run s).1, { (m.run s).2 with log := log' })

namespace IgnoresLog

theorem pure (a : α) : IgnoresLog (pure a) := fun _ log => ⟨log, rfl⟩

theorem throw (halt : Halt) : IgnoresLog (throw halt : Analysis α) := fun _ log => ⟨log, rfl⟩

theorem modify {change : Session → Session}
    (h : ∀ s log, ∃ log', change { s with log := log } = { change s with log := log' }) :
    IgnoresLog (modify change) := by
  intro s log
  obtain ⟨log', h⟩ := h s log
  exact ⟨log', congrArg (Prod.mk (Except.ok ())) h⟩

theorem bind {m : Analysis α} {next : α → Analysis β} (hm : IgnoresLog m)
    (hnext : ∀ a, IgnoresLog (next a)) : IgnoresLog (m >>= next) := by
  intro s log
  obtain ⟨log₁, hrun⟩ := hm s log
  rcases hmid : m.run s with ⟨r, s₁⟩
  rw [hmid] at hrun
  cases r with
  | error e => exact ⟨log₁, by rw [run_bind_error hrun, run_bind_error hmid]⟩
  | ok a =>
    obtain ⟨log', hrest⟩ := hnext a s₁ log₁
    exact ⟨log', by rw [run_bind_ok hrun, run_bind_ok hmid, hrest]⟩

/-- What is done may depend on the session, but not on its log. -/
theorem get {next : Session → Analysis β} (hnext : ∀ s, IgnoresLog (next s))
    (h : ∀ s log, next { s with log := log } = next s) : IgnoresLog (get >>= next) := by
  intro s log
  obtain ⟨log', hrun⟩ := hnext s s log
  exact ⟨log', by rw [run_get_bind, run_get_bind, h, hrun]⟩

theorem tryCatch {m : Analysis α} {handler : Halt → Analysis α} (hm : IgnoresLog m)
    (hhandler : ∀ halt, IgnoresLog (handler halt)) : IgnoresLog (tryCatch m handler) := by
  intro s log
  obtain ⟨log₁, hrun⟩ := hm s log
  rcases hmid : m.run s with ⟨r, s₁⟩
  rw [hmid] at hrun
  rw [run_tryCatch hrun, run_tryCatch hmid]
  cases r with
  | ok a => exact ⟨log₁, rfl⟩
  | error e => exact hhandler e s₁ log₁

theorem map {m : Analysis α} (f : α → β) (hm : IgnoresLog m) : IgnoresLog (f <$> m) := by
  rw [map_eq_pure_bind]
  exact hm.bind fun _ => .pure _

end IgnoresLog

theorem ignoresLog_log (event : LogEvent) : IgnoresLog (log event) :=
  .modify fun _ log => ⟨event :: log, rfl⟩

theorem ignoresLog_ofExcept (x : Except AnalysisError α) : IgnoresLog (ofExcept x) := by
  cases x with
  | error e => exact .throw _
  | ok a => exact .pure a

theorem ignoresLog_checks (times : Nat) : IgnoresLog (checks times) := by
  refine .get (fun s => ?_) fun _ _ => rfl
  cases s.patience with
  | none => exact .pure ()
  | some left =>
    refine (IgnoresLog.modify fun _ log => ⟨log, rfl⟩).bind fun _ => ?_
    split
    · exact .throw _
    · exact .pure ()

theorem ignoresLog_keep (g : FlowGraph) : IgnoresLog (keep g) := by
  refine .modify fun s log => ⟨log, ?_⟩
  dsimp only
  split
  · rfl
  · split <;> rfl

theorem ignoresLog_cached (owner key : Text) : IgnoresLog (cached? owner key) := by
  refine .get (fun s => ?_) fun _ _ => rfl
  cases s.cache with
  | none => exact .pure _
  | some cache =>
    refine (IgnoresLog.modify fun _ log => ⟨log, rfl⟩).bind fun _ => ?_
    exact (ignoresLog_log _).bind fun _ => .pure _

theorem ignoresLog_store (owner key : Text) (vs : Verdicts) :
    IgnoresLog (store owner key vs) := by
  refine .get (fun s => ?_) fun _ _ => rfl
  cases s.cache with
  | none => exact .pure _
  | some cache => exact (IgnoresLog.modify fun _ log => ⟨log, rfl⟩).bind fun _ => .pure _

theorem ignoresLog_graphOf (c : Collection) (sums : Summaries) (r : Routine) :
    IgnoresLog (graphOf c sums r) := by
  refine (ignoresLog_checks 1).bind fun _ => (ignoresLog_ofExcept _).bind fun whole => ?_
  refine (ignoresLog_checks _).bind fun _ => ?_
  dsimp only
  split
  · exact (ignoresLog_log _).bind fun _ => (ignoresLog_log _).bind fun _ => .pure _
  · exact (ignoresLog_log _).bind fun _ => .pure _

theorem ignoresLog_countWrites (g : FlowGraph) : IgnoresLog (countWrites g) := by
  refine (ignoresLog_checks _).bind fun _ => (ignoresLog_ofExcept _).bind fun w => ?_
  exact (ignoresLog_checks _).bind fun _ => (ignoresLog_log _).bind fun _ => .pure w

theorem ignoresLog_judgeAll (r : Routine) (w : WriteCount) (bound written : List Variable)
    (ds : List Declaration) (vs : Verdicts) : IgnoresLog (judgeAll r w bound written ds vs) := by
  induction ds generalizing vs with
  | nil => exact .pure vs
  | cons d ds ih =>
    rw [judgeAll]
    split
    · exact ih _
    · exact (ignoresLog_log _).bind fun _ => ih vs

theorem ignoresLog_analyzeAll (c : Collection) (rs : List Routine) (sums : Summaries)
    (vs : Verdicts) : IgnoresLog (analyzeAll c rs sums vs) := by
  induction rs generalizing sums vs with
  | nil => exact .pure vs
  | cons r rs ih =>
    refine (ignoresLog_checks 1).bind fun _ => (ignoresLog_graphOf c sums r).bind fun g => ?_
    refine (ignoresLog_keep g).bind fun _ => (ignoresLog_countWrites g).bind fun w => ?_
    exact (ignoresLog_judgeAll r w _ _ _ vs).bind fun vs => ih _ vs

theorem ignoresLog_compute (f : Fragment) (owner : Text) : IgnoresLog (compute f owner) :=
  (ignoresLog_ofExcept _).bind fun _ => (ignoresLog_analyzeAll _ _ _ _).bind fun _ => .pure _

theorem ignoresLog_fragment (f : Fragment) (owner : Text) : IgnoresLog (fragment f owner) := by
  refine (ignoresLog_checks 1).bind fun _ => .get (fun s => ?_) fun _ _ => rfl
  split
  · refine (ignoresLog_cached _ _).bind fun found => ?_
    cases found with
    | some vs => exact .pure vs
    | none => exact (ignoresLog_compute f owner).bind fun vs => ignoresLog_store _ _ vs
  · exact ignoresLog_compute f owner

theorem ignoresLog_members (ms : List OwnedMember) (vs : Verdicts) :
    IgnoresLog (members ms vs) := by
  induction ms generalizing vs with
  | nil => exact .pure _
  | cons m ms ih =>
    refine ((ignoresLog_fragment _ _).map some |>.tryCatch fun halt => ?_).bind fun found => ?_
    · cases halt with
      | failed error => exact (ignoresLog_log _).bind fun _ => .pure none
      | cancelled => exact .throw _
    · cases found with
      | some found => exact ih _
      | none => exact (ih vs).bind fun _ => .pure _

theorem ignoresLog_program (p : Program) (options : Option Options) :
    IgnoresLog (program p options) := (ignoresLog_members _ _).bind fun _ => .pure _

end Analysis

open Analysis

theorem Outcome.eq_with_err {o o' : Outcome} (hout : o'.out = o.out) (hexit : o'.exit = o.exit) :
    o' = { o with err := o'.err } := by
  cases o
  cases hout
  cases hexit
  rfl

/-! ## Sources -/

namespace Entry

variable (depth : Nat)

/-- There is nothing to analyze behind a path: it cannot be read, decoded or parsed. -/
inductive Broken : Entry → Prop
  | missing : Broken .missing
  | refused (code : Nat) (reason : Text) : Broken (.refused code reason)
  | undecodable {contents : ByteArray} (h : String.fromUTF8? contents = none) :
    Broken (.bytes contents)
  | unparsable {contents : ByteArray} {source : String} {e : SourceError}
    (h : String.fromUTF8? contents = some source)
    (hparse : Program.parse source.toList depth = .error e) : Broken (.bytes contents)

/-- The program that stands behind a path. -/
def program? : Entry → Option Program
  | .bytes contents =>
    (String.fromUTF8? contents).bind fun source => (Program.parse source.toList depth).toOption
  | _ => none

variable {depth} in
theorem broken_iff {entry : Entry} : entry.Broken depth ↔ entry.program? depth = none := by
  constructor
  · rintro (_ | _ | h | ⟨h, hparse⟩)
    · rfl
    · rfl
    · rw [program?, h, Option.bind_none]
    · rw [program?, h, Option.bind_some, hparse]
      rfl
  · intro hnone
    cases entry with
    | missing => exact .missing
    | refused code reason => exact .refused code reason
    | bytes contents =>
      cases hsource : String.fromUTF8? contents with
      | none => exact .undecodable hsource
      | some source =>
        rw [program?, hsource, Option.bind_some] at hnone
        cases hparse : Program.parse source.toList depth with
        | error e => exact .unparsable hsource hparse
        | ok p =>
          rw [hparse] at hnone
          cases hnone

/-- The members that are analyzed if the path is. -/
def fragments (entry : Entry) : List Fragment :=
  (entry.program? depth).toList.flatMap fun p => p.ownedMembers.map fun m => .member m.member

variable {depth}

theorem exists_source {entry : Entry} {p : Program} (h : entry.program? depth = some p)
    (path : Text) :
    ∃ source, entry.source? path = .ok source ∧ Program.parse source depth = .ok p := by
  cases entry with
  | missing => cases h
  | refused => cases h
  | bytes contents =>
    obtain ⟨source, hsource, hp⟩ := Option.bind_eq_some_iff.1 h
    refine ⟨source.toList, by rw [source?, hsource], ?_⟩
    cases hparse : Program.parse source.toList depth with
    | error e =>
      rw [hparse] at hp
      cases hp
    | ok q =>
      rw [hparse] at hp
      exact congrArg Except.ok (Option.some.inj hp)

/-- What is analyzed was parsed. -/
theorem coded_fragments {entry : Entry} : ∀ f ∈ entry.fragments depth, f.tree.Coded := by
  intro f hf
  obtain ⟨p, hp, hf⟩ := List.mem_flatMap.1 hf
  obtain ⟨source, -, hparse⟩ := entry.exists_source (Option.mem_toList.1 hp) .empty
  exact (Call.program p none).coded_fragments ⟨source, depth, .inl ⟨p, hparse, .refl⟩⟩ f hf

end Entry

namespace Command

/-! ## Reading a command line -/

theorem readJobs_ne_noPath {value : Text} : readJobs value ≠ .error .noPath := by
  unfold readJobs
  split
  · split
    · simp
    · split <;> simp
  · simp

/-- If nothing but a path is missing, one thing is read at the beginning, and what is read of it
does not depend on what comes behind. -/
theorem exists_read_step {c : Command} {arg : Text} {args : List Text}
    (h : c.read (arg :: args) = .error .noPath) :
    ∃ (c' : Command) (left : List Text), left.length ≤ args.length ∧
      c'.read left = .error .noPath ∧
      ∀ rest, c.read (arg :: args ++ rest) = c'.read (left ++ rest) := by
  rw [read.eq_def] at h
  dsimp only at h
  split at h
  · cases h
  rename_i hhelp
  split at h
  · rename_i c' hflag
    refine ⟨c', args, le_rfl, h, fun rest => ?_⟩
    rw [List.cons_append, read.eq_def]
    simp only [hhelp, hflag, Bool.false_eq_true, if_false]
  rename_i hflag
  split at h
  · rename_i hjobs
    cases args with
    | nil => cases h
    | cons value left =>
      cases hread : readJobs value with
      | error fault =>
        simp only [hread] at h
        cases h
        exact absurd hread readJobs_ne_noPath
      | ok jobs =>
        simp only [hread] at h
        refine ⟨{ c with jobs := jobs }, left, Nat.le_succ _, h, fun rest => ?_⟩
        rw [List.cons_append, read.eq_def]
        simp only [hhelp, hflag, hread, List.cons_append, Bool.false_eq_true, if_false,
          if_pos hjobs]
  · rename_i hjobs
    split at h
    · cases h
    · rename_i hpath
      refine ⟨c.addPath arg, args, le_rfl, h, fun rest => ?_⟩
      rw [List.cons_append, read.eq_def]
      simp only [hhelp, hflag, hpath, Bool.false_eq_true, if_false, if_neg hjobs]

/-- If nothing but a path is missing, what comes behind is read with the flags that were set. -/
theorem exists_read_append {c : Command} {flags : List Text} (h : c.read flags = .error .noPath) :
    ∃ c' : Command, c'.paths = [] ∧ ∀ rest, c.read (flags ++ rest) = c'.read rest := by
  induction hlength : flags.length using Nat.strong_induction_on generalizing c flags with
  | _ length ih =>
    cases flags with
    | nil =>
      rw [read] at h
      split_ifs at h with hempty
      exact ⟨c, List.isEmpty_iff.1 hempty, fun _ => rfl⟩
    | cons arg args =>
      obtain ⟨c₁, left, hleft, h₁, hstep⟩ := exists_read_step h
      have hshorter : left.length < length := by
        rw [← hlength, List.length_cons]
        omega
      obtain ⟨c', hpaths, hrest⟩ := ih _ hshorter h₁ rfl
      exact ⟨c', hpaths, fun rest => (hstep rest).trans (hrest rest)⟩

/-- A name without a hyphen in front is a path. -/
theorem read_path (c : Command) {path : Text} (h : path.startsWith "-" = false)
    (args : List Text) : c.read (path :: args) = (c.addPath path).read args := by
  have hflag : ∀ flag : Text, flag.startsWith "-" = true → path ≠ flag := by
    rintro flag hflag rfl
    exact Bool.eq_false_iff.1 h hflag
  have hnone : c.flag? path = none := by
    simp [flag?, hflag "--no-locals" rfl, hflag "--no-parameters" rfl, hflag "--all" rfl,
      hflag "--dump-cfg" rfl, hflag "--verbose" rfl, hflag "-v" rfl]
  rw [read.eq_def]
  simp [h, hnone, hflag "--help" rfl, hflag "-h" rfl, hflag "--jobs" rfl]

theorem read_paths (c : Command) {files : List Text} (hfiles : c.paths ++ files ≠ [])
    (hnames : ∀ f ∈ files, f.startsWith "-" = false) :
    c.read files = .ok (.analyze { c with paths := c.paths ++ files }) := by
  induction files generalizing c with
  | nil =>
    rw [List.append_nil] at hfiles
    simp [read, hfiles]
  | cons f files ih =>
    rw [read_path c (hnames f (.head _)),
      ih (c.addPath f) (by simp [addPath]) fun f hf => hnames f (.tail _ hf)]
    simp [addPath]

theorem read_files {c : Command} (hpaths : c.paths = []) {files : List Text} (hfiles : files ≠ [])
    (hnames : ∀ f ∈ files, f.startsWith "-" = false) :
    c.read files = .ok (.analyze { c with paths := files }) := by
  have h := c.read_paths (by rwa [hpaths]) hnames
  rwa [hpaths] at h

/-! ## Files in one session -/

variable (c : Command) {depth : Nat} {known : Fragment → Prop} {path : Text} {entry : Entry}
  {s : Session}

/-- Sessions in which every file is answered as if it stood alone. -/
def Serving (known : Fragment → Prop) (s : Session) : Prop :=
  if c.showGraphs then Plain s else Remembering known s

theorem serving_session : c.Serving known c.session := by
  unfold Serving session
  split
  · exact plain_fresh
  · exact remembering_fresh

/-- Where there is no program, a message is all there is. -/
theorem inspect_broken (h : entry.Broken depth) (path : Text) :
    ∃ message, ∀ s, c.inspect depth path entry s = (failure path message, s) := by
  obtain _ | ⟨code, reason⟩ | h | ⟨h, hparse⟩ := h
  · exact ⟨_, fun _ => rfl⟩
  · exact ⟨_, fun _ => rfl⟩
  · refine ⟨"invalid utf-8", fun s => ?_⟩
    simp only [inspect, Entry.source?, h]
  · rename_i e
    refine ⟨"parse error: " ++ e.message, fun s => ?_⟩
    simp only [inspect, Entry.source?, h, hparse]

/-- A program is reported on as if it stood alone, with the same graphs if they are shown. -/
theorem inspect_program (htelling : Telling known) {p : Program}
    (hp : entry.program? depth = some p) (hknown : ∀ f ∈ entry.fragments depth, known f)
    (path : Text) :
    ∃ options graphs, ∀ s, c.Serving known s → ∃ s',
      c.inspect depth path entry s = (c.finding path options graphs (p.report options), s') ∧
        c.Serving known s' := by
  obtain ⟨source, hsource, hparse⟩ := Entry.exists_source hp path
  have hmembers : ∀ m ∈ p.ownedMembers, known (.member m.member) := fun m hm =>
    hknown _ (List.mem_flatMap.2 ⟨p, Option.mem_toList.2 hp, List.mem_map_of_mem hm⟩)
  let options := (Options.ofPragmas (.ofChars source) .default).hide c.hideLocals c.hideParameters
  have hinspect : ∀ {s s'},
      (program p options).run { s with graphs := [] } = (.ok (p.report options), s') →
        c.inspect depth path entry s =
          (c.finding path options s'.graphs.reverse (p.report options), s') := by
    intro s s' hrun
    simp only [inspect, hsource, hparse, options] at hrun ⊢
    rw [hrun]
  refine ⟨options, ((program p options).run (.fresh none)).2.graphs.reverse, fun s hs => ?_⟩
  cases hshow : c.showGraphs with
  | true =>
    rw [Serving, if_pos hshow] at hs
    obtain ⟨s₁, hfresh, hs₁⟩ := program_plain p options plain_fresh
    obtain ⟨log, hrun⟩ := ignoresLog_program p options (.fresh none) s.log
    have hcleared : { s with graphs := [] } = { Session.fresh none with log := s.log } := by
      obtain ⟨⟨hpatience, hstop⟩, hcache⟩ := hs
      cases s
      cases hpatience
      cases hstop
      cases hcache
      rfl
    rw [hfresh, ← hcleared] at hrun
    refine ⟨_, (hinspect hrun).trans (by rw [hfresh]), ?_⟩
    rw [Serving, if_pos hshow]
    exact ⟨⟨hs₁.patience, hs₁.stopAtGraph⟩, hs₁.cache⟩
  | false =>
    have hno : ¬ c.showGraphs = true := by simp [hshow]
    rw [Serving, if_neg hno] at hs
    obtain ⟨s', hrun, hs'⟩ := run_program
      (fun s event (h : Remembering known s) => ⟨⟨h.patience, h.stopAtGraph⟩, h.cache⟩) p
      (fun m hm => answers_remembering htelling (hmembers m hm) m.owner) options
      (s := { s with graphs := [] }) ⟨⟨hs.patience, hs.stopAtGraph⟩, hs.cache⟩
    refine ⟨s', (hinspect hrun).trans ?_, by rwa [Serving, if_neg hno]⟩
    simp only [finding, hshow]
    rfl

variable (depth)

/-- What is found in a file that stands alone. -/
def found (path : Text) (entry : Entry) : Finding := (c.inspect depth path entry c.session).1

/-- What is found in a file does not depend on the files that were analyzed before it. -/
theorem inspect_serving (path : Text) (htelling : Telling known)
    (hknown : ∀ f ∈ entry.fragments depth, known f) (hs : c.Serving known s) :
    ∃ s', c.inspect depth path entry s = (c.found depth path entry, s') ∧
      c.Serving known s' := by
  unfold found
  cases hp : entry.program? depth with
  | none =>
    obtain ⟨message, hfailure⟩ := c.inspect_broken (Entry.broken_iff.2 hp) path
    exact ⟨s, by rw [hfailure, hfailure], hs⟩
  | some p =>
    obtain ⟨options, graphs, hfinding⟩ := c.inspect_program htelling hp hknown path
    obtain ⟨s', hinspect, hs'⟩ := hfinding s hs
    obtain ⟨_, halone, -⟩ := hfinding c.session c.serving_session
    exact ⟨s', by rw [hinspect, halone], hs'⟩

theorem inspectAll_serving (htelling : Telling known) (entryAt : Text → Entry) (input : ByteArray)
    {paths : List Text} (hpaths : ("-" : Text) ∉ paths)
    (hknown : ∀ path ∈ paths, ∀ f ∈ (entryAt path).fragments depth, known f)
    (hs : c.Serving known s) :
    (c.inspectAll depth entryAt input paths s).1 =
      paths.map fun path => c.found depth path (entryAt path) := by
  induction paths generalizing s with
  | nil => rfl
  | cons path paths ih =>
    obtain ⟨hpath, hothers⟩ := List.forall_mem_cons.1 hknown
    rw [List.mem_cons, not_or] at hpaths
    obtain ⟨s₁, hinspect, hs₁⟩ := c.inspect_serving depth path htelling hpath hs
    rw [inspectAll, if_neg (Ne.symm hpaths.1)]
    dsimp only
    rw [hinspect, List.map_cons, ih hpaths.2 hothers hs₁]

/-- Only a file without a program counts as a failure. -/
theorem exit_found (htelling : Telling known) (hknown : ∀ f ∈ entry.fragments depth, known f)
    (path : Text) :
    (c.found depth path entry).exit = if (entry.program? depth).isNone then 1 else 0 := by
  unfold found
  cases hp : entry.program? depth with
  | none =>
    obtain ⟨message, hfailure⟩ := c.inspect_broken (Entry.broken_iff.2 hp) path
    rw [hfailure]
    rfl
  | some p =>
    obtain ⟨options, graphs, hfinding⟩ := c.inspect_program htelling hp hknown path
    obtain ⟨_, halone, -⟩ := hfinding c.session c.serving_session
    rw [halone]
    rfl

/-! ## Several jobs -/

variable {order : Nat → List Nat}

/-- In whatever order the files are taken up, each of them is. -/
abbrev Fair (order : Nat → List Nat) : Prop := ∀ count, (order count).Perm (List.range count)

theorem perm_schedule (horder : Fair order) :
    (c.schedule order).Perm (List.range c.paths.length) := by
  unfold schedule
  split
  · exact horder _
  · exact .refl _

/-- Files are taken up in order unless something else is arranged, whatever the number of jobs. -/
theorem schedule_range : c.schedule List.range = List.range c.paths.length := by
  unfold schedule
  split <;> rfl

theorem lookup_zip_filterMap {α β : Type} (f : α → β) {xs : List α} {places : List Nat}
    (hplaces : ∀ i ∈ places, i < xs.length) {i : Nat} (hi : i ∈ places) :
    (places.zip ((places.filterMap (xs[·]?)).map f)).lookup i = (xs[i]?).map f := by
  induction places with
  | nil => cases hi
  | cons j places ih =>
    obtain ⟨hj, hplaces⟩ := List.forall_mem_cons.1 hplaces
    rw [List.filterMap_cons, List.getElem?_eq_getElem hj, List.map_cons, List.zip_cons_cons,
      List.lookup_cons]
    by_cases hij : i = j
    · simp [hij, hj]
    · have hne : (i == j) = false := by simpa using hij
      rw [hne]
      exact ih hplaces ((List.mem_cons.1 hi).resolve_left hij)

theorem filterMap_range_getElem? {α β : Type} (f : α → β) (xs : List α) :
    ((List.range xs.length).filterMap fun i => (xs[i]?).map f) = xs.map f := by
  induction xs with
  | nil => rfl
  | cons x xs ih =>
    rw [List.length_cons, List.range_succ_eq_map, List.filterMap_cons, List.filterMap_map,
      List.map_cons, ← ih]
    rfl

/-- What is found is joined in the order of the files, in whatever order they were taken up. -/
theorem inPlace_map (f : Text → Finding) {paths : List Text} {places : List Nat}
    (hperm : places.Perm (List.range paths.length)) :
    inPlace places ((places.filterMap (paths[·]?)).map f) = paths.map f := by
  have hlength : places.length = paths.length := hperm.length_eq.trans List.length_range
  have hplaces : ∀ i ∈ places, i < paths.length := fun i hi => List.mem_range.1 (hperm.subset hi)
  calc inPlace places ((places.filterMap (paths[·]?)).map f)
    _ = (List.range paths.length).filterMap fun i => (paths[i]?).map f := by
      rw [inPlace, hlength]
      exact List.filterMap_congr fun i hi => lookup_zip_filterMap f hplaces (hperm.mem_iff.2 hi)
    _ = paths.map f := filterMap_range_getElem? f paths

theorem analyze_serving (htelling : Telling known) (horder : Fair order)
    (entryAt : Text → Entry) (input : ByteArray) (hpaths : ("-" : Text) ∉ c.paths)
    (hknown : ∀ path ∈ c.paths, ∀ f ∈ (entryAt path).fragments depth, known f) :
    (c.analyze depth order entryAt input).out =
        Text.ofLines (c.paths.flatMap fun path => (c.found depth path (entryAt path)).out) ∧
      (c.analyze depth order entryAt input).exit =
        (c.paths.map fun path => (c.found depth path (entryAt path)).exit).foldl max 0 := by
  have hsub : (c.schedule order).filterMap (c.paths[·]?) ⊆ c.paths := by
    intro path hpath
    obtain ⟨i, -, hi⟩ := List.mem_filterMap.1 hpath
    exact List.mem_of_getElem? hi
  have hall := c.inspectAll_serving depth htelling entryAt input (fun h => hpaths (hsub h))
    (fun path hpath => hknown path (hsub hpath)) c.serving_session
  unfold analyze
  dsimp only
  rw [hall, inPlace_map _ (c.perm_schedule horder), List.flatMap_map, List.map_map]
  exact ⟨rfl, rfl⟩

theorem inspectAll_jobs (jobs : Nat) (entryAt : Text → Entry) (input : ByteArray)
    (paths : List Text) (s : Session) :
    { c with jobs := jobs }.inspectAll depth entryAt input paths s =
      c.inspectAll depth entryAt input paths s := by
  induction paths generalizing input s with
  | nil => rfl
  | cons path paths ih =>
    simp only [inspectAll, ih]
    rfl

/-- Jobs that take up the files in order change nothing at all. -/
theorem analyze_jobs (jobs : Nat) (entryAt : Text → Entry) (input : ByteArray) :
    { c with jobs := jobs }.analyze depth List.range entryAt input =
      c.analyze depth List.range entryAt input := by
  unfold analyze
  rw [schedule_range, schedule_range]
  dsimp only
  rw [inspectAll_jobs]
  rfl

/-- What may stand in front of the files: a number of jobs that can be read, or nothing. -/
inductive JobsGiven : List Text → Prop
  | nothing : JobsGiven []
  | jobs {value : Text} {jobs : Nat} (h : readJobs value = .ok jobs) :
    JobsGiven ["--jobs", value]

/-- Behind flags that are all accepted, names are analyzed with the flags that were set. -/
theorem exists_run (entryAt : Text → Entry) (input : ByteArray) {flags : List Text}
    (hflags : ofArguments flags = .error .noPath) :
    ∃ c : Command, ∀ files ≠ [], (∀ f ∈ files, f.startsWith "-" = false) →
      (∀ order, run entryAt input (flags ++ files) depth order =
        .ok ({ c with paths := files }.analyze depth order entryAt input)) ∧
      ∀ given, JobsGiven given → ∃ jobs, ∀ order,
        run entryAt input (flags ++ (given ++ files)) depth order =
          .ok ({ c with paths := files, jobs := jobs }.analyze depth order entryAt input) := by
  obtain ⟨c, hpaths, hread⟩ := exists_read_append hflags
  refine ⟨c, fun files hfiles hnames => ?_⟩
  have hplain : ∀ jobs, { c with jobs := jobs }.read files =
      .ok (.analyze { c with paths := files, jobs := jobs }) :=
    fun jobs => read_files (c := { c with jobs := jobs }) hpaths hfiles hnames
  have hof : ∀ {rest c'}, c.read rest = .ok (.analyze c') → ∀ order,
      run entryAt input (flags ++ rest) depth order =
        .ok (c'.analyze depth order entryAt input) := by
    intro rest c' hrest order
    rw [run, ofArguments, hread, hrest]
  refine ⟨hof (hplain c.jobs), ?_⟩
  rintro _ (_ | @⟨value, jobs, hjobs⟩)
  · exact ⟨c.jobs, hof (hplain c.jobs)⟩
  · refine ⟨jobs, hof ?_⟩
    rw [List.cons_append, read.eq_def]
    simpa [flag?, hjobs] using hplain jobs

/-- Files do not influence each other. Behind flags that are all accepted, so that only a path is
missing, files are shown one behind the other as each is if it stands alone, and the worst exit
code wins. It is 1 exactly if one of the files cannot be read, decoded or parsed. The number of jobs
changes nothing, and in whatever order these take up the files, the same is shown of them with the
same exit code. SHA-256 is to have no collision on what is hashed. -/
theorem run_apart (entryAt : Text → Entry) (input : ByteArray) (depth : Nat)
    {flags files : List Text} (hflags : ofArguments flags = .error .noPath) (hfiles : files ≠ [])
    (hnames : ∀ f ∈ files, f.startsWith "-" = false)
    (hdigest : ∀ f ∈ files.flatMap fun path => (entryAt path).fragments depth,
      ∀ g ∈ files.flatMap fun path => (entryAt path).fragments depth,
        Sha256.digest f.tree.spelling.utf8 = Sha256.digest g.tree.spelling.utf8 →
          f.tree.spelling.utf8 = g.tree.spelling.utf8) :
    ∃ (whole : Outcome) (alone : Text → Outcome),
      run entryAt input (flags ++ files) depth = .ok whole ∧
      (∀ f ∈ files, run entryAt input (flags ++ [f]) depth = .ok (alone f)) ∧
      whole.out.codes = files.flatMap (fun f => (alone f).out.codes) ∧
      (files.map fun f => (alone f).exit).max? = some whole.exit ∧
      (whole.exit = 1 ↔ ∃ f ∈ files, (entryAt f).Broken depth) ∧
      ∀ given, JobsGiven given →
        run entryAt input (flags ++ (given ++ files)) depth = .ok whole ∧
        ∀ order, Fair order → ∃ err,
          run entryAt input (flags ++ (given ++ files)) depth order =
            .ok { whole with err := err } := by
  obtain ⟨c, hrun⟩ := exists_run depth entryAt input hflags
  have htelling : Telling (· ∈ files.flatMap fun path => (entryAt path).fragments depth) := by
    refine telling_of_digest (fun f hf => ?_) fun f g hf hg => hdigest f hf g hg
    obtain ⟨path, -, hf⟩ := List.mem_flatMap.1 hf
    exact Entry.coded_fragments f hf
  have hknown : ∀ path ∈ files, ∀ f ∈ (entryAt path).fragments depth,
      f ∈ files.flatMap fun path => (entryAt path).fragments depth :=
    fun path hpath f hf => List.mem_flatMap.2 ⟨path, hpath, hf⟩
  have hinOrder : Fair List.range := fun _ => .refl _
  -- Some of the files are found as they are alone, by so many jobs in any order.
  have hanalyze : ∀ paths, (∀ f ∈ paths, f ∈ files) → ∀ jobs order, Fair order →
      ({ c with paths := paths, jobs := jobs }.analyze depth order entryAt input).out =
          Text.ofLines (paths.flatMap fun path => (c.found depth path (entryAt path)).out) ∧
        ({ c with paths := paths, jobs := jobs }.analyze depth order entryAt input).exit =
          (paths.map fun path => (c.found depth path (entryAt path)).exit).foldl max 0 := by
    intro paths hsub jobs order horder
    refine analyze_serving { c with paths := paths, jobs := jobs } depth htelling horder entryAt
      input (fun hdash => ?_) fun path hpath => hknown path (hsub path hpath)
    exact absurd (hnames _ (hsub _ hdash)) (by decide)
  have hone : ∀ f ∈ files, ∀ path ∈ [f], path ∈ files := by
    intro f hf path hpath
    rwa [List.mem_singleton.1 hpath]
  have hwhole := hanalyze files (fun _ => id) c.jobs List.range hinOrder
  have hexit : ∀ f ∈ files,
      ({ c with paths := [f] }.analyze depth List.range entryAt input).exit =
        (c.found depth f (entryAt f)).exit := by
    intro f hf
    rw [(hanalyze [f] (hone f hf) c.jobs List.range hinOrder).2, List.map_singleton,
      List.foldl_cons, List.foldl_nil, Nat.zero_max]
  have hmax : (files.map fun f => (c.found depth f (entryAt f)).exit).max? =
      some ({ c with paths := files }.analyze depth List.range entryAt input).exit := by
    rw [hwhole.2]
    cases files with
    | nil => exact absurd rfl hfiles
    | cons f files => rw [List.map_cons, List.max?_cons', List.foldl_cons, Nat.zero_max]
  refine ⟨{ c with paths := files }.analyze depth List.range entryAt input,
    fun f => { c with paths := [f] }.analyze depth List.range entryAt input,
    (hrun files hfiles hnames).1 _,
    fun f hf => (hrun [f] (List.cons_ne_nil _ _) fun g hg => hnames g (hone f hf g hg)).1 _,
    ?_, ?_, ?_, fun given hgiven => ?_⟩
  · rw [hwhole.1]
    simp only [Text.ofLines, List.flatMap_assoc]
    refine List.flatMap_congr fun f hf => ?_
    rw [(hanalyze [f] (hone f hf) c.jobs List.range hinOrder).1]
    simp [Text.ofLines]
  · rw [← hmax]
    exact congrArg List.max? (List.map_congr_left hexit)
  · have hcode : ∀ f ∈ files, (c.found depth f (entryAt f)).exit =
        if ((entryAt f).program? depth).isNone then 1 else 0 :=
      fun f hf => c.exit_found depth htelling (hknown f hf) f
    obtain ⟨hmem, hle⟩ := List.max?_eq_some_iff.1 hmax
    obtain ⟨worst, hworst, heq⟩ := List.mem_map.1 hmem
    rw [hcode worst hworst] at heq
    constructor
    · intro hfails
      refine ⟨worst, hworst, Entry.broken_iff.2 ?_⟩
      rw [hfails] at heq
      by_contra hsome
      simp [hsome] at heq
    · rintro ⟨f, hf, hbroken⟩
      have hfound := hle _ (List.mem_map_of_mem hf)
      rw [hcode f hf, Entry.broken_iff.1 hbroken] at hfound
      refine Nat.le_antisymm ?_ hfound
      rw [← heq]
      split <;> omega
  · obtain ⟨jobs, hjobs⟩ := (hrun files hfiles hnames).2 given hgiven
    refine ⟨(hjobs _).trans (congrArg Except.ok ?_), fun order horder => ?_⟩
    · exact analyze_jobs { c with paths := files } depth jobs entryAt input
    · have hany := hanalyze files (fun _ => id) jobs order horder
      refine ⟨({ c with paths := files, jobs := jobs }.analyze depth order entryAt input).err,
        (hjobs order).trans (congrArg Except.ok ?_)⟩
      exact Outcome.eq_with_err (hany.1.trans hwhole.1.symm) (hany.2.trans hwhole.2.symm)

/-- A class is analyzed, then a file that is missing, then the class again. Two jobs that take them
up from the last to the first bring about the same. -/
theorem run_apart_again :
    let entryAt : Text → Entry := fun path =>
      if path = "A.java" then .bytes (String.ofList classOfMethod).toUTF8 else .missing
    ∃ (whole : Outcome) (alone : Text → Outcome),
      run entryAt .empty ["--all", "A.java", "B.java", "A.java"] = .ok whole ∧
      (∀ f ∈ (["A.java", "B.java", "A.java"] : List Text),
        run entryAt .empty ["--all", f] = .ok (alone f)) ∧
      whole.out.codes =
        (alone "A.java").out.codes ++ ((alone "B.java").out.codes ++ (alone "A.java").out.codes) ∧
      whole.exit = 1 ∧
      ∃ err, run entryAt .empty ["--all", "--jobs", "2", "A.java", "B.java", "A.java"]
        Grammar.depthLimit (fun count => (List.range count).reverse) =
          .ok { whole with err := err } := by
  intro entryAt
  obtain ⟨p, hp, hall⟩ := FlowGraph.exists_ok_of_any (x := Program.parse classOfMethod)
    (p := fun p => p.ownedMembers.all fun m => p.ownedMembers.all fun n =>
      m.member.tree.spelling = n.member.tree.spelling) (by decide +kernel)
  have hall : ∀ m ∈ p.ownedMembers, ∀ n ∈ p.ownedMembers,
      m.member.tree.spelling = n.member.tree.spelling := by simpa using hall
  have hprogram : ∀ path, (entryAt path).program? Grammar.depthLimit =
      if path = "A.java" then some p else none := by
    intro path
    dsimp only [entryAt]
    split
    · have hsource : String.fromUTF8? (String.ofList classOfMethod).toUTF8 =
          some (String.ofList classOfMethod) := dif_pos (String.ofList classOfMethod).isValidUTF8
      rw [Entry.program?, hsource, Option.bind_some, String.toList_ofList, hp]
      rfl
    · rfl
  have hfragments : ∀ f ∈ (["A.java", "B.java", "A.java"] : List Text).flatMap
      fun path => (entryAt path).fragments Grammar.depthLimit,
      ∃ m ∈ p.ownedMembers, f = .member m.member := by
    intro f hf
    obtain ⟨path, -, hf⟩ := List.mem_flatMap.1 hf
    rw [Entry.fragments, hprogram] at hf
    obtain ⟨q, hq, hf⟩ := List.mem_flatMap.1 hf
    obtain ⟨m, hm, rfl⟩ := List.mem_map.1 hf
    split at hq
    · rw [Option.toList_some, List.mem_singleton] at hq
      exact ⟨m, hq ▸ hm, rfl⟩
    · cases hq
  obtain ⟨whole, alone, hwhole, halone, hout, -, hexit, hjobs⟩ :=
    run_apart entryAt .empty Grammar.depthLimit
      (show ofArguments ["--all"] = .error .noPath from rfl)
      (show (["A.java", "B.java", "A.java"] : List Text) ≠ [] by simp) (by decide)
      (fun f hf g hg _ => by
        obtain ⟨m, hm, rfl⟩ := hfragments f hf
        obtain ⟨n, hn, rfl⟩ := hfragments g hg
        exact congrArg Text.utf8 (hall m hm n hn))
  have hmissing : (entryAt "B.java").Broken Grammar.depthLimit := Entry.broken_iff.2 (hprogram _)
  have htwo : readJobs "2" = .ok 2 := by decide +kernel
  exact ⟨whole, alone, hwhole, halone, by simpa using hout, hexit.2 ⟨"B.java", by simp, hmissing⟩,
    (hjobs _ (.jobs htwo)).2 _ fun count => (List.range count).reverse_perm⟩

end Command

end WriteOnce
