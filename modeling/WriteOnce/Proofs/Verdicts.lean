import WriteOnce.Proofs.Charts

/-!
# The verdicts of a fragment are exact

An analysis that succeeds has charted all routines of the fragment, and its verdicts
are those of the charts. A variable is judged by the chart that declares it. Should
several charts declare the same variable, the first one in the order of the source
decides, since it is analyzed last.
-/

namespace WriteOnce

open FlowGraph

namespace Analysis

variable {α β : Type} {s s' : Session}

/-! ## Runs of analyses -/

theorem bind_eq_ok {m : Analysis α} {next : α → Analysis β} {b : β} :
    (m >>= next).run s = (.ok b, s') ↔
      ∃ a s₁, m.run s = (.ok a, s₁) ∧ (next a).run s₁ = (.ok b, s') := by
  change (m.run >>= ExceptT.bindCont next : StateM Session (Except Halt β)) s = _ ↔ _
  change ExceptT.bindCont next (m.run s).1 (m.run s).2 = _ ↔ _
  obtain ⟨result, s₁⟩ := m.run s
  cases result with
  | ok a =>
    constructor
    · intro h
      exact ⟨a, s₁, rfl, h⟩
    · rintro ⟨_, _, h, hnext⟩
      cases h
      exact hnext
  | error e =>
    constructor
    · intro h
      cases h
    · rintro ⟨_, _, h, _⟩
      cases h

theorem pure_eq_ok {a b : α} :
    (pure a : Analysis α).run s = (.ok b, s') ↔ a = b ∧ s = s' := by
  constructor
  · intro h
    cases h
    exact ⟨rfl, rfl⟩
  · rintro ⟨rfl, rfl⟩
    rfl

theorem ofExcept_eq_ok {x : Except AnalysisError α} {a : α} :
    (ofExcept x).run s = (.ok a, s') ↔ x = .ok a ∧ s = s' := by
  cases x with
  | ok b =>
    constructor
    · intro h
      cases h
      exact ⟨rfl, rfl⟩
    · rintro ⟨h, rfl⟩
      cases h
      rfl
  | error e =>
    constructor
    · intro h
      cases h
    · rintro ⟨h, _⟩
      cases h

theorem exists_run_of_any {m : Analysis α} {p : α → Bool}
    (h : (m.run s).1.toOption.any p = true) : ∃ a s', m.run s = (.ok a, s') ∧ p a = true := by
  obtain ⟨a, hok, hp⟩ := exists_ok_of_any h
  exact ⟨a, _, Prod.ext hok rfl, hp⟩

/-- The cache and the graphs of a session are as they were. -/
structure Quiet (s s' : Session) : Prop where
  cache : s'.cache = s.cache
  graphs : s'.graphs = s.graphs

theorem Quiet.trans {s₁ s₂ s₃ : Session} (h : Quiet s₁ s₂) (h' : Quiet s₂ s₃) : Quiet s₁ s₃ :=
  ⟨h'.cache.trans h.cache, h'.graphs.trans h.graphs⟩

theorem quiet_checks {times : Nat} {u : Unit} (h : (checks times).run s = (.ok u, s')) :
    Quiet s s' := by
  unfold checks at h
  obtain ⟨a, s₁, hget, h⟩ := bind_eq_ok.1 h
  cases hget
  split at h
  · cases h
    exact ⟨rfl, rfl⟩
  · obtain ⟨_, s₂, hmodify, h⟩ := bind_eq_ok.1 h
    cases hmodify
    split at h
    · cases h
    · cases h
      exact ⟨rfl, rfl⟩

theorem quiet_log {event : LogEvent} {u : Unit} (h : (log event).run s = (.ok u, s')) :
    Quiet s s' := by
  cases h
  exact ⟨rfl, rfl⟩

theorem keep_graphs {g : FlowGraph} {u : Unit} (h : (keep g).run s = (.ok u, s')) :
    s'.graphs = g :: s.graphs := by
  cases h
  cases hstop : s.stopAtGraph with
  | none => simp [hstop]
  | some n =>
    simp only [hstop]
    split_ifs <;> rfl

/-! ## One routine -/

variable {c : Collection} {sums : Summaries} {r : Routine} {w : WriteCount} {vs vs' : Verdicts}

theorem graphOf_eq_ok {g : FlowGraph} (h : (graphOf c sums r).run s = (.ok g, s')) :
    ∃ whole, ofRoutine (c.resolution sums) r = .ok whole ∧ g = whole.prune ∧ Quiet s s' := by
  unfold graphOf at h
  obtain ⟨_, s₁, hcheck, h⟩ := bind_eq_ok.1 h
  obtain ⟨whole, s₂, hdrawn, h⟩ := bind_eq_ok.1 h
  obtain ⟨hwhole, rfl⟩ := ofExcept_eq_ok.1 hdrawn
  obtain ⟨_, s₃, hchecks, h⟩ := bind_eq_ok.1 h
  have hquiet := (quiet_checks hcheck).trans (quiet_checks hchecks)
  refine ⟨whole, hwhole, ?_⟩
  dsimp only at h
  split at h
  · obtain ⟨_, s₄, hdropped, h⟩ := bind_eq_ok.1 h
    obtain ⟨_, s₅, hsize, h⟩ := bind_eq_ok.1 h
    obtain ⟨rfl, rfl⟩ := pure_eq_ok.1 h
    exact ⟨rfl, (hquiet.trans (quiet_log hdropped)).trans (quiet_log hsize)⟩
  · obtain ⟨_, s₄, hsize, h⟩ := bind_eq_ok.1 h
    obtain ⟨rfl, rfl⟩ := pure_eq_ok.1 h
    exact ⟨rfl, hquiet.trans (quiet_log hsize)⟩

theorem countWrites_eq_ok {g : FlowGraph} (h : (countWrites g).run s = (.ok w, s')) :
    WriteCount.ofGraph g = .ok w ∧ Quiet s s' := by
  unfold countWrites at h
  obtain ⟨_, s₁, hvisits, h⟩ := bind_eq_ok.1 h
  obtain ⟨counted, s₂, hswept, h⟩ := bind_eq_ok.1 h
  obtain ⟨hcounted, rfl⟩ := ofExcept_eq_ok.1 hswept
  obtain ⟨_, s₃, hchecks, h⟩ := bind_eq_ok.1 h
  obtain ⟨_, s₄, hlog, h⟩ := bind_eq_ok.1 h
  obtain ⟨rfl, rfl⟩ := pure_eq_ok.1 h
  exact ⟨hcounted, ((quiet_checks hvisits).trans (quiet_checks hchecks)).trans (quiet_log hlog)⟩

instance : EquivBEq Declaration where
  rfl := beq_self_eq_true (α := Variable) _
  symm h := BEq.symm (α := Variable) h
  trans h h' := BEq.trans (α := Variable) h h'

/-- What a table of verdicts says about a variable. -/
def said (vs : Verdicts) (v : Variable) : Option Verdict := vs.lookup ⟨v, none⟩

theorem lookup_eq_said (vs : Verdicts) (d : Declaration) : vs.lookup d = said vs d.var := by
  induction vs with
  | nil => rfl
  | cons entry vs ih =>
    unfold said at ih ⊢
    rw [List.lookup_cons, List.lookup_cons, ih]
    rfl

theorem said_insert (vs : Verdicts) (d : Declaration) (x : Verdict) (v : Variable) :
    said (vs.insert d x) v = if d.var = v then some x else said vs v := by
  unfold said
  rw [Table.lookup_insert]
  refine if_congr ?_ rfl rfl
  exact beq_iff_eq (α := Variable)

open Classical in
/-- The verdicts of a routine are added, whatever the table said about its variables. -/
theorem judgeAll_spec {bound written : List Variable} {judgment : Variable → Verdict}
    (ds : List Declaration) (hdistinct : vs.Distinct)
    (hjudge : ∀ d ∈ ds, d.judge (written.contains d.var) (w.reason? d.var) = judgment d.var)
    (h : (judgeAll r w bound written ds vs).run s = (.ok vs', s')) :
    Quiet s s' ∧ vs'.Distinct ∧ ∀ v, said vs' v =
      if v ∈ ds.map Declaration.var ∧ v ∈ bound then some (judgment v) else said vs v := by
  induction ds generalizing vs s with
  | nil =>
    obtain ⟨rfl, rfl⟩ := pure_eq_ok.1 h
    exact ⟨⟨rfl, rfl⟩, hdistinct, fun v => by simp⟩
  | cons d ds ih =>
    have hjudges := fun e he => hjudge e (.tail _ he)
    rw [judgeAll] at h
    split at h
    · rename_i hbound
      obtain ⟨hquiet, hdistinct, hsaid⟩ := ih (hdistinct.insert d _) hjudges h
      refine ⟨hquiet, hdistinct, fun v => ?_⟩
      rw [hsaid, said_insert, hjudge d (.head _)]
      by_cases hd : d.var = v
      · subst hd
        simp [List.contains_iff_mem.1 hbound]
      · simp [hd, Ne.symm hd]
    · rename_i hbound
      obtain ⟨_, s₁, hlog, h⟩ := bind_eq_ok.1 h
      obtain ⟨hquiet, hdistinct, hsaid⟩ := ih hdistinct hjudges h
      refine ⟨(quiet_log hlog).trans hquiet, hdistinct, fun v => ?_⟩
      have hnot : d.var ∉ bound := fun hd => hbound (List.contains_iff_mem.2 hd)
      rw [hsaid]
      by_cases hd : d.var = v
      · subst hd
        simp [hnot]
      · simp [Ne.symm hd]

/-! ## All routines -/

/-- The table says about every variable what the first chart says that declares it. -/
structure Judges (us : List Chart) (vs : Verdicts) : Prop where
  distinct : vs.Distinct
  said_eq : ∀ v, said vs v = (Chart.declaring? us v).map fun u => u.verdict v

theorem judges_nil : Judges [] [] := ⟨.nil, fun _ => rfl⟩

/-- One more routine is charted, and its verdicts replace those of the routines behind it. -/
theorem Judges.step {us : List Chart} (hdrawn : Chart.Drawn c us sums) (hjudges : Judges us vs)
    (hmarked : r.Marked) {s₁ s₂ s₃ s₄ : Session} {g : FlowGraph} {u₁ u₂ : Unit}
    (hcheck : check.run s = (.ok u₁, s₁)) (hgraph : (graphOf c sums r).run s₁ = (.ok g, s₂))
    (hkeep : (keep g).run s₂ = (.ok u₂, s₃)) (hcount : (countWrites g).run s₃ = (.ok w, s₄))
    (hjudge : (judgeAll r w g.bound g.written r.declarations vs).run s₄ = (.ok vs', s')) :
    ∃ u, Chart.Drawn c (u :: us) (summarize r w ++ sums) ∧ u.routine = r ∧
      Judges (u :: us) vs' ∧ s'.graphs = u.graph :: s.graphs := by
  obtain ⟨whole, hwhole, rfl, hquiet⟩ := graphOf_eq_ok hgraph
  obtain ⟨hw, hquiet'⟩ := countWrites_eq_ok hcount
  obtain ⟨hquiet'', hdistinct, hsaid⟩ := judgeAll_spec r.declarations hjudges.distinct
    (fun d hd => Chart.judge_eq hmarked hwhole hw hd) hjudge
  refine ⟨⟨r, whole.prune⟩, hdrawn.cons hwhole hw, rfl, ⟨hdistinct, fun v => ?_⟩, ?_⟩
  · have hdeclares : Chart.Declares ⟨r, whole.prune⟩ v ↔
        v ∈ r.declarations.map Declaration.var ∧ v ∈ whole.prune.bound :=
      and_congr_right fun _ => (mem_bound (Chart.reaches_of_mem hwhole)).symm
    rw [hsaid, hjudges.said_eq]
    by_cases hv : Chart.Declares ⟨r, whole.prune⟩ v
    · rw [if_pos (hdeclares.1 hv), Chart.declaring?_cons_pos hv]
      rfl
    · rw [if_neg fun h => hv (hdeclares.2 h), Chart.declaring?_cons_neg hv]
  · rw [hquiet''.graphs, hquiet'.graphs, keep_graphs hkeep, hquiet.graphs,
      (quiet_checks hcheck).graphs]

theorem analyzeAll_spec {us : List Chart} (rs : List Routine) (hmarked : ∀ r ∈ rs, r.Marked)
    (hdrawn : Chart.Drawn c us sums) (hjudges : Judges us vs)
    (h : (analyzeAll c rs sums vs).run s = (.ok vs', s')) :
    ∃ us' sums', Chart.Drawn c (us' ++ us) sums' ∧ us'.map Chart.routine = rs.reverse ∧
      Judges (us' ++ us) vs' ∧ s'.graphs = us'.map Chart.graph ++ s.graphs := by
  induction rs generalizing us sums vs s with
  | nil =>
    obtain ⟨rfl, rfl⟩ := pure_eq_ok.1 h
    exact ⟨[], sums, hdrawn, rfl, hjudges, rfl⟩
  | cons r rs ih =>
    rw [analyzeAll] at h
    obtain ⟨_, s₁, hcheck, h⟩ := bind_eq_ok.1 h
    obtain ⟨g, s₂, hgraph, h⟩ := bind_eq_ok.1 h
    obtain ⟨_, s₃, hkeep, h⟩ := bind_eq_ok.1 h
    obtain ⟨w, s₄, hcount, h⟩ := bind_eq_ok.1 h
    obtain ⟨verdicts, s₅, hjudge, h⟩ := bind_eq_ok.1 h
    obtain ⟨u, hdrawn, hroutine, hjudges, hgraphs⟩ := hjudges.step hdrawn (hmarked r (.head _))
      hcheck hgraph hkeep hcount hjudge
    obtain ⟨us', sums', hdrawn, hroutines, hjudges, hgraphs'⟩ :=
      ih (fun r hr => hmarked r (.tail _ hr)) hdrawn hjudges h
    refine ⟨us' ++ [u], sums', ?_, ?_, ?_, ?_⟩
    · simpa using hdrawn
    · simp [hroutines, hroutine]
    · simpa using hjudges
    · simp [hgraphs', hgraphs]

theorem compute_spec {f : Fragment} {owner : Text} {verdicts : Verdicts}
    (h : (compute f owner).run s = (.ok verdicts, s')) :
    ∃ c us sums vs, Collection.ofFragment owner f = .ok c ∧ Chart.Drawn c us sums ∧
      us.map Chart.routine = c.routines ∧ s'.graphs = us.map Chart.graph ++ s.graphs ∧
      Judges us vs ∧ verdicts = vs.sort := by
  unfold compute at h
  obtain ⟨c, s₁, hcollect, h⟩ := bind_eq_ok.1 h
  obtain ⟨hc, rfl⟩ := ofExcept_eq_ok.1 hcollect
  obtain ⟨vs, s₂, hanalyze, h⟩ := bind_eq_ok.1 h
  obtain ⟨rfl, rfl⟩ := pure_eq_ok.1 h
  have hmarked : ∀ r ∈ c.routines.reverse, r.Marked := fun r hr =>
    Collection.marked_ofFragment hc r (List.mem_reverse.1 hr)
  obtain ⟨us, sums, hdrawn, hroutines, hjudges, hgraphs⟩ :=
    analyzeAll_spec _ hmarked .nil judges_nil hanalyze
  rw [List.append_nil] at hdrawn hjudges
  rw [List.reverse_reverse] at hroutines
  exact ⟨c, us, sums, vs, hc, hdrawn, hroutines, hgraphs, hjudges, rfl⟩

theorem Judges.mem_iff_said {us : List Chart} (h : Judges us vs) {v : Variable} {x : Verdict} :
    (∃ d, (d, x) ∈ vs ∧ d.var = v) ↔ said vs v = some x := by
  constructor
  · rintro ⟨d, hd, rfl⟩
    rw [← lookup_eq_said]
    exact h.distinct.lookup_eq hd
  · intro hx
    obtain ⟨d, hd, hv⟩ := Table.exists_mem_of_lookup hx
    have hv : (v == d.var) = true := hv
    exact ⟨d, hd, (beq_iff_eq.1 hv).symm⟩

/-- An entry for a variable holds the verdict of the first chart that declares the variable. -/
theorem Judges.mem_iff {us : List Chart} (h : Judges us vs) {v : Variable} {x : Verdict} :
    (∃ d, (d, x) ∈ vs ∧ d.var = v) ↔ ∃ u, Chart.declaring? us v = some u ∧ u.verdict v = x := by
  rw [h.mem_iff_said, h.said_eq, Option.map_eq_some_iff]

theorem Judges.mem_keys_iff {us : List Chart} (h : Judges us vs) {v : Variable} :
    v ∈ vs.map (fun e => e.1.var) ↔ ∃ u ∈ us, u.Declares v := by
  have hkey : v ∈ vs.map (fun e => e.1.var) ↔ ∃ x d, (d, x) ∈ vs ∧ d.var = v := by
    rw [List.mem_map]
    constructor
    · rintro ⟨⟨d, x⟩, he, hv⟩
      exact ⟨x, d, he, hv⟩
    · rintro ⟨x, d, he, hv⟩
      exact ⟨(d, x), he, hv⟩
  rw [hkey]
  constructor
  · rintro ⟨x, hx⟩
    obtain ⟨u, hu, -⟩ := h.mem_iff.1 hx
    exact Chart.exists_declaring_iff.2 ⟨u, hu⟩
  · intro hu
    obtain ⟨u, hu⟩ := Chart.exists_declaring_iff.1 hu
    exact ⟨u.verdict v, h.mem_iff.2 ⟨u, hu, rfl⟩⟩

theorem nodup_of_distinct (h : vs.Distinct) : (vs.map fun e => e.1.var).Nodup := by
  unfold Table.Distinct at h
  rw [List.pairwise_map] at h
  rw [List.Nodup, List.pairwise_map]
  refine h.imp fun {a b} hab heq => ?_
  have hab : (a.1.var == b.1.var) = false := hab
  exact beq_eq_false_iff_ne.1 hab heq

theorem Judges.nodup {us : List Chart} (h : Judges us vs) :
    (vs.map fun e => e.1.var).Nodup := nodup_of_distinct h.distinct

/-- Without a cache, the verdicts of a fragment are computed, and sorted in the end. -/
theorem fragment_spec {f : Fragment} {owner : Text} {verdicts : Verdicts} (hcache : s.cache = none)
    (h : (fragment f owner).run s = (.ok verdicts, s')) :
    ∃ c us sums vs, Collection.ofFragment owner f = .ok c ∧ Chart.Drawn c us sums ∧
      us.map Chart.routine = c.routines ∧ s'.graphs = us.map Chart.graph ++ s.graphs ∧
      Judges us vs ∧ verdicts = vs.sort := by
  unfold fragment at h
  obtain ⟨_, s₁, hcheck, h⟩ := bind_eq_ok.1 h
  obtain ⟨state, s₂, hget, h⟩ := bind_eq_ok.1 h
  cases hget
  have hquiet := quiet_checks hcheck
  rw [hquiet.cache, hcache] at h
  rw [← hquiet.graphs]
  exact compute_spec h

/-- The verdicts of a table are those of the charts, in whatever order they stand. -/
theorem Judges.exists_declaring {us : List Chart} (h : Judges us vs) {e : Declaration × Verdict}
    (he : e ∈ vs.sort) :
    ∃ u, Chart.declaring? us e.1.var = some u ∧ u.verdict e.1.var = e.2 :=
  h.mem_iff.1 ⟨e.1, (perm_sortBy _ vs).mem_iff.1 he, rfl⟩

/-- Without a cache, an analysis that succeeds has charted all routines of the fragment, the body
itself and its lambdas. Its verdicts are on exactly the variables that a chart declares, one on
each, and every verdict is the one that the paths of the chart give. -/
theorem fragment_exact {f : Fragment} {owner : Text} {verdicts : Verdicts}
    (hcache : s.cache = none) (h : (fragment f owner).run s = (.ok verdicts, s')) :
    ∃ c us sums, Collection.ofFragment owner f = .ok c ∧ Chart.Drawn c us sums ∧
      us.map Chart.routine = c.routines ∧ s'.graphs = us.map Chart.graph ++ s.graphs ∧
      (verdicts.map fun e => e.1.var).Nodup ∧
      (∀ v, v ∈ verdicts.map (fun e => e.1.var) ↔ ∃ u ∈ us, u.Declares v) ∧
      ∀ e ∈ verdicts, ∃ u, Chart.declaring? us e.1.var = some u ∧ u.verdict e.1.var = e.2 := by
  obtain ⟨c, us, sums, vs, hc, hdrawn, hroutines, hgraphs, hjudges, rfl⟩ := fragment_spec hcache h
  have hkeys : (vs.sort.map fun e => e.1.var).Perm (vs.map fun e => e.1.var) :=
    (perm_sortBy _ vs).map _
  refine ⟨c, us, sums, hc, hdrawn, hroutines, hgraphs, ?_, fun v => ?_, fun e he => ?_⟩
  · exact hkeys.nodup_iff.2 hjudges.nodup
  · rw [hkeys.mem_iff]
    exact hjudges.mem_keys_iff
  · exact hjudges.exists_declaring he

/-- `{ int x; for (;;) x = 1; }` -/
def rewritingLoop : Block :=
  ⟨⟨1, 1⟩, [
    .localDecl ⟨⟨1, 3⟩, [], ⟨⟨1, 3⟩, "int", [], 0⟩, [⟨⟨1, 7⟩, "x", 0, none⟩]⟩,
    .forLoop ⟨1, 10⟩ (.exprs []) none []
      (.expr ⟨1, 19⟩ (.assign ⟨1, 19⟩ .plain (.name ⟨1, 19⟩ "x") (.literal ⟨1, 23⟩ (.int "1"))))]⟩

theorem fragment_exact_rewriting : ∃ (verdicts : Verdicts) (s' : Session) (d : Declaration)
    (us : List Chart),
    (fragment (.block rewritingLoop) "f").run (.fresh none) = (.ok verdicts, s') ∧
    d.var = ⟨"x", .localVariable, 1, 7, "f", false, false⟩ ∧
    (d, .cannot .writtenInLoop) ∈ verdicts ∧
    s'.graphs = us.map Chart.graph ∧
    ∃ u ∈ us, u.Declares d.var ∧ u.verdict d.var = .cannot .writtenInLoop := by
  obtain ⟨verdicts, s', hrun, hp⟩ := exists_run_of_any
    (m := fragment (.block rewritingLoop) "f") (s := .fresh none)
    (p := fun vs => vs.map (fun e => (e.1.var, e.2)) =
      [(⟨"x", .localVariable, 1, 7, "f", false, false⟩, .cannot .writtenInLoop)])
    (by decide +kernel)
  have hverdicts := of_decide_eq_true hp
  obtain ⟨⟨d, x⟩, he, hd⟩ := List.mem_map.1 (hverdicts ▸ List.mem_singleton_self _)
  obtain ⟨hvar, hx⟩ := Prod.ext_iff.1 hd
  dsimp only at hvar hx
  subst hx
  obtain ⟨c, us, sums, -, -, -, hgraphs, -, -, hall⟩ := fragment_exact rfl hrun
  obtain ⟨u, hu, hverdict⟩ := hall _ he
  obtain ⟨hmem, hdeclares⟩ := Chart.of_declaring?_eq_some hu
  refine ⟨verdicts, _, d, us, hrun, hvar, he, ?_, u, hmem, hdeclares, hverdict⟩
  rw [hgraphs]
  exact List.append_nil _

end Analysis

end WriteOnce
