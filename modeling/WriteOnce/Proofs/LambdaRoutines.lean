import WriteOnce.Proofs.Census
import WriteOnce.Proofs.FragmentPlaces
import WriteOnce.Proofs.Reports

/-!
# Lambdas as routines

Every lambda of a program is charted, as a closure of the innermost member around it, and what
its chart declares is in the report. The exception is a lambda within a field: no member that can
be analyzed is around it.
-/

namespace WriteOnce

open WriteOnce.Tree (Code)

namespace Collection

variable {label : Text} {kind : Scope.Kind} {site : Site} {params : List Param} {body : Block}

/-- The routines of a body that stand at lambdas are its closures. -/
theorem isLambda_iff (hsite : site.className ≠ "JLambda") (member : Tree) {r : Routine}
    (hr : r ∈ (ofBody label kind site params body).routines) :
    (Code.ofRoutine member r).isLambda = r.isClosure := by
  rcases List.mem_cons.1 hr with rfl | hr
  · exact decide_eq_false hsite
  · obtain ⟨hcode, hclosures⟩ := closures_ofBody label kind site params body
    have hmem : r.code ∈ body.lambdas.map PlacedBody.code := hcode ▸ List.mem_map_of_mem hr
    obtain ⟨l, -, hl⟩ := List.mem_map.1 hmem
    have hsite : r.site = ⟨"JLambda", l.1⟩ := (congrArg Prod.fst hl).symm
    rw [(hclosures r hr).1, Code.isLambda, Code.ofRoutine, hsite]
    rfl

end Collection

namespace OwnedMember

variable {m : OwnedMember} {c : Collection}

/-- The lambdas in the code of a member are its closures. -/
theorem lambdas_code (hc : Collection.ofMember m.owner m.member = .ok c) :
    m.code.filter Code.isLambda =
      (c.routines.filter Routine.isClosure).map (Code.ofRoutine m.member.tree) := by
  have hiff : ∀ r ∈ c.routines, (Code.ofRoutine m.member.tree r).isLambda = r.isClosure := by
    have hmethod : ("JMethodDecl" : Text) ≠ "JLambda" := by decide
    have hinit : ("JInitializer" : Text) ≠ "JLambda" := by decide
    obtain ⟨owner, member⟩ := m
    cases member with
    | method pos modifiers result name params body =>
      cases body with
      | none => cases hc
      | some body =>
        cases hc
        exact fun r hr => Collection.isLambda_iff hmethod _ hr
    | «initializer» pos isStatic body =>
      cases hc
      exact fun r hr => Collection.isLambda_iff hinit _ hr
    | field => cases hc
    | classDecl => cases hc
  have hcode : m.code = c.routines.map (Code.ofRoutine m.member.tree) := by
    unfold code routines
    rw [hc]
  rw [hcode, List.filter_map]
  exact congrArg _ (List.filter_congr hiff)

/-- A member whose analysis does not fail is charted, and has verdicts on exactly the variables
that the charts declare. Every place of a body that is charted declares a variable there. -/
theorem exists_charts {source : List Char} {depth : Nat} {p : Program}
    (hparse : Program.parse source depth = .ok p) (hm : m ∈ p.ownedMembers)
    (hfails : m.fails = false) :
    ∃ us c sums, Collection.ofMember m.owner m.member = .ok c ∧ Chart.Drawn c us sums ∧
      us.map Chart.routine = c.routines ∧
      (∀ u ∈ us, ∀ pos ∈ u.routine.body.places, ∃ v ∈ u.routine.vars, c.declared? pos = some v) ∧
      ∀ v, v ∈ m.found.map (fun e => e.1.var) ↔ ∃ u ∈ us, u.Declares v := by
  cases hverdicts : m.verdicts with
  | error e =>
    rw [(Analysis.fails_eq_true hverdicts).1] at hfails
    cases hfails
  | ok vs =>
    obtain ⟨c, us, sums, found, hc, hdrawn, hroutines, hjudges, rfl⟩ :=
      Fragment.exists_charts hverdicts
    have hparsed : (Fragment.member m.member).Parsed :=
      ⟨source, depth, .inl ⟨p, hparse, Program.within_ownedMembers hm⟩⟩
    refine ⟨us, c, sums, hc, hdrawn, hroutines, fun u hu => ?_, fun v => ?_⟩
    · have hr : u.routine ∈ c.routines := hroutines ▸ List.mem_map_of_mem hu
      exact (hparsed.declared_places hc hr).2
    · have hperm : (found.sort.map fun e => e.1.var).Perm (found.map fun e => e.1.var) :=
        (perm_sortBy _ found).map _
      rw [(Analysis.fails_eq_false hverdicts).2, hperm.mem_iff]
      exact hjudges.mem_keys_iff

end OwnedMember

/-- A report has a verdict on every variable on which a member has one. -/
theorem Program.mem_report_iff {source : List Char} {depth : Nat} {p : Program}
    (hparse : Program.parse source depth = .ok p) (options : Option Options) (v : Variable) :
    v ∈ (p.report options).verdicts.map (fun e => e.1.var) ↔
      ∃ m ∈ p.ownedMembers, v ∈ m.found.map fun e => e.1.var := by
  obtain ⟨s, htokens⟩ := exists_tokens hparse
  have hhide : (p.found.hide options).map (fun e => e.1.var) = p.found.map fun e => e.1.var := by
    cases options with
    | none => rfl
    | some o => rw [Verdicts.hide, List.map_map]; rfl
  have hperm : ((p.found.hide options).sort.map fun e => e.1.var).Perm
      ((p.found.hide options).map fun e => e.1.var) := (perm_sortBy _ _).map _
  rw [verdicts_report (nodup_places htokens hparse) options, hperm.mem_iff, hhide, found,
    List.map_flatMap, List.mem_flatMap]

namespace Analysis

/-- If no member of a parsed program fails, all of them are charted. The charts that stand at
lambdas are those of all lambdas of the program, each of them within the member that is innermost
around it; only lambdas within fields have no chart. The report is on exactly the variables that a
chart declares, and at every place of a body that is charted a variable of that body is declared. -/
theorem lambdas_charted {source : List Char} {depth : Nat} {p : Program} {r : Report}
    {options : Option Options} (hparse : Program.parse source depth = .ok p)
    (hrun : ((program p options).run (.fresh none)).1 = .ok r) (hfailed : r.failed = []) :
    ∃ charts : OwnedMember → List Chart,
      (∀ m ∈ p.ownedMembers, ∃ c sums, Collection.ofMember m.owner m.member = .ok c ∧
        Chart.Drawn c (charts m) sums ∧ (charts m).map Chart.routine = c.routines ∧
        ∀ u ∈ charts m, ∀ pos ∈ u.routine.body.places,
          ∃ v ∈ u.routine.vars, c.declared? pos = some v) ∧
      (p.code.filter fun c => c.isLambda && !c.inField).Perm
        (p.ownedMembers.flatMap fun m =>
          ((charts m).filter fun u => u.routine.isClosure).map fun u =>
            .ofRoutine m.member.tree u.routine) ∧
      ∀ v, v ∈ r.verdicts.map (fun e => e.1.var) ↔
        ∃ m ∈ p.ownedMembers, ∃ u ∈ charts m, u.Declares v := by
  obtain ⟨t, hreport, -⟩ := program_plain p options plain_fresh
  rw [hreport] at hrun
  cases hrun
  have hfails : ∀ m ∈ p.ownedMembers, m.fails = false := by
    intro m hm
    have hnone := List.map_eq_nil_iff.1 hfailed
    exact Bool.eq_false_iff.2 (List.filter_eq_nil_iff.1 hnone m hm)
  have hcharts : ∀ m, ∃ us, m ∈ p.ownedMembers → _ := fun m => by
    by_cases hm : m ∈ p.ownedMembers
    · obtain ⟨us, hus⟩ := m.exists_charts hparse hm (hfails m hm)
      exact ⟨us, fun _ => hus⟩
    · exact ⟨[], fun h => absurd h hm⟩
  choose charts hcharts using hcharts
  refine ⟨charts, fun m hm => ?_, ?_, fun v => ?_⟩
  · obtain ⟨c, sums, hc, hdrawn, hroutines, hplaces, -⟩ := hcharts m hm
    exact ⟨c, sums, hc, hdrawn, hroutines, hplaces⟩
  · have hcode : ∀ m ∈ p.ownedMembers, m.code.filter Code.isLambda =
        ((charts m).filter fun u => u.routine.isClosure).map fun u =>
          Code.ofRoutine m.member.tree u.routine := by
      intro m hm
      obtain ⟨c, sums, hc, -, hroutines, -⟩ := hcharts m hm
      rw [OwnedMember.lambdas_code hc, ← hroutines, List.filter_map, List.map_map]
      rfl
    rw [← List.flatMap_congr hcode, ← List.filter_flatMap, ← List.filter_filter]
    exact p.perm_code.filter _
  · rw [Program.mem_report_iff hparse]
    constructor
    · rintro ⟨m, hm, hv⟩
      obtain ⟨c, sums, -, -, -, -, hkeys⟩ := hcharts m hm
      exact ⟨m, hm, (hkeys v).1 hv⟩
    · rintro ⟨m, hm, hv⟩
      obtain ⟨c, sums, -, -, -, -, hkeys⟩ := hcharts m hm
      exact ⟨m, hm, (hkeys v).2 hv⟩

/-- `class A { Object o = new A() { void f() { g(() -> { int x = 1; }); } }; }` -/
def innerLambda : List Char :=
  ("class A \x7b Object o = new A() \x7b void f() \x7b "
    ++ "g(() -> \x7b int x = 1; \x7d); \x7d \x7d; \x7d").toList

/-- The class around the method stands within a field; the lambda stands within the method. -/
theorem lambdas_charted_inner : ∃ p r, Program.parse innerLambda = .ok p ∧
    ((program p none).run (.fresh none)).1 = .ok r ∧ r.failed = [] ∧
    ∃ charts : OwnedMember → List Chart,
      (p.ownedMembers.flatMap fun m => (charts m).filter fun u => u.routine.isClosure).length = 1 ∧
      ∃ v, v.name = ("x" : Text) ∧ v ∈ r.verdicts.map (fun e => e.1.var) ∧
        ∃ m ∈ p.ownedMembers, ∃ u ∈ charts m, u.Declares v := by
  obtain ⟨p, hp, hany⟩ := FlowGraph.exists_ok_of_any (x := Program.parse innerLambda)
    (p := fun p => (p.code.filter fun c => c.isLambda && !c.inField).length = 1 &&
      (p.report none).failed.isEmpty &&
      ((p.report none).verdicts.any fun e => e.1.var.name = ("x" : Text)))
    (by decide +kernel)
  simp only [Bool.and_eq_true, decide_eq_true_eq, List.isEmpty_iff, List.any_eq_true] at hany
  obtain ⟨⟨hlength, hfailed⟩, e, he, hname⟩ := hany
  obtain ⟨t, hreport, -⟩ := program_plain p none plain_fresh
  have hrun := congrArg Prod.fst hreport
  obtain ⟨charts, -, hperm, hkeys⟩ := lambdas_charted hp hrun hfailed
  have hv : e.1.var ∈ (p.report none).verdicts.map (fun e => e.1.var) := List.mem_map_of_mem he
  refine ⟨p, _, hp, hrun, hfailed, charts, ?_, e.1.var, hname, hv, (hkeys _).1 hv⟩
  have hcharts := hperm.length_eq
  rw [hlength, List.length_flatMap] at hcharts
  rw [List.length_flatMap, hcharts]
  simp only [List.length_map]

/-- `class A { Runnable r = () -> { int x = 1; }; }` -/
def fieldLambda : List Char :=
  "class A \x7b Runnable r = () -> \x7b int x = 1; \x7d; \x7d".toList

/-- No member fails, and still the lambda within the field has no routine, and there is no verdict
on the variable in it. -/
theorem lambdas_charted_field : ∃ p r, Program.parse fieldLambda = .ok p ∧
    ((program p none).run (.fresh none)).1 = .ok r ∧ r.failed = [] ∧
    (∃ c ∈ p.code, c.isLambda = true ∧ (⟨1, 36⟩, ("x" : Text)) ∈ c.body.declared) ∧
    p.ownedMembers.flatMap OwnedMember.code = [] ∧ r.verdicts = [] := by
  obtain ⟨p, hp, hany⟩ := FlowGraph.exists_ok_of_any (x := Program.parse fieldLambda)
    (p := fun p => (p.report none).failed.isEmpty && (p.report none).verdicts.isEmpty &&
      (p.ownedMembers.flatMap OwnedMember.code).isEmpty &&
      (p.code.any fun c => c.isLambda && c.body.declared.contains (⟨1, 36⟩, ("x" : Text))))
    (by decide +kernel)
  simp only [Bool.and_eq_true, List.isEmpty_iff, List.any_eq_true, List.contains_iff_mem] at hany
  obtain ⟨⟨⟨hfailed, hverdicts⟩, hcode⟩, hlambda⟩ := hany
  obtain ⟨t, hreport, -⟩ := program_plain p none plain_fresh
  exact ⟨p, _, hp, congrArg Prod.fst hreport, hfailed, hlambda, hcode, hverdicts⟩

end Analysis

end WriteOnce
