import Mathlib.Data.List.Sort
import WriteOnce.Proofs.Outcomes
import WriteOnce.Proofs.ProgramVariables

/-!
# What a report lists

No two members of a parsed program declare a variable at the same place. So the verdicts on
a member are not touched by those on others, and a report lists all of them, in the order
of the source.
-/

namespace WriteOnce

variable {source : List Char} {s : TokenStream} {p : Program}

/-! ## Verdicts on one member -/

/-- The verdicts on a fragment are those of its charts. -/
theorem Fragment.exists_charts {f : Fragment} {owner : Text} {vs : Verdicts}
    (h : f.verdicts owner = .ok vs) :
    ∃ c us sums found, Collection.ofFragment owner f = .ok c ∧ Chart.Drawn c us sums ∧
      us.map Chart.routine = c.routines ∧ Analysis.Judges us found ∧ vs = found.sort := by
  obtain ⟨s', hrun, -, -⟩ :=
    (Analysis.settles_compute f owner).undisturbed (Analysis.undisturbed_fresh none)
  rw [h] at hrun
  obtain ⟨c, us, sums, found, hc, hdrawn, hroutines, -, hjudges, hvs⟩ := Analysis.compute_spec hrun
  exact ⟨c, us, sums, found, hc, hdrawn, hroutines, hjudges, hvs⟩

namespace OwnedMember

variable {m : OwnedMember}

/-- A member has verdicts on its own variables, and one at most on each. -/
theorem found_spec (m : OwnedMember) :
    (∀ e ∈ m.found, e.1.var ∈ m.vars) ∧ (m.found.map fun e => e.1.var).Nodup := by
  cases hverdicts : m.verdicts with
  | error e =>
    rw [(Analysis.fails_eq_true hverdicts).2]
    exact ⟨fun e he => (by cases he), List.nodup_nil⟩
  | ok vs =>
    rw [(Analysis.fails_eq_false hverdicts).2]
    obtain ⟨c, us, sums, found, hc, -, hroutines, hjudges, rfl⟩ :=
      Fragment.exists_charts hverdicts
    have hperm : (found.sort.map fun e => e.1.var).Perm (found.map fun e => e.1.var) :=
      (perm_sortBy _ found).map _
    refine ⟨fun e he => ?_, hperm.nodup_iff.2 hjudges.nodup⟩
    have hkey : e.1.var ∈ found.map fun e => e.1.var :=
      List.mem_map_of_mem ((mem_sortBy _).1 he)
    obtain ⟨u, hu, hv, -⟩ := hjudges.mem_keys_iff.1 hkey
    have hroutine : u.routine ∈ m.routines := by
      have hmem : u.routine ∈ c.routines := hroutines ▸ List.mem_map_of_mem hu
      unfold routines
      rw [show Collection.ofMember m.owner m.member = .ok c from hc]
      exact hmem
    exact m.perm_routines.subset (List.mem_flatMap.2 ⟨u.routine, hroutine, hv⟩)

end OwnedMember

/-! ## Verdicts on all members -/

theorem Variable.notAfter_total (v w : Variable) : v.notAfter w || w.notAfter v := by
  simp only [notAfter, Bool.or_eq_true, Bool.and_eq_true, decide_eq_true_eq]
  omega

theorem Variable.notAfter_trans (u v w : Variable) (h : u.notAfter v) (h' : v.notAfter w) :
    u.notAfter w := by
  simp only [notAfter, Bool.or_eq_true, Bool.and_eq_true, decide_eq_true_eq] at h h' ⊢
  omega

/-- One of two different places stands behind the other one. -/
theorem Variable.past_of_notAfter {v w : Variable}
    (hv : v.line = v.place.line ∧ v.col = v.place.col)
    (hw : w.line = w.place.line ∧ w.col = w.place.col) (h : v.notAfter w)
    (hne : v.place ≠ w.place) : Pos.Past 1 v.place w.place := by
  simp only [notAfter, Bool.or_eq_true, Bool.and_eq_true, decide_eq_true_eq] at h
  have hne : ¬(v.place.line = w.place.line ∧ v.place.col = w.place.col) := fun h =>
    hne ((Pos.mk.injEq ..).mpr h)
  unfold Pos.Past
  omega

namespace Program

/-- The verdicts on all members, one member behind the other. -/
def found (p : Program) : Verdicts := p.ownedMembers.flatMap OwnedMember.found

theorem mem_vars_of_mem_found {e : Declaration × Verdict} (he : e ∈ p.found) :
    e.1.var ∈ p.vars := by
  obtain ⟨m, hm, he⟩ := List.mem_flatMap.1 he
  exact List.mem_flatMap.2 ⟨m, hm, m.found_spec.1 e he⟩

/-- No two members give a verdict on the same variable. -/
theorem nodup_found (hnodup : (p.vars.map Variable.place).Nodup) :
    (p.found.map fun e => e.1.var).Nodup := by
  have hvars := hnodup.of_map
  unfold vars at hvars
  unfold found
  rw [List.map_flatMap]
  rw [List.nodup_flatMap] at hvars ⊢
  refine ⟨fun m _ => m.found_spec.2, hvars.2.imp fun {m n} hdisjoint => ?_⟩
  have hkeys : ∀ m : OwnedMember, (m.found.map fun e => e.1.var) ⊆ m.vars := fun m =>
    List.forall_mem_map.2 m.found_spec.1
  exact fun v hv hv' => hdisjoint (hkeys m hv) (hkeys n hv')

theorem distinct_of_nodup {vs : Verdicts} (h : (vs.map fun e => e.1.var).Nodup) :
    vs.Distinct := by
  unfold Table.Distinct
  rw [List.Nodup, List.pairwise_map] at h
  rw [List.pairwise_map]
  exact h.imp fun hne => beq_eq_false_iff_ne.2 hne

theorem foldl_insertAll {ms : List OwnedMember} {vs : Verdicts}
    (h : Table.Distinct (vs ++ ms.flatMap OwnedMember.found)) :
    ms.foldl (fun vs m => vs.insertAll m.found) vs = vs ++ ms.flatMap OwnedMember.found := by
  induction ms generalizing vs with
  | nil => simp
  | cons m ms ih =>
    rw [List.flatMap_cons, ← List.append_assoc] at h ⊢
    have hfirst : Table.Distinct (vs ++ m.found) := by
      unfold Table.Distinct at h ⊢
      rw [List.map_append, List.pairwise_append] at h
      exact h.1
    rw [List.foldl_cons, Table.insertAll_eq_append hfirst]
    exact ih h

/-- The report of a program whose variables stand at different places lists the verdicts on all
members. -/
theorem verdicts_report (hnodup : (p.vars.map Variable.place).Nodup) (options : Option Options) :
    (p.report options).verdicts = (p.found.hide options).sort := by
  have hdistinct : Table.Distinct ([] ++ p.ownedMembers.flatMap OwnedMember.found) :=
    distinct_of_nodup (nodup_found hnodup)
  rw [report, foldl_insertAll hdistinct, List.nil_append]
  rfl

/-- Verdicts are listed by place, and no two at the same place. -/
theorem pairwise_verdicts (hnodup : (p.vars.map Variable.place).Nodup) :
    ((p.report none).verdicts.map fun e => e.1.var.place).Pairwise (Pos.Past 1) := by
  have hperm : (p.report none).verdicts.Perm p.found := by
    rw [verdicts_report hnodup]
    exact perm_sortBy _ p.found
  have hsorted : (p.report none).verdicts.Pairwise fun e e' => e.1.var.notAfter e'.1.var := by
    rw [verdicts_report hnodup]
    exact pairwise_sortBy (fun e e' => Variable.notAfter_total e.1.var e'.1.var)
      (fun e e' e'' => Variable.notAfter_trans e.1.var e'.1.var e''.1.var) p.found
  have hdifferent : (p.report none).verdicts.Pairwise fun e e' => e.1.var ≠ e'.1.var := by
    have hkeys := (hperm.map fun e => e.1.var).nodup_iff.2 (nodup_found hnodup)
    rwa [List.Nodup, List.pairwise_map] at hkeys
  have hknown : ∀ e ∈ (p.report none).verdicts, e.1.var ∈ p.vars := fun e he =>
    mem_vars_of_mem_found (hperm.subset he)
  rw [List.pairwise_map]
  refine (hsorted.and hdifferent).imp_of_mem fun {e e'} he he' h => ?_
  refine Variable.past_of_notAfter (place_of_mem_vars (hknown e he))
    (place_of_mem_vars (hknown e' he')) h.1 fun hplace => h.2 ?_
  exact List.inj_on_of_nodup_map hnodup (hknown e he) (hknown e' he') hplace

end Program

instance : Std.Antisymm fun e e' : Pos × Text => Pos.Past 1 e.1 e'.1 where
  antisymm _ _ h h' := absurd rfl (h.trans h').ne

namespace Analysis

/-- All variables of a parsed program stand at different places. Its report lists the verdicts that
the members have when they are analyzed alone, each in its place of the source. -/
theorem report_unites {depth : Nat} (htokens : tokenize source = .ok s)
    (hparse : Program.parse source depth = .ok p) :
    ((p.ownedMembers.flatMap fun m => m.routines.flatMap Routine.vars).map Variable.place).Nodup ∧
      ∃ r, ((program p none).run (.fresh none)).1 = .ok r ∧
        r.verdicts.Perm (p.ownedMembers.flatMap fun m =>
          ((fragment (.member m.member) m.owner).run (.fresh none)).1.toOption.getD []) ∧
        (r.verdicts.map fun e => e.1.var.place).Pairwise (Pos.Past 1) ∧
        (r.verdicts.map fun e => (e.1.var.place, e.1.var.name)).Sublist
          (s.ahead.map fun t => (t.pos, t.text)) := by
  have hnodup := Program.nodup_places htokens hparse
  have hshared : (p.ownedMembers.flatMap fun m => m.routines.flatMap Routine.vars).Perm p.vars :=
    List.Perm.flatMap_left _ fun m _ => m.perm_routines
  refine ⟨(hshared.map _).nodup_iff.2 hnodup, ?_⟩
  obtain ⟨t, hrun, -⟩ := program_plain p none plain_fresh
  have halone : (p.ownedMembers.flatMap fun m =>
      ((fragment (.member m.member) m.owner).run (.fresh none)).1.toOption.getD []) = p.found := by
    refine List.flatMap_congr fun m _ => ?_
    obtain ⟨t, hrun, -⟩ := answers_plain (.member m.member) m.owner (.fresh none) plain_fresh
    rw [hrun]
    unfold OwnedMember.found OwnedMember.verdicts
    cases (Fragment.member m.member).verdicts m.owner <;> rfl
  have hperm : (p.report none).verdicts.Perm p.found := by
    rw [Program.verdicts_report hnodup]
    exact perm_sortBy _ p.found
  have hpairwise := Program.pairwise_verdicts hnodup
  refine ⟨p.report none, congrArg Prod.fst hrun, halone ▸ hperm, hpairwise, ?_⟩
  have hsubperm : ((p.report none).verdicts.map fun e => e.1.var.named).Subperm s.names := by
    refine List.Subperm.trans (List.subperm_of_subset ?_ ?_)
      (Program.named_subperm htokens hparse)
    · rw [List.pairwise_map] at hpairwise
      rw [List.Nodup, List.pairwise_map]
      exact hpairwise.imp fun hpast hnamed => hpast.ne (congrArg Prod.fst hnamed)
    · refine List.forall_mem_map.2 fun e he => List.mem_map_of_mem ?_
      exact Program.mem_vars_of_mem_found (hperm.subset he)
  refine List.sublist_of_subperm_of_pairwise (r := fun e e' => Pos.Past 1 e.1 e'.1) hsubperm ?_ ?_
  · rw [List.pairwise_map] at hpairwise ⊢
    exact hpairwise
  · have hplaces := Program.pairwise_places htokens
    rw [TokenStream.places, List.pairwise_map] at hplaces
    rw [List.pairwise_map]
    exact hplaces

/-- `class A { void f() { int x; x = 1; } void f(int x) { } }` -/
def overloads : List Char :=
  "class A \x7b void f() \x7b int x; x = 1; \x7d void f(int x) \x7b \x7d \x7d".toList

/-- Two methods with the same owner label declare variables of the same name. -/
theorem report_unites_overloads : ∃ s p r, tokenize overloads = .ok s ∧
    Program.parse overloads = .ok p ∧ ((program p none).run (.fresh none)).1 = .ok r ∧
    r.verdicts.Perm (p.ownedMembers.flatMap fun m =>
      ((fragment (.member m.member) m.owner).run (.fresh none)).1.toOption.getD []) ∧
    (r.verdicts.map fun e => (e.1.var.place, e.1.var.name)).Sublist
      (s.ahead.map fun t => (t.pos, t.text)) := by
  obtain ⟨s, hs, hany⟩ := FlowGraph.exists_ok_of_any (x := tokenize overloads)
    (p := fun _ => (Program.parse overloads).toOption.any fun _ => true) (by decide +kernel)
  obtain ⟨p, hp, -⟩ := FlowGraph.exists_ok_of_any hany
  obtain ⟨-, r, hr, hunion, -, hnames⟩ := report_unites hs hp
  exact ⟨s, p, r, hs, hp, hr, hunion, hnames⟩

end Analysis

end WriteOnce
