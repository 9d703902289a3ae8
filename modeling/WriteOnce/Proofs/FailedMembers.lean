import WriteOnce.Proofs.Census
import WriteOnce.Proofs.FragmentPlaces
import WriteOnce.Proofs.Reports
import WriteOnce.Proofs.StrayJumps

/-!
# Members that fail

The analysis of a parsed program fails for a member exactly if a stray jump stands in one of its
bodies, and takes nothing from the other members.
-/

namespace WriteOnce

open FlowGraph

namespace Member

/-- The bodies that are analyzed for a member: its own and those of the lambdas in it. -/
def bodies (m : Member) : List LambdaBody :=
  match m.body? with
  | none => []
  | some body => .block body :: body.lambdas.map Prod.snd

/-- A stray jump stands in a body of the member. -/
def strays (m : Member) : Bool := m.bodies.any LambdaBody.strays

/-- The routines of a member with a body have the bodies of the member. -/
theorem exists_ofMember {m : Member} (hbody : m.body?.isSome = true) (label : Text) :
    ∃ c, Collection.ofMember label m = .ok c ∧ c.routines.map Routine.body = m.bodies := by
  have hbodies : ∀ kind site params body,
      (Collection.ofBody label kind site params body).routines.map Routine.body =
        .block body :: body.lambdas.map Prod.snd := by
    intro kind site params body
    have hcode := (Collection.housed_ofBody label kind site params body).1
    have hmap := congrArg (List.map Prod.snd) hcode
    rw [List.map_map, List.map_cons, List.map_map] at hmap
    exact hmap
  cases m with
  | method pos modifiers result name params body =>
    cases body with
    | none => cases hbody
    | some body => exact ⟨_, rfl, hbodies _ _ _ body⟩
  | «initializer» pos isStatic body => exact ⟨_, rfl, hbodies _ _ _ body⟩
  | field => cases hbody
  | classDecl => cases hbody

end Member

section Fragments

variable {f : Fragment} {owner : Text} {c : Collection}

/-- The routines of a parsed fragment come to verdicts unless a stray jump stands in one of
them. -/
theorem Verdicts.ofRoutines_fails_iff (hf : f.Parsed) (hc : Collection.ofFragment owner f = .ok c)
    {rs : List Routine} (hrs : rs ⊆ c.routines) (sums : Summaries) (vs : Verdicts) :
    match Verdicts.ofRoutines c rs sums vs with
    | .ok _ => rs.any (·.body.strays) = false
    | .error e => rs.any (·.body.strays) = true ∧ e.fault.isJump = true := by
  induction rs generalizing sums vs with
  | nil => rfl
  | cons r rs ih =>
    obtain ⟨hr, hrs⟩ := List.cons_subset.1 hrs
    have hknown : (c.resolution sums).Knows r.body.places := by
      intro pos hpos
      obtain ⟨v, -, hv⟩ := (hf.declared_places hc hr).2 pos hpos
      exact Option.isSome_of_mem hv
    have hfails := ofRoutine_fails_iff hknown
    rw [Verdicts.ofRoutines, Collection.graph?]
    cases hwhole : ofRoutine (c.resolution sums) r with
    | error e =>
      rw [hwhole] at hfails
      refine ⟨?_, hfails.2⟩
      rw [List.any_cons, hfails.1]
      rfl
    | ok whole =>
      rw [hwhole] at hfails
      dsimp only at hfails
      have hcounts := WriteCount.ofGraph_eq_ok (wellFormed_ofRoutine hwhole).prune
        (Chart.reaches_of_mem hwhole)
      change match (do
        let w ← WriteCount.ofGraph whole.prune
        ofRoutines c rs (Analysis.summarize r w ++ sums)
          (judged w whole.prune.bound whole.prune.written r.declarations vs)) with
        | .ok _ => _
        | .error _ => _
      rw [hcounts, List.any_cons, hfails, Bool.false_or]
      exact ih hrs _ _

end Fragments

namespace OwnedMember

variable {source : List Char} {depth : Nat} {p : Program} {m : OwnedMember}

/-- The analysis of a member of a parsed program fails for a jump, or does not fail. -/
theorem verdicts_fails_iff (hparse : Program.parse source depth = .ok p) (hm : m ∈ p.ownedMembers) :
    match m.verdicts with
    | .ok _ => m.member.strays = false
    | .error e => m.member.strays = true ∧ e.fault.isJump = true := by
  obtain ⟨c, hc, hbodies⟩ := Member.exists_ofMember (Program.body_ownedMembers hm) m.owner
  have hparsed : (Fragment.member m.member).Parsed :=
    ⟨source, depth, .inl ⟨p, hparse, Program.within_ownedMembers hm⟩⟩
  have hsub : c.routines.reverse ⊆ c.routines := fun r hr => List.mem_reverse.1 hr
  have hroutines := Verdicts.ofRoutines_fails_iff hparsed hc hsub [] []
  have hstrays : (c.routines.reverse.any fun r => r.body.strays) = m.member.strays := by
    rw [List.any_reverse, Member.strays, ← hbodies, List.any_map]
    rfl
  rw [hstrays] at hroutines
  unfold verdicts Fragment.verdicts
  rw [show Collection.ofFragment m.owner (.member m.member) = .ok c from hc]
  change match (do
    let vs ← Verdicts.ofRoutines c c.routines.reverse [] []
    return vs.sort) with
    | .ok _ => _
    | .error _ => _
  cases hrun : Verdicts.ofRoutines c c.routines.reverse [] [] with
  | error e =>
    rw [hrun] at hroutines
    exact hroutines
  | ok vs =>
    rw [hrun] at hroutines
    exact hroutines

theorem fails_eq_strays (hparse : Program.parse source depth = .ok p) (hm : m ∈ p.ownedMembers) :
    m.fails = m.member.strays := by
  have hverdicts := verdicts_fails_iff hparse hm
  cases hrun : m.verdicts with
  | error e =>
    rw [hrun] at hverdicts
    rw [(Analysis.fails_eq_true hrun).1, hverdicts.1]
  | ok vs =>
    rw [hrun] at hverdicts
    rw [(Analysis.fails_eq_false hrun).1]
    exact hverdicts.symm

end OwnedMember

/-- A member that fails has no verdicts, so the verdicts of a program are those of the others. -/
theorem Program.found_eq {source : List Char} {depth : Nat} {p : Program}
    (hparse : Program.parse source depth = .ok p) :
    p.found = (p.ownedMembers.filter fun m => !m.member.strays).flatMap OwnedMember.found := by
  have hall : ∀ ms ⊆ p.ownedMembers, ms.flatMap OwnedMember.found =
      (ms.filter fun m => !m.member.strays).flatMap OwnedMember.found := by
    intro ms hms
    induction ms with
    | nil => rfl
    | cons m ms ih =>
      obtain ⟨hm, hms⟩ := List.cons_subset.1 hms
      have hfails := OwnedMember.fails_eq_strays hparse hm
      rw [List.flatMap_cons, ih hms, List.filter_cons, ← hfails]
      cases hrun : m.verdicts with
      | error e =>
        obtain ⟨hfailed, hfound⟩ := Analysis.fails_eq_true hrun
        rw [hfailed, hfound]
        rfl
      | ok vs =>
        rw [(Analysis.fails_eq_false hrun).1]
        rfl
  exact hall p.ownedMembers (List.Subset.refl _)

namespace Analysis

variable {source : List Char} {depth : Nat} {p : Program}

/-- The analysis of a parsed program gives a report. It names the owners of the members in which a
stray jump stands, in their order, among all methods and initializers of the program; alone, each
of them fails for such a jump. The verdicts are those that the other members have when they are
analyzed alone, under the options. -/
theorem failures_stay (hparse : Program.parse source depth = .ok p) (options : Option Options) :
    ∃ r, ((program p options).run (.fresh none)).1 = .ok r ∧
      ((p.code.filter Tree.Code.isOwn).map Tree.Code.member).Perm
        (p.ownedMembers.map fun m => m.member.tree) ∧
      r.failed = (p.ownedMembers.filter fun m => m.member.strays).map OwnedMember.owner ∧
      (∀ m ∈ p.ownedMembers, m.member.strays = true → ∃ e,
        ((fragment (.member m.member) m.owner).run (.fresh none)).1 = .error (.failed e) ∧
          e.fault.isJump = true) ∧
      ∃ alone : OwnedMember → Verdicts,
        (∀ m ∈ p.ownedMembers, m.member.strays = false →
          ((fragment (.member m.member) m.owner).run (.fresh none)).1 = .ok (alone m)) ∧
        r.verdicts = (Verdicts.hide options
          ((p.ownedMembers.filter fun m => !m.member.strays).flatMap alone)).sort := by
  obtain ⟨t, hrun, -⟩ := program_plain p options plain_fresh
  refine ⟨p.report options, congrArg Prod.fst hrun, p.perm_members, ?_, fun m hm hstrays => ?_,
    OwnedMember.found, fun m hm hstrays => ?_, ?_⟩
  · have hfilter : p.ownedMembers.filter OwnedMember.fails =
        p.ownedMembers.filter fun m => m.member.strays :=
      List.filter_congr fun m hm => OwnedMember.fails_eq_strays hparse hm
    rw [Program.report, hfilter]
  · obtain ⟨t, hrun, -⟩ := answers_plain (.member m.member) m.owner (.fresh none) plain_fresh
    have hverdicts := OwnedMember.verdicts_fails_iff hparse hm
    rw [hrun]
    change ∃ e, m.verdicts.mapError _ = _ ∧ _
    cases hcase : m.verdicts with
    | error e =>
      rw [hcase] at hverdicts
      exact ⟨e, rfl, hverdicts.2⟩
    | ok vs =>
      rw [hcase] at hverdicts
      cases hstrays.symm.trans hverdicts
  · obtain ⟨t, hrun, -⟩ := answers_plain (.member m.member) m.owner (.fresh none) plain_fresh
    have hverdicts := OwnedMember.verdicts_fails_iff hparse hm
    rw [hrun]
    change m.verdicts.mapError _ = _
    cases hcase : m.verdicts with
    | error e =>
      rw [hcase] at hverdicts
      cases hstrays.symm.trans hverdicts.1
    | ok vs =>
      rw [(fails_eq_false hcase).2]
      rfl
  · obtain ⟨s, htokens⟩ := Program.exists_tokens hparse
    have hnodup := Program.nodup_places htokens hparse
    rw [Program.verdicts_report hnodup options, Program.found_eq hparse]

/-- `class A { void f() { return; try { } finally { break; } } void g(int y) { } }` -/
def deadBreak : List Char :=
  ("class A \x7b void f() \x7b return; try \x7b \x7d finally \x7b break; \x7d \x7d "
    ++ "void g(int y) \x7b \x7d \x7d").toList

/-- The jump cannot be reached, and still the first method fails. -/
theorem failures_stay_unreached : ∃ p r, Program.parse deadBreak = .ok p ∧
    ((program p none).run (.fresh none)).1 = .ok r ∧ r.failed = [("A.f@1" : Text)] ∧
    ∃ m ∈ p.ownedMembers, m.member.strays = false ∧ ∃ vs,
      ((fragment (.member m.member) m.owner).run (.fresh none)).1 = .ok vs ∧
        r.verdicts = vs.sort := by
  obtain ⟨p, hp, hany⟩ := exists_ok_of_any (x := Program.parse deadBreak)
    (p := fun p => (p.ownedMembers.map fun m => (m.owner, m.member.strays)) =
      [(("A.f@1" : Text), true), (("A.g@1" : Text), false)])
    (by decide +kernel)
  have hmembers := of_decide_eq_true hany
  obtain ⟨r, hrun, -, hfailed, -, alone, halone, hverdicts⟩ := failures_stay hp none
  rcases hms : p.ownedMembers with _ | ⟨m, _ | ⟨n, _ | ⟨k, ms⟩⟩⟩ <;> rw [hms] at hmembers
  · cases hmembers
  · simp at hmembers
  · simp only [List.map_cons, List.map_nil, List.cons.injEq, Prod.mk.injEq, and_true] at hmembers
    obtain ⟨⟨howner, hm⟩, -, hn⟩ := hmembers
    rw [hms] at hfailed hverdicts halone
    simp only [List.filter_cons, hm, hn, List.filter_nil] at hfailed hverdicts
    refine ⟨p, r, hp, hrun, ?_, n, by simp [hms], hn, alone n, halone n (by simp) hn, ?_⟩
    · rw [hfailed]
      exact congrArg (fun owner => [owner]) howner
    · rw [hverdicts]
      simp [Verdicts.hide]
  · simp at hmembers

end Analysis

end WriteOnce
