import WriteOnce.Proofs.Cancellation
import WriteOnce.Proofs.MovedLists
import WriteOnce.Proofs.Reports
import WriteOnce.Suggestion

/-!
# Verdicts under options

Options do not reach an analysis: they hide what it has found. Under any two of them a report
names the same failed members and has the same entries, up to the verdicts on the families that
are left out; and it makes no difference to the suggestions whether the verdicts were hidden
before they are read.
-/

namespace WriteOnce

/-! ## Tables and sorting -/

theorem sortBy_eq_self {α : Type} {le : α → α → Bool} {as : List α} (h : as.Pairwise (le · ·)) :
    sortBy le as = as := by
  induction as with
  | nil => rfl
  | cons a as ih =>
    obtain ⟨ha, has⟩ := List.pairwise_cons.1 h
    change insertBy le a (sortBy le as) = a :: as
    rw [ih has]
    cases as with
    | nil => rfl
    | cons b bs => rw [insertBy, if_pos (ha b (.head _))]

namespace Table

variable {κ β : Type} [BEq κ]

theorem mem_of_mem_insert {key : κ} {value : β} {t : Table κ β} {e : κ × β}
    (h : e ∈ t.insert key value) : e ∈ t ∨ e.2 = value := by
  induction t with
  | nil =>
    rw [List.mem_singleton.1 h]
    exact .inr rfl
  | cons entry t ih =>
    obtain ⟨k, old⟩ := entry
    rw [insert] at h
    split at h
    · obtain rfl | h := List.mem_cons.1 h
      · exact .inr rfl
      · exact .inl (.tail _ h)
    · obtain rfl | h := List.mem_cons.1 h
      · exact .inl (.head _)
      · exact (ih h).imp (.tail _) id

theorem Distinct.insertAll {t : Table κ β} (h : t.Distinct) (entries : List (κ × β)) :
    Distinct (t.insertAll entries) := by
  induction entries generalizing t with
  | nil => exact h
  | cons e entries ih => exact ih (h.insert e.1 e.2)

end Table

/-! ## Verdicts before options -/

namespace Verdicts

/-- No verdict is due to options. -/
def Shown (vs : Verdicts) : Prop := ∀ e ∈ vs, e.2 ≠ .cannot .configuration

variable {vs found : Verdicts}

theorem shown_nil : Shown [] := List.forall_mem_nil _

theorem Shown.insert (h : vs.Shown) (d : Declaration) {x : Verdict}
    (hx : x ≠ .cannot .configuration) : Shown (vs.insert d x) := by
  intro e he
  obtain he | he := Table.mem_of_mem_insert he
  · exact h e he
  · rw [he]
    exact hx

theorem Shown.insertAll (h : vs.Shown) (hfound : found.Shown) : Shown (vs.insertAll found) := by
  induction found generalizing vs with
  | nil => exact h
  | cons e found ih =>
    obtain ⟨he, hfound⟩ := List.forall_mem_cons.1 hfound
    exact ih (h.insert e.1 he) hfound

theorem Shown.sort (h : vs.Shown) : vs.sort.Shown := fun e he => h e ((mem_sortBy _).1 he)

end Verdicts

theorem WriteCount.reason?_ne_configuration (w : WriteCount) (v : Variable) :
    w.reason? v ≠ some .configuration := by
  unfold reason?
  split
  · nofun
  · split <;> nofun

theorem Declaration.judge_ne_configuration (d : Declaration) (written : Bool)
    {reason : Option Reason} (h : reason ≠ some .configuration) :
    d.judge written reason ≠ .cannot .configuration := by
  unfold judge ruled?
  split_ifs
  · nofun
  · nofun
  · cases reason with
    | none => nofun
    | some reason => exact fun heq => h (congrArg some (Verdict.cannot.inj heq))

namespace Verdicts

variable {vs vs' : Verdicts}

theorem shown_judged (w : WriteCount) (bound written : List Variable) (ds : List Declaration)
    (h : vs.Shown) : (judged w bound written ds vs).Shown := by
  induction ds generalizing vs with
  | nil => exact h
  | cons d ds ih =>
    rw [judged]
    split
    · exact ih (h.insert d (d.judge_ne_configuration _ (w.reason?_ne_configuration _)))
    · exact ih h

theorem shown_ofRoutines {c : Collection} {rs : List Routine} {sums : Summaries} (h : vs.Shown)
    (hrun : ofRoutines c rs sums vs = .ok vs') : vs'.Shown := by
  induction rs generalizing sums vs with
  | nil =>
    cases hrun
    exact h
  | cons r rs ih =>
    rw [ofRoutines] at hrun
    cases hgraph : c.graph? sums r with
    | error e =>
      rw [hgraph] at hrun
      cases hrun
    | ok g =>
      cases hcount : WriteCount.ofGraph g with
      | error e =>
        simp only [hgraph, hcount, bind, Except.bind] at hrun
        cases hrun
      | ok w =>
        simp only [hgraph, hcount, bind, Except.bind] at hrun
        exact ih (shown_judged w _ _ _ h) hrun

end Verdicts

theorem Fragment.shown_verdicts {f : Fragment} {owner : Text} {vs : Verdicts}
    (h : f.verdicts owner = .ok vs) : vs.Shown := by
  unfold Fragment.verdicts at h
  cases hcollect : Collection.ofFragment owner f with
  | error e =>
    rw [hcollect] at h
    cases h
  | ok c =>
    cases hrun : Verdicts.ofRoutines c c.routines.reverse [] [] with
    | error e =>
      simp only [hcollect, hrun, bind, Except.bind] at h
      cases h
    | ok found =>
      simp only [hcollect, hrun, bind, Except.bind] at h
      cases h
      exact (Verdicts.shown_ofRoutines Verdicts.shown_nil hrun).sort

/-! ## Members of a program -/

/-- No stored verdict is due to options. -/
def Entries.Shown (es : Entries) : Prop := ∀ e ∈ es, Verdicts.Shown e.2

namespace OwnedMember

variable {stored : Option Entries} {m : OwnedMember}

theorem shown_answer (hstored : ∀ es, stored = some es → Entries.Shown es) {found : Verdicts}
    (h : m.answer stored = .ok found) : found.Shown := by
  unfold answer Fragment.answer at h
  split at h
  · rename_i vs hlookup
    cases h
    obtain ⟨es, hes, hlookup⟩ := Option.bind_eq_some_iff.1 hlookup
    obtain ⟨k, hmem, -⟩ := Table.exists_mem_of_lookup hlookup
    exact hstored es hes _ hmem
  · exact Fragment.shown_verdicts h

theorem shown_remember (hstored : ∀ es, stored = some es → Entries.Shown es) :
    ∀ es, m.remember stored = some es → Entries.Shown es := by
  intro es hes
  obtain ⟨old, hold, rfl⟩ := Option.map_eq_some_iff.1 hes
  refine List.forall_mem_append.2 ⟨hstored old hold, ?_⟩
  unfold Fragment.added
  split
  · rename_i vs _ hverdicts
    exact List.forall_mem_singleton.2 (Fragment.shown_verdicts hverdicts)
  · exact fun e he => nomatch he

theorem shown_addedAll (ms : List OwnedMember) {old : Entries} (h : old.Shown) :
    Entries.Shown (old ++ addedAll ms old) := by
  induction ms generalizing old with
  | nil => exact List.forall_mem_append.2 ⟨h, List.forall_mem_nil _⟩
  | cons m ms ih =>
    have hold : ∀ es, some old = some es → Entries.Shown es := fun es hes => Option.some.inj hes ▸ h
    rw [addedAll, ← List.append_assoc]
    exact ih (shown_remember hold _ rfl)

/-- Members have one verdict on each variable, and none that is due to options. -/
theorem gather_spec (ms : List OwnedMember) {vs : Verdicts}
    (hstored : ∀ es, stored = some es → Entries.Shown es) (hshown : vs.Shown)
    (hdistinct : vs.Distinct) :
    (gather ms stored vs).1.Shown ∧ (gather ms stored vs).1.Distinct := by
  induction ms generalizing stored vs with
  | nil => exact ⟨hshown, hdistinct⟩
  | cons m ms ih =>
    rw [gather]
    split
    · rename_i found hfound
      exact ih (shown_remember hstored) (hshown.insertAll (shown_answer hstored hfound))
        (hdistinct.insertAll found)
    · exact ih (shown_remember hstored) hshown hdistinct

end OwnedMember

/-! ## Hiding -/

/-- The families that are left out: the parameters of methods, and all variables but parameters. -/
theorem Declaration.isHidden_iff (d : Declaration) (o : Options) :
    d.isHidden o = true ↔
      (d.var.kind = .parameter ∧ d.scope ≠ some .closureBody) ∧ o.parameters = false ∨
      (d.var.kind = .localVariable ∨ d.var.kind = .catchParameter ∨
        d.var.kind = .forEachParameter) ∧ o.locals = false := by
  unfold isHidden isLambdaParameter
  cases d.var.kind <;> simp

namespace Verdicts

/-- What an entry says under options. -/
def hideOne (o : Options) (e : Declaration × Verdict) : Declaration × Verdict :=
  (e.1, if e.1.isHidden o then .cannot .configuration else e.2)

theorem hide_some (o : Options) (vs : Verdicts) : vs.hide (some o) = vs.map (hideOne o) := rfl

/-- Verdicts stand in the same order whether they are hidden or not. -/
theorem sort_hide (o : Options) (vs : Verdicts) :
    (vs.hide (some o)).sort = vs.sort.hide (some o) :=
  sortBy_map fun _ _ _ _ => rfl

theorem pairwise_sort (vs : Verdicts) : vs.sort.Pairwise fun e e' => e.1.var.notAfter e'.1.var :=
  pairwise_sortBy (fun e e' => Variable.notAfter_total e.1.var e'.1.var)
    (fun e e' e'' => Variable.notAfter_trans e.1.var e'.1.var e''.1.var) vs

/-- Of verdicts in order, the suggestions are those that are favourable and not hidden. -/
theorem suggestions_eq {vs : Verdicts} (h : vs.Pairwise fun e e' => e.1.var.notAfter e'.1.var)
    (o : Options) :
    vs.suggestions o =
      (vs.filter fun e => e.2.isCan && !e.1.isHidden o).map fun e => e.1.var := by
  exact congrArg (List.map fun e => e.1.var) (sortBy_eq_self (h.filter _))

/-- Hidden verdicts are no suggestions, and all others are what they were. -/
theorem suggestions_hide {vs : Verdicts} (h : vs.Pairwise fun e e' => e.1.var.notAfter e'.1.var)
    (o : Options) : (vs.hide (some o)).suggestions o = vs.suggestions o := by
  have hkept : (vs.hide (some o)).Pairwise fun e e' => e.1.var.notAfter e'.1.var := by
    rw [hide_some, List.pairwise_map]
    exact h
  rw [suggestions_eq hkept, suggestions_eq h, hide_some, List.filter_map, List.map_map]
  have hfilter : (vs.filter fun e => (hideOne o e).2.isCan && !(hideOne o e).1.isHidden o) =
      vs.filter fun e => e.2.isCan && !e.1.isHidden o := by
    refine List.filter_congr fun e _ => ?_
    unfold hideOne
    cases e.1.isHidden o <;> simp
  exact congrArg (List.map fun e => e.1.var) hfilter

/-- Whether there is a verdict on the variable that options do not hide. -/
def shows (o : Options) (vs : Verdicts) (v : Variable) : Bool :=
  vs.any fun e => e.1.var = v && !e.1.isHidden o

theorem shows_of_mem {vs : Verdicts} (hnodup : (vs.map fun e => e.1.var).Nodup)
    {e : Declaration × Verdict} (he : e ∈ vs) (o : Options) :
    vs.shows o e.1.var = !e.1.isHidden o := by
  rw [Bool.eq_iff_iff, shows, List.any_eq_true]
  constructor
  · rintro ⟨e', he', hshown⟩
    rw [Bool.and_eq_true, decide_eq_true_eq] at hshown
    rw [← List.inj_on_of_nodup_map hnodup he' he hshown.1]
    exact hshown.2
  · exact fun hshown => ⟨e, he, by simpa using hshown⟩

/-- The suggestions under options are those without options that are not hidden. -/
theorem suggestions_filter {vs : Verdicts}
    (h : vs.Pairwise fun e e' => e.1.var.notAfter e'.1.var)
    (hnodup : (vs.map fun e => e.1.var).Nodup) (o : Options) :
    (vs.suggestions .default).filter (vs.shows o) = vs.suggestions o := by
  have hdefault : ∀ d : Declaration, d.isHidden .default = false := fun d => by
    rw [Bool.eq_false_iff, Ne, d.isHidden_iff]
    simp [Options.default]
  rw [suggestions_eq h, suggestions_eq h, List.filter_map, List.filter_filter]
  refine congrArg (List.map fun e : Declaration × Verdict => e.1.var)
    (List.filter_congr fun e he => ?_)
  rw [Function.comp_apply, shows_of_mem hnodup he, hdefault, Bool.not_false, Bool.and_true,
    Bool.and_comm]

theorem pairwise_suggestions (vs : Verdicts) (o : Options) :
    (vs.suggestions o).Pairwise fun v w => v.notAfter w := by
  unfold suggestions
  rw [List.pairwise_map]
  exact pairwise_sort _

end Verdicts

/-! ## Reports -/

namespace Analysis

open Verdicts

/-- Nothing will stop an analysis, and nothing that is stored is due to options. -/
structure Unhiding (s : Session) : Prop extends Undisturbed s where
  stored : ∀ es, s.entries = some es → Entries.Shown es

/-- Under all options the same verdicts are found, and then hidden. -/
theorem exists_found (p : Program) {s : Session} (hs : Unhiding s) :
    ∃ (found : Verdicts) (failed : List Text) (s' : Session), found.Shown ∧ found.Distinct ∧
      Unhiding s' ∧ ∀ options, (program p options).run s =
        (.ok ⟨(found.hide options).sort, failed⟩, s') := by
  obtain ⟨s', ⟨hrun, hentries, hs'⟩ | ⟨-, hnot, -⟩⟩ := run_members_stored p.ownedMembers [] s
  · obtain ⟨hshown, hdistinct⟩ :=
      OwnedMember.gather_spec p.ownedMembers hs.stored shown_nil .nil
    refine ⟨_, _, s', hshown, hdistinct, ⟨hs' hs.toUndisturbed, ?_⟩, fun options =>
      run_bind_ok hrun _⟩
    rw [hentries]
    rintro es hes
    obtain ⟨old, hold, rfl⟩ := Option.map_eq_some_iff.1 hes
    exact OwnedMember.shown_addedAll p.ownedMembers (hs.stored old hold)
  · exact absurd hs.toUndisturbed hnot

/-- The reports under any two options have the same failed members and the same declarations in the
same order. A verdict is the one that is due to options exactly on the families that they leave
out; every other verdict is the same under both. The suggestions on a report, on verdicts that
were never hidden, and those of all suggestions that are not hidden are the same, by place. -/
theorem options_hide_only (p : Program) (o o' : Options) {s : Session} (hs : Unhiding s) :
    ∃ raw r r' s', Unhiding s' ∧ (program p none).run s = (.ok raw, s') ∧
      (program p (some o)).run s = (.ok r, s') ∧ (program p (some o')).run s = (.ok r', s') ∧
      r'.failed = r.failed ∧ r'.verdicts.map Prod.fst = r.verdicts.map Prod.fst ∧
      (∀ d x, (d, x) ∈ r.verdicts →
        (x = .cannot .configuration ↔
          (d.var.kind = .parameter ∧ d.scope ≠ some .closureBody) ∧ o.parameters = false ∨
          (d.var.kind = .localVariable ∨ d.var.kind = .catchParameter ∨
            d.var.kind = .forEachParameter) ∧ o.locals = false)) ∧
      (∀ d x x', (d, x) ∈ r.verdicts → (d, x') ∈ r'.verdicts → x ≠ .cannot .configuration →
        x' ≠ .cannot .configuration → x' = x) ∧
      r.verdicts.suggestions o = raw.verdicts.suggestions o ∧
      raw.verdicts.suggestions o =
        (raw.verdicts.suggestions .default).filter (raw.verdicts.shows o) ∧
      (raw.verdicts.suggestions o).Pairwise fun v w => v.notAfter w := by
  obtain ⟨found, failed, s', hshown, hdistinct, hs', hrun⟩ := exists_found p hs
  have hsorted := pairwise_sort found
  have hnodup : (found.sort.map fun e => e.1.var).Nodup :=
    ((perm_sortBy _ found).map _).nodup_iff.2 (nodup_of_distinct hdistinct)
  refine ⟨_, _, _, s', hs', hrun none, hrun (some o), hrun (some o'), rfl, ?_⟩
  dsimp only
  rw [sort_hide, sort_hide, suggestions_hide hsorted]
  have hentry : ∀ {o : Options} {d x}, (d, x) ∈ found.sort.hide (some o) →
      ∃ y, (d, y) ∈ found.sort ∧ x = if d.isHidden o then .cannot .configuration else y := by
    intro o d x h
    obtain ⟨⟨d', y⟩, he, heq⟩ := List.mem_map.1 h
    cases heq
    exact ⟨y, he, rfl⟩
  refine ⟨by simp [hide_some, hideOne, Function.comp_def], fun d x hx => ?_,
    fun d x x' hx hx' h h' => ?_, rfl, (suggestions_filter hsorted hnodup o).symm,
    pairwise_suggestions _ o⟩
  · obtain ⟨y, hy, rfl⟩ := hentry hx
    rw [← d.isHidden_iff]
    cases d.isHidden o with
    | true => exact iff_of_true rfl rfl
    | false => exact iff_of_false (hshown.sort _ hy) Bool.false_ne_true
  · obtain ⟨y, hy, rfl⟩ := hentry hx
    obtain ⟨y', hy', rfl⟩ := hentry hx'
    have hsame := List.inj_on_of_nodup_map hnodup hy hy' rfl
    cases hsame
    rw [if_neg fun hd => h (if_pos hd), if_neg fun hd => h' (if_pos hd)]

theorem unhiding_fresh {cache : Option Cache} (h : ∀ c, cache = some c → c.entries = []) :
    Unhiding (.fresh cache) := by
  refine ⟨undisturbed_fresh cache, fun es hes => ?_⟩
  obtain ⟨c, hc, rfl⟩ := Option.map_eq_some_iff.1 hes
  rw [h c hc]
  exact List.forall_mem_nil _

/-- `class A { void f(int a) { int b = a; } }` -/
def passing : List Char := "class A \x7b void f(int a) \x7b int b = a; \x7d \x7d".toList

/-- Without locals, the verdict on the parameter alone is left, and the one suggestion on it. -/
theorem options_hide_only_locals : ∃ p raw r s', Program.parse passing = .ok p ∧
    Unhiding (.fresh (some .empty)) ∧
    (program p none).run (.fresh (some .empty)) = (.ok raw, s') ∧
    (program p (some ⟨false, true⟩)).run (.fresh (some .empty)) = (.ok r, s') ∧
    r.verdicts.map Prod.snd = [.can, .cannot .configuration] ∧
    r.verdicts.suggestions ⟨false, true⟩ = raw.verdicts.suggestions ⟨false, true⟩ := by
  obtain ⟨p, hp, hany⟩ := FlowGraph.exists_ok_of_any (x := Program.parse passing)
    (p := fun p => ((program p (some ⟨false, true⟩)).run (.fresh (some .empty))).1.toOption.any
      fun r => r.verdicts.map Prod.snd = [.can, .cannot .configuration])
    (by decide +kernel)
  have hfresh : Unhiding (.fresh (some .empty)) := unhiding_fresh fun c hc => by
    cases hc
    rfl
  obtain ⟨raw, r, r', s', -, hraw, hr, -, -, -, -, -, hsame, -⟩ :=
    options_hide_only p ⟨false, true⟩ .default hfresh
  rw [hr] at hany
  exact ⟨p, raw, r, s', hp, hfresh, hraw, hr, of_decide_eq_true hany, hsame⟩

end Analysis

end WriteOnce
