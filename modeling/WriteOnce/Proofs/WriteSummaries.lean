import Mathlib.Data.ENat.Lattice
import Mathlib.Order.CompletePartialOrder
import WriteOnce.Proofs.CyclesOfRoutines
import WriteOnce.Proofs.LambdaPlaces

/-!
# Summaries of lambdas

What the graph of a routine shows of a lambda in it is how often the paths of the lambda write
variables from outside, up to two times. This is read off the masks of the lambda, which come from
the graph of the lambda, and so from the lambdas inside it.
-/

namespace WriteOnce

open FlowGraph Counts

/-- How often paths write the variable at most. -/
noncomputable def FlowGraph.mostWrites (g : FlowGraph) (v : Variable) : ℕ∞ :=
  ⨆ (t : Trace) (n : Node) (_ : g.Performs t n), (List.count (.write v) t : ℕ∞)

/-! ## Unions of masks -/

namespace Mask

theorem has_union (m m' : Mask) (k : CountClass) : (m.union m').has k = (m.has k || m'.has k) := by
  have hbits : ∀ a b c : Nat, (a ||| b) &&& c = 0 ↔ a &&& c = 0 ∧ b &&& c = 0 := by
    intro a b c
    rw [Nat.and_or_distrib_right, Nat.or_eq_zero_iff]
  simp only [has, meets, union, ne_eq, decide_not, hbits, Bool.decide_and, Bool.not_and]

theorem has_foldl_union {α : Type} (f : α → Mask) (as : List α) (m : Mask) (k : CountClass) :
    (as.foldl (fun m a => m.union (f a)) m).has k = true ↔
      m.has k = true ∨ ∃ a ∈ as, (f a).has k = true := by
  induction as generalizing m with
  | nil => simp
  | cons a as ih =>
    rw [List.foldl_cons, ih, has_union, Bool.or_eq_true]
    simp [or_assoc]

theorem not_has_empty (k : CountClass) : empty.has k = false := by
  cases k <;> decide

theorem most_le (m : Mask) : m.most ≤ 2 := by
  unfold most
  split_ifs <;> omega

theorem one_le_most {m : Mask} : 1 ≤ m.most ↔ m.has .one = true ∨ m.has .many = true := by
  unfold most has CountClass.mask
  split_ifs <;> simp [*]

theorem two_le_most {m : Mask} : 2 ≤ m.most ↔ m.has .many = true := by
  unfold most has CountClass.mask
  split_ifs <;> simp [*]

end Mask

/-! ## Writes on paths -/

/-- Where a variable is never bound, its count is that of its writes. -/
theorem Trace.foldl_tally_eq {v : Variable} {t : Trace} (h : ∀ hasValue, .bind v hasValue ∉ t)
    (count : Nat) : t.foldl (tally v) count = count + List.count (.write v) t := by
  induction t generalizing count with
  | nil => rfl
  | cons e t ih =>
    rw [List.foldl_cons, ih fun hasValue he => h hasValue (.tail _ he)]
    cases e with
    | bind w hasValue =>
      have hw : w ≠ v := by
        rintro rfl
        exact h hasValue (.head _)
      simp [tally, hw]
    | write w =>
      by_cases hw : w = v
      · subst hw
        simp [tally]
        omega
      · simp [tally, hw]

namespace FlowGraph

variable {g : FlowGraph} {v : Variable}

/-- What happens on a path happens at some node. -/
theorem Arrives.exists_node {t : Trace} {n : Node} (h : g.Arrives t n) {e : Event} (he : e ∈ t) :
    ∃ m ∈ g.nodes, e ∈ m.trace := by
  induction h with
  | entry => cases he
  | step hm _ _ ih =>
    rcases List.mem_append.1 he with he | he
    · exact ih he
    · exact ⟨_, hm.mem, he⟩

theorem Performs.exists_node {t : Trace} {n : Node} (h : g.Performs t n) {e : Event}
    (he : e ∈ t) : ∃ m ∈ g.nodes, e ∈ m.trace := by
  obtain ⟨u, hu, rfl⟩ := h
  rcases List.mem_append.1 he with he | he
  · exact hu.exists_node he
  · exact ⟨n, hu.mem, he⟩

/-- Up to two writes are known from the counts that are possible. -/
theorem min_mostWrites {most : Nat} (hle : most ≤ 2)
    (hmost : ∀ j, 1 ≤ j → j ≤ 2 →
      (j ≤ most ↔ ∃ t n, g.Performs t n ∧ j ≤ List.count (.write v) t)) :
    (most : ℕ∞) = min 2 (g.mostWrites v) := by
  apply le_antisymm
  · refine le_min (by exact_mod_cast hle) ?_
    rcases Nat.eq_zero_or_pos most with hzero | hpos
    · rw [hzero]
      exact bot_le
    · obtain ⟨t, n, ht, hcount⟩ := (hmost most hpos hle).1 (Nat.le_refl _)
      exact le_iSup_of_le t (le_iSup_of_le n (le_iSup_of_le ht (by exact_mod_cast hcount)))
  · rcases Nat.lt_or_ge most 2 with hlt | hge
    · refine (min_le_right _ _).trans (iSup_le fun t => iSup_le fun n => iSup_le fun ht => ?_)
      by_contra hmore
      have hcount : most + 1 ≤ List.count (.write v) t := by
        exact_mod_cast Order.add_one_le_of_lt (not_le.1 hmore)
      have hagain := (hmost (most + 1) (by omega) (by omega)).2 ⟨t, n, ht, hcount⟩
      omega
    · exact (min_le_left _ _).trans (by exact_mod_cast hge)

theorem mostWrites_eq_zero (h : v ∉ g.written) : g.mostWrites v = 0 := by
  refine le_antisymm (iSup_le fun t => iSup_le fun n => iSup_le fun ht => ?_) bot_le
  rw [List.count_eq_zero_of_not_mem fun he => ?_]
  · rfl
  · obtain ⟨m, hm, hwrite⟩ := ht.exists_node he
    exact h (List.mem_eraseDups.2 (List.mem_flatMap.2 ⟨m, hm, Node.write_mem_trace.1 hwrite⟩))

end FlowGraph

/-! ## Counts anywhere -/

theorem lookup_zip_map {vars : List Variable} {v : Variable} (hv : v ∈ vars)
    (f : Variable → Mask) : (vars.zip (vars.map f)).lookup v = some (f v) := by
  induction vars with
  | nil => cases hv
  | cons w ws ih =>
    rw [List.map_cons, List.zip_cons_cons, List.lookup_cons]
    by_cases h : v = w
    · simp [h]
    · rw [beq_eq_false_iff_ne.2 h]
      exact ih ((List.mem_cons.1 hv).resolve_left h)

/-- Counts are united variable by variable. -/
theorem Counts.foldl_union {vars : List Variable} {cs : List Counts} (hcs : ∀ c ∈ cs, Fits vars c)
    (f : Variable → Mask) : cs.foldl Counts.union (vars.map f) =
      vars.map fun v => cs.foldl (fun m c => m.union (maskOf vars c v)) (f v) := by
  induction cs generalizing f with
  | nil => rfl
  | cons c cs ih =>
    obtain ⟨hc, hcs⟩ := List.forall_mem_cons.1 hcs
    have hunion : Counts.union (vars.map f) c =
        vars.map fun v => (f v).union (maskOf vars c v) := by
      conv_lhs => rw [hc.eq_map]
      simp [Counts.union, List.zipWith_map, List.zipWith_self]
    rw [List.foldl_cons, hunion, ih hcs]
    rfl

namespace WriteCount

open Sweep

variable {g : FlowGraph} {v : Variable}

/-- The counts that are possible anywhere are those that some path leaves. -/
theorem exists_anywhere (hg : g.WellFormed) (hr : ∀ n ∈ g.nodes, g.Reaches n) (hv : v ∈ g.vars) :
    ∃ m, (mk g g.vars (finish g g.vars)).anywhere.lookup v = some m ∧
      ∀ k, m.has k = true ↔ ∃ n ∈ g.nodes, Leaving g n v k := by
  obtain ⟨hcomes, hqueue⟩ := comes_finish hg
  have hfits : ∀ c ∈ g.nodes.map fun n => (finish g g.vars).behind.getD n.id [],
      Fits g.vars c := by
    intro c hc
    obtain ⟨n, hn, rfl⟩ := List.mem_map.1 hc
    obtain ⟨c, hc, hsettled⟩ := Comes.reached_settled hg hcomes hqueue (hr n hn)
    rw [Std.TreeMap.getD_eq_getD_getElem?, hsettled.behind]
    exact (fits_through hn ((hcomes.invariant hg).fits _ _ hc)).1
  have hlookup : (mk g g.vars (finish g g.vars)).anywhere.lookup v = some (g.nodes.foldl
      (fun m n => Mask.union m ((mk g g.vars (finish g g.vars)).maskAfter n.id v)) Mask.empty) := by
    unfold anywhere
    rw [foldl_union hfits, lookup_zip_map hv, List.foldl_map]
    rfl
  refine ⟨_, hlookup, fun k => ?_⟩
  rw [Mask.has_foldl_union, Mask.not_has_empty, Bool.false_eq_true, false_or]
  refine exists_congr fun n => and_congr_right fun hn => ?_
  exact (Comes.maskAfter hg hcomes hqueue (hr n hn) v).2 k

/-- The most that is possible anywhere is what paths write of a variable at most, up to two times,
if it is never bound. -/
theorem most_anywhere (hg : g.WellFormed) (hr : ∀ n ∈ g.nodes, g.Reaches n) (hv : v ∈ g.vars)
    (hfree : ∀ n ∈ g.nodes, ∀ b ∈ n.binds, b.var ≠ v) :
    ((((mk g g.vars (finish g g.vars)).anywhere.lookup v).getD .empty).most : ℕ∞) =
      min 2 (g.mostWrites v) := by
  obtain ⟨m, hlookup, hhas⟩ := exists_anywhere hg hr hv
  have hcount : ∀ {t n}, g.Performs t n → Trace.count v t = List.count (.write v) t := by
    intro t n ht
    refine (Trace.foldl_tally_eq (fun hasValue he => ?_) 0).trans (Nat.zero_add _)
    obtain ⟨m, hm, hbind⟩ := ht.exists_node he
    exact hfree m hm _ (Node.bind_mem_trace.1 hbind) rfl
  have hhas : ∀ k, m.has k = true ↔
      ∃ t n, g.Performs t n ∧ CountClass.of (List.count (.write v) t) = k := by
    intro k
    rw [hhas]
    constructor
    · rintro ⟨n, -, t, ht, hk⟩
      exact ⟨t, n, ht, hcount ht ▸ hk⟩
    · rintro ⟨t, n, ht, hk⟩
      exact ⟨n, ht.mem, t, ht, (hcount ht).symm ▸ hk⟩
  have hclass : ∀ j, (CountClass.of j = .one ∨ CountClass.of j = .many ↔ 1 ≤ j) ∧
      (CountClass.of j = .many ↔ 2 ≤ j) := by
    rintro (_ | _ | j) <;> simp [CountClass.of]
  rw [hlookup, Option.getD_some]
  refine min_mostWrites (Mask.most_le m) fun j hpos hle => ?_
  obtain rfl | rfl : j = 1 ∨ j = 2 := by omega
  · rw [Mask.one_le_most, hhas, hhas, ← exists_or]
    simp only [← exists_or, ← and_or_left, (hclass _).1]
  · rw [Mask.two_le_most, hhas]
    simp only [(hclass _).2]

/-! ## Summaries -/

/-- What a summary counts of different variables, it lists as often. -/
theorem count_listed {vs : List Variable} (hvs : vs.Nodup) (f : Variable → Nat) (v : Variable) :
    (((vs.map fun w => (w, f w)).filter fun (_, count) => 0 < count).flatMap
      fun (w, count) => List.replicate count w).count v = if v ∈ vs then f v else 0 := by
  induction vs with
  | nil => rfl
  | cons w ws ih =>
    obtain ⟨hw, hws⟩ := List.nodup_cons.1 hvs
    have hcons : (((w :: ws).map fun w => (w, f w)).filter fun (_, count) => 0 < count).flatMap
        (fun (w, count) => List.replicate count w) = List.replicate (f w) w ++
          ((ws.map fun w => (w, f w)).filter fun (_, count) => 0 < count).flatMap
            fun (w, count) => List.replicate count w := by
      rw [List.map_cons, List.filter_cons]
      split_ifs with hpos
      · rfl
      · rw [decide_eq_true_eq, Nat.not_lt, Nat.le_zero] at hpos
        rw [hpos]
        rfl
    rw [hcons, List.count_append, ih hws, List.count_replicate]
    by_cases hv : w = v
    · subst hv
      simp [hw]
    · simp [hv, Ne.symm hv]

/-- A summary lists none of the given variables, and any other variable as often as paths write it
at most, up to two times, if it is never bound. -/
theorem count_summary (hg : g.WellFormed) (hr : ∀ n ∈ g.nodes, g.Reaches n)
    (own : List Variable) (hfree : v ∉ own → ∀ n ∈ g.nodes, ∀ b ∈ n.binds, b.var ≠ v) :
    let listed := ((mk g g.vars (finish g g.vars)).summary
      (g.written.filter fun v => !own.contains v)).flatMap
        fun (w, count) => List.replicate count w
    (v ∈ own → listed.count v = 0) ∧
      (v ∉ own → (listed.count v : ℕ∞) = min 2 (g.mostWrites v)) := by
  intro listed
  have hnodup : (sortBy Variable.notAfter ((g.written.filter fun v => !own.contains v).filter
      g.written.contains)).Nodup :=
    (perm_sortBy _ _).nodup_iff.2 (((nodup_eraseDups _).filter _).filter _)
  have hmem : v ∈ sortBy Variable.notAfter ((g.written.filter fun v => !own.contains v).filter
      g.written.contains) ↔ v ∈ g.written ∧ v ∉ own := by
    rw [(perm_sortBy _ _).mem_iff]
    simp
  have hcount : listed.count v = _ := count_listed hnodup
    (fun v => (((mk g g.vars (finish g g.vars)).anywhere.lookup v).getD .empty).most) v
  rw [hcount]
  by_cases hown : v ∈ own
  · exact ⟨fun _ => if_neg fun h => (hmem.1 h).2 hown, fun h => absurd hown h⟩
  refine ⟨fun h => absurd h hown, fun _ => ?_⟩
  by_cases hwritten : v ∈ g.written
  · rw [if_pos (hmem.2 ⟨hwritten, hown⟩)]
    refine most_anywhere hg hr ?_ (hfree hown)
    obtain ⟨n, hn, hv⟩ := List.mem_flatMap.1 (List.mem_eraseDups.1 hwritten)
    exact mem_vars_of_writes hn hv
  · rw [if_neg fun h => hwritten (hmem.1 h).1, mostWrites_eq_zero hwritten]
    simp

end WriteCount

namespace Chart

variable {f : Fragment} {owner : Text} {c : Collection} {us : List Chart} {sums : Summaries}
  {u l : Chart}

/-- The code of the first routine creates the second one, which is a lambda. -/
def Creates (u l : Chart) : Prop :=
  ∃ p, .lambda p ∈ u.routine.body.landmarks ∧ l.routine.code = PlacedBody.code p

/-- The places of the lambdas among some charts. -/
def lambdaPlaces (us : List Chart) : List Pos :=
  ((us.map Chart.routine).filter Routine.isClosure).map fun r => r.site.pos

theorem lambdaPlaces_cons (u : Chart) (us : List Chart) : lambdaPlaces (u :: us) =
    (if u.routine.isClosure then [u.routine.site.pos] else []) ++ lambdaPlaces us := by
  unfold lambdaPlaces
  rw [List.map_cons, List.filter_cons]
  split_ifs <;> rfl

theorem mem_lambdaPlaces (hl : l ∈ us) (hclosure : l.routine.isClosure = true) :
    l.routine.site.pos ∈ lambdaPlaces us :=
  List.mem_map_of_mem (List.mem_filter.2 ⟨List.mem_map_of_mem hl, hclosure⟩)

/-- The summary of a lambda that has been charted is found at its place. -/
theorem Drawn.exists_lookup (h : Drawn c us sums) (hnodup : (lambdaPlaces us).Nodup)
    (hl : l ∈ us) (hclosure : l.routine.isClosure = true) :
    ∃ w, WriteCount.ofGraph l.graph = .ok w ∧ sums.lookup l.routine.site.pos =
      some (w.summary (w.graph.written.filter fun v => !l.routine.vars.contains v)) := by
  induction h with
  | nil => cases hl
  | @cons us sums r whole w _ _ hw ih =>
    rw [lambdaPlaces_cons] at hnodup
    rcases List.mem_cons.1 hl with rfl | hl
    · refine ⟨w, hw, ?_⟩
      rw [Analysis.summarize, if_pos hclosure]
      exact List.lookup_cons_self
    · obtain ⟨w', hw', hlookup⟩ := ih (List.nodup_append.1 hnodup).2.1 hl
      refine ⟨w', hw', ?_⟩
      rw [← hlookup, Analysis.summarize]
      split_ifs with hr
      · have hne : r.site.pos ≠ l.routine.site.pos := by
          rw [if_pos hr, List.singleton_append, List.nodup_cons] at hnodup
          rintro heq
          exact hnodup.1 (heq ▸ mem_lambdaPlaces hl hclosure)
        rw [List.singleton_append, List.lookup_cons, beq_eq_false_iff_ne.2 hne.symm]
      · rfl

/-- A chart binds variables of its routine only. -/
theorem Drawn.mem_vars_of_binds (hf : f.Parsed) (hc : Collection.ofFragment owner f = .ok c)
    (h : Drawn c us sums) (hroutines : us.map Chart.routine = c.routines) (hu : u ∈ us) :
    ∀ n ∈ u.graph.nodes, ∀ b ∈ n.binds, b.var ∈ u.routine.vars := by
  obtain ⟨before, behind, sums, whole, -, hdrawn, hwhole, hgraph⟩ := h.exists_ofRoutine hu
  obtain ⟨d, hdraft, rfl⟩ := ofRoutine_eq_ok hwhole
  obtain ⟨flow, d₁, hdraws⟩ := draftRoutine_eq_ok hdraft
  have hsound := sound_of_charts hf hc hdrawn.namedAll
    (hroutines ▸ List.mem_map_of_mem hu) hdraws
  intro n hn
  rw [hgraph] at hn
  exact hsound.binds n (mem_ofDraft_nodes.1 (List.mem_filter.1 hn).1)

/-- A closure of a chart is a lambda that the code of the routine creates. It writes what was found
out about the lambda by the charts behind. -/
theorem Drawn.exists_closure (h : Drawn c us sums) (hu : u ∈ us) {n : Node}
    (hn : n ∈ u.graph.nodes) (hkind : n.kind = .closure) :
    ∃ before behind sums p, us = before ++ u :: behind ∧ Drawn c behind sums ∧
      .lambda p ∈ u.routine.body.landmarks ∧ n.pos = some p.1 ∧
      n.writes = (c.resolution sums).closureWrites p.1 := by
  obtain ⟨before, behind, sums, whole, hus, hdrawn, hwhole, hgraph⟩ := h.exists_ofRoutine hu
  obtain ⟨d, σ, hordered, rfl⟩ := exists_ordered hwhole
  rw [hgraph] at hn
  obtain ⟨p, hp, hpos, hwrites⟩ :=
    (hordered.nodes n (mem_ofDraft_nodes.1 (List.mem_filter.1 hn).1)).closure hkind
  exact ⟨before, behind, sums, p, hus, hdrawn, hp, hpos, hwrites⟩

/-! ## The order of charts -/

/-- In a list without repetitions, what comes behind an element stands behind it. -/
theorem mem_behind {before behind : List Chart} (hnodup : (before ++ u :: behind).Nodup)
    (h : [u, l].Sublist (before ++ u :: behind)) : l ∈ behind := by
  obtain ⟨-, hbehind, hdisjoint⟩ := List.nodup_append.1 hnodup
  obtain ⟨l₁, l₂, heq, h₁, h₂⟩ := List.sublist_append_iff.1 h
  cases l₁ with
  | cons u' l₁ =>
    obtain ⟨rfl, -⟩ := List.cons.inj heq
    exact absurd rfl (hdisjoint u (h₁.subset (.head _)) u (.head _))
  | nil =>
    rw [List.nil_append] at heq
    subst heq
    cases h₂ with
    | cons _ h₂ => exact h₂.subset (.tail _ (.head _))
    | cons_cons _ h₂ => exact h₂.subset (.head _)

section

variable (hf : f.Parsed) (hc : Collection.ofFragment owner f = .ok c)
  (hroutines : us.map Chart.routine = c.routines)

include hc hroutines

/-- The charts of a fragment are those of its body and of all lambdas in it. -/
theorem exists_codes : ∃ (site : Site) (body : LambdaBody), site.className ≠ "JLambda" ∧
    us.map (fun u => u.routine.code) = body.codes site ∧
    ∀ l ∈ us, l.routine.isClosure = true ↔ l.routine.site.className = "JLambda" := by
  obtain ⟨kind, site, params, body, rfl, hsite, -⟩ := Fragment.exists_body hc
  refine ⟨site, .block body, hsite, ?_, fun l hl => ?_⟩
  · have hcodes := congrArg (List.map Routine.code) hroutines
    rw [List.map_map, (Collection.housed_ofBody owner kind site params body).1] at hcodes
    exact hcodes
  · have hmem : l.routine ∈ (Collection.ofBody owner kind site params body).routines :=
      hroutines ▸ List.mem_map_of_mem hl
    rcases List.mem_cons.1 hmem with hroot | hclosure
    · rw [hroot]
      exact ⟨fun h => (by cases h), fun h => absurd h hsite⟩
    · obtain ⟨hcode, hclosures⟩ := Collection.closures_ofBody owner kind site params body
      have hl : l.routine.code ∈ body.lambdas.map PlacedBody.code :=
        hcode ▸ List.mem_map_of_mem hclosure
      obtain ⟨p, -, hp⟩ := List.mem_map.1 hl
      have hlambda : l.routine.site.className = "JLambda" :=
        congrArg (fun code : Site × LambdaBody => code.1.className) hp.symm
      exact ⟨fun _ => hlambda, fun _ => (hclosures _ hclosure).1⟩

theorem exists_creates (hl : l ∈ us) (hclosure : l.routine.isClosure = true) :
    ∃ u ∈ us, u.Creates l := by
  obtain ⟨site, body, hsite, hcodes, hlambda⟩ := exists_codes hc hroutines
  have hmem : l.routine.code ∈ body.codes site :=
    hcodes ▸ List.mem_map_of_mem (f := fun u : Chart => u.routine.code) hl
  rcases List.mem_cons.1 hmem with hroot | hmem
  · exact absurd ((hlambda l hl).1 hclosure) (congrArg (·.1.className) hroot ▸ hsite)
  · obtain ⟨p, hp, hcode⟩ := List.mem_map.1 hmem
    obtain ⟨code, haround, hlandmark⟩ := body.exists_around site hp
    rw [← hcodes] at haround
    obtain ⟨u, hu, rfl⟩ := List.mem_map.1 haround
    exact ⟨u, hu, p, hlandmark, hcode.symm⟩

include hf

theorem nodup_codes : (us.map fun u => u.routine.code).Nodup := by
  have hnodup := hf.nodup_codes hc
  rw [← hroutines, List.map_map] at hnodup
  exact hnodup

theorem nodup_lambdaPlaces : (lambdaPlaces us).Nodup := by
  have hplaces := hf.nodup_lambdas hc
  obtain ⟨kind, site, params, body, rfl, -, -⟩ := Fragment.exists_body hc
  have hclosures := (Collection.closures_ofBody owner kind site params body).2
  rw [lambdaPlaces, hroutines, Collection.routines,
    List.filter_cons_of_neg fun hroot => (by cases hroot),
    List.filter_eq_self.2 fun r hr => (hclosures r hr).1]
  exact hplaces

/-- A lambda comes behind the routine that creates it. -/
theorem exists_pair (hu : u ∈ us) {p : PlacedBody} (hp : .lambda p ∈ u.routine.body.landmarks) :
    ∃ l, [u, l].Sublist us ∧ l.routine.code = p.code := by
  obtain ⟨site, body, -, hcodes, -⟩ := exists_codes hc hroutines
  have hnodup := nodup_codes hf hc hroutines
  have hmem : u.routine.code ∈ body.codes site :=
    hcodes ▸ List.mem_map_of_mem (f := fun u : Chart => u.routine.code) hu
  have hpair := body.pair_sublist site hmem hp
  rw [← hcodes] at hpair
  obtain ⟨us', hus', heq⟩ := List.sublist_map_iff.1 hpair
  obtain ⟨u', rest, rfl, hu', hrest⟩ := List.map_eq_cons_iff.1 heq.symm
  obtain ⟨l, rest, rfl, hl, hrest⟩ := List.map_eq_cons_iff.1 hrest
  rw [List.map_eq_nil_iff] at hrest
  subst hrest
  obtain rfl := List.inj_on_of_nodup_map hnodup (hus'.subset (.head _)) hu hu'
  exact ⟨l, hus', hl⟩

theorem Creates.pair (h : u.Creates l) (hu : u ∈ us) (hl : l ∈ us) : [u, l].Sublist us := by
  obtain ⟨p, hp, hcode⟩ := h
  obtain ⟨l', hpair, hcode'⟩ := exists_pair hf hc hroutines hu hp
  obtain rfl := List.inj_on_of_nodup_map (nodup_codes hf hc hroutines)
    (hpair.subset (.tail _ (.head _))) hl (hcode'.trans hcode.symm)
  exact hpair

/-- A closure lists what the paths of its lambda write of variables from outside. -/
theorem Creates.count_writes (h : u.Creates l) (hdrawn : Drawn c us sums) (hu : u ∈ us)
    (hl : l ∈ us) {n : Node} (hn : n ∈ u.graph.nodes) (hkind : n.kind = .closure)
    (hpos : n.pos = some l.routine.site.pos) (v : Variable) :
    (v ∈ l.routine.vars → n.writes.count v = 0) ∧
      (v ∉ l.routine.vars → (n.writes.count v : ℕ∞) = min 2 (l.graph.mostWrites v)) := by
  have hpair := h.pair hf hc hroutines hu hl
  have hnodup := (nodup_codes hf hc hroutines).of_map
  have hplaces := nodup_lambdaPlaces hf hc hroutines
  have hfree := hdrawn.mem_vars_of_binds hf hc hroutines hl
  have hclosure : l.routine.isClosure = true := by
    obtain ⟨p, -, hcode⟩ := h
    obtain ⟨site, body, -, -, hlambda⟩ := exists_codes hc hroutines
    exact (hlambda l hl).2 (congrArg (fun code : Site × LambdaBody => code.1.className) hcode)
  obtain ⟨_, _, _, whole, -, -, hwhole, hgraph⟩ := hdrawn.exists_ofRoutine hl
  obtain ⟨before, behind, sums', p, rfl, hbehind, -, hpos', hwrites⟩ :=
    hdrawn.exists_closure hu hn hkind
  have hsub : (lambdaPlaces behind).Sublist (lambdaPlaces (before ++ u :: behind)) :=
    ((((List.sublist_cons_self u behind).trans (List.sublist_append_right before _)).map
      _).filter _).map _
  obtain ⟨w, hw, hlookup⟩ := hbehind.exists_lookup (hplaces.sublist hsub)
    (mem_behind hnodup hpair) hclosure
  have hg := (wellFormed_ofRoutine hwhole).prune
  have hr := reaches_of_mem hwhole
  rw [← hgraph] at hg hr
  cases (WriteCount.ofGraph_eq_ok hg hr).symm.trans hw
  have hplace : p.1 = l.routine.site.pos := Option.some.inj (hpos'.symm.trans hpos)
  have hsummary : (c.resolution sums').summary l.routine.site.pos = _ :=
    congrArg (Option.getD · []) hlookup
  rw [hwrites, Resolution.closureWrites, hplace, hsummary]
  exact WriteCount.count_summary hg hr l.routine.vars fun hv m hm b hb heq =>
    hv (heq ▸ hfree m hm b hb)

end

end Chart

namespace Analysis

/-- The summaries of lambdas are exact at any depth. Without a cache, an analysis that succeeds has
charted all routines of the fragment, the last one first. Every lambda is created by one of the
routines, and every closure in a graph is such a lambda. A lambda is charted before a routine that
creates it, and the closures for it in the graph of that routine do not write the variables of the
lambda, but write every other variable as often as a path of the lambda does at most, up to two
times. On such a path the closures for lambdas inside it write as often as they say. -/
theorem summaries_exact {f : Fragment} {owner : Text} {s s' : Session} {verdicts : Verdicts}
    (hf : f.Parsed) (hcache : s.cache = none)
    (h : (fragment f owner).run s = (.ok verdicts, s')) :
    ∃ c us sums, Collection.ofFragment owner f = .ok c ∧ Chart.Drawn c us sums ∧
      us.map Chart.routine = c.routines ∧ s'.graphs = us.map Chart.graph ++ s.graphs ∧
      (∀ l ∈ us, l.routine.isClosure = true → ∃ u ∈ us, u.Creates l) ∧
      ∀ u ∈ us,
        (∀ n ∈ u.graph.nodes, n.kind = .closure →
          ∃ l ∈ us, u.Creates l ∧ n.pos = some l.routine.site.pos) ∧
        ∀ l ∈ us, u.Creates l → [u, l].Sublist us ∧
          ∀ n ∈ u.graph.nodes, n.kind = .closure → n.pos = some l.routine.site.pos → ∀ v,
            (v ∈ l.routine.vars → n.writes.count v = 0) ∧
            (v ∉ l.routine.vars → (n.writes.count v : ℕ∞) = min 2 (l.graph.mostWrites v)) := by
  obtain ⟨c, us, sums, vs, hc, hdrawn, hroutines, hgraphs, -, -⟩ := fragment_spec hcache h
  refine ⟨c, us, sums, hc, hdrawn, hroutines, hgraphs,
    fun l hl hclosure => Chart.exists_creates hc hroutines hl hclosure, fun u hu => ⟨?_, ?_⟩⟩
  · intro n hn hkind
    obtain ⟨-, -, -, p, -, -, hp, hpos, -⟩ := hdrawn.exists_closure hu hn hkind
    obtain ⟨l, hpair, hcode⟩ := Chart.exists_pair hf hc hroutines hu hp
    have hplace : p.1 = l.routine.site.pos :=
      congrArg (fun code : Site × LambdaBody => code.1.pos) hcode.symm
    exact ⟨l, hpair.subset (.tail _ (.head _)), ⟨p, hp, hcode⟩, hplace ▸ hpos⟩
  · intro l hl hcreates
    refine ⟨hcreates.pair hf hc hroutines hu hl, fun n hn hkind hpos v => ?_⟩
    exact hcreates.count_writes hf hc hroutines hdrawn hu hl hn hkind hpos v

/-- `{ int x; f(() -> { f(() -> { x = 1; }); x = 2; }); }` -/
def writingInside : List Char :=
  "\x7b int x; f(() -> \x7b f(() -> \x7b x = 1; \x7d); x = 2; \x7d); \x7d".toList

/-- A lambda writes a variable once itself and once through the lambda inside it. -/
theorem summaries_exact_inside : ∃ (b : Block) (verdicts : Verdicts) (s' : Session)
    (us : List Chart) (u l : Chart) (n : Node), Block.parse writingInside = .ok b ∧
    (fragment (.block b) "f").run (.fresh none) = (.ok verdicts, s') ∧
    s'.graphs = us.map Chart.graph ∧ [u, l].Sublist us ∧ n ∈ u.graph.nodes ∧ n.kind = .closure ∧
    n.pos = some l.routine.site.pos ∧
    n.writes.count ⟨"x", .localVariable, 1, 7, "f", false, false⟩ = 2 ∧
    min 2 (l.graph.mostWrites ⟨"x", .localVariable, 1, 7, "f", false, false⟩) = 2 := by
  obtain ⟨b, hb, hany⟩ := FlowGraph.exists_ok_of_any (x := Block.parse writingInside)
    (p := fun b =>
      (((fragment (.block b) "f").run (.fresh none)).1.toOption.any fun _ => true) &&
      ((fragment (.block b) "f").run (.fresh none)).2.graphs.any fun g => g.nodes.any fun n =>
        n.kind = .closure ∧
          n.writes.count ⟨"x", .localVariable, 1, 7, "f", false, false⟩ = 2)
    (by decide +kernel)
  rw [Bool.and_eq_true] at hany
  obtain ⟨verdicts, s', hrun, -⟩ := exists_run_of_any hany.1
  obtain ⟨g, hgraph, hnode⟩ := List.any_eq_true.1 hany.2
  obtain ⟨n, hn, hwrites⟩ := List.any_eq_true.1 hnode
  obtain ⟨hkind, hcount⟩ := of_decide_eq_true hwrites
  have hparsed : (Fragment.block b).Parsed := ⟨writingInside, _, .inr ⟨b, hb, .refl⟩⟩
  obtain ⟨c, us, sums, -, -, -, hgraphs, -, hall⟩ := summaries_exact hparsed rfl hrun
  have hgraphs : s'.graphs = us.map Chart.graph := hgraphs.trans (List.append_nil _)
  rw [hrun, hgraphs] at hgraph
  obtain ⟨u, hu, rfl⟩ := List.mem_map.1 hgraph
  obtain ⟨hclosures, hlambdas⟩ := hall u hu
  obtain ⟨l, hl, hcreates, hpos⟩ := hclosures n hn hkind
  obtain ⟨hpair, hlists⟩ := hlambdas l hl hcreates
  obtain ⟨hown, hother⟩ := hlists n hn hkind hpos ⟨"x", .localVariable, 1, 7, "f", false, false⟩
  refine ⟨b, verdicts, s', us, u, l, n, hb, hrun, hgraphs, hpair, hn, hkind, hpos, hcount, ?_⟩
  rw [← hother fun h => ?_, hcount]
  · rfl
  · rw [hown h] at hcount
    cases hcount

end Analysis

end WriteOnce
