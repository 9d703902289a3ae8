import WriteOnce.Proofs.CoreVerdicts
import WriteOnce.Proofs.Outcomes
import WriteOnce.Proofs.ProgramVariables

/-!
# Reports on moved programs

If the places of a program are moved and keep their order, its variables are moved with them, and
the report is the same up to the places and owners of variables.
-/

namespace WriteOnce

open AnalysisError (Alike)

variable {μ : Motion} {known : Variable → Prop}

namespace Verdicts

variable {vs vs' found found' : Verdicts}

theorem Moves.insertAll (hμ : μ.Keeps known) (h : vs.Moves μ known vs')
    (hfound : found.Moves μ known found') :
    Verdicts.Moves μ known (vs.insertAll found) (vs'.insertAll found') := by
  obtain ⟨rfl, hknown⟩ := hfound
  induction found generalizing vs vs' with
  | nil => exact h
  | cons e found ih =>
    obtain ⟨he, hknown⟩ := List.forall_mem_cons.1 hknown
    refine ih ⟨?_, known_insert he e.2 h.2⟩ hknown
    rw [h.1]
    exact insert_move hμ e.1 e.2 vs

theorem isHidden_move (hμ : μ.Keeps known) {d : Declaration} (hd : known d.var) (o : Options) :
    (d.move μ).isHidden o = d.isHidden o := by
  unfold Declaration.isHidden Declaration.isLambdaParameter Declaration.move
  rw [hμ.kind d.var hd]

theorem Moves.hide (hμ : μ.Keeps known) (h : vs.Moves μ known vs') (options : Option Options) :
    (vs.hide options).Moves μ known (vs'.hide options) := by
  obtain ⟨rfl, hknown⟩ := h
  cases options with
  | none => exact ⟨rfl, hknown⟩
  | some o =>
    refine ⟨?_, List.forall_mem_map.2 hknown⟩
    change ((vs.map _).map _ : Verdicts) = (vs.map _).map _
    rw [List.map_map, List.map_map]
    refine List.map_congr_left fun e he => ?_
    dsimp only [Function.comp]
    rw [isHidden_move hμ (hknown e he)]

end Verdicts

/-! ## Reports -/

/-- Both analyses fail, or both give the same verdicts on moved variables. -/
abbrev OwnedMember.SameVerdicts (μ : Motion) (known : Variable → Prop) (m m' : OwnedMember) :
    Prop :=
  Alike μ.pos (Verdicts.Moves μ known) m.verdicts m'.verdicts

theorem OwnedMember.SameVerdicts.fails {m m' : OwnedMember} (h : m.SameVerdicts μ known m') :
    m'.fails = m.fails := by
  unfold OwnedMember.SameVerdicts at h
  unfold OwnedMember.fails
  generalize m.verdicts = x, m'.verdicts = y at h
  cases h <;> rfl

theorem OwnedMember.SameVerdicts.found {m m' : OwnedMember} (h : m.SameVerdicts μ known m') :
    m.found.Moves μ known m'.found := by
  unfold OwnedMember.SameVerdicts at h
  unfold OwnedMember.found
  generalize m.verdicts = x, m'.verdicts = y at h
  cases h with
  | ok h => exact h
  | moved | same => exact ⟨rfl, fun _ he => nomatch he⟩

theorem moves_insertFound (hμ : μ.Keeps known) {ms ms' : List OwnedMember}
    (h : List.Forall₂ (OwnedMember.SameVerdicts μ known) ms ms') {vs vs' : Verdicts}
    (hvs : vs.Moves μ known vs') :
    Verdicts.Moves μ known (ms.foldl (fun vs m => vs.insertAll m.found) vs)
      (ms'.foldl (fun vs m => vs.insertAll m.found) vs') := by
  induction h generalizing vs vs' with
  | nil => exact hvs
  | cons hm _ ih => exact ih (hvs.insertAll hμ hm.found)

/-- The verdicts of two programs whose members have the same verdicts are the same. -/
theorem Program.moves_report (hμ : μ.Keeps known) {p p' : Program}
    (h : List.Forall₂ (OwnedMember.SameVerdicts μ known) p.ownedMembers p'.ownedMembers)
    (options : Option Options) :
    (p.report options).verdicts.Moves μ known (p'.report options).verdicts := by
  have hnone : Verdicts.Moves μ known [] [] := ⟨rfl, fun _ he => nomatch he⟩
  exact ((moves_insertFound hμ h hnone).hide hμ options).sort hμ

/-! ## Variables at moved places -/

namespace Variable

/-- The variable at a moved place, without its owner. -/
def relocate (φ : Pos → Pos) (v : Variable) : Variable :=
  { v with line := (φ v.place).line, col := (φ v.place).col, owner := .empty }

def disown (v : Variable) : Variable := { v with owner := .empty }

end Variable

variable {φ : Pos → Pos}

theorem matches_relocate (φ : Pos → Pos) : View.Matches φ (fun _ _ => True)
    (View.moving φ (Variable.relocate φ)) (View.still Variable.disown) where
  pos _ := rfl
  body _ := rfl
  var _ _ _ _ _ _ := rfl
  lambda _ _ := trivial

namespace OwnedMember

theorem alike_collected {m n : OwnedMember} (h : m.Moves φ (fun _ _ => True) n) :
    Alike φ (Collection.Shown (View.moving φ (Variable.relocate φ)) (View.still Variable.disown))
      (Collection.ofMember m.owner m.member) (Collection.ofMember n.owner n.member) := by
  rw [h.member]
  exact Collection.alike_ofFragment (matches_relocate φ) trivial (.member m.member)

/-- The variables of a moved member look like those of the member, moved. -/
theorem disown_vars {m n : OwnedMember} (h : m.Moves φ (fun _ _ => True) n) :
    n.vars.map Variable.disown = m.vars.map (Variable.relocate φ) := by
  have hshown := alike_collected h
  unfold vars sites
  generalize Collection.ofMember m.owner m.member = x, Collection.ofMember n.owner n.member = y
    at hshown
  cases hshown with
  | ok h =>
    have hsites := congrArg (List.map Prod.snd) h.sites
    rwa [List.map_map, List.map_map] at hsites ⊢
  | moved | same => rfl

/-- Where variables that look the same are the moved ones, verdicts are the same. -/
theorem sameVerdicts_of_moves {m n : OwnedMember} (h : m.Moves μ.pos (fun _ _ => True) n)
    (hμ : μ.Keeps known) (hknown : ∀ v ∈ m.vars, known v)
    (hvar : ∀ v ∈ m.vars, ∀ v' ∈ n.vars, v'.disown = v.relocate μ.pos → v' = μ.var v) :
    m.SameVerdicts μ known n := by
  refine Fragment.alike_verdicts hμ ((alike_collected h).imp fun c c' hc hc' hshown => ?_)
  have hvars : m.vars = c.sites.map Prod.snd := by
    unfold vars sites
    rw [hc]
  have hvars' : n.vars = c'.sites.map Prod.snd := by
    unfold vars sites
    rw [hc']
  rw [hvars] at hknown hvar
  rw [hvars'] at hvar
  have hfragment : Collection.ofFragment m.owner (.member m.member) = .ok c := hc
  have hfragment' : Collection.ofFragment n.owner (.member n.member) = .ok c' := hc'
  exact (Collection.moves_of_shown hfragment hfragment' hshown hvar).mono hknown

end OwnedMember

/-! ## Moving a program -/

namespace Program

/-- Variables that are relocated keep what verdicts depend on, if their places keep their order. -/
theorem keeps_of_relocate {known : Variable → Prop} {ρ : Variable → Variable}
    (hφ : Function.Injective φ) (hinj : Function.Injective ρ)
    (hplace : ∀ v, known v → v.line = v.place.line ∧ v.col = v.place.col)
    (hρ : ∀ v, known v → (ρ v).disown = v.relocate φ)
    (horder : ∀ v, known v → ∀ w, known w →
      (Pos.Past 0 (φ v.place) (φ w.place) ↔ Pos.Past 0 v.place w.place)) :
    Motion.Keeps ⟨φ, ρ⟩ known where
  pos := hφ
  var := hinj
  order v w hv hw := by
    have hline : ∀ v, known v → (ρ v).line = (φ v.place).line := fun v hv =>
      congrArg Variable.line (hρ v hv)
    have hcol : ∀ v, known v → (ρ v).col = (φ v.place).col := fun v hv =>
      congrArg Variable.col (hρ v hv)
    obtain ⟨hvline, hvcol⟩ := hplace v hv
    obtain ⟨hwline, hwcol⟩ := hplace w hw
    have hplaces := horder v hv w hw
    unfold Pos.Past at hplaces
    rw [Bool.eq_iff_iff]
    simp only [Variable.notAfter, Bool.or_eq_true, Bool.and_eq_true, decide_eq_true_eq]
    rw [hline v hv, hline w hw, hcol v hv, hcol w hw, hvline, hwline, hvcol, hwcol]
    omega
  kind v hv := by
    have h := congrArg Variable.kind (hρ v hv)
    exact h
  isFinal v hv := by
    have h := congrArg Variable.isFinal (hρ v hv)
    exact h
  multi v hv := by
    have h := congrArg Variable.multi (hρ v hv)
    exact h

/-- Places that are moved without changing their order take the variables with them, and the
verdicts as well. -/
theorem exists_motion {p p' : Program} (hcore : p'.core id = p.core φ)
    (hφ : Function.Injective φ) (hnodup : (p.vars.map Variable.place).Nodup)
    (horder : ∀ v ∈ p.vars, ∀ w ∈ p.vars,
      Pos.Past 0 (φ v.place) (φ w.place) ↔ Pos.Past 0 v.place w.place) :
    ∃ ρ : Variable → Variable, Motion.Keeps ⟨φ, ρ⟩ (· ∈ p.vars) ∧
      (∀ v ∈ p.vars, (ρ v).name = v.name) ∧
      List.Forall₂ (OwnedMember.SameVerdicts ⟨φ, ρ⟩ (· ∈ p.vars)) p.ownedMembers
        p'.ownedMembers := by
  have hmoved := moved_ownedMembers (labelling_true φ) (fun _ => trivial) p
  have hstill := moved_ownedMembers labelling_eq (fun _ => rfl) p'
  rw [hcore] at hstill
  have hlook : (p.core φ).vars.map Variable.disown = p.vars.map (Variable.relocate φ) := by
    unfold vars
    generalize p.ownedMembers = ms, (p.core φ).ownedMembers = ns at hmoved
    clear hnodup horder hstill
    induction hmoved with
    | nil => rfl
    | cons hm _ ih =>
      rw [List.flatMap_cons, List.flatMap_cons, List.map_append, List.map_append, ih,
        OwnedMember.disown_vars hm]
  have hdistinct : (p.vars.map (Variable.relocate φ)).Nodup := by
    have hplaces := hnodup.map hφ
    rw [List.map_map] at hplaces
    refine List.Nodup.of_map Variable.place ?_
    rwa [List.map_map]
  obtain ⟨ρ, hρ, hvar⟩ := exists_perm_of_map_eq hlook hdistinct
  have hkeeps : Motion.Keeps ⟨φ, ρ⟩ (· ∈ p.vars) := keeps_of_relocate hφ ρ.injective
    (fun v hv => place_of_mem_vars hv) hρ horder
  have hname : ∀ v ∈ p.vars, (ρ v).name = v.name := fun v hv => by
    have h := congrArg Variable.name (hρ v hv)
    exact h
  refine ⟨ρ, hkeeps, hname, ?_⟩
  have hpaired : List.Forall₂ (fun m n => m ∈ p.ownedMembers ∧ n ∈ (p.core φ).ownedMembers ∧
      m.Moves φ (fun _ _ => True) n) p.ownedMembers (p.core φ).ownedMembers :=
    forall₂_mem hmoved
  refine forall₂_comp hpaired hstill.flip fun m n m' ⟨hm, hn, hmove⟩ hsame => ?_
  unfold OwnedMember.SameVerdicts
  rw [← hsame.verdicts_eq]
  refine OwnedMember.sameVerdicts_of_moves hmove hkeeps
    (fun v hv => List.mem_flatMap.2 ⟨m, hm, hv⟩) fun v hv v' hv' hlook => ?_
  exact hvar v (List.mem_flatMap.2 ⟨m, hm, hv⟩) v' (List.mem_flatMap.2 ⟨n, hn, hv'⟩) hlook

end Program

end WriteOnce
