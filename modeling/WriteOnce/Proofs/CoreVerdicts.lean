import WriteOnce.Proofs.Gathering
import WriteOnce.Proofs.MovedMembers
import WriteOnce.Proofs.MovedVerdicts
import WriteOnce.Proofs.MovedWalks

/-!
# Verdicts depend on the core alone

What a fragment's verdicts are depends on the owner and on the core of the fragment. If the
core is moved, the verdicts are on other variables, and otherwise the same.
-/

namespace WriteOnce

open AnalysisError (Alike)

variable {φ : Pos → Pos} {owners : Text → Text → Prop} {w w' : View}

namespace Collection

/-- Two collections look the same, each through its own view. -/
structure Shown (w w' : View) (c c' : Collection) : Prop where
  routines : c'.routines.map w'.routine = c.routines.map w.routine
  refs : c'.refs.map w'.entry = c.refs.map w.entry
  sites : c'.sites.map w'.entry = c.sites.map w.entry

theorem shown_ofBody (M : View.Matches φ owners w w') {label label' : Text}
    (hlabel : owners label label') (kind : Scope.Kind) (className : Text) (pos : Pos)
    (params : List Param) (body : Block) :
    Shown w w' (ofBody label kind ⟨className, pos⟩ params body)
      (ofBody label' kind ⟨className, φ pos⟩ (params.map (Param.core φ)) (body.core φ)) := by
  obtain ⟨inner, stmts⟩ := body
  have hc : Context.Matches owners ⟨label, kind⟩ ⟨label', kind⟩ := ⟨hlabel, rfl⟩
  have henv : w'.env [] = w.env [] := rfl
  have hparams := agree_declareParams M hc henv params
  have hfound := (hparams.append fun _ _ h => agree_walkStmts M hc h stmts).found
  refine ⟨?_, congrArg Found.refs hfound, congrArg Found.sites hfound⟩
  have hroutines := congrArg Found.routines hfound
  have hvars := congrArg Found.vars hparams.found
  have hdeclared := congrArg Found.declared hfound
  have hbody := M.body (.block ⟨inner, stmts⟩)
  refine List.cons_eq_cons.2 ⟨?_, hroutines⟩
  exact (Routine.mk.injEq ..).mpr
    ⟨rfl, rfl, congrArg (Site.mk .empty) (M.pos pos), hbody, hvars, hdeclared⟩

/-- A fragment and its core, moved, are collected alike. -/
theorem alike_ofFragment (M : View.Matches φ owners w w') {label label' : Text}
    (hlabel : owners label label') (f : Fragment) :
    Alike φ (Shown w w') (ofFragment label f) (ofFragment label' (f.core φ)) := by
  cases f with
  | program p => exact .same _
  | block b =>
    obtain ⟨pos, stmts⟩ := b
    exact .ok (shown_ofBody M hlabel .initializer "JBlock" pos [] ⟨pos, stmts⟩)
  | member m =>
    cases m with
    | method pos modifiers result name params body =>
      cases body with
      | none => exact .moved .methodWithoutBody pos
      | some body => exact .ok (shown_ofBody M hlabel .methodBody "JMethodDecl" pos params body)
    | «initializer» pos isStatic body =>
      exact .ok (shown_ofBody M hlabel .initializer "JInitializer" pos [] body)
    | field => exact .same _
    | classDecl => exact .same _

end Collection

namespace View

/-- Bodies are seen as their moved cores, variables through `seen`. -/
def moving (φ : Pos → Pos) (seen : Variable → Variable) : View := ⟨φ, seen, LambdaBody.core φ⟩

/-- Positions and bodies are seen as they are, variables through `seen`. -/
def still (seen : Variable → Variable) : View := ⟨id, seen, id⟩

end View

variable {μ : Motion} {seen seen' : Variable → Variable}

theorem Routine.moves_of_shown {r r' : Routine}
    (h : (View.still seen').routine r' = (View.moving μ.pos seen).routine r)
    (hvar : ∀ v ∈ r.params ++ r.vars, ∀ v' ∈ r'.params ++ r'.vars, seen' v' = seen v →
      v' = μ.var v) : r.Moves μ r' := by
  obtain ⟨hparent, hsite, hbody, hparams, hdeclarations⟩ :
      (r'.parent.map fun _ => Text.empty) = (r.parent.map fun _ => Text.empty) ∧
      r'.site.pos = μ.pos r.site.pos ∧ r'.body = r.body.core μ.pos ∧
      r'.params.map seen' = r.params.map seen ∧
      r'.declarations.map (View.still seen').declaration =
        r.declarations.map (View.moving μ.pos seen).declaration := by
    simpa [View.routine, View.still, View.moving] using h
  constructor
  · have hsome := congrArg Option.isSome hparent
    rwa [Option.isSome_map, Option.isSome_map] at hsome
  · exact hsite
  · exact hbody
  · exact eq_map_of_map_eq hparams fun v hv v' hv' =>
      hvar v (List.mem_append_left _ hv) v' (List.mem_append_left _ hv')
  · refine eq_map_of_map_eq hdeclarations fun d hd d' hd' hseen => ?_
    obtain ⟨hseen, hscope⟩ := (Declaration.mk.injEq ..).mp hseen
    have hd := List.mem_append_right r.params (List.mem_map_of_mem (f := Declaration.var) hd)
    have hd' := List.mem_append_right r'.params (List.mem_map_of_mem (f := Declaration.var) hd')
    exact (Declaration.mk.injEq ..).mpr ⟨hvar d.var hd d'.var hd' hseen, hscope⟩

namespace Collection

/-- Two collections of fragments that look the same, where variables that look the same are the
moved ones. -/
theorem moves_of_shown {label label' : Text} {f f' : Fragment} {c c' : Collection}
    (hc : ofFragment label f = .ok c) (hc' : ofFragment label' f' = .ok c')
    (h : Shown (View.moving μ.pos seen) (View.still seen') c c')
    (hvar : ∀ v ∈ c.sites.map Prod.snd, ∀ v' ∈ c'.sites.map Prod.snd, seen' v' = seen v →
      v' = μ.var v) : c.Moves μ (· ∈ c.sites.map Prod.snd) c' := by
  obtain ⟨-, hrefs, hroutines⟩ := gathers_ofFragment hc
  obtain ⟨-, hrefs', hroutines'⟩ := gathers_ofFragment hc'
  have hentry : ∀ e e' : Pos × Variable, e.2 ∈ c.sites.map Prod.snd →
      e'.2 ∈ c'.sites.map Prod.snd →
      (View.still seen').entry e' = (View.moving μ.pos seen).entry e →
      e' = (μ.pos e.1, μ.var e.2) := by
    intro e e' he he' hseen
    obtain ⟨hpos, hseen⟩ := Prod.mk.inj hseen
    exact Prod.ext hpos (hvar e.2 he e'.2 he' hseen)
  constructor
  · exact eq_map_of_map_eq h.refs fun e he e' he' => hentry e e'
      (hrefs (List.mem_map_of_mem he)) (hrefs' (List.mem_map_of_mem he'))
  · exact eq_map_of_map_eq h.sites fun e he e' he' => hentry e e'
      (List.mem_map_of_mem he) (List.mem_map_of_mem he')
  · exact forall₂_of_map_eq h.routines fun r hr r' hr' hseen =>
      Routine.moves_of_shown hseen fun v hv v' hv' =>
        hvar v (hroutines r hr hv) v' (hroutines' r' hr' hv')
  · exact fun e he => hrefs (List.mem_map_of_mem he)
  · exact fun e he => List.mem_map_of_mem he
  · exact fun r hr v hv => hroutines r hr hv

theorem Moves.mono {known known' : Variable → Prop} {c c' : Collection} (h : c.Moves μ known c')
    (hsub : ∀ v, known v → known' v) : c.Moves μ known' c' :=
  ⟨h.refs, h.sites, h.routines, fun e he => hsub _ (h.knownRefs e he),
    fun e he => hsub _ (h.knownSites e he), fun r hr v hv => hsub v (h.knownRoutines r hr v hv)⟩

end Collection

namespace Fragment

/-- Two fragments whose collections correspond have the same verdicts, on moved variables. -/
theorem alike_verdicts {known : Variable → Prop} (hμ : μ.Keeps known) {label label' : Text}
    {f f' : Fragment}
    (h : Alike μ.pos (Collection.Moves μ known) (Collection.ofFragment label f)
      (Collection.ofFragment label' f')) :
    Alike μ.pos (Verdicts.Moves μ known) (f.verdicts label) (f'.verdicts label') := by
  refine h.bind fun c c' hc => ?_
  have hroutines := List.rel_reverse hc.routines
  have hknown : ∀ r ∈ c.routines.reverse, ∀ v ∈ r.params ++ r.vars, known v := fun r hr =>
    hc.knownRoutines r (List.mem_reverse.1 hr)
  refine (Verdicts.alike_ofRoutines hμ hc hroutines hknown (fun _ h => by cases h)
    (fun _ h => by cases h)).bind fun vs vs' hvs => ?_
  exact .ok (hvs.sort hμ)

end Fragment

/-! ## Where nothing is moved -/

/-- Every position and every variable in its place. -/
def Motion.still : Motion := ⟨id, id⟩

theorem keeps_still : Motion.still.Keeps fun _ => True :=
  ⟨Function.injective_id, Function.injective_id, fun _ _ _ _ => rfl, fun _ _ => rfl,
    fun _ _ => rfl, fun _ _ => rfl⟩

theorem matches_still : View.Matches id Eq (View.moving id id) (View.still id) where
  pos _ := rfl
  body _ := rfl
  var := by
    rintro o _ rfl p name kind isFinal multi
    rfl
  lambda := labelling_eq.lambda

/-- The verdicts of a fragment are those of its core. -/
theorem Fragment.verdicts_core (f : Fragment) (owner : Text) :
    (f.core id).verdicts owner = f.verdicts owner := by
  have hcollected : Alike id (Collection.Moves .still fun _ => True)
      (Collection.ofFragment owner f) (Collection.ofFragment owner (f.core id)) :=
    (Collection.alike_ofFragment matches_still rfl f).imp fun c c' hc hc' h =>
      (Collection.moves_of_shown hc hc' h fun _ _ _ _ h => h).mono fun _ _ => trivial
  refine (((Fragment.alike_verdicts keeps_still hcollected).imp ?_).eq).symm
  rintro vs _ - - ⟨rfl, -⟩
  exact (List.map_id vs).symm

/-- Fragments with the same core have the same verdicts. -/
theorem Fragment.verdicts_congr {f f' : Fragment} (h : f'.core id = f.core id) (owner : Text) :
    f'.verdicts owner = f.verdicts owner := by
  rw [← f'.verdicts_core, h, f.verdicts_core]

theorem OwnedMember.Moves.verdicts_eq {m m' : OwnedMember} (h : m.Moves id Eq m') :
    m'.verdicts = m.verdicts := by
  unfold OwnedMember.verdicts
  rw [h.member, ← h.owner]
  exact Fragment.verdicts_core (.member m.member) m.owner

end WriteOnce
