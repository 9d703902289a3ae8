import WriteOnce.Proofs.WalkRules

/-!
# Where the variables of a walk come from

Every variable that a walk finds is declared by the walk, at the position of its site, or was
known before.
-/

namespace WriteOnce

namespace Found

/-- The variables that a walk declares. -/
def siteVars (f : Found) : List Variable := f.sites.map Prod.snd

end Found

/-- The variables that an environment knows. -/
def Env.vars (env : Env) : List Variable := env.map Prod.snd

namespace Collection

/-- Every variable stands at its site, and none comes from elsewhere than from a site or from
those that are known. What is declared at the sites is shared out among the routine that is walked
and those inside it. -/
structure Gathers (known : List Variable) (f : Found) : Prop where
  sites : ∀ e ∈ f.sites, e.2.line = e.1.line ∧ e.2.col = e.1.col
  vars : f.vars ⊆ f.siteVars
  shares : (f.declared.map Declaration.var ++ f.routines.flatMap Routine.vars).Perm f.siteVars
  refs : f.refs.map Prod.snd ⊆ known ++ f.siteVars
  params : ∀ r ∈ f.routines, r.params ⊆ f.siteVars

/-- The same for a walk that goes on in another environment. -/
structure GathersTo (known : List Variable) (r : Env × Found) : Prop
    extends Gathers known r.2 where
  env : r.1.vars ⊆ known ++ r.2.siteVars

namespace Gathers

variable {known known' : List Variable} {f g : Found}

theorem declared (h : Gathers known f) : f.declared.map Declaration.var ⊆ f.siteVars :=
  List.Subset.trans (List.subset_append_left _ _) h.shares.subset

theorem routines (h : Gathers known f) :
    ∀ r ∈ f.routines, r.params ++ r.vars ⊆ f.siteVars := by
  intro r hr
  refine List.append_subset.2 ⟨h.params r hr, fun v hv => h.shares.subset ?_⟩
  exact List.mem_append_right _ (List.mem_flatMap.2 ⟨r, hr, hv⟩)

theorem nothing : Gathers known .nothing :=
  ⟨fun _ h => (by cases h), fun _ h => (by cases h), .nil, fun _ h => (by cases h),
    fun _ h => (by cases h)⟩

theorem append (h : Gathers known f) (h' : Gathers known' g)
    (hknown : known' ⊆ known ++ f.siteVars) : Gathers known (f ++ g) := by
  have hleft : f.siteVars ⊆ (f ++ g).siteVars :=
    List.map_subset _ (List.subset_append_left f.sites g.sites)
  have hright : g.siteVars ⊆ (f ++ g).siteVars :=
    List.map_subset _ (List.subset_append_right f.sites g.sites)
  refine ⟨List.forall_mem_append.2 ⟨h.sites, h'.sites⟩, ?_, ?_, ?_, ?_⟩
  · exact List.append_subset.2 ⟨List.Subset.trans h.vars hleft, List.Subset.trans h'.vars hright⟩
  · change (List.map _ (f.declared ++ g.declared) ++ List.flatMap _ (f.routines ++ g.routines)).Perm
      (List.map _ (f.sites ++ g.sites))
    rw [List.map_append, List.flatMap_append, List.map_append]
    refine List.Perm.trans (List.perm_iff_count.2 fun v => ?_) (h.shares.append h'.shares)
    simp only [List.count_append]
    omega
  · change List.map _ (f.refs ++ g.refs) ⊆ _
    have hrefs := h.refs
    have hrefs' := h'.refs
    rw [List.map_append]
    grind
  · exact List.forall_mem_append.2
      ⟨fun r hr => List.Subset.trans (h.params r hr) hleft,
        fun r hr => List.Subset.trans (h'.params r hr) hright⟩

/-- The order in which something was found does not count. -/
theorem of_perm (h : Gathers known f) (hvars : g.vars ⊆ f.vars)
    (hdeclared : f.declared.Perm g.declared) (hrefs : g.refs = f.refs)
    (hsites : f.sites.Perm g.sites) (hroutines : g.routines = f.routines) : Gathers known g := by
  have hsiteVars : f.siteVars ⊆ g.siteVars := (hsites.map Prod.snd).subset
  constructor
  · exact fun e he => h.sites e (hsites.symm.subset he)
  · exact List.Subset.trans (List.Subset.trans hvars h.vars) hsiteVars
  · rw [hroutines]
    exact .trans ((hdeclared.map _).symm.append_right _) (h.shares.trans (hsites.map _))
  · rw [hrefs]
    exact List.Subset.trans h.refs (List.append_subset.2
      ⟨List.subset_append_left .., List.subset_append_of_subset_right _ hsiteVars⟩)
  · rw [hroutines]
    exact fun r hr => List.Subset.trans (h.params r hr) hsiteVars

theorem enclose (h : Gathers known f) (kind : Scope.Kind) (site : Site) :
    Gathers known (f.enclose kind site) :=
  h.of_perm (List.nil_subset _) (.refl _) rfl (.refl _) rfl

theorem closure (h : Gathers known (f ++ g)) (hparams : f.vars ⊆ f.siteVars) (c : Context)
    (env : Env) (pos : Pos) (label : Text) (body : LambdaBody) :
    Gathers known (closure c env pos label body f g) := by
  refine ⟨h.sites, List.nil_subset _, h.shares, h.refs, fun r hr => ?_⟩
  rcases List.mem_cons.1 hr with rfl | hr
  · apply List.Subset.trans hparams
    exact List.map_subset _ (List.subset_append_left f.sites g.sites)
  · exact h.params r hr

theorem stays {env : Env} (h : Gathers env.vars f) : GathersTo env.vars (env, f) :=
  ⟨h, List.subset_append_left _ _⟩

end Gathers

namespace GathersTo

variable {known : List Variable} {r r' : Env × Found}

theorem append (h : GathersTo known r) (h' : GathersTo r.1.vars r') :
    GathersTo known (r'.1, r.2 ++ r'.2) := by
  refine ⟨h.toGathers.append h'.toGathers h.env, ?_⟩
  have henv := h.env
  have henv' := h'.env
  change _ ⊆ _ ++ List.map _ (r.2.sites ++ r'.2.sites)
  unfold Found.siteVars at henv henv'
  grind

theorem declare (c : Context) (env : Env) (d : Decl) :
    GathersTo env.vars (declare c env d.pos (d.variable c.owner)) := by
  refine ⟨⟨?_, List.Subset.refl _, .refl _, fun _ h => (by cases h),
    fun _ h => (by cases h)⟩, ?_⟩
  · intro e he
    cases List.mem_singleton.1 he
    exact ⟨rfl, rfl⟩
  · intro v hv
    rcases List.mem_cons.1 hv with rfl | hv
    · exact List.mem_append_right _ (.head _)
    · exact List.mem_append_left _ hv

end GathersTo

theorem mem_vars_of_find? {env : Env} {name : Text} {v : Variable} (h : env.find? name = some v) :
    v ∈ env.vars := by
  induction env with
  | nil => cases h
  | cons e env ih =>
    rw [Env.find?, List.lookup_cons] at h
    cases hname : name == e.1 with
    | true =>
      rw [hname] at h
      cases h
      exact .head _
    | false =>
      rw [hname] at h
      exact .tail _ (ih h)

theorem gathers_name (env : Env) (pos : Pos) (name : Text) :
    Gathers env.vars (match env.find? name with | some v => .ref pos v | none => .nothing) := by
  cases hv : env.find? name with
  | none => exact .nothing
  | some v =>
    refine ⟨fun _ h => (by cases h), fun _ h => (by cases h), .nil, ?_, fun _ h => (by cases h)⟩
    intro v' hv'
    cases List.mem_singleton.1 hv'
    exact List.mem_append_left _ (mem_vars_of_find? hv)

theorem vars_declareParams_subset (c : Context) (env : Env) (ps : List Param) :
    (declareParams c env ps).2.vars ⊆ (declareParams c env ps).2.siteVars := by
  induction ps generalizing env with
  | nil => exact List.Subset.refl _
  | cons p ps ih => exact List.cons_subset_cons _ (ih _)

theorem GathersTo.rules : WalkRules fun _ env _ r => GathersTo env.vars r where
  nothing _ _ := Gathers.nothing.stays
  name _ env pos word := (gathers_name env pos word).stays
  declare := .declare
  append := .append
  region h := h.toGathers.stays
  enclose h _ _ _ := (h.toGathers.enclose ..).stays
  of_perm h hvars _ hdeclared hrefs hsites hroutines :=
    (h.toGathers.of_perm hvars.subset hdeclared hrefs hsites hroutines).stays
  closure _ h := (h.toGathers.closure (vars_declareParams_subset ..) ..).stays

theorem gathers_ofBody (label : Text) (kind : Scope.Kind) (site : Site) (params : List Param)
    (body : Block) : ∃ f, Gathers [] f ∧ (ofBody label kind site params body).sites = f.sites ∧
      (ofBody label kind site params body).refs = f.refs ∧
      ((ofBody label kind site params body).routines.flatMap Routine.vars).Perm f.siteVars ∧
      ∀ r ∈ (ofBody label kind site params body).routines, r.params ++ r.vars ⊆ f.siteVars := by
  have hwalk := GathersTo.rules.of_walkStmts ⟨label, kind⟩
    (declareParams ⟨label, kind⟩ [] params).1 body.stmts
  have hfound := ((GathersTo.rules.declareParams ⟨label, kind⟩ [] params).append hwalk).toGathers
  refine ⟨_, hfound, rfl, rfl, hfound.shares, fun r hr => ?_⟩
  rcases List.mem_cons.1 hr with rfl | hr
  · have hparams := vars_declareParams_subset ⟨label, kind⟩ [] params
    refine List.append_subset.2 ⟨List.Subset.trans hparams ?_, hfound.declared⟩
    exact List.map_subset _ (List.subset_append_left ..)
  · exact hfound.routines r hr

/-- A collection is that of a body. -/
theorem exists_ofBody {label : Text} {f : Fragment} {c : Collection}
    (h : ofFragment label f = .ok c) :
    ∃ kind site params body, c = ofBody label kind site params body := by
  cases f with
  | block b =>
    cases h
    exact ⟨_, _, _, _, rfl⟩
  | program p => cases h
  | member m =>
    cases m with
    | method _ _ _ _ _ body =>
      cases body with
      | none => cases h
      | some body =>
        cases h
        exact ⟨_, _, _, _, rfl⟩
    | «initializer» =>
      cases h
      exact ⟨_, _, _, _, rfl⟩
    | field => cases h
    | classDecl => cases h

/-- In the collection of a fragment every variable stands at its site, and all variables that
names denote or that belong to a routine have a site. -/
theorem gathers_ofFragment {label : Text} {f : Fragment} {c : Collection}
    (h : ofFragment label f = .ok c) :
    (∀ e ∈ c.sites, e.2.line = e.1.line ∧ e.2.col = e.1.col) ∧
      c.refs.map Prod.snd ⊆ c.sites.map Prod.snd ∧
      ∀ r ∈ c.routines, r.params ++ r.vars ⊆ c.sites.map Prod.snd := by
  obtain ⟨kind, site, params, body, rfl⟩ := exists_ofBody h
  obtain ⟨found, hfound, hsites, hrefs, -, hroutines⟩ :=
    gathers_ofBody label kind site params body
  rw [hsites, hrefs]
  exact ⟨hfound.sites, hfound.refs, hroutines⟩

/-- The routines of a fragment share out its variables. -/
theorem shares_ofFragment {label : Text} {f : Fragment} {c : Collection}
    (h : ofFragment label f = .ok c) :
    (c.routines.flatMap Routine.vars).Perm (c.sites.map Prod.snd) := by
  obtain ⟨kind, site, params, body, rfl⟩ := exists_ofBody h
  obtain ⟨found, -, hsites, -, hshares, -⟩ := gathers_ofBody label kind site params body
  rw [hsites]
  exact hshares

end Collection

end WriteOnce
