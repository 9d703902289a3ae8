import Mathlib.Data.List.Forall2
import WriteOnce.Proofs.WalkRules

/-!
# What a walk finds, by the outline of the code

The walk over code finds what the outline of the code shows: what the names denote, which variables
are made, and which routines the lambdas are. The scopes that it opens have all these variables in
them, and the scope of every routine holds the routine's own.
-/

namespace WriteOnce

/-! ## Scopes -/

namespace Scope

def isClosure (s : Scope) : Bool := s.kind = .closureBody

mutual

/-- A scope with all scopes in it, in preorder. -/
def all : Scope → List Scope
  | ⟨kind, site, vars, children, captured⟩ =>
    ⟨kind, site, vars, children, captured⟩ :: allOf children

def allOf : List Scope → List Scope
  | [] => []
  | s :: ss => s.all ++ allOf ss

end

mutual

/-- The variables of a scope and of those in it, as far as no lambda is in between. -/
def own : Scope → List Variable
  | ⟨_, _, vars, children, _⟩ => vars ++ ownOf children

def ownOf : List Scope → List Variable
  | [] => []
  | s :: ss => (if s.isClosure then [] else s.own) ++ ownOf ss

end

theorem allOf_eq (ss : List Scope) : allOf ss = ss.flatMap all := by
  induction ss with
  | nil => rfl
  | cons s ss ih => rw [allOf, List.flatMap_cons, ih]

theorem ownOf_eq (ss : List Scope) :
    ownOf ss = ss.flatMap fun s => if s.isClosure then [] else s.own := by
  induction ss with
  | nil => rfl
  | cons s ss ih => rw [ownOf, List.flatMap_cons, ih]

@[simp] theorem allOf_append (ss ts : List Scope) : allOf (ss ++ ts) = allOf ss ++ allOf ts := by
  rw [allOf_eq, allOf_eq, allOf_eq, List.flatMap_append]

@[simp] theorem ownOf_append (ss ts : List Scope) : ownOf (ss ++ ts) = ownOf ss ++ ownOf ts := by
  rw [ownOf_eq, ownOf_eq, ownOf_eq, List.flatMap_append]

theorem perm_allOf {ss ts : List Scope} (h : ss.Perm ts) : (allOf ss).Perm (allOf ts) := by
  rw [allOf_eq, allOf_eq]
  exact h.flatMap_right _

theorem perm_ownOf {ss ts : List Scope} (h : ss.Perm ts) : (ownOf ss).Perm (ownOf ts) := by
  rw [ownOf_eq, ownOf_eq]
  exact h.flatMap_right _

/-- A scope with the variables of a routine in it. -/
structure Holds (s : Scope) (r : Routine) : Prop where
  site : s.site = r.site
  own : s.own.Perm r.vars

end Scope

namespace Collection

/-- Every variable that was found stands in one scope. Those of the routine that is walked stand
outside the scopes of lambdas, and every routine that was found has such a scope. -/
structure Nested (f : Found) : Prop where
  all : (f.vars ++ (Scope.allOf f.children).flatMap Scope.vars).Perm (f.sites.map Prod.snd)
  own : (f.vars ++ Scope.ownOf f.children).Perm (f.declared.map Declaration.var)
  closures : ∃ ss, List.Forall₂ Scope.Holds ss f.routines ∧
    ss.Perm ((Scope.allOf f.children).filter Scope.isClosure)

namespace Nested

variable {f g : Found}

theorem nothing : Nested .nothing := ⟨.nil, .nil, [], .nil, .nil⟩

theorem ref (pos : Pos) (v : Variable) : Nested (.ref pos v) := ⟨.nil, .nil, [], .nil, .nil⟩

theorem declaration (pos : Pos) (v : Variable) (kind : Scope.Kind) :
    Nested (.declaration pos v kind) :=
  ⟨.refl _, .refl _, [], .nil, .nil⟩

theorem append (h : Nested f) (h' : Nested g) : Nested (f ++ g) := by
  obtain ⟨ss, hholds, hclosures⟩ := h.closures
  obtain ⟨ts, hholds', hclosures'⟩ := h'.closures
  refine ⟨?_, ?_, ss ++ ts, List.rel_append hholds hholds', ?_⟩
  · change ((f.vars ++ g.vars) ++ (Scope.allOf (f.children ++ g.children)).flatMap _).Perm
      (List.map _ (f.sites ++ g.sites))
    refine .trans (List.perm_iff_count.2 fun v => ?_) (List.map_append ▸ h.all.append h'.all)
    simp only [Scope.allOf_append, List.flatMap_append, List.count_append]
    omega
  · change ((f.vars ++ g.vars) ++ Scope.ownOf (f.children ++ g.children)).Perm
      (List.map _ (f.declared ++ g.declared))
    refine .trans (List.perm_iff_count.2 fun v => ?_) (List.map_append ▸ h.own.append h'.own)
    simp only [Scope.ownOf_append, List.count_append]
    omega
  · change (ss ++ ts).Perm (List.filter _ (Scope.allOf (f.children ++ g.children)))
    rw [Scope.allOf_append, List.filter_append]
    exact hclosures.append hclosures'

/-- The order in which something was found does not count, except for the routines. -/
theorem of_perm (h : Nested f) (hvars : g.vars.Perm f.vars) (hchildren : g.children.Perm f.children)
    (hdeclared : f.declared.Perm g.declared) (hsites : f.sites.Perm g.sites)
    (hroutines : g.routines = f.routines) : Nested g := by
  have hscopes := Scope.perm_allOf hchildren
  obtain ⟨ss, hholds, hclosures⟩ := h.closures
  refine ⟨?_, ?_, ss, hroutines ▸ hholds, hclosures.trans (hscopes.filter _).symm⟩
  · exact (hvars.append (hscopes.flatMap_right _)).trans (h.all.trans (hsites.map _))
  · exact (hvars.append (Scope.perm_ownOf hchildren)).trans (h.own.trans (hdeclared.map _))

theorem enclose (h : Nested f) {kind : Scope.Kind} (hkind : kind ≠ .closureBody) (site : Site) :
    Nested (f.enclose kind site) := by
  have hopen : Scope.isClosure ⟨kind, site, f.vars, f.children, []⟩ = false := by
    simpa [Scope.isClosure] using hkind
  obtain ⟨ss, hholds, hclosures⟩ := h.closures
  refine ⟨?_, ?_, ss, hholds, ?_⟩
  · simpa [Found.enclose, Scope.allOf, Scope.all] using h.all
  · simpa [Found.enclose, Scope.ownOf, Scope.own, hopen] using h.own
  · simpa [Found.enclose, Scope.allOf, Scope.all, hopen] using hclosures

theorem closure {params inner : Found} (h : Nested (params ++ inner)) (c : Context) (env : Env)
    (pos : Pos) (label : Text) (body : LambdaBody) :
    Nested (closure c env pos label body params inner) := by
  obtain ⟨ss, hholds, hclosures⟩ := h.closures
  let s : Scope := ⟨.closureBody, ⟨"JLambda", pos⟩, (params ++ inner).vars,
    (params ++ inner).children, env⟩
  refine ⟨?_, .nil, s :: ss, .cons ⟨rfl, h.own⟩ hholds, ?_⟩
  · simpa [Collection.closure, Scope.allOf, Scope.all, Found.nothing] using h.all
  · simpa [Collection.closure, Scope.allOf, Scope.all, Scope.isClosure, s] using hclosures

end Nested

end Collection

/-! ## Outlines -/

/-- A routine is what a lambda becomes. -/
structure PlacedLambda.Becomes (l : PlacedLambda) (r : Routine) : Prop where
  label : r.label = l.label
  parent : r.parent = some l.owner
  site : r.site = ⟨"JLambda", l.pos⟩
  params : r.params = l.params.map (Decl.variable l.label)
  vars : r.vars.Perm (l.inner.own.map (Decl.variable l.label))

namespace Collection

/-- What a walk over code with this outline finds in a routine, and what names denote behind it. -/
structure Outlined (owner : Text) (env : Env) (o : Outline) (r : Env × Found) : Prop where
  after : r.1 = o.after owner env
  refs : r.2.refs = o.refs owner env
  declared : (r.2.declared.map Declaration.var).Perm (o.own.map (Decl.variable owner))
  sites : r.2.sites.Perm (o.sites owner)
  routines : List.Forall₂ PlacedLambda.Becomes (o.lambdas owner) r.2.routines
  nested : Nested r.2

namespace Outlined

variable {owner : Text} {env : Env} {o o' : Outline} {r r' : Env × Found} {f g : Found}

theorem nothing : Outlined owner env .nil (env, .nothing) :=
  ⟨rfl, rfl, .nil, .nil, .nil, .nothing⟩

theorem append (h : Outlined owner env o r) (h' : Outlined owner r.1 o' r') :
    Outlined owner env (o ++ o') (r'.1, r.2 ++ r'.2) := by
  have hafter := h.after
  constructor
  · rw [Outline.after_append, ← hafter]
    exact h'.after
  · rw [Outline.refs_append, ← hafter, ← h.refs, ← h'.refs]
    rfl
  · change (List.map _ (r.2.declared ++ r'.2.declared)).Perm _
    rw [Outline.own_append, List.map_append, List.map_append]
    exact h.declared.append h'.declared
  · rw [Outline.sites_append]
    exact h.sites.append h'.sites
  · rw [Outline.lambdas_append]
    exact List.rel_append h.routines h'.routines
  · exact h.nested.append h'.nested

/-- What is declared in a region is not known behind it. -/
theorem region (h : Outlined owner env o r) : Outlined owner env (.region o .nil) (env, r.2) := by
  constructor
  · rfl
  · exact h.refs.trans (List.append_nil _).symm
  · rw [Outline.own, Outline.own, List.append_nil]
    exact h.declared
  · rw [Outline.sites, Outline.bindings, Outline.bindings, List.append_nil]
    exact h.sites
  · rw [Outline.lambdas, Outline.lambdas, List.append_nil]
    exact h.routines
  · exact h.nested

theorem enclose (h : Outlined owner env o r) {kind : Scope.Kind} (hkind : kind ≠ .closureBody)
    (site : Site) : Outlined owner env (.region o .nil) (env, r.2.enclose kind site) :=
  have hregion := h.region
  ⟨rfl, hregion.refs, hregion.declared, hregion.sites, hregion.routines,
    h.nested.enclose hkind site⟩

theorem name (pos : Pos) (word : Text) :
    Outlined owner env (.name pos word .nil)
      (env, match env.find? word with | some v => .ref pos v | none => .nothing) := by
  cases hfind : env.find? word with
  | none => exact ⟨rfl, by simp [Outline.refs, hfind, Found.nothing], .nil, .nil, .nil, .nothing⟩
  | some v =>
    exact ⟨rfl, by simp [Outline.refs, hfind, Found.ref], .nil, .nil, .nil, .ref pos v⟩

/-- The order in which something was found does not count, except for names and routines. -/
theorem of_perm (h : Outlined owner env o (env, f)) (hvars : g.vars.Perm f.vars)
    (hchildren : g.children.Perm f.children) (hdeclared : f.declared.Perm g.declared)
    (hrefs : g.refs = f.refs) (hsites : f.sites.Perm g.sites)
    (hroutines : g.routines = f.routines) : Outlined owner env o (env, g) :=
  ⟨h.after, hrefs.trans h.refs, (hdeclared.map _).symm.trans h.declared, hsites.symm.trans h.sites,
    hroutines ▸ h.routines, h.nested.of_perm hvars hchildren hdeclared hsites hroutines⟩

theorem declare (c : Context) (env : Env) (d : Decl) :
    Outlined c.owner env (.declare d .nil) (declare c env d.pos (d.variable c.owner)) :=
  ⟨rfl, rfl, .refl _, .refl _, .nil, .declaration ..⟩

theorem closure {c inner : Context} {pos : Pos} {params : List Param} {body : LambdaBody}
    (hinner : inner.owner = c.owner ++ "$lambda@" ++ pos.text)
    (h : Outlined inner.owner env (.declares (params.map (Param.decl .parameter)) ++ o)
      (r.1, (Collection.declareParams inner env params).2 ++ r.2)) :
    Outlined c.owner env
      (.lambda pos (params.map (Param.decl .parameter))
        (.declares (params.map (Param.decl .parameter)) ++ o) .nil)
      (env, Collection.closure c env pos inner.owner body
        (Collection.declareParams inner env params).2 r.2) := by
  constructor
  · rfl
  · rw [Outline.refs, Outline.refs, List.append_nil, PlacedLambda.label, ← hinner]
    exact h.refs
  · exact .nil
  · rw [Outline.sites, Outline.bindings, Outline.bindings, List.append_nil, PlacedLambda.label,
      ← hinner]
    exact h.sites
  · rw [Outline.lambdas, Outline.lambdas, List.append_nil]
    refine .cons ⟨hinner, rfl, rfl, ?_, ?_⟩ ?_
    · rw [PlacedLambda.label, ← hinner]
      exact vars_declareParams inner env params
    · rw [PlacedLambda.label, ← hinner]
      exact h.declared
    · rw [PlacedLambda.label, ← hinner]
      exact h.routines
  · exact h.nested.closure ..

theorem rules : WalkRules Outlined where
  nothing _ _ := .nothing
  name _ _ := .name
  declare := .declare
  append := .append
  region := .region
  enclose := .enclose
  of_perm := .of_perm
  closure := .closure

end Outlined

/-- The collection of a body, as its outline shows it. -/
theorem outlined_ofBody (owner : Text) (kind : Scope.Kind) (site : Site) (params : List Param)
    (body : Block) : ∃ r, Outlined owner [] (body.outlineWith params) r ∧
      ofBody owner kind site params body =
        { root := ⟨owner, none, site, .block body,
            (params.map (Param.decl .parameter)).map (Decl.variable owner), r.2.declared⟩
          closures := r.2.routines
          scope := ⟨kind, site, r.2.vars, r.2.children, []⟩
          refs := r.2.refs
          sites := r.2.sites } := by
  obtain ⟨r, hrules, hbody⟩ := exists_walk owner kind site params body
  exact ⟨r, hrules _ Outlined.rules, hbody⟩

end Collection

end WriteOnce
