import WriteOnce.Proofs.LexicalNames
import WriteOnce.Proofs.ScopeTrees

/-!
# What lambdas capture

Where a lambda stands, names denote variables that were declared before. The scope of the lambda
keeps them, and nothing that happens in the lambda or behind it changes what they denote: a name in
the lambda that denotes none of its own variables denotes what is kept.
-/

namespace WriteOnce

/-- A lambda in code, and what names denote where it stands. -/
structure Capture where
  lambda : PlacedLambda
  env : Env

namespace Outline

/-- All lambdas in the code, with what names denote at each of them. -/
def captures (owner : Text) (env : Env) : Outline → List Capture
  | nil => []
  | name _ _ rest => rest.captures owner env
  | declare d rest => rest.captures owner (env.bind (d.variable owner))
  | region inner rest => inner.captures owner env ++ rest.captures owner env
  | lambda pos params inner rest =>
    let l : PlacedLambda := ⟨owner, pos, params, inner⟩
    ⟨l, env⟩ :: (inner.captures l.label env ++ rest.captures owner env)

variable {owner : Text} {env : Env} {k : Capture} {n : Pos × Text}

@[simp] theorem captures_append (o o' : Outline) : (o ++ o').captures owner env =
    o.captures owner env ++ o'.captures owner (o.after owner env) := by
  induction o generalizing owner env with
  | nil => rfl
  | _ => simp [captures, after, *]

theorem names_sublist_of_mem_captures {o : Outline} (h : k ∈ o.captures owner env) :
    k.lambda.inner.names.Sublist o.names := by
  induction o generalizing owner env with
  | nil => cases h
  | name pos word rest ih => exact (ih h).cons _
  | declare d rest ih => exact ih h
  | region inner rest ihInner ihRest =>
    rcases List.mem_append.1 h with h | h
    · exact (ihInner h).trans (List.sublist_append_left ..)
    · exact (ihRest h).trans (List.sublist_append_right ..)
  | lambda pos params inner rest ihInner ihRest =>
    rcases List.mem_cons.1 h with rfl | h
    · exact List.sublist_append_left ..
    · rcases List.mem_append.1 h with h | h
      · exact (ihInner h).trans (List.sublist_append_left ..)
      · exact (ihRest h).trans (List.sublist_append_right ..)

/-- What a name in a lambda denotes depends on the code around only by what is captured. -/
theorem lookup_refs_captures {o : Outline} (hnodup : (o.names.map Prod.fst).Nodup)
    (h : k ∈ o.captures owner env) (hn : n ∈ k.lambda.inner.names) :
    (o.refs owner env).lookup n.1 =
      (k.lambda.inner.refs k.lambda.label k.env).lookup n.1 := by
  -- The name stands in one part of the code only, and the other parts have no say.
  have hparts {o o' : Outline} (owner owner' : Text) (env : Env)
      (hnodup : ((o.names ++ o'.names).map Prod.fst).Nodup) :
      (n ∈ o.names → (o.refs owner env ++ o'.refs owner' env).lookup n.1 =
        (o.refs owner env).lookup n.1) ∧
      (n ∈ o'.names → (o.refs owner env ++ o'.refs owner' env).lookup n.1 =
        (o'.refs owner' env).lookup n.1) := by
    rw [List.map_append, List.nodup_append'] at hnodup
    exact ⟨fun h => lookup_refs_left (hnodup.2.2 (List.mem_map_of_mem h)) .., fun h =>
      lookup_refs_right (fun h' => hnodup.2.2 h' (List.mem_map_of_mem h)) ..⟩
  induction o generalizing owner env with
  | nil => cases h
  | name pos word rest ih =>
    rw [names, List.map_cons, List.nodup_cons] at hnodup
    rw [lookup_refs_name hnodup.1 ((names_sublist_of_mem_captures (o := rest) h).subset hn)]
    exact ih hnodup.2 h
  | declare d rest ih => exact ih hnodup h
  | region inner rest ihInner ihRest =>
    have hlookup := hparts owner owner env hnodup
    rw [names, List.map_append] at hnodup
    rcases List.mem_append.1 h with h | h
    · rw [refs, hlookup.1 ((names_sublist_of_mem_captures h).subset hn)]
      exact ihInner hnodup.of_append_left h
    · rw [refs, hlookup.2 ((names_sublist_of_mem_captures h).subset hn)]
      exact ihRest hnodup.of_append_right h
  | lambda pos params inner rest ihInner ihRest =>
    have hlookup := hparts (PlacedLambda.label ⟨owner, pos, params, inner⟩) owner env hnodup
    rw [names, List.map_append] at hnodup
    rcases List.mem_cons.1 h with rfl | h
    · exact hlookup.1 hn
    rcases List.mem_append.1 h with h | h
    · rw [refs, hlookup.1 ((names_sublist_of_mem_captures h).subset hn)]
      exact ihInner hnodup.of_append_left h
    · rw [refs, hlookup.2 ((names_sublist_of_mem_captures h).subset hn)]
      exact ihRest hnodup.of_append_right h

/-- A name in a lambda denotes a variable of the lambda or one that is captured. -/
theorem mem_sites_or_find?_captures {o : Outline} (hnodup : (o.names.map Prod.fst).Nodup)
    (h : k ∈ o.captures owner env) (hn : n ∈ k.lambda.inner.names) {v : Variable}
    (hv : (o.refs owner env).lookup n.1 = some v) :
    v ∈ (k.lambda.inner.sites k.lambda.label).map Prod.snd ∨ k.env.find? n.2 = some v := by
  rw [lookup_refs_captures hnodup h hn] at hv
  have hinner := hnodup.sublist ((names_sublist_of_mem_captures h).map Prod.fst)
  have hresolves := resolves k.lambda.inner k.lambda.label k.env hinner hn
  rcases hresolves.total with ⟨b, hb⟩ | ⟨-, hnone⟩
  · have hfound := hv.symm.trans (hresolves.innermost b hb)
    cases hfound
    rw [sites, List.map_map]
    exact .inl (List.mem_map_of_mem hb.mem)
  · exact .inr (hnone.symm.trans hv)

end Outline

/-! ## The scopes of lambdas -/

/-- The scope of a lambda: it keeps what names denote where the lambda stands, and all variables
that are declared in the lambda stand in it. -/
structure Capture.Opens (k : Capture) (s : Scope) : Prop where
  site : s.site = ⟨"JLambda", k.lambda.pos⟩
  captured : s.captured = k.env
  vars : (s.all.flatMap Scope.vars).Perm ((k.lambda.inner.sites k.lambda.label).map Prod.snd)

/-- The routine of a lambda has its body. -/
structure Capture.Runs (k : Capture) (r : Routine) : Prop where
  site : r.site = ⟨"JLambda", k.lambda.pos⟩
  inner : k.lambda.inner = .declares k.lambda.params ++ r.body.outline

namespace Collection

/-- Every lambda that a walk meets has a scope and a routine. -/
structure Traced (owner : Text) (env : Env) (o : Outline) (r : Env × Found) : Prop where
  outlined : Outlined owner env o r
  scopes : ∃ ss, List.Forall₂ Capture.Opens (o.captures owner env) ss ∧
    ss.Perm ((Scope.allOf r.2.children).filter Scope.isClosure)
  routines : List.Forall₂ Capture.Runs (o.captures owner env) r.2.routines

namespace Traced

variable {owner : Text} {env : Env} {o o' : Outline} {r r' : Env × Found} {f g : Found}

theorem append (h : Traced owner env o r) (h' : Traced owner r.1 o' r') :
    Traced owner env (o ++ o') (r'.1, r.2 ++ r'.2) := by
  obtain ⟨ss, hopens, hperm⟩ := h.scopes
  obtain ⟨ts, hopens', hperm'⟩ := h'.scopes
  have hroutines' := h'.routines
  rw [h.outlined.after] at hopens' hroutines'
  refine ⟨h.outlined.append h'.outlined, ⟨ss ++ ts, ?_, ?_⟩, ?_⟩
  · rw [Outline.captures_append]
    exact List.rel_append hopens hopens'
  · change (ss ++ ts).Perm (List.filter _ (Scope.allOf (r.2.children ++ r'.2.children)))
    rw [Scope.allOf_append, List.filter_append]
    exact hperm.append hperm'
  · rw [Outline.captures_append]
    exact List.rel_append h.routines hroutines'

theorem region (h : Traced owner env o r) : Traced owner env (.region o .nil) (env, r.2) := by
  refine ⟨h.outlined.region, ?_, ?_⟩
  · rw [Outline.captures, Outline.captures, List.append_nil]
    exact h.scopes
  · rw [Outline.captures, Outline.captures, List.append_nil]
    exact h.routines

theorem enclose (h : Traced owner env o r) {kind : Scope.Kind} (hkind : kind ≠ .closureBody)
    (site : Site) : Traced owner env (.region o .nil) (env, r.2.enclose kind site) := by
  have hopen : Scope.isClosure ⟨kind, site, r.2.vars, r.2.children, []⟩ = false := by
    simpa [Scope.isClosure] using hkind
  obtain ⟨ss, hopens, hperm⟩ := h.region.scopes
  refine ⟨h.outlined.enclose hkind site, ⟨ss, hopens, ?_⟩, h.region.routines⟩
  simpa [Found.enclose, Scope.allOf, Scope.all, hopen] using hperm

theorem of_perm (h : Traced owner env o (env, f)) (hvars : g.vars.Perm f.vars)
    (hchildren : g.children.Perm f.children) (hdeclared : f.declared.Perm g.declared)
    (hrefs : g.refs = f.refs) (hsites : f.sites.Perm g.sites)
    (hroutines : g.routines = f.routines) : Traced owner env o (env, g) := by
  obtain ⟨ss, hopens, hperm⟩ := h.scopes
  have hscopes := (Scope.perm_allOf hchildren).filter Scope.isClosure
  exact ⟨h.outlined.of_perm hvars hchildren hdeclared hrefs hsites hroutines,
    ⟨ss, hopens, hperm.trans hscopes.symm⟩, hroutines ▸ h.routines⟩

theorem closure {c inner : Context} {pos : Pos} {params : List Param} {body : LambdaBody}
    (hinner : inner.owner = c.owner ++ "$lambda@" ++ pos.text)
    (h : Traced inner.owner env (.declares (params.map (Param.decl .parameter)) ++ body.outline)
      (r.1, (declareParams inner env params).2 ++ r.2)) :
    Traced c.owner env
      (.lambda pos (params.map (Param.decl .parameter))
        (.declares (params.map (Param.decl .parameter)) ++ body.outline) .nil)
      (env, Collection.closure c env pos inner.owner body
        (declareParams inner env params).2 r.2) := by
  let s : Scope :=
    ⟨.closureBody, ⟨"JLambda", pos⟩, ((declareParams inner env params).2 ++ r.2).vars,
      ((declareParams inner env params).2 ++ r.2).children, env⟩
  obtain ⟨ss, hopens, hperm⟩ := h.scopes
  refine ⟨h.outlined.closure hinner, ⟨s :: ss, ?_, ?_⟩, ?_⟩
  · rw [Outline.captures, Outline.captures, List.append_nil]
    refine .cons ⟨rfl, rfl, ?_⟩ ?_
    · rw [PlacedLambda.label, ← hinner]
      exact h.outlined.nested.all.trans (h.outlined.sites.map Prod.snd)
    · rw [PlacedLambda.label, ← hinner]
      exact hopens
  · simpa [Collection.closure, Found.nothing, Scope.allOf, Scope.all, Scope.isClosure, s]
      using hperm
  · rw [Outline.captures, Outline.captures, List.append_nil]
    refine .cons ⟨rfl, rfl⟩ ?_
    rw [PlacedLambda.label, ← hinner]
    exact h.routines

theorem rules : WalkRules Traced where
  nothing owner env := ⟨.nothing, ⟨[], .nil, .nil⟩, .nil⟩
  name owner env pos word := by
    refine ⟨.name pos word, ⟨[], .nil, ?_⟩, ?_⟩ <;>
      · cases env.find? word <;> exact .nil
  declare c env d := ⟨.declare c env d, ⟨[], .nil, .nil⟩, .nil⟩
  append := .append
  region := .region
  enclose := .enclose
  of_perm := .of_perm
  closure := .closure

end Traced

end Collection

/-! ## What is captured is declared around -/

namespace Scope

mutual

/-- What the scopes of a tree keep are variables that are known around the tree, or variables of
scopes around them within the tree. -/
def Grounded (known : List Variable) : Scope → Prop
  | ⟨_, _, vars, children, captured⟩ =>
    (∀ e ∈ captured, e.2 ∈ known) ∧ GroundedAll (known ++ vars) children

def GroundedAll (known : List Variable) : List Scope → Prop
  | [] => True
  | s :: ss => s.Grounded known ∧ GroundedAll known ss

end

variable {known known' : List Variable}

theorem groundedAll_iff {ss : List Scope} : GroundedAll known ss ↔ ∀ s ∈ ss, s.Grounded known := by
  induction ss with
  | nil => simp [GroundedAll]
  | cons s ss ih => simp [GroundedAll, ih]

mutual

theorem Grounded.mono {known known' : List Variable} (hsub : known ⊆ known') : (s : Scope) →
    s.Grounded known → s.Grounded known'
  | ⟨_, _, vars, children, _⟩, ⟨hcaptured, hchildren⟩ =>
    have hinner : known ++ vars ⊆ known' ++ vars :=
      List.append_subset.2 ⟨List.Subset.trans hsub (List.subset_append_left ..),
        List.subset_append_right ..⟩
    ⟨fun e he => hsub (hcaptured e he), groundedAll_mono hinner children hchildren⟩

theorem groundedAll_mono {known known' : List Variable} (hsub : known ⊆ known') :
    (ss : List Scope) → GroundedAll known ss → GroundedAll known' ss
  | [], _ => trivial
  | s :: ss, ⟨hs, hss⟩ => ⟨Grounded.mono hsub s hs, groundedAll_mono hsub ss hss⟩

end

end Scope

namespace Collection

/-- If names denote known variables in front of a walk, then behind it they denote known variables
or those of the open scope, and its scopes keep no others. -/
def Grounds (env : Env) (r : Env × Found) : Prop :=
  ∀ known, env.map Prod.snd ⊆ known → r.1.map Prod.snd ⊆ known ++ r.2.vars ∧
    ∀ s ∈ r.2.children, s.Grounded (known ++ r.2.vars)

namespace Grounds

variable {env : Env} {r r' : Env × Found} {f g : Found}

theorem of_childless (hafter : r.1.map Prod.snd ⊆ env.map Prod.snd ++ r.2.vars)
    (hchildren : r.2.children = []) : Grounds env r := by
  intro known hknown
  refine ⟨List.Subset.trans hafter ?_, by simp [hchildren]⟩
  exact List.append_subset.2 ⟨List.Subset.trans hknown (List.subset_append_left ..),
    List.subset_append_right ..⟩

theorem append (h : Grounds env r) (h' : Grounds r.1 r') : Grounds env (r'.1, r.2 ++ r'.2) := by
  intro known hknown
  obtain ⟨hafter, hscopes⟩ := h known hknown
  obtain ⟨hafter', hscopes'⟩ := h' _ hafter
  change r'.1.map Prod.snd ⊆ known ++ (r.2.vars ++ r'.2.vars) ∧
    ∀ s ∈ r.2.children ++ r'.2.children, s.Grounded (known ++ (r.2.vars ++ r'.2.vars))
  rw [← List.append_assoc]
  refine ⟨hafter', fun s hs => ?_⟩
  rcases List.mem_append.1 hs with hs | hs
  · exact .mono (List.subset_append_left ..) s (hscopes s hs)
  · exact hscopes' s hs

theorem region (h : Grounds env r) : Grounds env (env, r.2) :=
  fun known hknown =>
    ⟨List.Subset.trans hknown (List.subset_append_left ..), (h known hknown).2⟩

/-- A scope that keeps what names denote in front of the walk, or less. -/
theorem scope {captured : Env} (h : Grounds env r) (hcaptured : captured ⊆ env)
    (kind : Scope.Kind) (site : Site) (hvars : f.vars = [])
    (hchildren : f.children = [⟨kind, site, r.2.vars, r.2.children, captured⟩]) :
    Grounds env (env, f) := by
  intro known hknown
  obtain ⟨-, hscopes⟩ := h known hknown
  dsimp only
  rw [hvars, hchildren, List.append_nil]
  refine ⟨hknown, fun s hs => ?_⟩
  cases List.mem_singleton.1 hs
  exact ⟨fun e he => hknown (List.mem_map_of_mem (hcaptured he)), Scope.groundedAll_iff.2 hscopes⟩

theorem of_perm (h : Grounds env (env, f)) (hvars : g.vars.Perm f.vars)
    (hchildren : g.children.Perm f.children) : Grounds env (env, g) := by
  intro known hknown
  obtain ⟨-, hscopes⟩ := h known hknown
  refine ⟨List.Subset.trans hknown (List.subset_append_left ..), fun s hs => ?_⟩
  exact .mono (hvars.append_left known).symm.subset s (hscopes s (hchildren.subset hs))

theorem rules : WalkRules fun _ env _ r => Grounds env r where
  nothing _ _ := .of_childless (List.subset_append_left ..) rfl
  name owner env pos word := by
    cases env.find? word <;> exact .of_childless (List.subset_append_left ..) rfl
  declare c env d := by
    refine .of_childless (List.cons_subset.2 ⟨?_, List.subset_append_left ..⟩) rfl
    exact List.mem_append_right _ (.head _)
  append := .append
  region := .region
  enclose h _ _ _ := h.scope (List.nil_subset _) _ _ rfl rfl
  of_perm h hvars hchildren _ _ _ _ := h.of_perm hvars hchildren
  closure _ h := h.scope (List.Subset.refl _) _ _ rfl rfl

end Grounds

end Collection

/-! ## By number -/

namespace Scope

/-- From the number of a scope to that of the one that it stands in. -/
def Outward (entries : List Numbered) (i j : Nat) : Prop := ∃ s, entries[i]? = some (s, some j)

/-- A variable is declared in the scope with this number or in one of those around it. -/
def DeclaredAround (entries : List Numbered) (i : Nat) (v : Variable) : Prop :=
  ∃ j t q, Relation.ReflTransGen (Outward entries) i j ∧ entries[j]? = some (t, q) ∧ v ∈ t.vars

variable {entries : List Numbered}

mutual

/-- What a scope keeps is declared in its parent or around that. -/
theorem declaredAround_number {known : List Variable} {parent : Option Nat} {index : Nat}
    (hknown : ∀ v ∈ known, ∃ i ∈ parent, DeclaredAround entries i v) :
    (s : Scope) → s.number parent index <+: entries.drop index → s.Grounded known →
    ∀ t ∈ s.number parent index, ∀ e ∈ t.1.captured, ∃ i ∈ t.2, DeclaredAround entries i e.2
  | ⟨kind, site, vars, children, captured⟩, hplaced, ⟨hcaptured, hchildren⟩, t, ht => by
    obtain ⟨hself, hinner⟩ := prefix_drop_cons hplaced
    rcases List.mem_cons.1 ht with rfl | ht
    · exact fun e he => hknown _ (hcaptured e he)
    refine declaredAround_numberAll (fun v hv => ?_) children hinner hchildren t ht
    rcases List.mem_append.1 hv with hv | hv
    · obtain ⟨i, hi, j, u, q, hpath, hu, hv⟩ := hknown v hv
      rw [Option.mem_def] at hi
      subst hi
      exact ⟨j, u, q, .head ⟨_, hself⟩ hpath, hu, hv⟩
    · exact ⟨index, _, _, .refl, hself, hv⟩

theorem declaredAround_numberAll {known : List Variable} {parent index : Nat}
    (hknown : ∀ v ∈ known, DeclaredAround entries parent v) :
    (ss : List Scope) → number.numberAll parent index ss <+: entries.drop index →
    GroundedAll known ss → ∀ t ∈ number.numberAll parent index ss, ∀ e ∈ t.1.captured,
      ∃ i ∈ t.2, DeclaredAround entries i e.2
  | [], _, _, t, ht => by cases ht
  | s :: ss, hplaced, ⟨hs, hss⟩, t, ht => by
    obtain ⟨hfirst, hothers⟩ := prefix_drop_append hplaced
    rcases List.mem_append.1 ht with ht | ht
    · exact declaredAround_number (fun v hv => ⟨parent, rfl, hknown v hv⟩) s hfirst hs t ht
    · exact declaredAround_numberAll hknown ss hothers hss t ht

end

/-- In a tree around which nothing is known, scopes keep what is declared around them. -/
theorem declaredAround_walk {s : Scope} (h : s.Grounded []) {t : Numbered} (ht : t ∈ s.walk)
    {e : Text × Variable} (he : e ∈ t.1.captured) :
    ∃ i ∈ t.2, DeclaredAround s.walk i e.2 :=
  declaredAround_number (by simp) s (List.prefix_refl s.walk) h t ht e he

end Scope

end WriteOnce
