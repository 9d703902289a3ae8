import WriteOnce.Proofs.Captures
import WriteOnce.Proofs.ParsedShapes
import WriteOnce.Proofs.Partitions
import WriteOnce.Proofs.VisibleLambdas

/-!
# Names in lambdas

What the scope of a lambda keeps is the truth about the names in the lambda: a name that denotes a
variable from outside is kept with that variable. Only variables of the scopes around are kept.
-/

namespace WriteOnce

namespace Collection

/-- The scope with number `i` is the only one of a lambda, and keeps the truth about its names. -/
structure Keeps (c : Collection) (l : PlacedBody) (i : Nat) (s : Scope) (parent : Nat) : Prop where
  entry : c.scope.walk[i]? = some (s, some parent)
  only : ∀ j t q, c.scope.walk[j]? = some (t, q) →
    (t.isClosure = true ∧ t.site = ⟨"JLambda", l.1⟩ ↔ j = i)
  /-- What is kept is declared in the parent or around it. -/
  around : ∀ e ∈ s.captured, Scope.DeclaredAround c.scope.walk parent e.2
  /-- A name in the lambda that denotes a variable from outside is kept with that variable. -/
  names : ∀ n ∈ l.2.tree.names, ∀ v, c.lookup? n.1 = some v → (∀ t ∈ s.all, v ∉ t.vars) →
    s.captured.find? n.2 = some v

end Collection

namespace Scope

/-- Where the scopes of lambdas stand at different places, each has one number. -/
theorem eq_of_site_eq {root s t : Scope} {i j : Nat} {p q : Option Nat}
    (hnodup : ((root.all.filter isClosure).map site).Nodup) (hi : root.walk[i]? = some (s, p))
    (hj : root.walk[j]? = some (t, q)) (hs : s.isClosure = true) (ht : t.isClosure = true)
    (hsite : s.site = t.site) : i = j := by
  have hsites : (root.all.filter isClosure).map site =
      root.walk.flatMap fun e => ([e.1].filter isClosure).map site := by
    rw [← map_walk, ← List.flatMap_singleton' (root.walk.map Prod.fst), List.flatMap_map,
      List.filter_flatMap, List.map_flatMap]
  rw [hsites] at hnodup
  refine eq_of_nodup_flatMap (b := s.site) hnodup hi hj ?_ ?_
  · simp [hs]
  · simp [ht, hsite]

/-- What stands in a tree below its first scope has a number and a parent. -/
theorem exists_number (root : Scope) {s : Scope} (hs : s ∈ allOf root.children) :
    ∃ i parent : Nat, root.walk[i]? = some (s, some parent) := by
  have hwalk : root.walk = (root, none) :: number.numberAll 0 1 root.children :=
    number_eq none 0 root
  rw [← map_numberAll 0 1] at hs
  obtain ⟨⟨t, q⟩, ht, rfl⟩ := List.mem_map.1 hs
  obtain ⟨k, hk⟩ := List.mem_iff_getElem?.1 ht
  have hentry : root.walk[k + 1]? = some (t, q) := by rw [hwalk, List.getElem?_cons_succ, hk]
  rcases parent_walk hentry with ⟨hzero, -⟩ | ⟨parent, rfl, -⟩
  · cases hzero
  · exact ⟨k + 1, parent, hentry⟩

end Scope

namespace Collection

variable {owner : Text} {env : Env} {o : Outline} {r : Env × Found}

theorem map_eq_of_forall₂ {α β γ : Type} {R : α → β → Prop} {as : List α} {bs : List β} {f : α → γ}
    {g : β → γ} (h : List.Forall₂ R as bs) (heq : ∀ a b, R a b → f a = g b) :
    as.map f = bs.map g := by
  induction h with
  | nil => rfl
  | cons hR _ ih => rw [List.map_cons, List.map_cons, heq _ _ hR, ih]

/-- The scopes of lambdas stand where the routines of the lambdas do. -/
theorem Traced.perm_sites (h : Traced owner env o r) :
    (((Scope.allOf r.2.children).filter Scope.isClosure).map Scope.site).Perm
      (r.2.routines.map Routine.site) := by
  obtain ⟨ss, hopens, hperm⟩ := h.scopes
  have hscopes := map_eq_of_forall₂ hopens fun _ _ h => h.site.symm
  have hroutines := map_eq_of_forall₂ h.routines fun _ _ h => h.site.symm
  rw [← hroutines, hscopes]
  exact (hperm.map Scope.site).symm

theorem Traced.nodup_sites (h : Traced owner env o r) {kind : Scope.Kind}
    (hkind : kind ≠ .closureBody) (site : Site) (hplaces : (r.2.routines.map Routine.site).Nodup) :
    (((Scope.all ⟨kind, site, r.2.vars, r.2.children, []⟩).filter Scope.isClosure).map
      Scope.site).Nodup := by
  have hopen : Scope.isClosure ⟨kind, site, r.2.vars, r.2.children, []⟩ = false := by
    simpa [Scope.isClosure] using hkind
  rw [Scope.all, List.filter_cons_of_neg (by simp [hopen])]
  exact h.perm_sites.nodup_iff.2 hplaces

theorem Traced.exists_scope (h : Traced owner env o r) {closure : Routine}
    (hclosure : closure ∈ r.2.routines) : ∃ k ∈ o.captures owner env, k.Runs closure ∧
      ∃ s ∈ Scope.allOf r.2.children, s.isClosure = true ∧ k.Opens s := by
  obtain ⟨k, hk, hruns⟩ := exists_of_forall₂ h.routines hclosure
  obtain ⟨ss, hopens, hperm⟩ := h.scopes
  obtain ⟨s, hs, hopened⟩ := exists_of_forall₂ hopens.flip hk
  obtain ⟨hmem, hbody⟩ := List.mem_filter.1 (hperm.subset hs)
  exact ⟨k, hk, hruns, s, hmem, hbody, hopened⟩

/-- The scope of a lambda keeps what a name in the lambda denotes, unless that is a variable in the
scope. -/
theorem Traced.find?_captured (h : Traced owner env o r) (hnodup : (o.names.map Prod.fst).Nodup)
    {k : Capture} (hk : k ∈ o.captures owner env) {s : Scope} (hopens : k.Opens s) {n : Pos × Text}
    (hn : n ∈ k.lambda.inner.names) {v : Variable} (hv : r.2.refs.lookup n.1 = some v)
    (houtside : ∀ t ∈ s.all, v ∉ t.vars) : s.captured.find? n.2 = some v := by
  rw [h.outlined.refs] at hv
  rw [hopens.captured]
  rcases Outline.mem_sites_or_find?_captures hnodup hk hn hv with hown | hkept
  · obtain ⟨t, ht, hvar⟩ := List.mem_flatMap.1 (hopens.vars.symm.subset hown)
    exact absurd hvar (houtside t ht)
  · exact hkept

end Collection

namespace Fragment

variable {f : Fragment} {params : List Param} {body : Block}

/-- A parsed fragment uses a token for one name at most. -/
theorem Parsed.count_uses_le (h : f.Parsed) (pos : Pos) (word : Text) :
    f.tree.uses.count (pos, .name word) ≤ 1 := by
  obtain ⟨source, s, htokens, huses⟩ := h.exists_tokens
  have hnodup : (s.names.map Prod.fst).Nodup := by
    rw [TokenStream.names, List.map_map]
    exact (Program.pairwise_places htokens).imp Pos.Past.ne
  have honce := List.nodup_iff_count_le_one.1 (List.Nodup.of_map _ hnodup) (pos, word)
  rw [TokenStream.count_names] at honce
  exact (huses _).trans honce

/-- A name in a lambda that denotes something is one of those outside of classes. -/
theorem Parsed.mem_marked_of_lookup (h : f.Parsed) (hcode : f.code? = some (params, body))
    {l : PlacedBody} (hl : l ∈ body.lambdas) {n : Pos × Text} (hn : n ∈ l.2.tree.names)
    (hplace : n.1 ∈ (body.outlineWith params).names.map Prod.fst) :
    n ∈ l.2.tree.marked .name := by
  have hvisible := visible_of_code hcode l hl
  have hwithin := Tree.within_of_mem_names (hvisible.within.shaped h.shaped) hn
  have huse : 0 < l.2.tree.uses.count (n.1, .name n.2) := by
    refine Nat.lt_of_lt_of_le ?_ hwithin.count_uses
    exact List.count_pos_iff.2 (.head _)
  obtain ⟨⟨pos, other⟩, hmem, hpos⟩ := List.mem_map.1 hplace
  have hmarked := (mem_names_iff hcode).1 hmem
  have hother := (List.count_pos_iff.2 hmarked).trans_le (f.tree.count_marked pos other)
  obtain ⟨place, word⟩ := n
  obtain rfl : pos = place := hpos
  obtain rfl := h.name_unique (huse.trans_le hvisible.within.count_uses) hother
  exact hvisible.mem_marked (h.count_uses_le _ _) huse hmarked

/-- In a parsed fragment that is code, every lambda has one scope, which keeps the truth about the
names in the lambda. -/
theorem captured_names (h : f.Parsed) (hcode : f.code? = some (params, body)) (owner : Text) :
    ∃ c, Collection.ofFragment owner f = .ok c ∧
      ∀ l ∈ body.lambdas, ∃ i s parent, c.Keeps l i s parent := by
  obtain ⟨kind, site, hkind, -, hc⟩ := ofBody_of_code hcode owner
  have hclosures := (Collection.closures_ofBody owner kind site params body).1
  obtain ⟨r, hrules, hbody⟩ := Collection.exists_walk owner kind site params body
  rw [hbody] at hc hclosures
  have htraced := hrules _ Collection.Traced.rules
  have hplaces := h.nodup_lambdas hc
  have hsites := htraced.nodup_sites hkind site (.of_map Site.pos (by rwa [List.map_map]))
  have hgrounded : Scope.Grounded [] ⟨kind, site, r.2.vars, r.2.children, []⟩ :=
    ⟨by simp, Scope.groundedAll_iff.2 (hrules _ Collection.Grounds.rules [] (by simp)).2⟩
  refine ⟨_, hc, fun l hl => ?_⟩
  -- The routine of the lambda leads to what is captured, and that to the scope.
  have hroutine : l.code ∈ r.2.routines.map Routine.code := hclosures ▸ List.mem_map_of_mem hl
  obtain ⟨closure, hclosure, hsame⟩ := List.mem_map.1 hroutine
  obtain ⟨hclosureSite, hclosureBody⟩ := Prod.mk.inj hsame
  obtain ⟨k, hk, hruns, s, hs, hbody, hopens⟩ := htraced.exists_scope hclosure
  have hsite : s.site = ⟨"JLambda", l.1⟩ :=
    hopens.site.trans (hruns.site.symm.trans hclosureSite)
  obtain ⟨i, parent, hentry⟩ :=
    Scope.exists_number ⟨kind, site, r.2.vars, r.2.children, []⟩ hs
  refine ⟨i, s, parent, ?_⟩
  constructor
  case entry => exact hentry
  case only =>
    refine fun j t q ht => ⟨fun ⟨htbody, htsite⟩ => ?_, ?_⟩
    · exact Scope.eq_of_site_eq hsites ht hentry htbody hbody (htsite.trans hsite.symm)
    · rintro rfl
      cases hentry.symm.trans ht
      exact ⟨hbody, hsite⟩
  case around =>
    intro e he
    obtain ⟨_, hparent, haround⟩ :=
      Scope.declaredAround_walk hgrounded (List.mem_of_getElem? hentry) he
    cases hparent
    exact haround
  case names =>
    intro n hn v hv houtside
    have hplace : n.1 ∈ (body.outlineWith params).names.map Prod.fst := by
      by_contra hnone
      rw [Collection.lookup?, htraced.outlined.refs, Outline.lookup_refs_eq_none hnone] at hv
      cases hv
    have hinner : n ∈ k.lambda.inner.names := by
      have hmarked := h.mem_marked_of_lookup hcode hl hn hplace
      rw [hruns.inner, Outline.names_append, Outline.names_declares, hclosureBody]
      exact (l.2.marks .name).mem_iff.2 hmarked
    exact htraced.find?_captured (h.nodup_names hcode) hk hopens hinner hv houtside

/-- `{ int a; g(x -> h(y -> a + x)); }` -/
def lambdaInLambda : List Char := "\x7b int a; g(x -> h(y -> a + x)); \x7d".toList

/-- The name in the inner lambda denotes the variable outside of both, and both keep it. -/
theorem captured_names_nested : ∃ b c v, Block.parse lambdaInLambda = .ok b ∧
    Collection.ofFragment "M" (.block b) = .ok c ∧ c.lookup? ⟨1, 24⟩ = some v ∧
    b.lambdas.length = 2 ∧ ∀ l ∈ b.lambdas, ∃ i s parent, c.Keeps l i s parent ∧
      s.captured.find? "a" = some v := by
  obtain ⟨b, hb, hany⟩ := FlowGraph.exists_ok_of_any (x := Block.parse lambdaInLambda)
    (p := fun b => b.lambdas.length = 2 &&
      (b.lambdas.all fun l => l.2.tree.names.contains (⟨1, 24⟩, "a")) &&
      ((Collection.ofBlock "M" b).lookup? ⟨1, 24⟩).any fun v =>
        (Collection.ofBlock "M" b).scope.walk.all fun e =>
          !e.1.isClosure || e.1.all.all fun t => !t.vars.contains v)
    (by decide +kernel)
  simp only [Bool.and_eq_true, decide_eq_true_eq, List.all_eq_true, Option.any_eq_true,
    Bool.or_eq_true, Bool.not_eq_true', List.contains_iff_mem] at hany
  obtain ⟨⟨hlength, hnames⟩, v, hlookup, hscopes⟩ := hany
  have hparsed : (Fragment.block b).Parsed := ⟨lambdaInLambda, _, .inr ⟨b, hb, .refl⟩⟩
  obtain ⟨c, hc, hall⟩ := captured_names hparsed rfl "M"
  cases hc
  refine ⟨b, _, v, hb, rfl, hlookup, hlength, fun l hl => ?_⟩
  obtain ⟨i, s, parent, hkeeps⟩ := hall l hl
  have hbody := ((hkeeps.only i s _ hkeeps.entry).2 rfl).1
  refine ⟨i, s, parent, hkeeps, hkeeps.names _ (hnames l hl) v hlookup fun t ht hv => ?_⟩
  rcases hscopes _ (List.mem_of_getElem? hkeeps.entry) with hopen | hclosed
  · rw [hbody] at hopen
    cases hopen
  · have hnot := hclosed t ht
    rw [List.contains_iff_mem.2 hv] at hnot
    cases hnot

end Fragment

end WriteOnce
