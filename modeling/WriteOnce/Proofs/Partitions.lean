import WriteOnce.Proofs.LambdaPlaces
import WriteOnce.Proofs.NamePlaces
import WriteOnce.Proofs.ScopeTrees

/-!
# How scopes and routines share out the variables

Every declaration in a body makes one variable, which stands in one scope and belongs to one
routine: the innermost lambda around the declaration, or else the body itself. The scope of the
variable stands in that of its routine, and no other lambda is in between.
-/

namespace WriteOnce

/-! ## Labels -/

theorem Pos.codes_text (p : Pos) :
    p.text.codes = (Text.ofNat p.line).codes ++ 0x3A :: (Text.ofNat p.col).codes := by
  have hcolon : (":" : Text).codes = [0x3A] := by decide
  rw [Pos.text, Text.codes_append, Text.codes_append, hcolon, List.append_assoc,
    List.singleton_append]

theorem Pos.text_inj {p q : Pos} (h : p.text = q.text) : p = q := by
  have hcolon : ¬Text.IsDigit 0x3A := by simp [Text.IsDigit]
  have hcodes := congrArg Text.codes h
  rw [codes_text, codes_text] at hcodes
  obtain ⟨hline, -, hcol⟩ := Text.ofNat_stop_inj hcolon hcolon hcodes
  exact Pos.mk.injEq .. ▸ ⟨hline, Text.ofNat_inj (Text.ext hcol)⟩

/-- There is no `@` in a place. -/
theorem Pos.not_at {p : Pos} {code : Nat} (h : code ∈ p.text.codes) : code ≠ 0x40 := by
  have hdigit : ∀ {n}, code ∈ (Text.ofNat n).codes → code ≤ 0x39 := fun h =>
    (Text.isDigit_of_mem_ofNat h).2
  rw [codes_text, List.mem_append, List.mem_cons] at h
  rcases h with h | rfl | h
  · have := hdigit h
    omega
  · decide
  · have := hdigit h
    omega

namespace PlacedLambda

theorem codes_label (l : PlacedLambda) :
    l.label.codes = l.owner.codes ++ [0x24, 0x6C, 0x61, 0x6D, 0x62, 0x64, 0x61] ++
      0x40 :: l.pos.text.codes := by
  have hword : ("$lambda@" : Text).codes = [0x24, 0x6C, 0x61, 0x6D, 0x62, 0x64, 0x61, 0x40] := by
    decide
  rw [label, Text.codes_append, Text.codes_append, hword]
  simp

theorem reverse_label (l : PlacedLambda) :
    l.label.codes.reverse = l.pos.text.codes.reverse ++
      0x40 :: (l.owner.codes ++ [0x24, 0x6C, 0x61, 0x6D, 0x62, 0x64, 0x61]).reverse := by
  rw [codes_label, List.reverse_append, List.reverse_cons, List.append_assoc,
    List.singleton_append]

/-- The label of a lambda ends in its place. -/
theorem pos_of_label {l l' : PlacedLambda} (h : l.label = l'.label) : l.pos = l'.pos := by
  have hcodes := congrArg (fun label : Text => label.codes.reverse) h
  rw [reverse_label, reverse_label] at hcodes
  obtain ⟨htext, -⟩ := append_stop_inj (P := (· ≠ 0x40))
    (fun _ h => Pos.not_at (List.mem_reverse.1 h)) (fun _ h => Pos.not_at (List.mem_reverse.1 h))
    (not_not.2 rfl) (not_not.2 rfl) hcodes
  exact Pos.text_inj (Text.ext (List.reverse_injective htext))

/-- The variables of a lambda are owned by its routine. -/
theorem Becomes.owner {l : PlacedLambda} {r : Routine} (h : l.Becomes r) {v : Variable}
    (hv : v ∈ r.vars) : v.owner = r.label := by
  obtain ⟨d, -, rfl⟩ := List.mem_map.1 (h.vars.subset hv)
  exact h.label.symm

theorem Becomes.isClosure {l : PlacedLambda} {r : Routine} (h : l.Becomes r) :
    r.isClosure = true := by
  rw [Routine.isClosure, h.parent, Option.isSome_some]

theorem length_owner_lt (l : PlacedLambda) : l.owner.codes.length < l.label.codes.length := by
  rw [codes_label]
  simp

end PlacedLambda

namespace Outline

/-- Labels of lambdas are longer than that of the routine around them. -/
theorem length_lt_label {o : Outline} {owner : Text} {l : PlacedLambda}
    (h : l ∈ o.lambdas owner) : owner.codes.length < l.label.codes.length := by
  induction o generalizing owner with
  | nil => cases h
  | name _ _ _ ih => exact ih h
  | declare _ _ ih => exact ih h
  | region _ _ ihInner ihRest => exact (List.mem_append.1 h).elim ihInner ihRest
  | lambda pos params inner rest ihInner ihRest =>
    have howner := PlacedLambda.length_owner_lt ⟨owner, pos, params, inner⟩
    rcases List.mem_cons.1 h with rfl | h
    · exact howner
    · exact (List.mem_append.1 h).elim (fun h => howner.trans (ihInner h)) ihRest

end Outline

/-! ## Order -/

/-- Every lambda stands in a routine with one of the labels, or in a lambda in front of it. -/
def Ordered (known : List Text) : List PlacedLambda → Prop
  | [] => True
  | l :: ls => l.owner ∈ known ∧ Ordered (l.label :: known) ls

namespace Ordered

variable {known known' : List Text} {ls ms : List PlacedLambda}

theorem mono (h : Ordered known ls) (hsub : known ⊆ known') : Ordered known' ls := by
  induction ls generalizing known known' with
  | nil => trivial
  | cons l ls ih => exact ⟨hsub h.1, ih h.2 (List.cons_subset_cons _ hsub)⟩

theorem append (h : Ordered known ls) (h' : Ordered known ms) : Ordered known (ls ++ ms) := by
  induction ls generalizing known with
  | nil => exact h'
  | cons l ls ih => exact ⟨h.1, ih h.2 (h'.mono (List.subset_cons_self _ _))⟩

theorem lambdas (o : Outline) (owner : Text) : Ordered [owner] (o.lambdas owner) := by
  induction o generalizing owner with
  | nil => trivial
  | name _ _ _ ih => exact ih owner
  | declare _ _ ih => exact ih owner
  | region _ _ ihInner ihRest => exact (ihInner owner).append (ihRest owner)
  | lambda pos params inner rest ihInner ihRest =>
    refine ⟨.head _, Ordered.append ((ihInner _).mono ?_) ((ihRest owner).mono ?_)⟩ <;> simp

/-- Routines of lambdas come behind those with the labels of their parents. -/
theorem routines {rs : List Routine} (h : Ordered known ls)
    (hbecome : List.Forall₂ PlacedLambda.Becomes ls rs) {before behind : List Routine}
    {r : Routine} (hrs : rs = before ++ r :: behind) :
    ∃ parent, r.parent = some parent ∧ (parent ∈ known ∨ parent ∈ before.map Routine.label) := by
  induction hbecome generalizing known before with
  | nil => simp at hrs
  | @cons l r' ls rs hfirst _ ih =>
    cases before with
    | nil =>
      cases hrs
      exact ⟨_, hfirst.parent, .inl h.1⟩
    | cons first before =>
      cases hrs
      obtain ⟨parent, hparent, hmem⟩ := ih h.2 rfl
      refine ⟨parent, hparent, ?_⟩
      rw [List.map_cons, List.mem_cons, hfirst.label]
      rcases hmem with hmem | hmem
      · rcases List.mem_cons.1 hmem with rfl | hmem
        · exact .inr (.inl rfl)
        · exact .inl hmem
      · exact .inr (.inr hmem)

end Ordered

/-! ## Finding -/

theorem exists_of_forall₂ {α β : Type} {R : α → β → Prop} {as : List α} {bs : List β}
    (h : List.Forall₂ R as bs) {b : β} (hb : b ∈ bs) : ∃ a ∈ as, R a b := by
  induction h with
  | nil => cases hb
  | cons hR _ ih =>
    rcases List.mem_cons.1 hb with rfl | hb
    · exact ⟨_, .head _, hR⟩
    · obtain ⟨a, ha, hR⟩ := ih hb
      exact ⟨a, .tail _ ha, hR⟩

/-- What is in a list under a condition is found there. -/
theorem exists_findIdx? {α : Type} {p : α → Bool} {xs : List α} {x : α} (hx : x ∈ xs)
    (hp : p x = true) : ∃ i y, xs.findIdx? p = some i ∧ xs[i]? = some y ∧ p y = true := by
  have hsome : (xs.findIdx? p).isSome = true := by
    rw [List.findIdx?_isSome]
    exact List.any_eq_true.2 ⟨x, hx, hp⟩
  obtain ⟨i, hi⟩ := Option.isSome_iff_exists.1 hsome
  obtain ⟨hlt, hy, -⟩ := List.findIdx?_eq_some_iff_getElem.1 hi
  exact ⟨i, xs[i], hi, List.getElem?_eq_getElem hlt, hy⟩

/-- Where nothing stands twice, it stands under one index. -/
theorem eq_of_nodup_flatMap {α β : Type} {f : α → List β} {xs : List α} {i j : Nat} {x y : α}
    {b : β} (hnodup : (xs.flatMap f).Nodup) (hx : xs[i]? = some x) (hy : xs[j]? = some y)
    (hbx : b ∈ f x) (hby : b ∈ f y) : i = j := by
  have hapart := List.pairwise_iff_getElem.1 (List.nodup_flatMap.1 hnodup).2
  obtain ⟨hi, rfl⟩ := List.getElem?_eq_some_iff.1 hx
  obtain ⟨hj, rfl⟩ := List.getElem?_eq_some_iff.1 hy
  rcases Nat.lt_trichotomy i j with hlt | heq | hlt
  · exact absurd hby (hapart i j hi hj hlt hbx)
  · exact heq
  · exact absurd hbx (hapart j i hj hi hlt hby)

namespace Collection

/-- Scopes and routines share out the variables of a body with these parameters and this outline.
Scopes are known by their numbers. -/
structure Partitions (owner : Text) (params : List Param) (o : Outline) (c : Collection) :
    Prop where
  /-- Every declaration makes one variable, and no two of them the same one. -/
  sites : c.sites.Perm (o.sites owner)
  places : (c.sites.map Prod.fst).Nodup
  nodup : (c.sites.map Prod.snd).Nodup
  scopes : (c.scope.walk.flatMap fun e => e.1.vars).Perm (c.sites.map Prod.snd)
  routines : (c.routines.flatMap Routine.vars).Perm (c.sites.map Prod.snd)
  /-- The body has what is declared outside the lambdas in it. -/
  label : c.root.label = owner
  parent : c.root.parent = none
  params : c.root.params = (params.map (Param.decl .parameter)).map (Decl.variable owner)
  vars : c.root.vars.Perm (o.own.map (Decl.variable owner))
  closures : List.Forall₂ PlacedLambda.Becomes (o.lambdas owner) c.closures
  owners : ∀ r ∈ c.routines, ∀ v ∈ r.vars, v.owner = r.label
  /-- The scope of a variable stands in that of its routine, and no other lambda is in between. -/
  inside : ∀ r ∈ c.routines, ∃ i, c.scopeIndex? r = some i ∧
    ∀ v ∈ r.vars, ∃ j, c.declaringIndex? v = some j ∧ Scope.Inside c.scope.walk i j
  labels : (c.routines.map Routine.label).Nodup
  order : ∀ before r behind, c.closures = before ++ r :: behind →
    ∃ around ∈ c.root :: before, r.parent = some around.label
  /-- A scope is the parent of those that it lists, and of no others. -/
  kids : ∀ i s parent, c.scope.walk[i]? = some (s, parent) →
    Scope.kids c.scope.walk i = s.children ∧
      ((i = 0 ∧ parent = none) ∨ ∃ j, parent = some j ∧ j < i)

variable {c : Collection} {owner : Text} {o : Outline}

theorem perm_scopes (kind : Scope.Kind) (site : Site) {f : Found} (h : Nested f) :
    ((Scope.walk ⟨kind, site, f.vars, f.children, []⟩).flatMap fun e => e.1.vars).Perm
      (f.sites.map Prod.snd) := by
  rw [← List.flatMap_map (f := Prod.fst) (g := Scope.vars), Scope.map_walk, Scope.all,
    List.flatMap_cons]
  exact h.all

/-- The variables that stand in a scope are found inside it. -/
theorem exists_declaringIndex (hnodup : (c.scope.walk.flatMap fun e => e.1.vars).Nodup) {i : Nat}
    {s : Scope} {parent : Option Nat} (hs : c.scope.walk[i]? = some (s, parent)) {v : Variable}
    (hv : v ∈ s.own) : ∃ j, c.declaringIndex? v = some j ∧ Scope.Inside c.scope.walk i j := by
  obtain ⟨j, e, hj, hmem, hinside⟩ := Scope.exists_inside hs hv
  obtain ⟨k, e', hfound, hk, hcontains⟩ := exists_findIdx? (p := fun e => e.1.vars.contains v)
    (List.mem_of_getElem? hj) (List.contains_iff_mem.2 hmem)
  have heq := eq_of_nodup_flatMap hnodup hk hj (List.contains_iff_mem.1 hcontains) hmem
  exact ⟨k, hfound, heq ▸ hinside⟩

/-- The scope of a lambda is found by its place, and the variables of its routine inside it. -/
theorem inside_closure {f : Found} (hnested : Nested f)
    (hnodup : (c.scope.walk.flatMap fun e => e.1.vars).Nodup)
    (hchildren : c.scope.children = f.children) (hkind : c.scope.kind ≠ .closureBody)
    (hplaces : (f.routines.map fun r => r.site.pos).Nodup) {r : Routine} (hr : r ∈ f.routines)
    (hclosure : r.isClosure = true) :
    ∃ i, c.scopeIndex? r = some i ∧
      ∀ v ∈ r.vars, ∃ j, c.declaringIndex? v = some j ∧ Scope.Inside c.scope.walk i j := by
  obtain ⟨ss, hholds, hperm⟩ := hnested.closures
  have hss : ∀ s, s ∈ ss ↔ s ∈ c.scope.all ∧ s.isClosure = true := by
    intro s
    have hroot : c.scope.isClosure = false := by simpa [Scope.isClosure] using hkind
    have hall : c.scope.all = c.scope :: Scope.allOf f.children := by
      rw [← hchildren]
      cases c.scope
      rfl
    rw [hperm.mem_iff, List.mem_filter, hall, List.mem_cons]
    refine and_congr_left fun hs => (or_iff_right fun heq => ?_).symm
    rw [heq, hroot] at hs
    cases hs
  obtain ⟨s, hs, hsite, hown⟩ := exists_of_forall₂ hholds hr
  rw [hss, ← Scope.map_walk] at hs
  obtain ⟨hs, hbody⟩ := hs
  obtain ⟨e, he, rfl⟩ := List.mem_map.1 hs
  obtain ⟨i, ⟨t, parent⟩, hfound, hi, ht⟩ := exists_findIdx?
    (p := fun e => e.1.kind = .closureBody && e.1.site = r.site) he
    (by simpa [Scope.isClosure, hsite] using hbody)
  simp only [Bool.and_eq_true, decide_eq_true_eq] at ht
  have hmem : t ∈ ss := by
    rw [hss, ← Scope.map_walk]
    exact ⟨List.mem_map_of_mem (List.mem_of_getElem? hi), by simpa [Scope.isClosure] using ht.1⟩
  obtain ⟨r', hr', hsite', hown'⟩ := exists_of_forall₂ hholds.flip hmem
  have hsame : r' = r :=
    List.inj_on_of_nodup_map hplaces hr' hr (congrArg Site.pos (hsite'.symm.trans ht.2))
  refine ⟨i, ?_, fun v hv => ?_⟩
  · rw [scopeIndex?, if_pos hclosure]
    exact hfound
  · exact exists_declaringIndex hnodup hi (hown'.symm.subset (hsame ▸ hv))

/-- The lambdas at different places have different labels, and none has that of the body. -/
theorem nodup_labels {rs : List Routine}
    (h : List.Forall₂ PlacedLambda.Becomes (o.lambdas owner) rs)
    (hplaces : (rs.map fun r => r.site.pos).Nodup) : (owner :: rs.map Routine.label).Nodup := by
  refine List.nodup_cons.2 ⟨fun hmem => ?_, ?_⟩
  · obtain ⟨r, hr, heq⟩ := List.mem_map.1 hmem
    obtain ⟨l, hl, hbecomes⟩ := exists_of_forall₂ h hr
    have hlt := Outline.length_lt_label hl
    rw [← hbecomes.label, heq] at hlt
    omega
  · refine (List.nodup_map_iff_inj_on (.of_map _ hplaces)).2 fun r hr r' hr' heq => ?_
    obtain ⟨l, hl, hbecomes⟩ := exists_of_forall₂ h hr
    obtain ⟨l', hl', hbecomes'⟩ := exists_of_forall₂ h hr'
    rw [hbecomes.label, hbecomes'.label] at heq
    refine List.inj_on_of_nodup_map hplaces hr hr' ?_
    rw [hbecomes.site, hbecomes'.site]
    exact PlacedLambda.pos_of_label heq

end Collection

namespace Fragment

variable {f : Fragment} {params : List Param} {body : Block} {owner : Text} {c : Collection}

/-- The variables of a parsed fragment are different. -/
theorem Parsed.nodup_vars (h : f.Parsed) (hc : Collection.ofFragment owner f = .ok c) :
    (c.sites.map Prod.snd).Nodup := by
  have hplaces : (c.sites.map Prod.snd).map Variable.place = c.sites.map Prod.fst := by
    rw [List.map_map]
    refine List.map_congr_left fun e he => ?_
    obtain ⟨hline, hcol⟩ := (Collection.gathers_ofFragment hc).1 e he
    simp only [Function.comp, Variable.place, hline, hcol, Int.toNat_natCast]
  exact .of_map Variable.place (hplaces ▸ h.nodup_sites hc)

/-- Every parsed fragment that is code makes a variable of each of its declarations outside of
classes. Scopes and routines share them out. -/
theorem Parsed.partitions (h : f.Parsed) (hcode : f.code? = some (params, body)) (owner : Text) :
    ∃ c, Collection.ofFragment owner f = .ok c ∧
      (c.sites.map nameAt).Perm (f.tree.marked .declaration) ∧
      c.Partitions owner params (body.outlineWith params) := by
  obtain ⟨kind, site, hkind, -, hc⟩ := ofBody_of_code hcode owner
  obtain ⟨r, houtlined, hbody⟩ := Collection.outlined_ofBody owner kind site params body
  rw [hbody] at hc
  have hnested := houtlined.nested
  have hplaces := h.nodup_lambdas hc
  have hscopes := Collection.perm_scopes kind site hnested
  have hnodup := h.nodup_vars hc
  refine ⟨_, hc, ?_, ?_⟩
  · have hnames := houtlined.sites.map nameAt
    rw [Outline.map_nameAt_sites] at hnames
    exact hnames.trans (marks_of_code hcode .declaration)
  constructor
  case sites => exact houtlined.sites
  case places => exact h.nodup_sites hc
  case nodup => exact hnodup
  case scopes => exact hscopes
  case routines => exact Collection.shares_ofFragment hc
  case label | parent | params => rfl
  case vars => exact houtlined.declared
  case closures => exact houtlined.routines
  case owners =>
    intro u hu v hv
    rcases List.mem_cons.1 hu with rfl | hu
    · obtain ⟨d, -, rfl⟩ := List.mem_map.1 (houtlined.declared.subset hv)
      rfl
    · obtain ⟨l, -, hbecomes⟩ := exists_of_forall₂ houtlined.routines hu
      exact hbecomes.owner hv
  case inside =>
    intro u hu
    have hshared := hscopes.nodup_iff.2 hnodup
    rcases List.mem_cons.1 hu with rfl | hu
    · refine ⟨0, rfl, fun v hv => ?_⟩
      have hroot : (Scope.walk ⟨kind, site, r.2.vars, r.2.children, []⟩)[0]? = some (_, none) := rfl
      apply Collection.exists_declaringIndex hshared hroot
      exact hnested.own.symm.subset hv
    · obtain ⟨l, -, hbecomes⟩ := exists_of_forall₂ houtlined.routines hu
      exact Collection.inside_closure hnested hshared rfl hkind hplaces hu hbecomes.isClosure
  case labels => exact Collection.nodup_labels houtlined.routines hplaces
  case order =>
    intro before u behind heq
    obtain ⟨parent, hparent, hmem⟩ :=
      (Ordered.lambdas (body.outlineWith params) owner).routines houtlined.routines heq
    rcases hmem with hmem | hmem
    · exact ⟨_, .head _, List.mem_singleton.1 hmem ▸ hparent⟩
    · obtain ⟨around, haround, rfl⟩ := List.mem_map.1 hmem
      exact ⟨around, .tail _ haround, hparent⟩
  case kids => exact fun i s parent hs => ⟨Scope.kids_walk hs, Scope.parent_walk hs⟩

/-- `{ int a; try { g(x -> a); } catch (E e) { } }` -/
def lambdaBeforeHandler : List Char :=
  "\x7b int a; try \x7b g(x -> a); \x7d catch (E e) \x7b \x7d \x7d".toList

/-- Of the three variables, one belongs to the lambda. -/
theorem partitions_lambda : ∃ b c r, Block.parse lambdaBeforeHandler = .ok b ∧
    Collection.ofFragment "M" (.block b) = .ok c ∧ c.sites.length = 3 ∧ c.closures = [r] ∧
    r.vars.length = 1 ∧ c.Partitions "M" [] (b.outlineWith []) := by
  obtain ⟨b, hb, hany⟩ := FlowGraph.exists_ok_of_any (x := Block.parse lambdaBeforeHandler)
    (p := fun b => (Collection.ofBlock "M" b).sites.length = 3 &&
      (Collection.ofBlock "M" b).closures.map (fun r => r.vars.length) = [1])
    (by decide +kernel)
  simp only [Bool.and_eq_true, decide_eq_true_eq] at hany
  obtain ⟨hsites, hclosures⟩ := hany
  have hparsed : (Fragment.block b).Parsed := ⟨lambdaBeforeHandler, _, .inr ⟨b, hb, .refl⟩⟩
  obtain ⟨c, hc, -, hpartitions⟩ := hparsed.partitions rfl "M"
  cases hc
  obtain ⟨r, hr, hlength⟩ := List.map_eq_singleton_iff.1 hclosures
  exact ⟨b, _, r, hb, rfl, hsites, hr, hlength, hpartitions⟩

end Fragment

end WriteOnce
