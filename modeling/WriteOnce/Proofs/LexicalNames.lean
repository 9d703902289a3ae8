import WriteOnce.Proofs.NamePlaces

/-!
# What names denote

A declaration is known from its place in the outline to the end of its region. Among the
declarations of its name that are known where it stands, a name denotes the one that is known in
the smallest part of the code.
-/

namespace WriteOnce

@[simp] theorem Env.find?_bind (env : Env) (v : Variable) (word : Text) :
    (env.bind v).find? word = if word = v.name then some v else env.find? word := by
  unfold find? bind
  rw [List.lookup_cons]
  by_cases h : word = v.name
  · rw [if_pos h, beq_iff_eq.2 h]
  · rw [if_neg h, beq_eq_false_iff_ne.2 h]

namespace Outline

/-- A stretch of code within another one, which goes on to the end of a region as well. -/
inductive Within (o : Outline) : Outline → Prop
  | refl : Within o o
  | name {pos : Pos} {word : Text} {rest : Outline} (h : Within o rest) :
    Within o (.name pos word rest)
  | declare {d : Decl} {rest : Outline} (h : Within o rest) : Within o (.declare d rest)
  | inRegion {inner rest : Outline} (h : Within o inner) : Within o (.region inner rest)
  | pastRegion {inner rest : Outline} (h : Within o rest) : Within o (.region inner rest)
  | inLambda {pos : Pos} {params : List Decl} {inner rest : Outline} (h : Within o inner) :
    Within o (.lambda pos params inner rest)
  | pastLambda {pos : Pos} {params : List Decl} {inner rest : Outline} (h : Within o rest) :
    Within o (.lambda pos params inner rest)

variable {o o' : Outline} {owner : Text} {env : Env}

theorem Within.names_subset (h : o.Within o') : o.names ⊆ o'.names := by
  induction h with
  | refl => exact List.Subset.refl _
  | name _ ih => exact List.Subset.trans ih (List.subset_cons_self _ _)
  | declare _ ih => exact ih
  | inRegion _ ih | inLambda _ ih => exact List.Subset.trans ih (List.subset_append_left _ _)
  | pastRegion _ ih | pastLambda _ ih => exact List.Subset.trans ih (List.subset_append_right _ _)

theorem Within.size_le (h : o.Within o') : sizeOf o ≤ sizeOf o' := by
  induction h with
  | refl => exact Nat.le_refl _
  | _ =>
    simp only [name.sizeOf_spec, declare.sizeOf_spec, region.sizeOf_spec, lambda.sizeOf_spec]
    omega

/-- A declaration is known in a part of the code. -/
theorem within_of_mem_bindings {b : Binding} (h : b ∈ o.bindings owner) :
    b.scope.Within o ∧ sizeOf b.scope < sizeOf o := by
  induction o generalizing owner with
  | nil => cases h
  | name pos word rest ih =>
    refine ⟨.name (ih h).1, ?_⟩
    have := (ih h).2
    simp; omega
  | declare d rest ih =>
    rcases List.mem_cons.1 h with rfl | h
    · exact ⟨.declare .refl, by simp⟩
    · refine ⟨.declare (ih h).1, ?_⟩
      have := (ih h).2
      simp; omega
  | region inner rest ihInner ihRest =>
    rcases List.mem_append.1 h with h | h
    · refine ⟨.inRegion (ihInner h).1, ?_⟩
      have := (ihInner h).2
      simp; omega
    · refine ⟨.pastRegion (ihRest h).1, ?_⟩
      have := (ihRest h).2
      simp; omega
  | lambda pos params inner rest ihInner ihRest =>
    rcases List.mem_append.1 h with h | h
    · refine ⟨.inLambda (ihInner h).1, ?_⟩
      have := (ihInner h).2
      simp; omega
    · refine ⟨.pastLambda (ihRest h).1, ?_⟩
      have := (ihRest h).2
      simp; omega

/-- Only names denote something. -/
theorem refs_subset (o : Outline) (owner : Text) (env : Env) :
    (o.refs owner env).map Prod.fst ⊆ o.names.map Prod.fst := by
  induction o generalizing owner env with
  | nil => exact List.Subset.refl _
  | name pos word rest ih =>
    rw [refs, List.map_append, names, List.map_cons]
    refine List.append_subset.2 ⟨?_, List.Subset.trans (ih ..) (List.subset_cons_self _ _)⟩
    cases env.find? word <;> simp
  | declare d rest ih => exact ih ..
  | region inner rest ihInner ihRest | lambda pos params inner rest ihInner ihRest =>
    rw [refs, List.map_append, names, List.map_append]
    exact List.append_subset.2 ⟨List.Subset.trans (ihInner ..) (List.subset_append_left _ _),
      List.Subset.trans (ihRest ..) (List.subset_append_right _ _)⟩

end Outline

/-! ## Innermost declarations -/

namespace Binding

variable {n : Pos × Text} {b : Binding} {bs cs : List Binding}

/-- The declaration is known where the name stands. -/
def Reaches (n : Pos × Text) (b : Binding) : Prop := b.decl.name = n.2 ∧ n ∈ b.scope.names

/-- No other declaration that is known where the name stands is known in less of the code. -/
structure Innermost (bs : List Binding) (n : Pos × Text) (b : Binding) : Prop where
  mem : b ∈ bs
  reaches : b.Reaches n
  least : ∀ b' ∈ bs, b'.Reaches n → b.scope.Within b'.scope

/-- What a name denotes among some declarations: the innermost one, and if none is known where the
name stands, what it denotes outside. -/
structure Resolves (bs : List Binding) (n : Pos × Text) (outer found : Option Variable) : Prop where
  innermost : ∀ b : Binding, b.Innermost bs n → found = some b.variable
  total : (∃ b : Binding, b.Innermost bs n) ∨ (∀ b ∈ bs, ¬b.Reaches n) ∧ found = outer

variable {outer found : Option Variable}

/-- Only the declarations that are known where the name stands count. -/
theorem Resolves.of_iff (h : Resolves bs n outer found)
    (hiff : ∀ b : Binding, b.Reaches n → (b ∈ cs ↔ b ∈ bs)) : Resolves cs n outer found := by
  have hinner : ∀ b : Binding, b.Innermost cs n ↔ b.Innermost bs n := fun b =>
    ⟨fun hb => ⟨(hiff b hb.reaches).1 hb.mem, hb.reaches,
        fun b' hb' hreach => hb.least b' ((hiff b' hreach).2 hb') hreach⟩,
      fun hb => ⟨(hiff b hb.reaches).2 hb.mem, hb.reaches,
        fun b' hb' hreach => hb.least b' ((hiff b' hreach).1 hb') hreach⟩⟩
  refine ⟨fun b hb => h.innermost b ((hinner b).1 hb), ?_⟩
  rcases h.total with ⟨b, hb⟩ | ⟨hnone, hfound⟩
  · exact .inl ⟨b, (hinner b).2 hb⟩
  · exact .inr ⟨fun b hb hreach => hnone b ((hiff b hreach).1 hb) hreach, hfound⟩

theorem Resolves.append_left (h : Resolves bs n outer found) (hnone : ∀ b ∈ cs, ¬b.Reaches n) :
    Resolves (bs ++ cs) n outer found :=
  h.of_iff fun b hreach => by
    rw [List.mem_append, or_iff_left fun hb => hnone b hb hreach]

theorem Resolves.append_right (h : Resolves cs n outer found) (hnone : ∀ b ∈ bs, ¬b.Reaches n) :
    Resolves (bs ++ cs) n outer found :=
  h.of_iff fun b hreach => by
    rw [List.mem_append, or_iff_right fun hb => hnone b hb hreach]

/-- A declaration in front of the others is known wherever one of the others is, and in more of the
code. -/
theorem Resolves.declare {owner : Text} {env : Env} {d : Decl} {rest : Outline}
    (h : Resolves (rest.bindings owner) n ((env.bind (d.variable owner)).find? n.2) found)
    (hn : n ∈ rest.names) :
    Resolves ((Outline.declare d rest).bindings owner) n (env.find? n.2) found := by
  have hbind : (env.bind (d.variable owner)).find? n.2 =
      if n.2 = d.name then some (d.variable owner) else env.find? n.2 := env.find?_bind _ _
  constructor
  · intro b hb
    rcases List.mem_cons.1 hb.mem with rfl | hmem
    · rcases h.total with ⟨b, hinner⟩ | ⟨-, hfound⟩
      · have hwithin := hb.least b (.tail _ hinner.mem) hinner.reaches
        have hsize := hwithin.size_le
        have hsmaller := (Outline.within_of_mem_bindings hinner.mem).2
        dsimp only at hsize
        omega
      · rw [hfound, hbind, if_pos hb.reaches.1.symm]
        rfl
    · exact h.innermost b ⟨hmem, hb.reaches, fun b' hb' => hb.least b' (.tail _ hb')⟩
  · rcases h.total with ⟨b, hb⟩ | ⟨hnone, hfound⟩
    · refine .inl ⟨b, .tail _ hb.mem, hb.reaches, fun b' hb' hreach => ?_⟩
      rcases List.mem_cons.1 hb' with rfl | hb'
      · exact (Outline.within_of_mem_bindings hb.mem).1
      · exact hb.least b' hb' hreach
    · by_cases hname : n.2 = d.name
      · refine .inl ⟨⟨owner, d, rest⟩, .head _, ⟨hname.symm, hn⟩, fun b' hb' hreach => ?_⟩
        rcases List.mem_cons.1 hb' with rfl | hb'
        · exact .refl
        · exact absurd hreach (hnone b' hb')
      · refine .inr ⟨fun b hb hreach => ?_, ?_⟩
        · rcases List.mem_cons.1 hb with rfl | hb
          · exact hname hreach.1.symm
          · exact hnone b hb hreach
        · rw [hfound, hbind, if_neg hname]

end Binding

open Binding (Resolves)

namespace Outline

variable {n : Pos × Text}

theorem lookup_refs_eq_none {o : Outline} (h : n.1 ∉ o.names.map Prod.fst) (owner : Text)
    (env : Env) : (o.refs owner env).lookup n.1 = none := by
  refine List.lookup_eq_none_iff.2 fun e he => bne_iff_ne.2 fun heq => ?_
  exact h (o.refs_subset owner env (heq ▸ List.mem_map_of_mem he))

theorem not_reaches {o : Outline} (h : n.1 ∉ o.names.map Prod.fst) (owner : Text) :
    ∀ b ∈ o.bindings owner, ¬b.Reaches n := by
  intro b hb hreach
  exact h (List.mem_map_of_mem ((within_of_mem_bindings hb).1.names_subset hreach.2))

theorem lookup_refs_left {o : Outline} (h : n.1 ∉ o.names.map Prod.fst)
    (refs : List (Pos × Variable)) (owner : Text) (env : Env) :
    (refs ++ o.refs owner env).lookup n.1 = refs.lookup n.1 := by
  rw [List.lookup_append, lookup_refs_eq_none h, Option.or_none]

theorem lookup_refs_right {o : Outline} (h : n.1 ∉ o.names.map Prod.fst)
    (refs : List (Pos × Variable)) (owner : Text) (env : Env) :
    (o.refs owner env ++ refs).lookup n.1 = refs.lookup n.1 := by
  rw [List.lookup_append, lookup_refs_eq_none h, Option.none_or]

theorem lookup_refs_name {pos : Pos} {rest : Outline} (h : pos ∉ rest.names.map Prod.fst)
    (hn : n ∈ rest.names) (word : Text) (owner : Text) (env : Env) :
    ((name pos word rest).refs owner env).lookup n.1 = (rest.refs owner env).lookup n.1 := by
  have hother : (n.1 == pos) = false := by
    have hmem : n.1 ∈ rest.names.map Prod.fst := List.mem_map_of_mem hn
    exact beq_eq_false_iff_ne.2 fun heq => h (heq ▸ hmem)
  have hhead : (((env.find? word).map (pos, ·)).toList).lookup n.1 = none := by
    cases env.find? word <;> simp [List.lookup_cons, hother]
  rw [refs, List.lookup_append, hhead, Option.none_or]

/-- A name in one of two parts of the code denotes nothing of the other part. -/
theorem resolves_parts {o o' : Outline} {owner owner' : Text} {env : Env} {outer : Option Variable}
    (h : n ∈ o.names → Resolves (o.bindings owner) n outer ((o.refs owner env).lookup n.1))
    (h' : n ∈ o'.names → Resolves (o'.bindings owner') n outer ((o'.refs owner' env).lookup n.1))
    (hnodup : ((o.names ++ o'.names).map Prod.fst).Nodup) (hn : n ∈ o.names ++ o'.names) :
    Resolves (o.bindings owner ++ o'.bindings owner') n outer
      ((o.refs owner env ++ o'.refs owner' env).lookup n.1) := by
  rw [List.map_append, List.nodup_append'] at hnodup
  obtain ⟨-, -, hdisjoint⟩ := hnodup
  rcases List.mem_append.1 hn with hn | hn
  · have hother := hdisjoint (List.mem_map_of_mem hn)
    rw [lookup_refs_left hother]
    exact (h hn).append_left (not_reaches hother owner')
  · have hother := fun hmem => hdisjoint hmem (List.mem_map_of_mem hn)
    rw [lookup_refs_right hother]
    exact (h' hn).append_right (not_reaches hother owner)

/-- A name denotes the innermost declaration. -/
theorem resolves (o : Outline) (owner : Text) (env : Env) (hnodup : (o.names.map Prod.fst).Nodup)
    (hn : n ∈ o.names) :
    Resolves (o.bindings owner) n (env.find? n.2) ((o.refs owner env).lookup n.1) := by
  induction o generalizing owner env with
  | nil => cases hn
  | name pos word rest ih =>
    rw [names, List.map_cons, List.nodup_cons] at hnodup
    rcases List.mem_cons.1 hn with rfl | hn
    · refine ⟨fun b hb => absurd hb.reaches (not_reaches hnodup.1 owner b hb.mem),
        .inr ⟨not_reaches hnodup.1 owner, ?_⟩⟩
      rw [refs, lookup_refs_left hnodup.1]
      cases env.find? word <;> simp
    · rw [lookup_refs_name hnodup.1 hn]
      exact ih owner env hnodup.2 hn
  | declare d rest ih => exact .declare (ih owner _ hnodup hn) hn
  | region inner rest ihInner ihRest =>
    rw [names, List.map_append] at hnodup
    exact resolves_parts (ihInner owner env (List.Nodup.of_append_left hnodup))
      (ihRest owner env (List.Nodup.of_append_right hnodup)) (List.map_append ▸ hnodup) hn
  | lambda pos params inner rest ihInner ihRest =>
    rw [names, List.map_append] at hnodup
    exact resolves_parts (ihInner _ env (List.Nodup.of_append_left hnodup))
      (ihRest owner env (List.Nodup.of_append_right hnodup)) (List.map_append ▸ hnodup) hn

end Outline

namespace Fragment

variable {f : Fragment} {params : List Param} {body : Block}

/-- In a parsed fragment that is code, every name outside of classes denotes the innermost
declaration of that name that is known where it stands, and nothing if there is none. The place of
that declaration leads to the same variable. -/
theorem lookup_innermost (h : f.Parsed) (hcode : f.code? = some (params, body)) (owner : Text) :
    ∃ c, Collection.ofFragment owner f = .ok c ∧ ∀ n ∈ f.tree.marked .name,
      (∀ b : Binding, b.Innermost ((body.outlineWith params).bindings owner) n →
        c.lookup? n.1 = some b.variable ∧ c.declared? b.decl.pos = some b.variable) ∧
      ((∃ b : Binding, b.Innermost ((body.outlineWith params).bindings owner) n) ∨
        (∀ b ∈ (body.outlineWith params).bindings owner, ¬b.Reaches n) ∧ c.lookup? n.1 = none) := by
  obtain ⟨kind, site, -, -, hc⟩ := ofBody_of_code hcode owner
  have hsites := h.nodup_sites hc
  obtain ⟨r, houtlined, hbody⟩ := Collection.outlined_ofBody owner kind site params body
  rw [hbody] at hc hsites
  refine ⟨_, hc, fun n hn => ?_⟩
  have hresolves := Outline.resolves _ owner [] (h.nodup_names hcode) ((mem_names_iff hcode).2 hn)
  rw [← houtlined.refs] at hresolves
  refine ⟨fun b hb => ⟨hresolves.innermost b hb, ?_⟩, hresolves.total⟩
  exact lookup_eq_some_of_nodup hsites (houtlined.sites.mem_iff.2 (List.mem_map_of_mem hb.mem))

/-- `{ int a; g(a -> a); a = 1; }` -/
def parameterInside : List Char := "\x7b int a; g(a -> a); a = 1; \x7d".toList

/-- The name in the lambda denotes its parameter, although the variable outside is known there. -/
theorem lookup_innermost_parameter : ∃ b c, Block.parse parameterInside = .ok b ∧
    Collection.ofFragment "M" (.block b) = .ok c ∧
    ∃ inner : Binding, inner.Innermost ((b.outlineWith []).bindings "M") (⟨1, 17⟩, "a") ∧
      inner.decl.kind = .parameter ∧ c.lookup? ⟨1, 17⟩ = some inner.variable := by
  obtain ⟨b, hb, hany⟩ := FlowGraph.exists_ok_of_any (x := Block.parse parameterInside)
    (p := fun b => (b.tree.marked .name).contains (⟨1, 17⟩, "a") &&
      ((Collection.ofBlock "M" b).lookup? ⟨1, 17⟩).any fun v => v.kind = .parameter)
    (by decide +kernel)
  simp only [Bool.and_eq_true, List.contains_iff_mem, decide_eq_true_eq, Option.any_eq_true] at hany
  obtain ⟨hname, v, hlookup, hkind⟩ := hany
  have hparsed : (Fragment.block b).Parsed := ⟨parameterInside, _, .inr ⟨b, hb, .refl⟩⟩
  obtain ⟨c, hc, hall⟩ := lookup_innermost hparsed rfl "M"
  cases hc
  obtain ⟨hdenotes, ⟨inner, hinner⟩ | ⟨-, hnone⟩⟩ := hall _ hname
  · have hinside := (hdenotes inner hinner).1
    rw [hlookup] at hinside
    cases hinside
    exact ⟨b, _, hb, rfl, inner, hinner, hkind, hlookup⟩
  · rw [hlookup] at hnone
    cases hnone

/-- `{ int a = b, b = 1; }` -/
def usedEarly : List Char := "\x7b int a = b, b = 1; \x7d".toList

/-- The only declaration of `b` stands behind the name, which denotes it all the same. -/
theorem lookup_innermost_early : ∃ b c v, Block.parse usedEarly = .ok b ∧
    Collection.ofFragment "M" (.block b) = .ok c ∧
    (⟨1, 11⟩, ("b" : Text)) ∈ b.tree.marked .name ∧
    (∀ d ∈ b.tree.marked .declaration, d.2 = "b" → d.1 = ⟨1, 14⟩) ∧
    c.lookup? ⟨1, 11⟩ = some v ∧ c.declared? ⟨1, 14⟩ = some v := by
  obtain ⟨b, hb, hany⟩ := FlowGraph.exists_ok_of_any (x := Block.parse usedEarly)
    (p := fun b => (b.tree.marked .name).contains (⟨1, 11⟩, "b") &&
      ((b.tree.marked .declaration).all fun d => d.2 ≠ "b" || d.1 = ⟨1, 14⟩) &&
      ((Collection.ofBlock "M" b).lookup? ⟨1, 11⟩).any fun v =>
        (Collection.ofBlock "M" b).declared? ⟨1, 14⟩ = some v)
    (by decide +kernel)
  simp only [Bool.and_eq_true, List.contains_iff_mem, List.all_eq_true, Bool.or_eq_true,
    decide_eq_true_eq, Option.any_eq_true] at hany
  obtain ⟨⟨hname, hown⟩, v, hlookup, hdeclared⟩ := hany
  exact ⟨b, _, v, hb, rfl, hname, fun d hd hword => (hown d hd).resolve_left (· hword), hlookup,
    hdeclared⟩

end Fragment

end WriteOnce
