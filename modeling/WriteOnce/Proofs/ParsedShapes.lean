import WriteOnce.Proofs.LexicalNames
import WriteOnce.Proofs.ShapedProductions

/-!
# The shape of parsed sources

Everywhere in a parsed source the nodes obey their classes. What is declared has a name of its own
and no keyword, and so the words that stand in place of a name, such as `this`, denote no variable.
-/

namespace WriteOnce

namespace Tree

variable {label : Text} {fields : List (Text × Tree)} {e : Pos × Text}

mutual

theorem within_of_mem_nodesOf : (t : Tree) → fields ∈ t.nodesOf label →
    (node label fields).Within t
  | node l inner, h => by
    have hinner : fields ∈ nodesOfFields label inner → (node label fields).Within (node l inner) :=
      fun h =>
        let ⟨_, hu, hwithin⟩ := exists_within_of_mem_nodesOfFields inner h
        .field hu hwithin
    rw [nodesOf] at h
    by_cases hl : l = label
    · rw [if_pos hl] at h
      rcases List.mem_cons.1 h with rfl | h
      · exact hl ▸ .refl
      · exact hinner h
    · rw [if_neg hl] at h
      exact hinner h
  | list items, h =>
    let ⟨_, hu, hwithin⟩ := exists_within_of_mem_nodesOfItems items h
    .item hu hwithin
  | place _, h | text _, h | number _, h | flag _, h | absent, h => nomatch h

theorem exists_within_of_mem_nodesOfFields : (inner : List (Text × Tree)) →
    fields ∈ nodesOfFields label inner → ∃ u ∈ inner, (node label fields).Within u.2
  | [], h => nomatch h
  | (field, t) :: inner, h => by
    rcases List.mem_append.1 h with h | h
    · exact ⟨_, .head _, within_of_mem_nodesOf t h⟩
    · obtain ⟨u, hu, hwithin⟩ := exists_within_of_mem_nodesOfFields inner h
      exact ⟨u, .tail _ hu, hwithin⟩

theorem exists_within_of_mem_nodesOfItems : (items : List Tree) →
    fields ∈ nodesOfItems label items → ∃ u ∈ items, (node label fields).Within u
  | [], h => nomatch h
  | t :: items, h => by
    rcases List.mem_append.1 h with h | h
    · exact ⟨_, .head _, within_of_mem_nodesOf t h⟩
    · obtain ⟨u, hu, hwithin⟩ := exists_within_of_mem_nodesOfItems items h
      exact ⟨u, .tail _ hu, hwithin⟩

end

/-- Every name of a tree stands in a node of its own. -/
theorem within_of_mem_names {t : Tree} (h : t.Shaped) (he : e ∈ t.names) :
    (Expr.name e.1 e.2).tree.Within t := by
  obtain ⟨fields, hfields, hname⟩ := List.mem_filterMap.1 ((mem_sortBy _).1 he)
  have hwithin := within_of_mem_nodesOf t hfields
  have hobeys : Obeys NodeClass.name.signature.1 fields := (hwithin.shaped h).1
  have hsignature := hobeys.of_class.1
  rw [nameOf?.eq_def] at hname
  split at hname
  · cases hname
    cases hsignature
    exact hwithin
  · cases hname

theorem Obeys.isIdentifier (h : Obeys label fields)
    (hlabel : label = "JParam" ∨ label = "JDeclarator") (he : e ∈ ownName fields) :
    e.2.IsIdentifier := by
  have hname : (fieldOf fields "name").IsName := by
    rcases hlabel with rfl | rfl
    · exact (h.of_class (c := .param)).2
    · exact (h.of_class (c := .declarator)).2
  obtain ⟨word, hword, hidentifier⟩ := hname
  rw [ownName.eq_def] at he
  split at he
  · rename_i field pos rest
    rw [fieldOf, List.lookup_cons] at hword
    split at hword
    · cases hword
    · split at he
      · rename_i name hname
        rw [hname] at hword
        cases hword
        cases List.mem_singleton.1 he
        exact hidentifier
      · cases he
  · cases he

mutual

/-- All that is declared in a shaped tree has a name that can be declared. -/
theorem isIdentifier_of_mem_declared : (t : Tree) → t.Shaped → e ∈ t.declared → e.2.IsIdentifier
  | node label fields, h, he => by
    rw [declared, List.mem_append] at he
    rcases he with he | he
    · split_ifs at he with hlabel
      · exact h.1.isIdentifier hlabel he
      · cases he
    · exact isIdentifier_of_mem_declaredFields fields h.2 he
  | list items, h, he => isIdentifier_of_mem_declaredItems items h he
  | place _, _, he | text _, _, he | number _, _, he | flag _, _, he | absent, _, he => nomatch he

theorem isIdentifier_of_mem_declaredFields : (fields : List (Text × Tree)) →
    ShapedFields fields → e ∈ declaredFields fields → e.2.IsIdentifier
  | [], _, he => nomatch he
  | (_, t) :: fields, h, he => (List.mem_append.1 he).elim (isIdentifier_of_mem_declared t h.1)
      (isIdentifier_of_mem_declaredFields fields h.2)

theorem isIdentifier_of_mem_declaredItems : (items : List Tree) →
    ShapedItems items → e ∈ declaredItems items → e.2.IsIdentifier
  | [], _, he => nomatch he
  | t :: items, h, he => (List.mem_append.1 he).elim (isIdentifier_of_mem_declared t h.1)
      (isIdentifier_of_mem_declaredItems items h.2)

end

end Tree

theorem shaped_of_parseWith {α : Type} {view : α → Tree} {p : Grammar → Parser α}
    (hp : ∀ g : Grammar, g.Shaping → (p g).Gives fun a => (view a).Shaped) {source : List Char}
    {depth : Nat} {a : α} (h : parseWith p depth source = .ok a) : (view a).Shaped := by
  unfold parseWith at h
  split at h
  · cases h
  · rename_i s htokens
    split at h
    · cases h
    · rename_i hrun
      cases h
      exact (hp _ (Grammar.shaping_ofDepth _) s (TokenStream.named_of_tokenize htokens) _ _ hrun).2

namespace Fragment

variable {f : Fragment} {owner : Text} {c : Collection}

theorem Parsed.shaped (h : f.Parsed) : f.tree.Shaped := by
  obtain ⟨source, depth, ⟨p, hp, hwithin⟩ | ⟨b, hb, hwithin⟩⟩ := h
  · exact hwithin.shaped (shaped_of_parseWith (fun g hg => Grammar.gives_program hg) hp)
  · exact hwithin.shaped (shaped_of_parseWith (fun g hg => Grammar.gives_wholeBlock hg) hb)

/-- Only code has a collection, which its outline shows. -/
theorem exists_outlined (hc : Collection.ofFragment owner f = .ok c) :
    ∃ params body, f.code? = some (params, body) ∧
      c.refs = (body.outlineWith params).refs owner [] ∧
      c.sites.Perm ((body.outlineWith params).sites owner) := by
  have hcode : ∃ params body, f.code? = some (params, body) := by
    cases f with
    | program p => cases hc
    | block b => exact ⟨_, _, rfl⟩
    | member m =>
      cases m with
      | method pos modifiers result name params body =>
        cases body with
        | none => cases hc
        | some body => exact ⟨_, _, rfl⟩
      | «initializer» => exact ⟨_, _, rfl⟩
      | field => cases hc
      | classDecl => cases hc
  obtain ⟨params, body, hcode⟩ := hcode
  obtain ⟨kind, site, -, -, hbody⟩ := ofBody_of_code hcode owner
  obtain ⟨r, houtlined, hr⟩ := Collection.outlined_ofBody owner kind site params body
  cases hc.symm.trans (hbody.trans (congrArg Except.ok hr))
  exact ⟨params, body, hcode, houtlined.refs, houtlined.sites⟩

/-- No two names of a parsed fragment stand at the same place. -/
theorem Parsed.name_unique (h : f.Parsed) {pos : Pos} {word other : Text}
    (hword : 0 < f.tree.uses.count (pos, .name word))
    (hother : 0 < f.tree.uses.count (pos, .name other)) : word = other := by
  obtain ⟨source, s, htokens, huses⟩ := h.exists_tokens
  have hmem : ∀ {word}, 0 < f.tree.uses.count (pos, .name word) → (pos, word) ∈ s.names :=
    fun h => List.count_pos_iff.1 (s.count_names pos _ ▸ Nat.lt_of_lt_of_le h (huses _))
  have hnodup : (s.names.map Prod.fst).Nodup := by
    rw [TokenStream.names, List.map_map]
    exact (Program.pairwise_places htokens).imp Pos.Past.ne
  exact congrArg Prod.snd (List.inj_on_of_nodup_map hnodup (hmem hword) (hmem hother) rfl)

/-- A name at the place of one in the code is that name. -/
theorem Parsed.name_of_mem_outline (h : f.Parsed) {params : List Param} {body : Block}
    (hcode : f.code? = some (params, body)) {pos : Pos} {word other : Text}
    (hword : (pos, word) ∈ f.tree.names) (hother : (pos, other) ∈ (body.outlineWith params).names) :
    word = other := by
  have hmarked := (mem_names_iff hcode).1 hother
  have hwithin := (Tree.within_of_mem_names h.shaped hword).count_uses (e := (pos, .name word))
  refine h.name_unique (Nat.lt_of_lt_of_le ?_ hwithin)
    (Nat.lt_of_lt_of_le (List.count_pos_iff.2 hmarked) (f.tree.count_marked pos other))
  exact List.count_pos_iff.2 (.head _)

/-- What a collection declares has a name that can be declared. -/
theorem Parsed.isIdentifier_of_mem_sites (h : f.Parsed)
    (hc : Collection.ofFragment owner f = .ok c) {e : Pos × Variable} (he : e ∈ c.sites) :
    e.2.name.IsIdentifier := by
  have hsite : 0 < (c.sites.map nameAt).count (nameAt e) :=
    List.count_pos_iff.2 (List.mem_map_of_mem he)
  have hdeclared := Nat.lt_of_lt_of_le hsite (Collection.count_ofFragment hc (nameAt e))
  exact f.tree.isIdentifier_of_mem_declared h.shaped (List.count_pos_iff.1 hdeclared)

/-- A word that cannot be declared denotes no variable. -/
theorem Parsed.lookup_reserved (h : f.Parsed) (hc : Collection.ofFragment owner f = .ok c)
    {pos : Pos} {word : Text} (hname : (pos, word) ∈ f.tree.names)
    (hword : word.isReserved = true) : c.lookup? pos = none := by
  obtain ⟨params, body, hcode, hrefs, hsites⟩ := exists_outlined hc
  rw [Collection.lookup?, hrefs]
  -- The names of classes inside, and of methods that are called, are none of the outline.
  by_cases hplace : pos ∈ (body.outlineWith params).names.map Prod.fst
  · obtain ⟨⟨place, other⟩, hmem, rfl⟩ := List.mem_map.1 hplace
    obtain rfl := h.name_of_mem_outline hcode hname hmem
    rcases (Outline.resolves _ owner [] (h.nodup_names hcode) hmem).total with
      ⟨b, hb⟩ | ⟨-, hnone⟩
    · have hsite : b.site ∈ c.sites := hsites.mem_iff.2 (List.mem_map_of_mem hb.mem)
      exact absurd hb.reaches.1 ((h.isIdentifier_of_mem_sites hc hsite).ne hword)
    · exact hnone
  · exact Outline.lookup_refs_eq_none (n := (pos, word)) hplace owner []

/-- Everywhere in a parsed fragment the nodes obey their classes, and no name that is `this`,
`super` or the word for a primitive type denotes a variable. -/
theorem nodes_obey (h : f.Parsed) :
    (∀ label fields, (Tree.node label fields).Within f.tree → Tree.Obeys label fields) ∧
    ∀ owner c, Collection.ofFragment owner f = .ok c → ∀ n ∈ f.tree.names,
      n.2 = "this" ∨ n.2 = "super" ∨ n.2 ∈ primitiveNames → c.lookup? n.1 = none := by
  refine ⟨fun label fields hwithin => (hwithin.shaped h.shaped).1, ?_⟩
  intro owner c hc ⟨pos, word⟩ hname hword
  have hprimitive : ∀ word ∈ primitiveNames, word.isReserved = true := by decide
  refine h.lookup_reserved hc hname ?_
  rcases hword with rfl | rfl | hword
  · decide
  · decide
  · exact hprimitive word hword

/-- `{ int i = 0; this.f = i; }` -/
def assignedField : List Char := "\x7b int i = 0; this.f = i; \x7d".toList

/-- The target of the assignment can be written to, and `this` denotes nothing. -/
theorem nodes_obey_assignment : ∃ b c fields, Block.parse assignedField = .ok b ∧
    Collection.ofFragment "M" (.block b) = .ok c ∧
    (Tree.node Tree.NodeClass.assign.signature.1 fields).Within b.tree ∧
    (Tree.fieldOf fields "target").IsOf [.name, .fieldAccess, .index] ∧
    (⟨1, 14⟩, ("this" : Text)) ∈ b.tree.names ∧ c.lookup? ⟨1, 14⟩ = none := by
  obtain ⟨b, hb, hany⟩ := FlowGraph.exists_ok_of_any (x := Block.parse assignedField)
    (p := fun b => b.tree.names.contains (⟨1, 14⟩, "this") &&
      !(b.tree.nodesOf Tree.NodeClass.assign.signature.1).isEmpty)
    (by decide +kernel)
  simp only [Bool.and_eq_true, List.contains_iff_mem, Bool.not_eq_true',
    List.isEmpty_eq_false_iff_exists_mem] at hany
  obtain ⟨hname, fields, hfields⟩ := hany
  have hparsed : (Fragment.block b).Parsed := ⟨assignedField, _, .inr ⟨b, hb, .refl⟩⟩
  obtain ⟨hobey, hunbound⟩ := nodes_obey hparsed
  have hwithin := Tree.within_of_mem_nodesOf b.tree hfields
  exact ⟨b, _, fields, hb, rfl, hwithin, (hobey _ fields hwithin).of_class.2, hname,
    hunbound "M" _ rfl _ hname (.inl rfl)⟩

end Fragment

end WriteOnce
