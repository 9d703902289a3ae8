import WriteOnce.Grammar.Types
import WriteOnce.Proofs.ParallelParsing

/-!
# Types and parameters of changed tokens

The productions for types, modifiers and parameters go the same way on changed tokens. The other
productions are reached through a grammar whose productions do.
-/

namespace WriteOnce

variable {ρ : Recast} {whole s s₁ s' s₁' : TokenStream}

/-! ## Trees -/

theorem Text.coded_ofChars (cs : List Char) : (Text.ofChars cs).Coded := by
  intro code hcode
  obtain ⟨c, -, rfl⟩ := List.mem_map.1 hcode
  have hvalid := c.valid
  simp only [UInt32.isValidChar, Nat.isValidChar] at hvalid
  change c.val.toNat < _
  omega

theorem Text.coded_ofString (word : String) : (Text.ofString word).Coded := coded_ofChars _

theorem Text.coded_append {t u : Text} (ht : t.Coded) (hu : u.Coded) : (t ++ u).Coded := by
  intro code hcode
  exact (List.mem_append.1 hcode).elim (ht code) (hu code)

theorem Modifier.coded_word (m : Modifier) : m.word.Coded := by
  cases m <;> exact Text.coded_ofString _

theorem Modifier.uses_trees (ms : List Modifier) : (Modifier.trees ms).uses = [] := by
  rw [Modifier.trees, Tree.texts, Tree.uses]
  induction ms with
  | nil => rfl
  | cons m ms ih => exact ih

theorem Yields.modifiers (ms : List Modifier) (hs : s.Leaves s₁) :
    Yields ρ s s₁ (Modifier.trees ms) (Modifier.trees ms) := by
  have hitems : Tree.CodedItems (ms.map fun m => Tree.text m.word) := by
    induction ms with
    | nil => exact trivial
    | cons m ms ih => exact ⟨m.coded_word, ih⟩
  refine .leaf hs (Tree.recast_texts _).symm ?_ (Modifier.uses_trees ms)
  rw [Modifier.trees, Tree.texts, List.map_map]
  exact hitems

namespace TypeRef

theorem trees_eq_map (ts : List TypeRef) : TypeRef.trees ts = ts.map TypeRef.tree := by
  induction ts with
  | nil => rfl
  | cons t ts ih => rw [TypeRef.trees, ih, List.map_cons]

mutual

theorem uses_tree : (t : TypeRef) → t.tree.uses = []
  | ⟨pos, name, args, dims⟩ => by
    simp [TypeRef.tree, Tree.uses, Tree.usesFields, Tree.ownUses, uses_trees args]

theorem uses_trees : (ts : List TypeRef) → Tree.usesItems (TypeRef.trees ts) = []
  | [] => rfl
  | t :: ts => by rw [TypeRef.trees, Tree.usesItems, uses_tree t, uses_trees ts]; rfl

end

/-- What the tree of a type tells about it. -/
theorem of_tree {t u : TypeRef} (h : u.tree = t.tree.recast ρ) :
    u.pos = ρ.place t.pos ∧ u.name = t.name ∧
      TypeRef.trees u.args = Tree.recastItems ρ (TypeRef.trees t.args) ∧ u.dims = t.dims := by
  cases t
  cases u
  rw [TypeRef.tree, TypeRef.tree, Tree.recast_node (by simp)] at h
  simpa using h

end TypeRef

/-- A type with other brackets. -/
theorem Yields.withDims {t u : TypeRef} (h : Yields ρ s s₁ t.tree u.tree) (dims : Nat)
    (hs : s'.Leaves s₁') :
    Yields ρ s' s₁' ({ t with dims := dims } : TypeRef).tree
      ({ u with dims := dims } : TypeRef).tree := by
  obtain ⟨hpos, hname, hargs, -⟩ := TypeRef.of_tree h.moved
  have hcoded := h.coded
  obtain ⟨pos, name, args, n⟩ := t
  obtain ⟨pos', name', args', n'⟩ := u
  cases hpos
  cases hname
  have hmoved : (⟨ρ.place pos, name, args', dims⟩ : TypeRef).tree =
      (⟨pos, name, args, dims⟩ : TypeRef).tree.recast ρ := by
    rw [TypeRef.tree, TypeRef.tree, hargs, Tree.recast_node (by simp)]
    rfl
  refine ⟨hmoved, hcoded, fun p => ?_⟩
  simpa [TypeRef.uses_tree] using hs.count_le p

/-! ## Productions -/

namespace Parser

/-- Members in one list. -/
def membersTree (ms : List Member) : Tree := .list (Member.trees ms)

/-- A grammar whose productions go the same way on changed tokens. -/
structure Steady (ρ : Recast) (whole : TokenStream) (g : Grammar) : Prop where
  typeRef : ∀ s, Follows ρ whole s g.typeRef g.typeRef (Reads ρ TypeRef.tree s)
  expr : ∀ s, Follows ρ whole s g.expr g.expr (Reads ρ Expr.tree s)
  conditional : ∀ s, Follows ρ whole s g.conditional g.conditional (Reads ρ Expr.tree s)
  unary : ∀ s, Follows ρ whole s g.unary g.unary (Reads ρ Expr.tree s)
  arrayLit : ∀ s, Follows ρ whole s g.arrayLit g.arrayLit
    (Reads ρ (fun e => (Expr.arrayLit e.1 e.2).tree) s)
  block : ∀ s, Follows ρ whole s g.block g.block (Reads ρ Block.tree s)
  stmt : ∀ s, Follows ρ whole s g.stmt g.stmt (Reads ρ Stmt.tree s)
  classBody : ∀ s className, Follows ρ whole s (g.classBody className) (g.classBody className)
    (Reads ρ membersTree s)
  classDecl : ∀ s pos modifiers, Follows ρ whole s (g.classDecl pos modifiers)
    (g.classDecl (ρ.place pos) modifiers) (Reads ρ ClassDecl.tree s)

end Parser

namespace Production

open WriteOnce.Parser

theorem follows_emptyBrackets :
    Follows ρ whole s emptyBrackets emptyBrackets fun s₁ x y =>
      Maybe (fun _ _ _ _ => True) s s₁ x y := by
  intro _
  simp only [emptyBrackets, TokenStream.sees_recast, TokenStream.next_recast,
    Token.reads_recast, mem_steeringWords, TokenStream.skip_recast]
  by_cases h : (s.sees "[" && s.next.text = "]") = true
  · rw [if_pos h, if_pos h]
    exact .ok ⟨s.leaves_skip 2, .some trivial⟩
  · rw [if_neg h, if_neg h]
    exact .ok ⟨.refl s, .none (.refl s)⟩

theorem follows_dims : Follows ρ whole s dims dims fun _ m n => n = m := by
  refine (Follows.many fun s₁ _ => follows_emptyBrackets).bind ?_
  intro s₁ xs ys _ h
  exact .pure h.length_eq

theorem modifier?_recast (t : Token) : modifier? (t.recast ρ) = modifier? t := by
  have hword : ∀ m : Modifier, decide (m.word = (t.recast ρ).text) = decide (m.word = t.text) := by
    intro m
    rw [decide_eq_decide, eq_comm, t.reads_recast m.word_mem, eq_comm]
  simp only [modifier?, Token.isIdent_recast, hword]

theorem follows_nextModifier (ms : List Modifier) :
    Follows ρ whole s (nextModifier ms) (nextModifier ms) fun _ x y => y = x := by
  intro _
  simp only [nextModifier, TokenStream.current_recast, TokenStream.next_recast,
    Token.reads_recast, mem_steeringWords, Token.isIdent_recast, TokenStream.skip_recast,
    modifier?_recast]
  by_cases h : (s.current.text = "@" && s.next.isIdent) = true
  · rw [if_pos h, if_pos h]
    have hrest :
        ({ s.recast ρ with ahead := Lookahead.skipModifiers (s.recast ρ).ahead } : TokenStream) =
          ({ s with ahead := Lookahead.skipModifiers s.ahead } : TokenStream).recast ρ := by
      simp [TokenStream.recast]
    rw [hrest]
    exact .ok ⟨⟨Lookahead.skipModifiers_suffix s.ahead, rfl⟩, rfl⟩
  · rw [if_neg h, if_neg h]
    cases modifier? s.current with
    | none => exact .ok ⟨.refl s, rfl⟩
    | some m => exact .ok ⟨s.leaves_skip 1, rfl⟩

theorem follows_modifiers : Follows ρ whole s modifiers modifiers fun _ ms ns => ns = ms := by
  refine Follows.iterate (R := fun _ ms ns => ns = ms) ?_ rfl
  rintro s₁ ms _ _ rfl
  refine (follows_nextModifier _).imp ?_
  rintro s₂ x _ _ rfl
  exact ⟨rfl, rfl⟩

/-- Type arguments in one list. -/
def typesTree (ts : List TypeRef) : Tree := .list (ts.map TypeRef.tree)

/-- Parameters in one list. -/
def paramsTree (ps : List Param) : Tree := .list (ps.map Param.tree)

/-- There are no lambdas in parameters. -/
theorem not_lambda_paramsTree (ps : List Param) (pos : Pos) :
    (pos, .lambda) ∉ (paramsTree ps).uses := by
  change _ ∉ Tree.usesItems (ps.map Param.tree)
  induction ps with
  | nil => exact List.not_mem_nil
  | cons p ps ih =>
    have htype : (Tree.option TypeRef.tree p.type).uses = [] := by
      cases p.type with
      | none => rfl
      | some type => exact type.uses_tree
    have hmodifiers : (Modifier.trees p.modifiers).uses = [] := Modifier.uses_trees p.modifiers
    rw [List.map_cons, Tree.usesItems, List.mem_append, not_or]
    refine ⟨?_, ih⟩
    simp [Param.tree, Tree.uses, Tree.usesFields, Tree.ownUses, Tree.ownName, htype, hmodifiers]

variable {g : Grammar} (hw : Readable ρ whole) (hg : Steady ρ whole g)

include hg

theorem follows_typeArg : Follows ρ whole s (typeArg g) (typeArg g) (Reads ρ TypeRef.tree s) := by
  refine .placing fun pos _ => .accepting "?" fun s₁ found hs₁ => .ite (fun _ => ?_) fun _ => ?_
  · refine .seeing "extends" fun found => .seeing "super" fun found' => ?_
    refine .ite (fun _ => ?_) fun _ => ?_
    · refine .skipping 1 fun s₂ hs₂ => (hg.typeRef s₂).bind ?_
      intro s₃ t u hs₃ h
      refine .pure (.pass (hs₁.trans hs₂) ?_)
      exact .placed pos (.cons (.text (Text.coded_ofString "?") (.refl s₂))
        (.cons (.list (.cons h (.nil (.refl s₃))))
          (.cons (.number 0 (.refl s₃)) (.nil (.refl s₃))))) (by simp)
    · refine .pure (.pass hs₁ ?_)
      exact .placed pos (.cons (.text (Text.coded_ofString "?") (.refl s₁))
        (.cons (.list (.nil (.refl s₁))) (.cons (.number 0 (.refl s₁)) (.nil (.refl s₁)))))
        (by simp)
  · exact (hg.typeRef s₁).imp fun s₂ t u hs₂ h => h.pass hs₁

include hw

theorem follows_typeArgs :
    Follows ρ whole s (typeArgs g) (typeArgs g) (Reads ρ typesTree s) := by
  refine .accepting "<" fun s₁ found hs₁ => .ite (fun _ => ?_) fun _ => .pure (.list (.nil hs₁))
  refine .accepting ">" fun s₂ found' hs₂ => .ite (fun _ => ?_) fun _ => ?_
  · exact .pure (.list (.nil (hs₁.trans hs₂)))
  · refine (follows_separatedBy "," fun _ _ => follows_typeArg hg).bind ?_
    intro s₃ ts us hs₃ h
    refine .closing hw ">" fun s₄ hs₄ => .pure ?_
    exact .left (.pass (hs₁.trans hs₂) (.list h.items)) hs₄

/-- Names with type arguments, as they are extended part by part. -/
def ReadsNamed (ρ : Recast) (s s₁ : TokenStream) (a b : Text × List TypeRef) : Prop :=
  b.1 = a.1 ∧ a.1.Coded ∧ Reads ρ typesTree s s₁ a.2 b.2

theorem follows_qualify {s' : TokenStream} {a b : Text × List TypeRef} (hs : s'.Leaves s)
    (h : ReadsNamed ρ s' s a b) :
    Follows ρ whole s (qualify g a) (qualify g b) fun s₁ x y =>
      x.isSome = y.isSome ∧ ReadsNamed ρ s' s₁ (x.getD a) (y.getD b) := by
  obtain ⟨_, args⟩ := a
  obtain ⟨name, args'⟩ := b
  obtain ⟨rfl, hname, hargs⟩ := h
  refine .looking (by simp) fun more hmore => .ite (fun hnext => ?_) fun _ =>
    .pure ⟨rfl, rfl, hname, hargs⟩
  subst hmore
  refine (follows_skip 1).bind ?_
  rintro _ - - hs₁ rfl
  refine .taking hw fun s₂ hs₂ ht => ?_
  refine (follows_typeArgs hw hg).bind fun s₃ ts us hs₃ h => .pure ?_
  have hident : (s.skip 1).current.isIdent = true := by
    rw [s.current_skip_one]
    exact (Bool.and_eq_true_iff.1 hnext).2
  refine ⟨rfl, ?_, ?_, h.pass (hs.trans (hs₁.trans hs₂))⟩
  · exact congrArg (name ++ "." ++ ·) (Token.text_recast_ident hident)
  · exact Text.coded_append (Text.coded_append hname (Text.coded_ofString ".")) ht

theorem follows_typeRef :
    Follows ρ whole s (typeRef g) (typeRef g) (Reads ρ TypeRef.tree s) := by
  refine .atCurrent hw fun t ht _ => ?_
  simp only [Token.isIdent_recast, t.mem_recast primitiveNames_subset]
  refine .ite (fun hprimitive => ?_) fun _ => .ite (fun hident => ?_) fun _ => ?_
  · have htext : (t.recast ρ).text = t.text :=
      Token.text_recast_mem (primitiveNames_subset
        (of_decide_eq_true (Bool.and_eq_true_iff.1 hprimitive).1))
    refine .skipping 1 fun s₁ hs₁ => follows_dims.bind ?_
    rintro s₂ _ n hs₂ rfl
    exact .pure (.placed t.pos (.cons (.word htext ht hs₁) (.cons (.list (.nil hs₂))
      (.cons (.number n (.refl s₂)) (.nil (.refl s₂))))) (by simp))
  · refine .skipping 1 fun s₁ hs₁ => (follows_typeArgs hw hg).bind fun s₂ ts us hs₂ hargs => ?_
    have hnamed : ReadsNamed ρ s₁ s₂ (t.text, ts) ((t.recast ρ).text, us) :=
      ⟨Token.text_recast_ident hident, ht, hargs⟩
    refine (Follows.iterate (R := fun s₃ a b => s₁.Leaves s₃ ∧ ReadsNamed ρ s₁ s₃ a b) ?_
      ⟨hs₂, hnamed⟩).bind ?_
    · rintro s₃ a b hs₃ ⟨hleft, h⟩
      refine (follows_qualify hw hg hleft h).imp fun s₄ x y hs₄ hxy => ?_
      exact ⟨hxy.1, hleft.trans hs₄, hxy.2⟩
    · rintro s₃ ⟨name, args⟩ ⟨_, args'⟩ hs₃ ⟨-, rfl, hname, hargs⟩
      refine follows_dims.bind ?_
      rintro s₄ _ n hs₄ rfl
      refine .pure (.pass hs₁ ?_)
      refine .placed t.pos (.cons (.text hname (.refl s₁)) (.cons ?_
        (.cons (.number n hs₄) (.nil (.refl s₄))))) (by simp)
      rw [TypeRef.trees_eq_map, TypeRef.trees_eq_map]
      exact hargs
  · exact follows_failWith _

theorem follows_param : Follows ρ whole s (param g) (param g) (Reads ρ Param.tree s) := by
  refine follows_modifiers.bind ?_
  rintro s₁ _ ms hs₁ rfl
  refine (follows_typeRef hw hg).bind fun s₂ type type' hs₂ htype => ?_
  refine .accepting "..." fun s₃ varargs hs₃ => .naming hw fun s₄ t hs₄ ht htext htaken => ?_
  refine follows_dims.bind ?_
  rintro s₅ _ more hs₅ rfl
  refine .pure (.pass (hs₁.trans (hs₂.trans hs₃)) (.declaring (by simp) htaken rfl ?_))
  obtain ⟨-, -, -, hdims⟩ := TypeRef.of_tree htype.moved
  rw [hdims]
  exact .cons (.modifiers ms (.refl s₄)) (.cons (htype.withDims _ (.refl s₄))
    (.cons (.word htext ht (.refl s₄)) (.cons (.flag varargs hs₅) (.nil (.refl s₅)))))

theorem follows_paramList :
    Follows ρ whole s (paramList g) (paramList g) (Reads ρ paramsTree s) := by
  refine .seeing ")" fun found => .ite (fun _ => .pure (.list (.nil (.refl s)))) fun _ => ?_
  exact (follows_separatedBy "," fun _ _ => follows_param hw hg).imp fun s₁ ps qs _ h =>
    .list h.items

omit hg

theorem follows_inferredParam :
    Follows ρ whole s inferredParam inferredParam fun s₁ p q =>
      Reads ρ Param.tree s s₁ p q ∧ s.Passes s₁ := by
  refine .naming hw fun s₁ t hs₁ ht htext htaken =>
    .pure ⟨.declaring (by simp) htaken rfl ?_, TokenStream.passes_of_ahead htaken⟩
  exact .cons (.modifiers [] (.refl s₁)) (.cons (.absent (.refl s₁))
    (.cons (.word htext ht (.refl s₁)) (.cons (.flag false (.refl s₁)) (.nil (.refl s₁)))))

end Production

end WriteOnce
