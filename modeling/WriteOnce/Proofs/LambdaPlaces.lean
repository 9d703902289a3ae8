import WriteOnce.Proofs.Census
import WriteOnce.Proofs.FragmentPlaces
import WriteOnce.Proofs.Landmarks

/-!
# The places of lambdas

Every lambda of a parsed fragment begins at a token of its own, and so its place tells it from the
others. Among the routines of the fragment, a lambda comes behind the routine that creates it.
-/

namespace WriteOnce

open WriteOnce.Tree (Code)

/-! ## Places -/

namespace Tree

/-- Whether code is that of a lambda at this place. -/
def Code.isLambdaAt (pos : Pos) (c : Code) : Bool := c.site = ⟨"JLambda", pos⟩

variable {pos : Pos}

theorem count_ownCode (member : Tree) (label : Text) (fields : List (Text × Tree)) :
    (if isMember label ∨ label = "JLambda" then ownCode member label fields else []).countP
        (Code.isLambdaAt pos) ≤ (ownUses label fields).count (pos, .lambda) := by
  by_cases hlabel : label = "JLambda"
  · subst hlabel
    rw [if_pos (.inr rfl), ownUses, if_neg (by simp), if_pos rfl]
    unfold ownCode placedBody? ownLambda
    split
    · split <;> simp [Code.isLambdaAt, List.count_cons]
    · exact Nat.zero_le _
  · have hnone : ∀ c ∈ ownCode member label fields, ¬c.isLambdaAt pos = true := by
      intro c hc hat
      obtain ⟨⟨place, body⟩, -, rfl⟩ := List.mem_map.1 hc
      exact hlabel (congrArg Site.className (of_decide_eq_true hat))
    split_ifs
    · rw [List.countP_eq_zero.2 hnone]
      exact Nat.zero_le _
    · exact Nat.zero_le _

mutual

/-- Every lambda in a tree uses a token. -/
theorem count_code (pos : Pos) : (t around : Tree) →
    (t.code around).countP (Code.isLambdaAt pos) ≤ t.uses.count (pos, .lambda)
  | node label fields, around => by
    rw [code, uses, List.countP_append, List.count_append]
    exact Nat.add_le_add (count_ownCode _ label fields) (count_codeFields pos fields _)
  | list items, around => count_codeItems pos items around
  | place _, _ | text _, _ | number _, _ | flag _, _ | absent, _ => Nat.zero_le _

theorem count_codeFields (pos : Pos) : (fields : List (Text × Tree)) → (around : Tree) →
    (codeFields fields around).countP (Code.isLambdaAt pos) ≤
      (usesFields fields).count (pos, .lambda)
  | [], _ => Nat.zero_le _
  | (_, t) :: fields, around => by
    rw [codeFields, usesFields, List.countP_append, List.count_append]
    exact Nat.add_le_add (count_code pos t around) (count_codeFields pos fields around)

theorem count_codeItems (pos : Pos) : (items : List Tree) → (around : Tree) →
    (codeItems items around).countP (Code.isLambdaAt pos) ≤
      (usesItems items).count (pos, .lambda)
  | [], _ => Nat.zero_le _
  | t :: items, around => by
    rw [codeItems, usesItems, List.countP_append, List.count_append]
    exact Nat.add_le_add (count_code pos t around) (count_codeItems pos items around)

end

end Tree

/-- The lambdas of a block use tokens of its tree. -/
theorem Block.count_lambdas (b : Block) (pos : Pos) :
    (b.lambdas.map Prod.fst).count pos ≤ b.tree.uses.count (pos, .lambda) := by
  have hskips : Census.SkipsFields fun c => !c.inField && c.isLambdaAt pos := by
    intro c hc
    rw [Bool.and_eq_true, Bool.not_eq_true'] at hc
    exact hc.1
  have hblock := Census.count_block hskips .absent .empty b
  have hlambdas : Census.countLambdas (fun c => !c.inField && c.isLambdaAt pos) .absent b.lambdas =
      (b.lambdas.map Prod.fst).count pos := by
    rw [Census.countLambdas, List.count, List.countP_map, List.countP_map]
    refine List.countP_congr fun l _ => ?_
    have hfield : Code.inField (.ofLambda .absent l) = false := rfl
    rw [Function.comp_apply, hfield]
    simp [Code.isLambdaAt, Code.ofLambda]
  have hfewer : (b.tree.code .absent).countP (fun c => !c.inField && c.isLambdaAt pos) ≤
      (b.tree.code .absent).countP (Code.isLambdaAt pos) := by
    refine List.countP_mono_left fun c _ hc => ?_
    rw [Bool.and_eq_true] at hc
    exact hc.2
  have hcode := Tree.count_code pos b.tree .absent
  omega

namespace Fragment

variable {f : Fragment} {owner : Text} {c : Collection}

/-- The body of a fragment is part of its tree. -/
theorem exists_body (hc : Collection.ofFragment owner f = .ok c) :
    ∃ kind site params body, c = .ofBody owner kind site params body ∧ site.className ≠ "JLambda" ∧
      body.tree.Within f.tree := by
  cases f with
  | block b =>
    cases hc
    exact ⟨_, _, _, b, rfl, by simp, .refl⟩
  | program p => cases hc
  | member m =>
    cases m with
    | method pos modifiers result name params body =>
      cases body with
      | none => cases hc
      | some body =>
        cases hc
        refine ⟨_, _, _, body, rfl, by simp, ?_⟩
        exact .field (.tail _ (.tail _ (.tail _ (.tail _ (.tail _ (.head _)))))) .refl
    | «initializer» pos isStatic body =>
      cases hc
      refine ⟨_, _, _, body, rfl, by simp, ?_⟩
      exact .field (.tail _ (.tail _ (.head _))) .refl
    | field => cases hc
    | classDecl => cases hc

/-- The lambdas of a parsed fragment stand at different places. -/
theorem Parsed.nodup_lambdas (h : f.Parsed) (hc : Collection.ofFragment owner f = .ok c) :
    (c.closures.map fun r => r.site.pos).Nodup := by
  obtain ⟨source, s, htokens, huses⟩ := h.exists_tokens
  obtain ⟨kind, site, params, body, rfl, -, hwithin⟩ := exists_body hc
  have hplaces : (Collection.ofBody owner kind site params body).closures.map
      (fun r => r.site.pos) = body.lambdas.map Prod.fst := by
    have hcode := congrArg (List.map fun code : Site × LambdaBody => code.1.pos)
      (Collection.closures_ofBody owner kind site params body).1
    rw [List.map_map, List.map_map] at hcode
    exact hcode
  have htaken : (body.lambdas.map Prod.fst).Subperm s.places := by
    refine List.subperm_ext_iff.2 fun pos _ => ?_
    rw [TokenStream.count_places]
    exact (body.count_lambdas pos).trans (hwithin.count_uses.trans (huses (pos, .lambda)))
  obtain ⟨places, hperm, hsublist⟩ := htaken
  rw [hplaces]
  apply hperm.nodup_iff.1
  exact ((Program.pairwise_places htokens).imp Pos.Past.ne).sublist hsublist

/-- The code of a parsed fragment tells its routines apart. -/
theorem Parsed.nodup_codes (h : f.Parsed) (hc : Collection.ofFragment owner f = .ok c) :
    (c.routines.map Routine.code).Nodup := by
  have hplaces := h.nodup_lambdas hc
  obtain ⟨kind, site, params, body, rfl, hsite, -⟩ := exists_body hc
  rw [Collection.routines, List.map_cons, List.nodup_cons]
  constructor
  · rw [(Collection.closures_ofBody owner kind site params body).1]
    intro hroot
    obtain ⟨l, -, hl⟩ := List.mem_map.1 hroot
    exact hsite (congrArg (fun code : Site × LambdaBody => code.1.className) hl).symm
  · refine List.Nodup.of_map (fun code : Site × LambdaBody => code.1.pos) ?_
    rw [List.map_map]
    exact hplaces

end Fragment

/-! ## Lambdas in their surroundings -/

/-- The code of a body and of all lambdas in it, the body first. -/
def LambdaBody.codes (site : Site) (body : LambdaBody) : List (Site × LambdaBody) :=
  (site, body) :: body.lambdas.map PlacedBody.code

theorem LambdaBody.lambdas_sublist {body : LambdaBody} {l : PlacedBody}
    (h : .lambda l ∈ body.landmarks) : (l :: l.2.lambdas).Sublist body.lambdas := by
  rw [body.lambdas_eq, List.flatMap]
  exact List.sublist_flatten_of_mem (List.mem_map_of_mem h)

theorem LambdaBody.codes_sublist {body : LambdaBody} {l : PlacedBody}
    (h : .lambda l ∈ body.landmarks) (site : Site) :
    (l.2.codes ⟨"JLambda", l.1⟩).Sublist (body.codes site) :=
  ((lambdas_sublist h).map PlacedBody.code).cons _

theorem LambdaBody.length_lambdas_lt {body : LambdaBody} {l : PlacedBody}
    (h : .lambda l ∈ body.landmarks) : l.2.lambdas.length < body.lambdas.length :=
  (lambdas_sublist h).length_le

theorem LambdaBody.exists_landmark {body : LambdaBody} {inner : PlacedBody}
    (h : inner ∈ body.lambdas) : ∃ l, .lambda l ∈ body.landmarks ∧ inner ∈ l :: l.2.lambdas := by
  rw [body.lambdas_eq] at h
  obtain ⟨m, hm, hinner⟩ := List.mem_flatMap.1 h
  cases m with
  | loop => cases hinner
  | lambda l => exact ⟨l, hm, hinner⟩

/-- What a body creates comes behind it, wherever the body itself stands. -/
theorem LambdaBody.pair_sublist (site : Site) (body : LambdaBody) {code : Site × LambdaBody}
    (hcode : code ∈ body.codes site) {l : PlacedBody} (hl : .lambda l ∈ code.2.landmarks) :
    [code, l.code].Sublist (body.codes site) := by
  rcases List.mem_cons.1 hcode with rfl | hcode
  · have hmem : l ∈ body.lambdas := (lambdas_sublist hl).subset (.head _)
    exact (List.singleton_sublist.2 (List.mem_map_of_mem hmem)).cons_cons _
  · obtain ⟨inner, hinner, rfl⟩ := List.mem_map.1 hcode
    obtain ⟨outer, houter, hinner⟩ := exists_landmark hinner
    have hmem : inner.code ∈ outer.2.codes ⟨"JLambda", outer.1⟩ := List.mem_map_of_mem hinner
    have hlt := length_lambdas_lt houter
    exact (pair_sublist _ outer.2 hmem hl).trans (codes_sublist houter site)
termination_by body.lambdas.length

/-- Every lambda is created by the body or by another lambda in it. -/
theorem LambdaBody.exists_around (site : Site) (body : LambdaBody) {l : PlacedBody}
    (h : l ∈ body.lambdas) : ∃ code ∈ body.codes site, .lambda l ∈ code.2.landmarks := by
  obtain ⟨outer, houter, hinner⟩ := exists_landmark h
  rcases List.mem_cons.1 hinner with rfl | hinner
  · exact ⟨_, .head _, houter⟩
  · have hlt := length_lambdas_lt houter
    obtain ⟨code, hcode, hlandmark⟩ := exists_around ⟨"JLambda", outer.1⟩ outer.2 hinner
    exact ⟨code, (codes_sublist houter site).subset hcode, hlandmark⟩
termination_by body.lambdas.length

end WriteOnce
