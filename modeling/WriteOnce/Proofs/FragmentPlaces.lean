import WriteOnce.Proofs.Caching
import WriteOnce.Proofs.MovedLists
import WriteOnce.Proofs.ProgramVariables
import WriteOnce.Proofs.RoutineParts

/-!
# The places of a fragment

A fragment of a parsed source declares its variables at different places. The place of a
declaration therefore leads to the variable that is declared there, which belongs to the routine
of the declaration.
-/

namespace WriteOnce

namespace Tree

variable {t u : Tree} {e : Pos × Use}

theorem count_of_mem_fields {name : Text} {fields : List (Text × Tree)} (h : (name, u) ∈ fields) :
    u.uses.count e ≤ (usesFields fields).count e := by
  induction fields with
  | nil => cases h
  | cons field fields ih =>
    obtain ⟨other, t⟩ := field
    rw [usesFields, List.count_append]
    rcases List.mem_cons.1 h with heq | h
    · cases heq
      omega
    · have := ih h
      omega

theorem count_of_mem_items {items : List Tree} (h : u ∈ items) :
    u.uses.count e ≤ (usesItems items).count e := by
  induction items with
  | nil => cases h
  | cons item items ih =>
    rw [usesItems, List.count_append]
    rcases List.mem_cons.1 h with rfl | h
    · omega
    · have := ih h
      omega

/-- A part of a tree uses no more than the tree. -/
theorem Within.count_uses (h : t.Within u) : t.uses.count e ≤ u.uses.count e := by
  induction h with
  | refl => exact Nat.le_refl _
  | field hmem _ ih =>
    apply Nat.le_trans (Nat.le_trans ih (count_of_mem_fields hmem))
    rw [uses, List.count_append]
    exact Nat.le_add_left _ _
  | item hmem _ ih => exact Nat.le_trans ih (count_of_mem_items hmem)

end Tree

namespace Collection

/-- The variables of a fragment are declared in its tree. -/
theorem count_ofFragment {label : Text} {f : Fragment} {c : Collection}
    (h : ofFragment label f = .ok c) (e : Pos × Text) :
    (c.sites.map nameAt).count e ≤ f.tree.declared.count e := by
  cases f with
  | block b =>
    cases h
    obtain ⟨pos, stmts⟩ := b
    obtain ⟨context, env, hnames⟩ := names_ofBody label .initializer ⟨"JBlock", pos⟩ []
      ⟨pos, stmts⟩
    have hstmts := count_walkStmts e context env label stmts
    have hbody : (ofBlock label ⟨pos, stmts⟩).sites.map nameAt = _ := hnames
    simp [hbody, Fragment.tree, Block.tree, Tree.declared,
      Tree.declaredFields] at hstmts ⊢
    omega
  | program p => cases h
  | member m =>
    cases m with
    | method pos modifiers result name params body =>
      cases body with
      | none => cases h
      | some body =>
        cases h
        obtain ⟨inner, stmts⟩ := body
        obtain ⟨context, env, hnames⟩ := names_ofBody label .methodBody ⟨"JMethodDecl", pos⟩ params
          ⟨inner, stmts⟩
        have hparams := @count_params e params
        have hstmts := count_walkStmts e context env label stmts
        simp [hnames, Fragment.tree, Member.tree, Block.treeOption, Block.tree, Tree.declared,
          Tree.declaredFields] at hstmts ⊢
        omega
    | «initializer» pos isStatic body =>
      cases h
      obtain ⟨inner, stmts⟩ := body
      obtain ⟨context, env, hnames⟩ := names_ofBody label .initializer ⟨"JInitializer", pos⟩ []
        ⟨inner, stmts⟩
      have hstmts := count_walkStmts e context env label stmts
      simp [hnames, Fragment.tree, Member.tree, Block.tree, Tree.declared,
        Tree.declaredFields] at hstmts ⊢
      omega
    | field => cases h
    | classDecl => cases h

end Collection

namespace Fragment

variable {f : Fragment} {owner : Text} {c : Collection}

/-- A fragment uses no token of the source twice. -/
theorem Parsed.exists_tokens (h : f.Parsed) :
    ∃ source s, tokenize source = .ok s ∧ ∀ e, f.tree.uses.count e ≤ s.uses.count e := by
  have hbelow : ∀ {source : List Char} {depth : Nat} {α : Type} {view : α → Tree}
      {p : Grammar → Parser α} {a : α}, SteadyParser view p → parseWith p depth source = .ok a →
        f.tree.Within (view a) →
        ∃ s, tokenize source = .ok s ∧ ∀ e, f.tree.uses.count e ≤ s.uses.count e := by
    intro source depth α view p a hp hparse hwithin
    cases htokens : tokenize source with
    | error e =>
      unfold parseWith at hparse
      rw [htokens] at hparse
      cases hparse
    | ok s =>
      obtain ⟨-, huses⟩ := hp.uses_of_tokens htokens hparse
      exact ⟨s, rfl, fun e => hwithin.count_uses.trans (huses e)⟩
  obtain ⟨source, depth, ⟨p, hp, hwithin⟩ | ⟨b, hb, hwithin⟩⟩ := h
  · exact ⟨source, hbelow steady_program hp hwithin⟩
  · exact ⟨source, hbelow steady_wholeBlock hb hwithin⟩

theorem Parsed.nodup_sites (h : f.Parsed) (hc : Collection.ofFragment owner f = .ok c) :
    (c.sites.map Prod.fst).Nodup := by
  obtain ⟨source, s, htokens, huses⟩ := h.exists_tokens
  have hsites : (c.sites.map nameAt).Subperm s.names := by
    refine List.subperm_ext_iff.2 fun ⟨pos, name⟩ _ => ?_
    rw [TokenStream.count_names]
    refine (Collection.count_ofFragment hc (pos, name)).trans ?_
    exact (f.tree.count_declared pos name).trans (huses (pos, .name name))
  obtain ⟨names, hperm, hsublist⟩ := hsites
  have hperm := hperm.map Prod.fst
  have hsublist := hsublist.map Prod.fst
  rw [List.map_map] at hperm
  rw [TokenStream.names, List.map_map] at hsublist
  apply hperm.nodup_iff.1
  exact ((Program.pairwise_places htokens).imp Pos.Past.ne).sublist hsublist

/-- Declarations find the variables of the routine that they stand in. -/
theorem Parsed.declared_places (h : f.Parsed) (hc : Collection.ofFragment owner f = .ok c)
    {r : Routine} (hr : r ∈ c.routines) :
    r.params ⊆ r.vars ∧ ∀ pos ∈ r.body.places, ∃ v ∈ r.vars, c.declared? pos = some v := by
  have hnodup := h.nodup_sites hc
  obtain ⟨kind, site, params, body, rfl⟩ := Collection.exists_ofBody hc
  have hhoused := (Collection.housed_ofBody owner kind site params body).2 r hr
  refine ⟨hhoused.params, fun pos hpos => ?_⟩
  obtain ⟨v, hv, hsite⟩ := hhoused.places pos hpos
  exact ⟨v, hv, lookup_eq_some_of_nodup hnodup hsite⟩

end Fragment

end WriteOnce
