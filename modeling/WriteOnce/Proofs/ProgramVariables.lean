import WriteOnce.Proofs.DeclaredPlaces
import WriteOnce.Proofs.Gathering
import WriteOnce.Proofs.ParsedSources

/-!
# The variables of a program

A program has the variables that its members declare. In what was parsed each of them stands
at a token of its own, which is its name, so that no two stand at the same place.
-/

namespace WriteOnce

variable {source : List Char} {depth : Nat} {s : TokenStream} {p : Program}

namespace Variable

/-- Where the variable is declared. -/
def place (v : Variable) : Pos := ⟨v.line.toNat, v.col.toNat⟩

def named (v : Variable) : Pos × Text := (v.place, v.name)

end Variable

namespace OwnedMember

/-- The places at which a member declares variables, with the variables. -/
def sites (m : OwnedMember) : List (Pos × Variable) :=
  match Collection.ofMember m.owner m.member with
  | .ok c => c.sites
  | .error _ => []

/-- The variables that a member declares. -/
def vars (m : OwnedMember) : List Variable := m.sites.map Prod.snd

theorem place_of_mem_sites {m : OwnedMember} {e : Pos × Variable} (he : e ∈ m.sites) :
    e.2.line = e.1.line ∧ e.2.col = e.1.col := by
  unfold sites at he
  cases hc : Collection.ofMember m.owner m.member with
  | error =>
    rw [hc] at he
    cases he
  | ok c =>
    rw [hc] at he
    exact (Collection.gathers_ofFragment (f := .member m.member) hc).1 e he

theorem map_named_vars (m : OwnedMember) : m.vars.map Variable.named = m.names := by
  have hnames : m.names = m.sites.map nameAt := by
    unfold sites names
    cases Collection.ofMember m.owner m.member <;> rfl
  rw [hnames, vars, List.map_map]
  refine List.map_congr_left fun e he => ?_
  obtain ⟨hline, hcol⟩ := place_of_mem_sites he
  simp only [Function.comp, Variable.named, nameAt, Variable.place, hline, hcol, Int.toNat_natCast]

theorem line_of_mem_vars {m : OwnedMember} {v : Variable} (hv : v ∈ m.vars) :
    v.line = v.place.line ∧ v.col = v.place.col := by
  obtain ⟨e, he, rfl⟩ := List.mem_map.1 hv
  obtain ⟨hline, hcol⟩ := place_of_mem_sites he
  simp only [Variable.place, hline, hcol, Int.toNat_natCast, and_self]

/-- The routines of a member: its body, and the lambdas in it. -/
def routines (m : OwnedMember) : List Routine :=
  match Collection.ofMember m.owner m.member with
  | .ok c => c.routines
  | .error _ => []

/-- The routines of a member share out its variables. -/
theorem perm_routines (m : OwnedMember) : (m.routines.flatMap Routine.vars).Perm m.vars := by
  unfold routines vars sites
  cases hc : Collection.ofMember m.owner m.member with
  | error => exact .nil
  | ok c => exact Collection.shares_ofFragment (f := .member m.member) hc

end OwnedMember

namespace Program

/-- All variables of a program. -/
def vars (p : Program) : List Variable := p.ownedMembers.flatMap OwnedMember.vars

theorem map_named_vars (p : Program) :
    p.vars.map Variable.named = p.ownedMembers.flatMap OwnedMember.names := by
  unfold vars
  rw [List.map_flatMap]
  exact List.flatMap_congr fun m _ => m.map_named_vars

theorem place_of_mem_vars {v : Variable} (hv : v ∈ p.vars) :
    v.line = v.place.line ∧ v.col = v.place.col := by
  obtain ⟨m, -, hv⟩ := List.mem_flatMap.1 hv
  exact OwnedMember.line_of_mem_vars hv

/-- Every variable is declared at a token of its own, which is its name. -/
theorem named_subperm (htokens : tokenize source = .ok s) (h : Program.parse source depth = .ok p) :
    (p.vars.map Variable.named).Subperm s.names := by
  have hdeclared := (steady_program.of_tokens htokens h).2
  rw [map_named_vars]
  refine List.Subperm.trans (List.subperm_ext_iff.2 fun e _ => ?_) hdeclared
  exact p.count_ownedMembers e

theorem places_subperm (htokens : tokenize source = .ok s)
    (h : Program.parse source depth = .ok p) :
    (p.vars.map Variable.place).Subperm s.places := by
  obtain ⟨names, hperm, hsublist⟩ := named_subperm htokens h
  have hperm := hperm.map Prod.fst
  have hsublist := hsublist.map Prod.fst
  rw [List.map_map] at hperm
  rw [TokenStream.names, List.map_map] at hsublist
  exact ⟨_, hperm, hsublist⟩

theorem pairwise_places (htokens : tokenize source = .ok s) :
    s.places.Pairwise (Pos.Past 1) :=
  (List.pairwise_append.1 (inOrder_tokenize htokens).pairwise).1

/-- No two variables are declared at the same place. -/
theorem nodup_places (htokens : tokenize source = .ok s) (h : Program.parse source depth = .ok p) :
    (p.vars.map Variable.place).Nodup := by
  obtain ⟨places, hperm, hsublist⟩ := places_subperm htokens h
  apply hperm.nodup_iff.1
  exact ((pairwise_places htokens).imp Pos.Past.ne).sublist hsublist

/-- What is parsed has tokens. -/
theorem exists_tokens (h : Program.parse source depth = .ok p) : ∃ s, tokenize source = .ok s := by
  unfold Program.parse parseWith at h
  cases htokens : tokenize source with
  | error e =>
    rw [htokens] at h
    cases h
  | ok s => exact ⟨s, rfl⟩

end Program

end WriteOnce
