import WriteOnce.Proofs.CountClass

/-!
# Counts of all variables

The counts in front of a node hold one mask for each variable of the graph. Read as
a function from variables to masks, they are passed through a node and united
variable by variable.
-/

namespace WriteOnce

open FlowGraph

namespace Counts

/-- The mask of a variable in counts that follow the order of `vars`. -/
def maskOf (vars : List Variable) (c : Counts) (v : Variable) : Mask :=
  ((vars.zip c).lookup v).getD .zero

theorem maskOf_map (vars : List Variable) (f : Variable → Mask) (v : Variable) :
    maskOf vars (vars.map f) v = if v ∈ vars then f v else .zero := by
  unfold maskOf
  induction vars with
  | nil => rfl
  | cons w ws ih =>
    rw [List.map_cons, List.zip_cons_cons, List.lookup_cons]
    by_cases h : v = w
    · simp [h]
    · simp only [beq_eq_false_iff_ne.2 h, List.mem_cons, h, false_or]
      exact ih

/-- Counts that give every variable of the list a proper mask. -/
structure Fits (vars : List Variable) (c : Counts) : Prop where
  proper : ∀ v, (maskOf vars c v).Proper
  eq_map : c = vars.map (maskOf vars c)

variable {vars : List Variable} {a b c : Counts}

theorem maskOf_of_not_mem (hc : Fits vars c) {v : Variable} (hv : v ∉ vars) :
    maskOf vars c v = .zero := by
  rw [hc.eq_map, maskOf_map, if_neg hv]

/-- Counts made from proper masks, where variables outside the list have none but zero. -/
theorem fits_map {f : Variable → Mask} (hf : ∀ v, (f v).Proper) (hz : ∀ v ∉ vars, f v = .zero) :
    Fits vars (vars.map f) ∧ maskOf vars (vars.map f) = f := by
  have h : maskOf vars (vars.map f) = f := by
    funext v
    rw [maskOf_map]
    split_ifs with hv
    · rfl
    · exact (hz v hv).symm
  exact ⟨⟨fun v => by rw [h]; exact hf v, by rw [h]⟩, h⟩

theorem Fits.ext (ha : Fits vars a) (hb : Fits vars b)
    (h : ∀ v, maskOf vars a v = maskOf vars b v) : a = b := by
  rw [ha.eq_map, hb.eq_map, funext h]

theorem fits_union (ha : Fits vars a) (hb : Fits vars b) :
    Fits vars (a.union b) ∧
      ∀ v, maskOf vars (a.union b) v = (maskOf vars a v).union (maskOf vars b v) := by
  have h : a.union b = vars.map fun v => (maskOf vars a v).union (maskOf vars b v) := by
    conv_lhs => rw [ha.eq_map, hb.eq_map]
    simp [union, List.zipWith_map, List.zipWith_self]
  obtain ⟨hfit, hmask⟩ := fits_map (f := fun v => (maskOf vars a v).union (maskOf vars b v))
    (fun v => (ha.proper v).union (hb.proper v))
    (fun v hv => by rw [maskOf_of_not_mem ha hv, maskOf_of_not_mem hb hv]; rfl)
  rw [h]
  exact ⟨hfit, fun v => congrFun hmask v⟩

theorem has_maskOf_union (ha : Fits vars a) (hb : Fits vars b) (v : Variable) (k : CountClass) :
    (maskOf vars (a.union b) v).has k ↔ (maskOf vars a v).has k ∨ (maskOf vars b v).has k := by
  rw [(fits_union ha hb).2, (ha.proper v).has_union (hb.proper v), Bool.or_eq_true]

end Counts

open Counts

variable {g : FlowGraph}

namespace FlowGraph

theorem Node.behind_of_not_mem {n : Node} (hn : n ∈ g.nodes) {v : Variable} (hv : v ∉ g.vars)
    (m : Mask) : n.behind v m = m := by
  have hb : ∀ b ∈ n.binds, b.var ≠ v := by
    rintro b hb rfl
    exact hv (mem_vars_of_binds hn hb)
  have hw : ∀ w ∈ n.writes, w ≠ v := by
    rintro w hw rfl
    exact hv (mem_vars_of_writes hn hw)
  have rebound_eq : n.rebound v m = m := by
    unfold rebound
    generalize n.binds = bs at hb
    induction bs with
    | nil => rfl
    | cons b bs ih =>
      rw [List.foldl_cons, if_neg (hb b (by simp))]
      exact ih fun b' h => hb b' (by simp [h])
  unfold behind writtenBy
  rw [rebound_eq]
  generalize n.writes = ws at hw
  induction ws with
  | nil => rfl
  | cons w ws ih =>
    rw [List.foldl_cons, if_neg (hw w (by simp))]
    exact ih fun w' h => hw w' (by simp [h])

theorem Node.mem_vars_of_overwrites {n : Node} (hn : n ∈ g.nodes) {v : Variable} {m : Mask}
    (h : n.overwrites v m) : v ∈ g.vars := by
  by_contra hv
  have hw : v ∉ n.writes := fun hw => hv (mem_vars_of_writes hn hw)
  unfold overwrites at h
  generalize n.rebound v m = m at h
  generalize n.writes = ws at hw h
  induction ws generalizing m with
  | nil => simp [overwritesBy] at h
  | cons w ws ih =>
    obtain ⟨hne, hws⟩ := not_or.1 (fun h => hw (List.mem_cons.2 h))
    rw [overwritesBy, if_neg (Ne.symm hne)] at h
    exact ih m hws h

end FlowGraph

namespace Sweep

theorem fits_through {n : Node} (hn : n ∈ g.nodes) {c : Counts} (hc : Fits g.vars c) :
    Fits g.vars (through g.vars n c) ∧
      ∀ v, maskOf g.vars (through g.vars n c) v = n.behind v (maskOf g.vars c v) := by
  have h : through g.vars n c = g.vars.map fun v => n.behind v (maskOf g.vars c v) := by
    conv_lhs => rw [hc.eq_map]
    simp [through, List.zipWith_map_right, List.zipWith_self]
  obtain ⟨hfit, hmask⟩ := fits_map (f := fun v => n.behind v (maskOf g.vars c v))
    (fun v => n.proper_behind (hc.proper v) v)
    (fun v hv => by rw [Node.behind_of_not_mem hn hv, maskOf_of_not_mem hc hv])
  rw [h]
  exact ⟨hfit, fun v => congrFun hmask v⟩

theorem mem_found {n : Node} (hn : n ∈ g.nodes) {c : Counts} (hc : Fits g.vars c) {v : Variable}
    {id : Nat} :
    (v, id) ∈ found g.vars n c ↔ n.overwrites v (maskOf g.vars c v) ∧ n.id = id := by
  have hzip : g.vars.zip c = g.vars.map fun v => (v, maskOf g.vars c v) := by
    conv_lhs => rw [hc.eq_map]
    exact List.map_prod_left_eq_zip.symm
  simp only [found, hzip, List.mem_map, List.mem_filter, Prod.mk.injEq]
  constructor
  · rintro ⟨_, ⟨⟨w, _, rfl⟩, h⟩, rfl, rfl⟩
    exact ⟨h, rfl⟩
  · rintro ⟨h, rfl⟩
    exact ⟨_, ⟨⟨v, Node.mem_vars_of_overwrites hn h, rfl⟩, h⟩, rfl, rfl⟩

end Sweep

end WriteOnce
