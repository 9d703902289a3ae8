import WriteOnce.Proofs.Labels

/-!
# What the steps of drafting carry

A node that is emitted carries what is allowed behind it to the loose ends that are
tied to it. A loop carries what every round preserves, and nodes to which the code
behind them goes can be made before that code is drafted.
-/

namespace WriteOnce

open Execution

namespace FlowGraph

/-! ## Runs of drafting steps -/

theorem bind_eq_ok {m : Drafting α} {next : α → Drafting β} {d : Draft} {r : β × Draft} :
    (m >>= next) d = .ok r ↔ ∃ a d', m d = .ok (a, d') ∧ next a d' = .ok r := by
  change (m d >>= fun p => next p.1 p.2) = .ok r ↔ _
  cases h : m d with
  | error e => simp [bind, Except.bind]
  | ok p =>
    obtain ⟨a, d'⟩ := p
    simp [bind, Except.bind]

theorem pure_eq_ok {a : α} {d : Draft} {r : α × Draft} :
    (pure a : Drafting α) d = .ok r ↔ (a, d) = r :=
  ⟨fun h => Except.ok.inj h, fun h => congrArg Except.ok h⟩

theorem forM_connect (f : α → Edge) (xs : List α) (d : Draft) :
    (xs.forM fun x => connect (f x).source (f x).target (f x).kind) d =
      .ok ((), d.link (xs.map f)) := by
  induction xs generalizing d with
  | nil => rfl
  | cons x xs ih =>
    change (connect (f x).source (f x).target (f x).kind >>= fun _ => _) d = _
    rw [bind_eq_ok]
    refine ⟨(), _, rfl, (ih _).trans ?_⟩
    simp [Draft.link]

theorem tie_eq (ends : Frontier) (target : Nat) (d : Draft) : tie ends target d =
    .ok ((), d.link (ends.map fun e => ⟨e.source, target, e.kind⟩)) :=
  forM_connect (fun e : LooseEnd => ⟨e.source, target, e.kind⟩) ends d

theorem tieAs_eq (kind : EdgeKind) (ends : Frontier) (target : Nat) (d : Draft) :
    tieAs kind ends target d = .ok ((), d.link (ends.map fun e => ⟨e.source, target, kind⟩)) :=
  forM_connect (fun e : LooseEnd => ⟨e.source, target, kind⟩) ends d

/-- A draft with one more node, the loose ends tied to it and the node to where it raises. -/
def Draft.emitted (d : Draft) (n : Node) (ends : Frontier) (targets : List Nat) : Draft :=
  ((d.push n).link (ends.map fun e => ⟨e.source, n.id, e.kind⟩)).link
    (targets.map fun target => ⟨n.id, target, .exception⟩)

theorem emit_eq (s : Surroundings) (kind : NodeKind) (pos : Option Pos) (binds : List Binding)
    (writes : List Variable) (ends : Frontier) (d : Draft) :
    emit s kind pos binds writes ends d =
      .ok (d.size, d.emitted ⟨d.size, kind, pos, binds, writes⟩ ends (raiseTargets s kind)) := by
  unfold emit
  rw [bind_eq_ok]
  refine ⟨_, _, rfl, ?_⟩
  rw [bind_eq_ok]
  refine ⟨_, _, tie_eq .., ?_⟩
  rw [bind_eq_ok]
  exact ⟨_, _, forM_connect (fun target => ⟨d.size, target, .exception⟩) _ _, rfl⟩

theorem Draft.Tidy.emitted {d : Draft} (hd : d.Tidy) {n : Node} {ends : Frontier}
    {targets : List Nat} (hid : n.id = d.size) (hn : n.binds = [] ∨ n.writes = [])
    (hends : ends.Below d.size) (htargets : ∀ h ∈ targets, h < d.size) :
    d.Grows (d.emitted n ends targets) := by
  have hpush := hd.push hid hn
  have htie := hpush.after.link (ends.map fun e => ⟨e.source, n.id, e.kind⟩) (by
    simp only [List.forall_mem_map, hid]
    intro e he
    exact ⟨(hends e he).trans (Nat.lt_succ_self _), Nat.lt_succ_self _⟩)
  have hraise := htie.after.link (targets.map fun target => ⟨n.id, target, .exception⟩) (by
    simp only [List.forall_mem_map, hid]
    intro h hh
    exact ⟨Nat.lt_succ_self _, (htargets h hh).trans (Nat.lt_succ_self _)⟩)
  exact (hpush.trans htie).trans hraise

theorem Labels.closed_emitted {Y : Labels} {d : Draft} {n : Node} {ends : Frontier}
    {targets : List Nat} : Y.Closed (d.emitted n ends targets) ↔
      (Y.Closed d ∧ ∀ t ∈ Y.arrive n.id, t ++ n.trace ∈ Y.leave n.id) ∧
        Holds ends (Y.arrive n.id) Y.leave ∧ ∀ h ∈ targets, Y.leave n.id ⊆ Y.arrive h := by
  simp only [Draft.emitted, closed_link, closed_push, List.forall_mem_map, Holds, and_assoc]

/-- Labels for a node that is emitted. -/
theorem Labels.Closed.emitted {Y : Labels} {d : Draft} (hY : Y.Closed d) (hd : d.Tidy) {n : Node}
    {ends : Frontier} {targets : List Nat} (hid : n.id = d.size) (hends : ends.Below d.size)
    (htargets : ∀ h ∈ targets, h < d.size) {H L : Set Trace}
    (hnode : ∀ t ∈ H, t ++ n.trace ∈ L) (harrive : Holds ends H Y.leave)
    (hraise : ∀ h ∈ targets, L ⊆ Y.arrive h) :
    (Y.above ⟨fun _ => H, fun _ => L⟩ d.size).Closed (d.emitted n ends targets) := by
  have hagree := Y.agrees_above ⟨fun _ => H, fun _ => L⟩ d.size
  have hnew : (Y.above ⟨fun _ => H, fun _ => L⟩ d.size).arrive n.id = H ∧
      (Y.above ⟨fun _ => H, fun _ => L⟩ d.size).leave n.id = L := by
    simp [above, hid]
  refine closed_emitted.2 ⟨⟨hY.of_agrees hd hagree, ?_⟩, ?_, ?_⟩
  · rw [hnew.1, hnew.2]
    exact hnode
  · intro e he
    rw [hnew.1, (hagree _ (hends e he)).2]
    exact harrive e he
  · intro h hh
    rw [hnew.2, (hagree h (htargets h hh)).1]
    exact hraise h hh

theorem Labels.above_leave_subset {Y Z : Labels} {size : Nat} {C : Set Trace}
    (hY : ∀ i, Y.leave i ⊆ C) (hZ : ∀ i, Z.leave i ⊆ C) (i : Nat) :
    (Y.above Z size).leave i ⊆ C := by
  simp only [above]
  split_ifs
  · exact hY i
  · exact hZ i

namespace Carries

variable {rules : Rules} {K K' : Nat → Prop} {Q R : Outside} {A B C : Claim}
  {d d₁ d₂ d₃ : Draft} {n : Node} {ends : Frontier} {targets : List Nat}

/-- In front of a node is allowed what is allowed behind it once its events have happened, and
where the node raises exceptions to. -/
theorem emitted {P T : Set Trace} (hd : d.Tidy) (hid : n.id = d.size)
    (hn : n.binds = [] ∨ n.writes = []) (hends : ends.Below d.size)
    (hK : ∀ h, K h → h < d.size) (htargets : ∀ h ∈ targets, K h)
    (hin : ∀ t ∈ Q.cut, t ∈ P → t ++ n.trace ∈ T ∧ t ++ n.trace ∈ Q.cut ∧
      t ++ n.trace ∈ Aim.raises Q targets)
    (hout : ∀ t, t ++ n.trace ∈ T → t ++ n.trace ∈ Q.cut →
      t ++ n.trace ∈ Aim.raises Q targets → t ∈ P) :
    Carries rules K Q (Holds ends P) d (d.emitted n ends targets) (fun f => f n.id ⊆ T) where
  grows := hd.emitted hid hn hends fun h hh => hK h (htargets h hh)
  inside := hK
  precise _ Y hY hcut hKY hP := by
    let L : Set Trace := {t | t ∈ T ∧ t ∈ Q.cut ∧ t ∈ Aim.raises Q targets}
    let H : Set Trace := {t | t ++ n.trace ∈ L}
    have hLcut : L ⊆ Q.cut := fun t ht => ht.2.1
    refine ⟨_, Y.agrees_above ⟨fun _ => H, fun _ => L⟩ d.size, ?_, ?_, ?_⟩
    · refine hY.emitted hd hid hends (fun h hh => hK h (htargets h hh)) (fun t ht => ht) ?_ ?_
      · intro e he t ht
        exact hin t (hcut _ ht) (hP e he ht)
      · intro h hh t ht
        exact hKY h (htargets h hh) ⟨ht.2.2 h hh, ht.2.1⟩
    · exact Labels.above_leave_subset hcut fun _ => hLcut
    · intro t ht
      simp only [Labels.above, hid, lt_self_iff_false, if_false] at ht
      exact ht.1
  sound _ Y hY hcut hKY hT := by
    obtain ⟨⟨_, hnode⟩, hfront, hraise⟩ := Labels.closed_emitted.1 hY
    intro e he t ht
    have hleave : t ++ n.trace ∈ Y.leave n.id := hnode t (hfront e he ht)
    refine hout t (hT hleave) (hcut n.id ?_ hleave) ?_
    · rw [hid]
      exact Nat.lt_succ_self _
    · intro h hh
      exact hKY h (htargets h hh) (hraise h hh hleave)

/-- Loose ends are tied to a node in front. -/
theorem enter {es : List Edge} {h : Nat} (hd : d.Tidy) (hK : ∀ i, K i → i < d.size) (hh : K h)
    (hes : ∀ e ∈ es, e.source < d.size ∧ e.target = h) :
    Carries rules K Q (fun f => ∀ e ∈ es, f e.source ⊆ Q.enters h) d (d.link es)
      (fun _ => True) where
  grows := hd.link es fun e he => ⟨(hes e he).1, (hes e he).2 ▸ hK h hh⟩
  inside := hK
  precise _ Y hY hcut hKY hA := by
    refine ⟨Y, .refl Y _, Labels.closed_link.2 ⟨hY, fun e he t ht => ?_⟩, hcut, trivial⟩
    rw [(hes e he).2]
    exact hKY h hh ⟨hA e he ht, hcut _ ht⟩
  sound _ Y hY _ hKY _ := by
    intro e he t ht
    have := (Labels.closed_link.1 hY).2 e he ht
    rw [(hes e he).2] at this
    exact hKY h hh this

/-- A loop begins at a node and is tied back to it behind every round. `D` is what has to hold in
front of a round for `I` to hold behind it, and `J` the greatest set that rounds preserve. -/
theorem loop {D : Set Trace → Set Trace} {J : Set Trace} {es : List Edge} (hid : n.id = d.size)
    (htrace : n.trace = []) (hends : ends.Below d.size)
    (hround : ∀ I, Carries rules K Q (fun f => f n.id ⊆ D I) (d.emitted n ends []) d₂
      (fun f => (∀ e ∈ es, f e.source ⊆ I) ∧ B f))
    (hd : d.Grows (d.emitted n ends [])) (hK : ∀ h, K h → h < d.size)
    (hes : ∀ e ∈ es, e.source < d₂.size ∧ e.target = n.id)
    (hJ : J = D J) (hgreatest : ∀ I, I ⊆ D I → I ⊆ J) :
    Carries rules K Q (Holds ends J) d (d₂.link es) B where
  grows := by
    have hsize : n.id < (d.emitted n ends []).size := by
      rw [hid]
      exact Nat.lt_succ_self _
    refine (hd.trans (hround J).grows).trans ((hround J).grows.after.link es fun e he => ?_)
    exact ⟨(hes e he).1, (hes e he).2 ▸ hsize.trans_le (hround J).grows.size⟩
  inside := hK
  precise hrules Y hY hcut hKY hA := by
    let L : Set Trace := J ∩ Q.cut
    have hagree := Y.agrees_above ⟨fun _ => L, fun _ => L⟩ d.size
    have hclosed : (Y.above ⟨fun _ => L, fun _ => L⟩ d.size).Closed (d.emitted n ends []) := by
      refine hY.emitted hd.before hid hends (by simp) ?_ ?_ (by simp)
      · intro t ht
        rwa [htrace, List.append_nil]
      · intro e he t ht
        exact ⟨hA e he ht, hcut _ ht⟩
    have hnew : (Y.above ⟨fun _ => L, fun _ => L⟩ d.size).arrive n.id = L ∧
        (Y.above ⟨fun _ => L, fun _ => L⟩ d.size).leave n.id = L := by
      simp [Labels.above, hid]
    obtain ⟨Z, hYZ, hZ, hZcut, hback, hB⟩ := (hround J).precise hrules _ hclosed
      (Labels.above_leave_subset hcut fun _ _ ht => ht.2)
      (fun h hh => by
        rw [(hagree h (hK h hh)).1]
        exact hKY h hh)
      (by
        rw [hnew.2, ← hJ]
        exact Set.inter_subset_left)
    have hZn : Z.arrive n.id = L := by
      rw [(hYZ n.id (hid ▸ Nat.lt_succ_self _)).1, hnew.1]
    refine ⟨Z, hagree.trans hYZ hd.size, Labels.closed_link.2 ⟨hZ, ?_⟩, hZcut, hB⟩
    intro e he t ht
    rw [(hes e he).2, hZn]
    exact ⟨hback e he ht, hZcut _ ht⟩
  sound hrules Y hY hcut hKY hB := by
    obtain ⟨hY₂, hback⟩ := Labels.closed_link.1 hY
    have hstart := Labels.closed_emitted.1 (hY₂.of_grows (hround J).grows)
    have hleave : Y.leave n.id ⊆ D (Y.arrive n.id) := by
      refine (hround _).sound hrules Y hY₂ hcut hKY ⟨fun e he => ?_, hB⟩
      rw [← (hes e he).2]
      exact hback e he
    have hJ' : Y.arrive n.id ⊆ J := by
      apply hgreatest
      intro t ht
      apply hleave
      have := hstart.1.2 t ht
      rwa [htrace, List.append_nil] at this
    exact fun e he t ht => hJ' (hstart.2.1 e he ht)

/-- New nodes are made in front of the code that goes to them, and the code behind them follows.
`H` is allowed where they are entered and `T` where they are left. -/
theorem opening {H T : Nat → Set Trace} (hd : d.Grows d₁) (hedges : d₁.edges = d.edges)
    (hnew : ∀ n ∈ d₁.nodes, n ∈ d.nodes ∨ d.size ≤ n.id) (hA : A.Local d.size)
    (hK : ∀ h, K h → h < d.size) (hK' : ∀ h, K' h ↔ K h ∨ d.size ≤ h ∧ h < d₁.size)
    (hin : ∀ n ∈ d₁.nodes, d.size ≤ n.id → ∀ t ∈ Q.cut, t ∈ H n.id →
      t ++ n.trace ∈ T n.id ∧ t ++ n.trace ∈ Q.cut)
    (hout : ∀ n ∈ d₁.nodes, d.size ≤ n.id → ∀ t, t ++ n.trace ∈ T n.id →
      t ++ n.trace ∈ Q.cut → t ∈ H n.id)
    (hbody : Carries rules K' (Q.opened d.size H) A d₁ d₂ B)
    (hrest : Carries rules K Q (fun f => B f ∧ ∀ i, d.size ≤ i → i < d₁.size → f i ⊆ T i)
      d₂ d₃ C) :
    Carries rules K Q A d d₃ C where
  grows := (hd.trans hbody.grows).trans hrest.grows
  inside := hK
  precise hrules Y hY hcut hKY hAY := by
    let Z : Labels := Y.above ⟨fun i => H i ∩ Q.cut, fun i => T i ∩ Q.cut⟩ d.size
    have hagree : Y.Agrees Z d.size := Y.agrees_above _ _
    have hZcut : ∀ i, Z.leave i ⊆ Q.cut :=
      Labels.above_leave_subset hcut fun _ _ ht => ht.2
    have harrive : ∀ i, d.size ≤ i → Z.arrive i = H i ∩ Q.cut := by
      intro i hi
      simp [Z, Labels.above, Nat.not_lt.2 hi]
    have hleave : ∀ i, d.size ≤ i → Z.leave i = T i ∩ Q.cut := by
      intro i hi
      simp [Z, Labels.above, Nat.not_lt.2 hi]
    have hZ : Z.Closed d₁ := by
      have hold := hY.of_agrees hd.before hagree
      refine ⟨fun n hn t ht => ?_, fun e he => hold.edge e (hedges ▸ he)⟩
      rcases hnew n hn with hn' | hn'
      · exact hold.node n hn' t ht
      · rw [harrive _ hn'] at ht
        rw [hleave _ hn']
        exact hin n hn hn' t ht.2 ht.1
    obtain ⟨X, hZX, hX, hXcut, hB⟩ := hbody.precise hrules Z hZ hZcut (fun h hh => by
      by_cases hlt : h < d.size
      · rcases (hK' h).1 hh with hh | ⟨hle, _⟩
        · rw [(hagree h hlt).1]
          simpa [Outside.opened, hlt] using hKY h hh
        · omega
      · rw [harrive h (by omega)]
        simp [Outside.opened, hlt]) (hA _ _ (fun i hi => (hagree i hi).2) hAY)
    obtain ⟨W, hXW, hW, hWcut, hC⟩ := hrest.precise hrules X hX hXcut (fun h hh => by
        rw [(hZX h (hbody.inside h ((hK' h).2 (.inl hh)))).1, (hagree h (hK h hh)).1]
        exact hKY h hh) ⟨hB, fun i hi hi' => by
        rw [(hZX i hi').2, hleave i hi]
        exact Set.inter_subset_left⟩
    exact ⟨W, (hagree.trans hZX hd.size).trans hXW (hd.size.trans hbody.grows.size), hW, hWcut, hC⟩
  sound hrules Y hY hcut hKY hC := by
    have hY₂ := hY.of_grows hrest.grows
    have hY₁ := hY₂.of_grows hbody.grows
    have hsize := hbody.grows.size.trans hrest.grows.size
    obtain ⟨hB, hT⟩ := hrest.sound hrules Y hY hcut hKY hC
    refine hbody.sound hrules Y hY₂ (fun i hi => hcut i (hi.trans_le hrest.grows.size)) ?_ hB
    intro h hh t ht
    by_cases hlt : h < d.size
    · rcases (hK' h).1 hh with hh | ⟨hle, _⟩
      · simpa [Outside.opened, hlt] using hKY h hh ht
      · omega
    · have hlt' : h < d₁.size := by
        rcases (hK' h).1 hh with hh | ⟨_, hh⟩
        · exact absurd (hK h hh) hlt
        · exact hh
      obtain ⟨n, hn, rfl⟩ := hd.after.exists_node hlt'
      have hle : d.size ≤ n.id := Nat.not_lt.1 hlt
      have hstep := hY₁.node n hn t ht
      simp only [Outside.opened, hlt, if_false]
      exact hout n hn hle t (hT n.id hle hlt' hstep) (hcut _ (hlt'.trans_le hsize) hstep)

end Carries

end FlowGraph

end WriteOnce
