import WriteOnce.Proofs.Aim

/-!
# Labels of a draft

A labelling gives every node the traces with which it may be entered and those with
which it may be left. It is closed if it agrees with the events of the nodes and
goes along every edge. The traces of all paths are the least closed labelling, so
that a closed labelling bounds what paths can do, and whatever holds of every closed
labelling holds of the paths.

A stretch of drafting carries a claim about what leaves the nodes in front of it to
one about the nodes behind it. Read forwards, labels that satisfy the claim in front
extend over the new nodes. Read backwards, closed labels that satisfy the claim
behind also satisfy the one in front.
-/

namespace WriteOnce

open Execution

namespace FlowGraph

/-! ## Tidy drafts -/

/-- The nodes are numbered in the order in which they were made, edges lead from node to node, and
no node both binds and writes. -/
structure Draft.Tidy (d : Draft) : Prop where
  ids : d.nodes.map Node.id = (List.range d.size).reverse
  edges : ∀ e ∈ d.edges, e.source < d.size ∧ e.target < d.size
  exclusive : ∀ n ∈ d.nodes, n.binds = [] ∨ n.writes = []

theorem Draft.Tidy.id_lt {d : Draft} (hd : d.Tidy) {n : Node} (hn : n ∈ d.nodes) :
    n.id < d.size := by
  have := List.mem_map_of_mem (f := Node.id) hn
  rw [hd.ids] at this
  simpa using this

theorem Draft.Tidy.exists_node {d : Draft} (hd : d.Tidy) {i : Nat} (hi : i < d.size) :
    ∃ n ∈ d.nodes, n.id = i := by
  have : i ∈ d.nodes.map Node.id := by simp [hd.ids, hi]
  exact List.mem_map.1 this

/-- A tidy draft is continued to a tidy draft. -/
structure Draft.Grows (d d' : Draft) : Prop where
  size : d.size ≤ d'.size
  nodes : d.nodes ⊆ d'.nodes
  edges : d.edges ⊆ d'.edges
  before : d.Tidy
  after : d'.Tidy

theorem Draft.Tidy.grows {d : Draft} (hd : d.Tidy) : d.Grows d :=
  ⟨le_rfl, List.Subset.refl _, List.Subset.refl _, hd, hd⟩

theorem Draft.Grows.trans {d₁ d₂ d₃ : Draft} (h : d₁.Grows d₂) (h' : d₂.Grows d₃) :
    d₁.Grows d₃ :=
  ⟨h.size.trans h'.size, List.Subset.trans h.nodes h'.nodes, List.Subset.trans h.edges h'.edges,
    h.before, h'.after⟩

def Draft.push (d : Draft) (n : Node) : Draft := ⟨d.size + 1, n :: d.nodes, d.edges⟩

def Draft.link (d : Draft) (es : List Edge) : Draft := { d with edges := es.reverse ++ d.edges }

theorem Draft.link_link (d : Draft) (es es' : List Edge) :
    (d.link es).link es' = d.link (es ++ es') := by
  simp [Draft.link]

theorem Draft.Tidy.push {d : Draft} (hd : d.Tidy) {n : Node} (hid : n.id = d.size)
    (hn : n.binds = [] ∨ n.writes = []) : d.Grows (d.push n) := by
  refine ⟨Nat.le_succ _, List.subset_cons_self _ _, List.Subset.refl _, hd, ?_⟩
  constructor
  · simp [Draft.push, hid, hd.ids, List.range_succ]
  · intro e he
    have := hd.edges e he
    simp only [Draft.push]
    omega
  · intro m hm
    rcases List.mem_cons.1 hm with rfl | hm
    · exact hn
    · exact hd.exclusive m hm

theorem Draft.Tidy.link {d : Draft} (hd : d.Tidy) (es : List Edge)
    (hes : ∀ e ∈ es, e.source < d.size ∧ e.target < d.size) : d.Grows (d.link es) := by
  refine ⟨le_rfl, List.Subset.refl _, List.subset_append_right _ _, hd, hd.ids, ?_, hd.exclusive⟩
  intro e he
  rcases List.mem_append.1 he with he | he
  · exact hes e (List.mem_reverse.1 he)
  · exact hd.edges e he

/-! ## Closed labels -/

structure Labels where
  arrive : Nat → Set Trace
  leave : Nat → Set Trace

namespace Labels

structure Closed (Y : Labels) (d : Draft) : Prop where
  node : ∀ n ∈ d.nodes, ∀ t ∈ Y.arrive n.id, t ++ n.trace ∈ Y.leave n.id
  edge : ∀ e ∈ d.edges, Y.leave e.source ⊆ Y.arrive e.target

/-- The same labels on the nodes with smaller numbers. -/
def Agrees (Y Z : Labels) (size : Nat) : Prop :=
  ∀ i < size, Z.arrive i = Y.arrive i ∧ Z.leave i = Y.leave i

variable {X Y Z : Labels} {d d' : Draft} {m n : Nat}

theorem Agrees.refl (Y : Labels) (n : Nat) : Agrees Y Y n := fun _ _ => ⟨rfl, rfl⟩

theorem Agrees.trans (h : Agrees X Y m) (h' : Agrees Y Z n) (hmn : m ≤ n) : Agrees X Z m := by
  intro i hi
  obtain ⟨ha, hl⟩ := h i hi
  obtain ⟨ha', hl'⟩ := h' i (hi.trans_le hmn)
  exact ⟨ha'.trans ha, hl'.trans hl⟩

theorem Closed.of_grows (h : Y.Closed d') (hd : d.Grows d') : Y.Closed d :=
  ⟨fun n hn => h.node n (hd.nodes hn), fun e he => h.edge e (hd.edges he)⟩

theorem Closed.of_agrees (h : Y.Closed d) (hd : d.Tidy) (hZ : Agrees Y Z d.size) :
    Z.Closed d := by
  constructor
  · intro n hn t ht
    obtain ⟨ha, hl⟩ := hZ n.id (hd.id_lt hn)
    rw [hl]
    exact h.node n hn t (ha ▸ ht)
  · intro e he
    rw [(hZ e.source (hd.edges e he).1).2, (hZ e.target (hd.edges e he).2).1]
    exact h.edge e he

theorem closed_push {n : Node} : Y.Closed (d.push n) ↔
    Y.Closed d ∧ ∀ t ∈ Y.arrive n.id, t ++ n.trace ∈ Y.leave n.id := by
  constructor
  · intro h
    exact ⟨⟨fun m hm => h.node m (.tail _ hm), h.edge⟩, h.node n (.head _)⟩
  · rintro ⟨h, hn⟩
    refine ⟨?_, h.edge⟩
    intro m hm
    rcases List.mem_cons.1 hm with rfl | hm
    · exact hn
    · exact h.node m hm

theorem closed_link {es : List Edge} : Y.Closed (d.link es) ↔
    Y.Closed d ∧ ∀ e ∈ es, Y.leave e.source ⊆ Y.arrive e.target := by
  constructor
  · intro h
    exact ⟨⟨h.node, fun e he => h.edge e (List.mem_append_right _ he)⟩,
      fun e he => h.edge e (List.mem_append_left _ (List.mem_reverse.2 he))⟩
  · rintro ⟨h, hes⟩
    refine ⟨h.node, ?_⟩
    intro e he
    rcases List.mem_append.1 he with he | he
    · exact hes e (List.mem_reverse.1 he)
    · exact h.edge e he

/-- Other labels for the nodes from a number on. -/
def above (Y Z : Labels) (size : Nat) : Labels :=
  ⟨fun i => if i < size then Y.arrive i else Z.arrive i,
    fun i => if i < size then Y.leave i else Z.leave i⟩

theorem agrees_above (Y Z : Labels) (size : Nat) : Agrees Y (above Y Z size) size := by
  intro i hi
  simp [above, hi]

end Labels

/-! ## Claims that are carried -/

/-- A claim about the traces with which nodes are left. -/
abbrev Claim := (Nat → Set Trace) → Prop

/-- What leaves by the loose ends is allowed. -/
def Holds (ends : Frontier) (T : Set Trace) : Claim := fun f => ∀ e ∈ ends, f e.source ⊆ T

/-- The claim is about nodes with smaller numbers only. -/
def Claim.Local (F : Claim) (size : Nat) : Prop :=
  ∀ f g, (∀ i < size, g i = f i) → F f → F g

def Frontier.Below (ends : Frontier) (size : Nat) : Prop := ∀ e ∈ ends, e.source < size

theorem Holds.local_of_below {ends : Frontier} {size : Nat} (h : ends.Below size)
    (T : Set Trace) : Claim.Local (Holds ends T) size := by
  intro f g hfg hf e he
  rw [hfg e.source (h e he)]
  exact hf e he

/-- A stretch of drafting carries `A` to `B`. The nodes in `K` are entered from it and stand in
front of it; what is allowed there, and what may be cut off, is given by `Q`. -/
structure Carries (rules : Rules) (K : Nat → Prop) (Q : Outside) (A : Claim) (d d' : Draft)
    (B : Claim) : Prop where
  grows : d.Grows d'
  inside : ∀ h, K h → h < d.size
  precise : rules.atBareReturn = true → ∀ Y : Labels, Y.Closed d → (∀ i, Y.leave i ⊆ Q.cut) →
    (∀ h, K h → Q.enters h ∩ Q.cut ⊆ Y.arrive h) → A Y.leave →
    ∃ Z : Labels, Y.Agrees Z d.size ∧ Z.Closed d' ∧ (∀ i, Z.leave i ⊆ Q.cut) ∧ B Z.leave
  sound : rules.atCleanup = false → ∀ Y : Labels, Y.Closed d' →
    (∀ i < d'.size, Y.leave i ⊆ Q.cut) → (∀ h, K h → Y.arrive h ⊆ Q.enters h) →
    B Y.leave → A Y.leave

namespace Carries

variable {rules : Rules} {K K' : Nat → Prop} {Q Q' : Outside} {A A' B B' C F : Claim}
  {d d' d₁ d₂ d₃ : Draft}

theorem nothing (hd : d.Tidy) (hK : ∀ h, K h → h < d.size) (hAB : ∀ f, A f ↔ B f) :
    Carries rules K Q A d d B :=
  ⟨hd.grows, hK, fun _ Y hY hcut _ hA => ⟨Y, .refl Y _, hY, hcut, (hAB _).1 hA⟩,
    fun _ Y _ _ _ => (hAB Y.leave).2⟩

/-- What is claimed of the nodes in front may be less for the labels that are given, and more for
those that are found. -/
theorem of_le (h : Carries rules K Q A d d' B)
    (hA : rules.atBareReturn = true → ∀ f, (∀ i, f i ⊆ Q.cut) → A' f → A f)
    (hA' : rules.atCleanup = false → ∀ f, A f → A' f) (hB : ∀ f, B f ↔ B' f) :
    Carries rules K Q A' d d' B' where
  grows := h.grows
  inside := h.inside
  precise hrules Y hY hcut hK hA'Y := by
    obtain ⟨Z, hYZ, hZ, hZcut, hBZ⟩ := h.precise hrules Y hY hcut hK (hA hrules _ hcut hA'Y)
    exact ⟨Z, hYZ, hZ, hZcut, (hB _).1 hBZ⟩
  sound hrules Y hY hcut hK hBY :=
    hA' hrules _ (h.sound hrules Y hY hcut hK ((hB _).2 hBY))

theorem congr (h : Carries rules K Q A d d' B) (hA : ∀ f, A f ↔ A' f) (hB : ∀ f, B f ↔ B' f) :
    Carries rules K Q A' d d' B' :=
  h.of_le (fun _ f _ => (hA f).2) (fun _ f => (hA f).1) hB

theorem trans (h : Carries rules K Q A d₁ d₂ B) (h' : Carries rules K Q B d₂ d₃ C) :
    Carries rules K Q A d₁ d₃ C where
  grows := h.grows.trans h'.grows
  inside := h.inside
  precise hrules Y hY hcut hK hA := by
    obtain ⟨Z, hYZ, hZ, hZcut, hB⟩ := h.precise hrules Y hY hcut hK hA
    have hKZ : ∀ i, K i → Q.enters i ∩ Q.cut ⊆ Z.arrive i := by
      intro i hi
      rw [(hYZ i (h.inside i hi)).1]
      exact hK i hi
    obtain ⟨X, hZX, hX, hXcut, hC⟩ := h'.precise hrules Z hZ hZcut hKZ hB
    exact ⟨X, hYZ.trans hZX h.grows.size, hX, hXcut, hC⟩
  sound hrules Y hY hcut hK hC :=
    h.sound hrules Y (hY.of_grows h'.grows)
      (fun i hi => hcut i (hi.trans_le h'.grows.size)) hK (h'.sound hrules Y hY hcut hK hC)

/-- Claims about other nodes in front are carried along. -/
theorem frame (h : Carries rules K Q A d d' B) (hF : F.Local d.size) :
    Carries rules K Q (fun f => A f ∧ F f) d d' (fun f => B f ∧ F f) where
  grows := h.grows
  inside := h.inside
  precise hrules Y hY hcut hK := by
    rintro ⟨hA, hFY⟩
    obtain ⟨Z, hYZ, hZ, hZcut, hB⟩ := h.precise hrules Y hY hcut hK hA
    exact ⟨Z, hYZ, hZ, hZcut, hB, hF _ _ (fun i hi => (hYZ i hi).2) hFY⟩
  sound hrules Y hY hcut hK := by
    rintro ⟨hB, hFY⟩
    exact ⟨h.sound hrules Y hY hcut hK hB, hFY⟩

/-- A stretch does not mind that more nodes can be entered. -/
theorem widen (h : Carries rules K Q A d d' B) (hKK' : ∀ i, K i → K' i)
    (hK' : ∀ i, K' i → i < d.size) (henters : ∀ i, K i → Q'.enters i = Q.enters i)
    (hcut : Q'.cut = Q.cut) : Carries rules K' Q' A d d' B where
  grows := h.grows
  inside := hK'
  precise hrules Y hY hYcut hK hA := by
    rw [hcut] at hYcut ⊢
    refine h.precise hrules Y hY hYcut (fun i hi => ?_) hA
    rw [← henters i hi, ← hcut]
    exact hK i (hKK' i hi)
  sound hrules Y hY hYcut hK hB := by
    rw [hcut] at hYcut
    refine h.sound hrules Y hY hYcut (fun i hi => ?_) hB
    rw [← henters i hi]
    exact hK i (hKK' i hi)

end Carries

end FlowGraph

end WriteOnce
