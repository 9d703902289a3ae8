import Mathlib.Logic.Relation
import WriteOnce.Proofs.Counts

/-!
# Sweeps in any order

A sweep may take the nodes out of its queue in any order. Whatever the order, the
classes in a mask are realized by paths, and a node that is not in the queue has
handed everything on to its successors. When the queue is empty the masks are the
images of all paths.
-/

namespace WriteOnce

open FlowGraph Counts

variable {g : FlowGraph}

namespace Sweep

/-! ## One visit -/

/-- Takes any node out of the queue and visits it. -/
inductive Step (g : FlowGraph) : Sweep → Sweep → Prop
  | visit {s : Sweep} {n : Node} : n ∈ g.nodes → n.id ∈ s.queue →
    Step g s (visit g.links g.vars n { s with queue := s.queue.erase n.id })

/-- A sweep in some order can come to this state. -/
def Comes (g : FlowGraph) (s : Sweep) : Prop := Relation.ReflTransGen (Step g) (start g g.vars) s

/-- Some path to the node leaves the variable with a count of this class. -/
def Arriving (g : FlowGraph) (n : Node) (v : Variable) (k : CountClass) : Prop :=
  ∃ t, g.Arrives t n ∧ CountClass.of (Trace.count v t) = k

/-- The same behind the node. -/
def Leaving (g : FlowGraph) (n : Node) (v : Variable) (k : CountClass) : Prop :=
  ∃ t, g.Performs t n ∧ CountClass.of (Trace.count v t) = k

theorem leaving_iff {n : Node} {v : Variable} {k : CountClass} :
    Leaving g n v k ↔ ∃ j, Arriving g n v j ∧ n.trace.foldl (CountClass.after v) j = k := by
  constructor
  · rintro ⟨_, ⟨t, ht, rfl⟩, rfl⟩
    refine ⟨_, ⟨t, ht, rfl⟩, ?_⟩
    rw [Trace.count_append, CountClass.of_foldl_tally]
  · rintro ⟨_, ⟨t, ht, rfl⟩, rfl⟩
    refine ⟨t ++ n.trace, ⟨t, ht, rfl⟩, ?_⟩
    rw [Trace.count_append, CountClass.of_foldl_tally]

theorem overwrites_iff_arriving {n : Node} {v : Variable} :
    g.Overwrites n v ↔ ∃ j, Arriving g n v j ∧ CountClass.Rewrites v j n.trace := by
  constructor
  · rintro ⟨t, pre, post, ht, htrace, hcount⟩
    rw [Trace.count_append] at hcount
    exact ⟨_, ⟨t, ht, rfl⟩, CountClass.rewrites_of.2 ⟨pre, post, htrace, hcount⟩⟩
  · rintro ⟨_, ⟨t, ht, rfl⟩, h⟩
    obtain ⟨pre, post, htrace, hcount⟩ := CountClass.rewrites_of.1 h
    exact ⟨t, pre, post, ht, htrace, by rwa [Trace.count_append]⟩

/-- What holds of a node with counts `c` in front of it that is not queued: it was visited with
these counts, and all its edges except those still pending have passed on what is behind it. -/
structure Settled (g : FlowGraph) (pending : Edge → Prop) (s : Sweep) (n : Node) (c : Counts) :
    Prop where
  behind : s.behind[n.id]? = some (through g.vars n c)
  overwrites : ∀ v, n.overwrites v (maskOf g.vars c v) → (v, n.id) ∈ s.overwrites
  passed : ∀ e ∈ g.edges, e.source = n.id → ¬ pending e → ∃ d, s.before[e.target]? = some d ∧
    ∀ v k, (n.behind v (maskOf g.vars c v)).has k → (maskOf g.vars d v).has k

/-- What every sweep preserves, in whatever order nodes are visited. -/
structure Invariant (g : FlowGraph) (pending : Edge → Prop) (s : Sweep) : Prop where
  nodup : s.queue.Nodup
  queued : ∀ id ∈ s.queue, ∃ c, s.before[id]? = some c
  node : ∀ (id : Nat) c, s.before[id]? = some c → ∃ n ∈ g.nodes, n.id = id
  fits : ∀ (id : Nat) c, s.before[id]? = some c → Fits g.vars c
  entry : ∃ c, s.before[g.entry]? = some c ∧ ∀ v, (maskOf g.vars c v).has .zero
  realized : ∀ n ∈ g.nodes, ∀ c, s.before[n.id]? = some c →
    ∀ v k, (maskOf g.vars c v).has k → Arriving g n v k
  settled : ∀ n ∈ g.nodes, ∀ c, s.before[n.id]? = some c → n.id ∉ s.queue →
    Settled g pending s n c
  overwrites : ∀ v id, (v, id) ∈ s.overwrites → ∃ n ∈ g.nodes, n.id = id ∧ g.Overwrites n v

theorem mem_enqueue {queue : List Nat} {id i : Nat} :
    i ∈ enqueue queue id ↔ i ∈ queue ∨ i = id := by
  unfold enqueue
  split_ifs with h
  · have hid : id ∈ queue := by simpa using h
    exact ⟨.inl, fun hi => hi.elim (fun h => h) (fun hi => hi ▸ hid)⟩
  · simp

theorem nodup_enqueue {queue : List Nat} (h : queue.Nodup) (id : Nat) :
    (enqueue queue id).Nodup := by
  unfold enqueue
  split_ifs with hc
  · exact h
  · have hid : id ∉ queue := by simpa using hc
    rw [List.nodup_append]
    exact ⟨h, List.nodup_singleton id, by
      rintro a ha b hb rfl
      exact hid (by simpa using List.mem_singleton.1 hb ▸ ha)⟩

/-- Feeding changes nothing, or it sets the counts in front of the node and queues it. -/
theorem feed_cases (b : Counts) (s : Sweep) (id : Nat) :
    (feed b s id = s ∧ ∃ d, s.before[id]? = some d ∧ d.union b = d) ∨
    ∃ new, feed b s id =
        { s with before := s.before.insert id new, queue := enqueue s.queue id } ∧
      ((s.before[id]? = none ∧ new = b) ∨
        ∃ d, s.before[id]? = some d ∧ new = d.union b ∧ d.union b ≠ d) := by
  unfold feed
  cases h : s.before[id]? with
  | none => exact .inr ⟨b, rfl, .inl ⟨rfl, rfl⟩⟩
  | some d =>
    dsimp only
    split_ifs with heq
    · exact .inl ⟨rfl, d, rfl, heq⟩
    · exact .inr ⟨d.union b, rfl, .inr ⟨d, rfl, rfl, heq⟩⟩

/-- The edges from a node to some targets. -/
def pendingFrom (m : Node) (targets : List Nat) (e : Edge) : Prop :=
  e.source = m.id ∧ e.target ∈ targets

/-- `b` is what is behind `m`, as far as `m` is not queued again. -/
def Current (g : FlowGraph) (m : Node) (b : Counts) (s : Sweep) : Prop :=
  ∀ c, s.before[m.id]? = some c → m.id ∉ s.queue →
    ∀ v, maskOf g.vars b v = m.behind v (maskOf g.vars c v)

/-- New counts in front of a node that include the old ones and come from paths. -/
theorem Invariant.grow {pending : Edge → Prop} {s : Sweep} {n : Node} {new : Counts}
    (h : Invariant g pending s) (hn : n ∈ g.nodes) (hfit : Fits g.vars new)
    (hreal : ∀ v k, (maskOf g.vars new v).has k → Arriving g n v k)
    (hold : ∀ d, s.before[n.id]? = some d →
      ∀ v k, (maskOf g.vars d v).has k → (maskOf g.vars new v).has k) (hg : g.WellFormed) :
    Invariant g pending
      { s with before := s.before.insert n.id new, queue := enqueue s.queue n.id } where
  nodup := nodup_enqueue h.nodup n.id
  queued id hid := by
    rw [Std.TreeMap.getElem?_insert]
    split_ifs with heq
    · exact ⟨new, rfl⟩
    · rcases mem_enqueue.1 hid with hid | rfl
      · exact h.queued id hid
      · simp at heq
  node id c hc := by
    rw [Std.TreeMap.getElem?_insert] at hc
    split_ifs at hc with heq
    · exact ⟨n, hn, by simpa using heq⟩
    · exact h.node id c hc
  fits id c hc := by
    rw [Std.TreeMap.getElem?_insert] at hc
    split_ifs at hc with heq
    · exact Option.some.inj hc ▸ hfit
    · exact h.fits id c hc
  entry := by
    obtain ⟨c, hc, hzero⟩ := h.entry
    rw [Std.TreeMap.getElem?_insert]
    split_ifs with heq
    · have : n.id = g.entry := by simpa using heq
      exact ⟨new, rfl, fun v => hold c (this ▸ hc) v _ (hzero v)⟩
    · exact ⟨c, hc, hzero⟩
  realized m hm c hc := by
    rw [Std.TreeMap.getElem?_insert] at hc
    split_ifs at hc with heq
    · have : n = m := hg.eq_of_id hn hm (by simpa using heq)
      exact this ▸ Option.some.inj hc ▸ hreal
    · exact h.realized m hm c hc
  settled m hm c hc hq := by
    have hne : m.id ≠ n.id := fun heq => hq (mem_enqueue.2 (.inr heq))
    have hmq : m.id ∉ s.queue := fun hmq => hq (mem_enqueue.2 (.inl hmq))
    rw [Std.TreeMap.getElem?_insert, if_neg (by simpa using hne.symm)] at hc
    obtain ⟨hbehind, hover, hpassed⟩ := h.settled m hm c hc hmq
    refine ⟨hbehind, hover, fun e he hs hp => ?_⟩
    obtain ⟨d, hd, hsub⟩ := hpassed e he hs hp
    rw [Std.TreeMap.getElem?_insert]
    split_ifs with heq
    · have : n.id = e.target := by simpa using heq
      exact ⟨new, rfl, fun v k hk => hold d (this ▸ hd) v k (hsub v k hk)⟩
    · exact ⟨d, hd, hsub⟩
  overwrites := h.overwrites

theorem Current.grow {m n : Node} {b new : Counts} {s : Sweep} (h : Current g m b s) :
    Current g m b
      { s with before := s.before.insert n.id new, queue := enqueue s.queue n.id } := by
  intro c hc hq
  have hne : m.id ≠ n.id := fun heq => hq (mem_enqueue.2 (.inr heq))
  rw [Std.TreeMap.getElem?_insert, if_neg (by simpa using hne.symm)] at hc
  exact h c hc fun hmq => hq (mem_enqueue.2 (.inl hmq))

/-- What is behind `m` has got to `n`, and the edge there is no longer pending. -/
theorem Invariant.pass {m n : Node} {b d : Counts} {s : Sweep} {targets : List Nat}
    (h : Invariant g (pendingFrom m (n.id :: targets)) s) (hg : g.WellFormed) (hm : m ∈ g.nodes)
    (hcur : Current g m b s) (hd : s.before[n.id]? = some d)
    (hsub : ∀ v k, (maskOf g.vars b v).has k → (maskOf g.vars d v).has k) :
    Invariant g (pendingFrom m targets) s := by
  refine { h with settled := fun x hx c hc hq => ?_ }
  obtain ⟨hbehind, hover, hpassed⟩ := h.settled x hx c hc hq
  refine ⟨hbehind, hover, fun e he hs hp => ?_⟩
  -- An edge of `m` that is settled now was settled before, or it leads to `n`.
  by_cases hlast : pendingFrom m (n.id :: targets) e
  · obtain ⟨hsm, htarget⟩ := hlast
    have hxm : x = m := hg.eq_of_id hx hm (hs.symm.trans hsm)
    subst hxm
    rcases List.mem_cons.1 htarget with htn | ht
    · rw [htn]
      exact ⟨d, hd, fun v k hk => hsub v k (by rw [hcur c hc hq v]; exact hk)⟩
    · exact absurd ⟨hsm, ht⟩ hp
  · exact hpassed e he hs hlast

/-- The counts that a node is set to have the classes that it had and those that it is fed. -/
theorem fits_fed {s : Sweep} {id : Nat} {b new : Counts} (hb : Fits g.vars b)
    (hs : ∀ (i : Nat) c, s.before[i]? = some c → Fits g.vars c)
    (hnew : (s.before[id]? = none ∧ new = b) ∨
      ∃ d, s.before[id]? = some d ∧ new = d.union b ∧ d.union b ≠ d) :
    Fits g.vars new ∧ ∀ v k, (maskOf g.vars new v).has k ↔
      (maskOf g.vars b v).has k ∨ ∃ d, s.before[id]? = some d ∧ (maskOf g.vars d v).has k := by
  rcases hnew with ⟨hnone, rfl⟩ | ⟨d, hd, rfl, -⟩
  · refine ⟨hb, fun v k => ?_⟩
    simp [hnone]
  · refine ⟨(fits_union (hs id d hd) hb).1, fun v k => ?_⟩
    rw [has_maskOf_union (hs id d hd) hb, hd]
    simp only [Option.some.injEq, exists_eq_left']
    exact or_comm

/-- Passing the counts behind `m` on to one target leaves the other targets pending. -/
theorem Invariant.feed {m : Node} {b : Counts} {s : Sweep} {target : Nat} {targets : List Nat}
    (h : Invariant g (pendingFrom m (target :: targets)) s) (hg : g.WellFormed) (hm : m ∈ g.nodes)
    (he : ∃ kind, ⟨m.id, target, kind⟩ ∈ g.edges) (hb : Fits g.vars b)
    (hreal : ∀ v k, (maskOf g.vars b v).has k → Leaving g m v k) (hcur : Current g m b s) :
    Invariant g (pendingFrom m targets) (feed b s target) ∧ Current g m b (feed b s target) := by
  obtain ⟨kind, he⟩ := he
  obtain ⟨n, hn, rfl⟩ := hg.target _ he
  rcases feed_cases b s n.id with ⟨heq, d, hd, hunion⟩ | ⟨new, heq, hnew⟩
  · rw [heq]
    have hd' := h.fits _ _ hd
    refine ⟨h.pass hg hm hcur hd fun v => ?_, hcur⟩
    rw [← (hd'.proper v).union_eq_left_iff (hb.proper v), ← (fits_union hd' hb).2, hunion]
  · obtain ⟨hfit, hhas⟩ := fits_fed hb h.fits hnew
    have harriving : ∀ v k, (maskOf g.vars new v).has k → Arriving g n v k := by
      intro v k hk
      rcases (hhas v k).1 hk with hk | ⟨d, hd, hk⟩
      · obtain ⟨t, ⟨u, hu, rfl⟩, hcount⟩ := hreal v k hk
        exact ⟨_, hu.step he hn, hcount⟩
      · exact h.realized n hn d hd v k hk
    have hgrown := h.grow hn hfit harriving
      (fun d hd v k hk => (hhas v k).2 (.inr ⟨d, hd, hk⟩)) hg
    rw [heq]
    exact ⟨hgrown.pass hg hm hcur.grow Std.TreeMap.getElem?_insert_self
      fun v k hk => (hhas v k).2 (.inl hk), hcur.grow⟩

theorem Invariant.feedAll {m : Node} {b : Counts} (hg : g.WellFormed) (hm : m ∈ g.nodes)
    (hb : Fits g.vars b) (hreal : ∀ v k, (maskOf g.vars b v).has k → Leaving g m v k) :
    ∀ (targets : List Nat) (s : Sweep), (∀ t ∈ targets, ∃ kind, ⟨m.id, t, kind⟩ ∈ g.edges) →
      Invariant g (pendingFrom m targets) s → Current g m b s →
      Invariant g (pendingFrom m []) (targets.foldl (Sweep.feed b) s) := by
  intro targets
  induction targets with
  | nil => exact fun s _ h _ => h
  | cons t ts ih =>
    intro s hedge h hcur
    obtain ⟨h', hcur'⟩ := h.feed hg hm (hedge t (by simp)) hb hreal hcur
    exact ih _ (fun t' ht => hedge t' (by simp [ht])) h' hcur'

/-- A visit before anything is passed on. -/
theorem Invariant.reopen {s : Sweep} {n : Node} {c : Counts}
    (h : Invariant g (fun _ => False) s) (hg : g.WellFormed) (hn : n ∈ g.nodes)
    (hc : s.before[n.id]? = some c) (visits : Nat) (seen : List (Variable × Nat))
    (hseen : ∀ v id, (v, id) ∈ seen ↔ (v, id) ∈ s.overwrites ∨ (v, id) ∈ found g.vars n c) :
    Invariant g (pendingFrom n (g.links.targets n.id))
      { s with
        queue := s.queue.erase n.id
        behind := s.behind.insert n.id (through g.vars n c)
        overwrites := seen
        visits := visits } where
  nodup := h.nodup.erase n.id
  queued id hid := h.queued id (List.mem_of_mem_erase hid)
  node := h.node
  fits := h.fits
  entry := h.entry
  realized := h.realized
  settled m hm d hd hq := by
    by_cases heq : m = n
    · subst heq
      obtain rfl : c = d := Option.some.inj (hc.symm.trans hd)
      refine ⟨Std.TreeMap.getElem?_insert_self, fun v hv => ?_, fun e he hs hp => ?_⟩
      · exact (hseen v m.id).2 (.inr ((mem_found hm (h.fits _ _ hc)).2 ⟨hv, rfl⟩))
      · exact absurd ⟨hs, g.mem_targets_links.2 ⟨e.kind, hs ▸ he⟩⟩ hp
    · have hid : m.id ≠ n.id := fun hid => heq (hg.eq_of_id hm hn hid)
      have hmq : m.id ∉ s.queue := fun hmq => hq ((List.mem_erase_of_ne hid).2 hmq)
      obtain ⟨hbehind, hover, hpassed⟩ := h.settled m hm d hd hmq
      refine ⟨?_, fun v hv => (hseen v m.id).2 (.inl (hover v hv)),
        fun e he hs _ => hpassed e he hs fun h => h⟩
      rw [Std.TreeMap.getElem?_insert, if_neg (by simpa using hid.symm)]
      exact hbehind
  overwrites v id hv := by
    rcases (hseen v id).1 hv with hv | hv
    · exact h.overwrites v id hv
    · obtain ⟨hover, rfl⟩ := (mem_found hn (h.fits _ _ hc)).1 hv
      refine ⟨n, hn, rfl, overwrites_iff_arriving.2 ?_⟩
      obtain ⟨j, hj, hrew⟩ := (n.overwrites_iff ((h.fits _ _ hc).proper v) v).1 hover
      exact ⟨j, h.realized n hn c hc v j hj, hrew⟩

/-- The step lemma: a visit of any queued node preserves the invariant. -/
theorem Invariant.step {s s' : Sweep} (h : Invariant g (fun _ => False) s) (hg : g.WellFormed)
    (hs : Step g s s') : Invariant g (fun _ => False) s' := by
  obtain ⟨hn, hq⟩ := hs
  rename_i n
  obtain ⟨c, hc⟩ := h.queued _ hq
  obtain ⟨hfit, hmask⟩ := fits_through hn (h.fits _ _ hc)
  have hbefore : s.before.getD n.id [] = c := by
    rw [Std.TreeMap.getD_eq_getD_getElem?, hc, Option.getD_some]
  have hreal : ∀ v k, (maskOf g.vars (through g.vars n c) v).has k → Leaving g n v k := by
    intro v k hk
    rw [hmask, n.has_behind ((h.fits _ _ hc).proper v)] at hk
    obtain ⟨j, hj, rfl⟩ := hk
    exact leaving_iff.2 ⟨j, h.realized n hn c hc v j hj, rfl⟩
  unfold visit
  simp only [hbefore]
  have hopen := h.reopen hg hn hc (s.visits + 1)
    (s.overwrites ++ (found g.vars n c).filter fun hit => !s.overwrites.contains hit)
    (fun v id => by
      rw [List.mem_append, List.mem_filter]
      by_cases hv : (v, id) ∈ s.overwrites <;> simp [hv])
  have hdone := Invariant.feedAll hg hn hfit hreal _ _ (fun _ => g.mem_targets_links.1) hopen
    fun d hd _ v => by
      obtain rfl : c = d := Option.some.inj (hc.symm.trans hd)
      exact hmask v
  refine { hdone with settled := fun m hm d hd hq => ?_ }
  obtain ⟨hbehind, hover, hpassed⟩ := hdone.settled m hm d hd hq
  exact ⟨hbehind, hover, fun e he hs _ => hpassed e he hs (by simp [pendingFrom])⟩

theorem getElem?_before_start (id : Nat) : (start g g.vars).before[id]? =
    if g.entry = id then some (g.vars.map fun _ => Mask.zero) else none := by
  simp [start, Std.TreeMap.ofList_singleton, Std.TreeMap.getElem?_insert]

theorem invariant_start (hg : g.WellFormed) : Invariant g (fun _ => False) (start g g.vars) := by
  obtain ⟨hfit, hmask⟩ := fits_map (f := fun _ : Variable => Mask.zero)
    (fun _ => Mask.proper_zero) (fun v (_ : v ∉ g.vars) => rfl)
  have hbefore : ∀ (id : Nat) c, (start g g.vars).before[id]? = some c →
      id = g.entry ∧ c = g.vars.map fun _ => Mask.zero := by
    intro id c hc
    rw [getElem?_before_start] at hc
    split_ifs at hc with heq
    exact ⟨heq.symm, (Option.some.inj hc).symm⟩
  have hentry : (start g g.vars).before[g.entry]? = some (g.vars.map fun _ => Mask.zero) := by
    rw [getElem?_before_start, if_pos rfl]
  constructor
  case nodup => exact List.nodup_singleton _
  case queued =>
    intro id hid
    rw [List.mem_singleton.1 hid]
    exact ⟨_, hentry⟩
  case node =>
    intro id c hc
    rw [(hbefore id c hc).1]
    exact hg.entry
  case fits =>
    intro id c hc
    rw [(hbefore id c hc).2]
    exact hfit
  case entry => exact ⟨_, hentry, fun v => by rw [hmask]; exact (Mask.has_zero _).2 rfl⟩
  case realized =>
    intro n hn c hc v k hk
    obtain ⟨hid, rfl⟩ := hbefore _ _ hc
    rw [hmask, Mask.has_zero] at hk
    exact ⟨[], .entry hn hid, hk.symm⟩
  case settled =>
    intro n _ c hc hq
    exact absurd (List.mem_singleton.2 (hbefore _ _ hc).1) hq
  case overwrites => intro v id hv; cases hv

/-- The run lemma. -/
theorem Comes.invariant {s : Sweep} (hg : g.WellFormed) (h : Comes g s) :
    Invariant g (fun _ => False) s := by
  induction h with
  | refl => exact invariant_start hg
  | tail _ hs ih => exact ih.step hg hs

/-! ## A sweep with an empty queue -/

/-- At the end the counts in front of every node are those of the paths that arrive there. -/
theorem Comes.arriving {s : Sweep} (hg : g.WellFormed) (h : Comes g s) (hq : s.queue = [])
    {t : Trace} {n : Node} (ht : g.Arrives t n) :
    ∃ c, s.before[n.id]? = some c ∧ ∀ v, (maskOf g.vars c v).has (.of (Trace.count v t)) := by
  have inv := h.invariant hg
  induction ht with
  | entry hn hid =>
    obtain ⟨c, hc, hzero⟩ := inv.entry
    exact ⟨c, hid ▸ hc, hzero⟩
  | @step t m n kind hm he hn ih =>
    obtain ⟨c, hc, hhas⟩ := ih
    obtain ⟨-, -, hpassed⟩ := inv.settled m hm.mem c hc (by simp [hq])
    obtain ⟨d, hd, hsub⟩ := hpassed _ he rfl fun h => h
    refine ⟨d, hd, fun v => hsub v _ ?_⟩
    rw [m.has_behind ((inv.fits _ _ hc).proper v), Trace.count_append,
      CountClass.of_foldl_tally]
    exact ⟨_, hhas v, rfl⟩

end Sweep

end WriteOnce
