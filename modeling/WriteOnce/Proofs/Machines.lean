import WriteOnce.Proofs.Labels

/-!
# Machines that draft

A machine does one step after the other on a draft. It performs a drafting if from
its state it comes, in finitely many steps, to what the drafting leaves behind, or
to a step that fails with the same error. What performs the parts of a drafting one
behind the other performs the whole.
-/

namespace WriteOnce

namespace FlowGraph

/-- What is done next, unless there is nothing that can be done. -/
abbrev Machine (σ : Type) := σ → Option (Drafting σ)

namespace Machine

variable {σ τ α β : Type} {next : Machine σ} {b b' : σ} {d d' : Draft} {c c' : σ × Draft}

/-- Runs for at most so many steps, until it has ended or fails. -/
def run (next : Machine σ) (ended : σ → Bool) :
    Nat → σ × Draft → Option (Except AnalysisError Draft)
  | 0, c => if ended c.1 then some (.ok c.2) else none
  | n + 1, c =>
    if ended c.1 then some (.ok c.2)
    else (next c.1).bind fun m =>
      match m c.2 with
      | .ok c' => next.run ended n c'
      | .error e => some (.error e)

def Steps (next : Machine σ) (c c' : σ × Draft) : Prop :=
  ∃ m, next c.1 = some m ∧ m c.2 = .ok c'

abbrev Reaches (next : Machine σ) : σ × Draft → σ × Draft → Prop :=
  Relation.ReflTransGen next.Steps

def Fails (next : Machine σ) (c : σ × Draft) (e : AnalysisError) : Prop :=
  ∃ m, next c.1 = some m ∧ m c.2 = .error e

/-- Comes to an outcome: `K` says which states stand for a result. -/
def ComesTo (next : Machine σ) (c : σ × Draft) (K : α → σ → Draft → Prop) :
    Except AnalysisError (α × Draft) → Prop
  | .ok (x, d) => ∃ b, next.Reaches c (b, d) ∧ K x b d
  | .error e => ∃ c', next.Reaches c c' ∧ next.Fails c' e

def Performs (next : Machine σ) (b : σ) (d : Draft) (m : Drafting α)
    (K : α → σ → Draft → Prop) : Prop :=
  next.ComesTo (b, d) K (m d)

/-- The rest of a step is the beginning of a drafting, and the steps behind it perform
what is left of that. -/
def Finishes (next : Machine σ) (rest : Drafting σ) (d : Draft) (m : Drafting α)
    (K : α → σ → Draft → Prop) : Prop :=
  match rest d with
  | .ok c => next.ComesTo c K (m d)
  | .error e => m d = .error e

variable {K K' : α → σ → Draft → Prop} {L : β → σ → Draft → Prop} {m : Drafting α}
  {f : α → Drafting β} {rest : Drafting σ} {outcome : Except AnalysisError (α × Draft)}

theorem ComesTo.of_reaches (h : next.ComesTo c' K outcome) (hc : next.Reaches c c') :
    next.ComesTo c K outcome := by
  cases outcome with
  | ok r =>
    obtain ⟨b, hb, hK⟩ := h
    exact ⟨b, hc.trans hb, hK⟩
  | error e =>
    obtain ⟨c'', hc'', he⟩ := h
    exact ⟨c'', hc.trans hc'', he⟩

namespace Performs

theorem done {x : α} (h : K x b d) : next.Performs b d (pure x) K := ⟨b, .refl, h⟩

/-- The states between are those that are reached. -/
theorem bind (h : next.Performs b d m K)
    (hf : ∀ x b' d', next.Reaches (b, d) (b', d') → K x b' d' →
      next.Performs b' d' (f x) L) : next.Performs b d (m >>= f) L := by
  change next.ComesTo (b, d) L (m d >>= fun r => f r.1 r.2)
  unfold Performs at h
  cases hm : m d with
  | ok r =>
    rw [hm] at h
    obtain ⟨b', hb', hK⟩ := h
    exact (hf r.1 b' r.2 hb' hK).of_reaches hb'
  | error e =>
    rw [hm] at h
    exact h

theorem mono (h : next.Performs b d m K) (hK : ∀ x b' d', K x b' d' → K' x b' d') :
    next.Performs b d m K' := by
  unfold Performs at *
  cases hm : m d with
  | ok r =>
    rw [hm] at h
    obtain ⟨b', hb', h⟩ := h
    exact ⟨b', hb', hK _ _ _ h⟩
  | error e =>
    rw [hm] at h
    exact h

theorem step (hb : next b = some rest) (h : next.Finishes rest d m K) :
    next.Performs b d m K := by
  unfold Finishes at h
  unfold Performs
  cases hrest : rest d with
  | ok c =>
    rw [hrest] at h
    exact h.of_reaches (.single ⟨rest, hb, hrest⟩)
  | error e =>
    rw [hrest] at h
    rw [h]
    exact ⟨(b, d), .refl, rest, hb, hrest⟩

/-- A step that drafts nothing. -/
theorem move (hb : next b = some (pure b')) (h : next.Performs b' d m K) :
    next.Performs b d m K :=
  step hb h

theorem ite {p : Prop} [Decidable p] {m' : Drafting α} (h : p → next.Performs b d m K)
    (h' : ¬p → next.Performs b' d m' K) :
    next.Performs (if p then b else b') d (if p then m else m') K := by
  split
  · exact h ‹_›
  · exact h' ‹_›

end Performs

namespace Finishes

theorem done (h : next.Performs b d m K) : next.Finishes (pure b) d m K := h

theorem bind {act : Drafting α} {g : α → Drafting σ}
    (h : ∀ x d', act d = .ok (x, d') → next.Finishes (g x) d' (f x) L) :
    next.Finishes (act >>= g) d (act >>= f) L := by
  change match (act d >>= fun r => g r.1 r.2 : Except AnalysisError (σ × Draft)) with
    | .ok c => next.ComesTo c L (act d >>= fun r => f r.1 r.2)
    | .error e => (act d >>= fun r => f r.1 r.2) = .error e
  cases hact : act d with
  | ok r => exact h r.1 r.2 hact
  | error e => rfl

theorem ite {p : Prop} [Decidable p] {rest' : Drafting σ} {m' : Drafting α}
    (h : p → next.Finishes rest d m K) (h' : ¬p → next.Finishes rest' d m' K) :
    next.Finishes (if p then rest else rest') d (if p then m else m') K := by
  split
  · exact h ‹_›
  · exact h' ‹_›

/-- The step looks at the draft. -/
theorem read {g : Draft → Drafting σ} (h : next.Finishes (g d) d m K) :
    next.Finishes (get >>= g) d m K := h

/-- The step is the whole drafting. -/
theorem last {act : Drafting α} {g : α → σ} (h : ∀ x d', K x (g x) d') :
    next.Finishes (act >>= fun x => pure (g x)) d act K := by
  rw [← bind_pure act, bind_assoc]
  simp only [pure_bind]
  exact bind fun x d' _ => done (.done (h x d'))

theorem throw {e : AnalysisError} : next.Finishes (throw e) d (throw e : Drafting α) K := rfl

end Finishes

/-! ## Machines inside others -/

/-- A machine that takes over the steps of another one takes over what that one performs. -/
theorem Performs.inside {outer : Machine τ} (wrap : σ → τ)
    (hsteps : ∀ b rest, next b = some rest → outer (wrap b) = some (wrap <$> rest))
    (h : next.Performs b d m K) :
    outer.Performs (wrap b) d m fun x t d' => ∃ b', t = wrap b' ∧ K x b' d' := by
  have hstep {c c' : σ × Draft} (hc : next.Steps c c') :
      outer.Steps (wrap c.1, c.2) (wrap c'.1, c'.2) := by
    obtain ⟨rest, hnext, hrest⟩ := hc
    refine ⟨_, hsteps _ _ hnext, ?_⟩
    change (rest c.2 >>= fun r => (.ok (wrap r.1, r.2) : Except AnalysisError (τ × Draft))) = _
    rw [hrest]
    rfl
  have hreach {c c' : σ × Draft} (hc : next.Reaches c c') :
      outer.Reaches (wrap c.1, c.2) (wrap c'.1, c'.2) :=
    hc.lift (fun c => (wrap c.1, c.2)) fun _ _ => hstep
  unfold Performs at *
  cases hm : m d with
  | ok r =>
    rw [hm] at h
    obtain ⟨b', hb', hK⟩ := h
    exact ⟨wrap b', hreach hb', b', rfl, hK⟩
  | error e =>
    rw [hm] at h
    obtain ⟨c', hc', rest, hnext, hrest⟩ := h
    refine ⟨_, hreach hc', _, hsteps _ _ hnext, ?_⟩
    change (rest c'.2 >>= fun r => (.ok (wrap r.1, r.2) : Except AnalysisError (τ × Draft))) = _
    rw [hrest]
    rfl

/-! ## Runs -/

section

variable {ended : σ → Bool}

theorem run_of_ended (hc : ended c.1 = true) (n : Nat) : next.run ended n c = some (.ok c.2) := by
  cases n <;> simp [run, hc]

variable (hended : ∀ b, ended b = true → next b = none)
include hended

theorem run_succ (hc : next c.1 = some rest) (n : Nat) :
    next.run ended (n + 1) c =
      match rest c.2 with
      | .ok c' => next.run ended n c'
      | .error e => some (.error e) := by
  have hgoing : ended c.1 = false := by
    by_contra hcon
    rw [hended c.1 (by simpa using hcon)] at hc
    cases hc
  simp only [run, hgoing, hc, Option.bind_some]
  rfl

theorem exists_run_of_reaches {outcome : Except AnalysisError Draft} (hc : next.Reaches c c')
    (h : ∃ n, ∀ k, n ≤ k → next.run ended k c' = some outcome) :
    ∃ n, ∀ k, n ≤ k → next.run ended k c = some outcome := by
  induction hc using Relation.ReflTransGen.head_induction_on with
  | refl => exact h
  | head hstep _ ih =>
    obtain ⟨rest, hnext, hrest⟩ := hstep
    obtain ⟨n, hn⟩ := ih
    refine ⟨n + 1, fun k hk => ?_⟩
    obtain ⟨k, rfl⟩ : ∃ k', k = k' + 1 := ⟨k - 1, by omega⟩
    rw [run_succ hended hnext, hrest]
    exact hn k (by omega)

/-- A machine that performs a drafting, and has then ended, has the same outcome after finitely
many steps. -/
theorem exists_run (h : next.Performs b d m fun _ b' _ => ended b' = true) :
    ∃ n, ∀ k, n ≤ k → next.run ended k (b, d) = some ((m d).map Prod.snd) := by
  unfold Performs at h
  cases hm : m d with
  | ok r =>
    rw [hm] at h
    obtain ⟨b', hb', hK⟩ := h
    exact exists_run_of_reaches hended hb' ⟨0, fun k _ => run_of_ended hK k⟩
  | error e =>
    rw [hm] at h
    obtain ⟨c', hc', rest, hnext, hrest⟩ := h
    refine exists_run_of_reaches hended hc' ⟨1, fun k hk => ?_⟩
    obtain ⟨k, rfl⟩ : ∃ k', k = k' + 1 := ⟨k - 1, by omega⟩
    rw [run_succ hended hnext, hrest]
    rfl

end

end Machine

end FlowGraph

end WriteOnce
