import WriteOnce.Proofs.MovedTokens

/-!
# Scans that end

A scan ahead stays among the tokens: what is left behind it is a rest of those it began with, and
an operator made of arrows has no more of them than there are.
-/

namespace WriteOnce

namespace Lookahead

theorem afterClosing_suffix (depth : Nat) (ts : List Token) : afterClosing depth ts <:+ ts := by
  induction ts generalizing depth with
  | nil => exact List.suffix_rfl
  | cons t ts ih =>
    have hlater : ∀ depth, afterClosing depth ts <:+ t :: ts := fun depth =>
      (ih depth).trans (List.suffix_cons t ts)
    simp only [afterClosing]
    split_ifs
    · exact hlater _
    · cases depth with
      | zero => exact List.suffix_cons t ts
      | succ depth => exact hlater depth
    · exact hlater _

theorem skipBrackets_suffix (ts : List Token) : skipBrackets ts <:+ ts := by
  fun_induction skipBrackets ts with
  | case1 t u ts _ ih => exact ih.trans ⟨[t, u], rfl⟩
  | case2 | case3 => exact List.suffix_rfl

theorem skipTypeFrom_suffix {scan : TypeScan} {rest : List Token} : (ts : List Token) →
    skipTypeFrom scan ts = some rest → rest <:+ ts
  | [], h => by
    cases scan <;> cases h <;> exact List.suffix_rfl
  | t :: ts, h => by
    have hlater : ∀ {scan}, skipTypeFrom scan ts = some rest → rest <:+ t :: ts := fun h =>
      (skipTypeFrom_suffix ts h).trans (List.suffix_cons t ts)
    by_cases hscan : ∀ depth, scan ≠ .inside depth
    · rw [skipTypeFrom_part hscan] at h
      split_ifs at h
      · exact hlater h
      · obtain _ | ⟨n, us⟩ := ts
        · cases h
          exact List.suffix_rfl
        · dsimp only at h
          split_ifs at h
          · exact (skipTypeFrom_suffix us h).trans ⟨[t, n], rfl⟩
          · cases h
            exact List.suffix_rfl
      · cases h
        exact skipBrackets_suffix _
    · obtain ⟨depth, rfl⟩ : ∃ depth, scan = .inside depth := by simpa using hscan
      simp only [skipTypeFrom] at h
      split_ifs at h
      · exact hlater h
      · cases depth <;> exact hlater h
      · exact hlater h

theorem skipType?_suffix {ts rest : List Token} (h : skipType? ts = some rest) : rest <:+ ts := by
  obtain _ | ⟨t, ts⟩ := ts
  · cases h
  · rw [skipType?] at h
    split_ifs at h
    · cases h
      exact (skipBrackets_suffix ts).trans (List.suffix_cons t ts)
    · exact (skipTypeFrom_suffix ts h).trans (List.suffix_cons t ts)

/-- An operator of arrows is made of tokens that are there. -/
theorem arrows_extendArrows_le (arrows : Nat) (last : Token) (more : Nat) (ts : List Token) :
    arrows ≤ (extendArrows arrows last more ts).arrows ∧
      (extendArrows arrows last more ts).arrows ≤ arrows + ts.length := by
  induction more generalizing arrows last ts with
  | zero => exact ⟨Nat.le_refl _, Nat.le_add_right ..⟩
  | succ more ih =>
    cases ts with
    | nil => exact ⟨Nat.le_refl _, Nat.le_refl _⟩
    | cons t ts =>
      rw [extendArrows, List.length_cons]
      split_ifs
      · have := ih (arrows + 1) t ts
        omega
      all_goals
        dsimp only
        omega

theorem arrows_arrowRun?_le {ts : List Token} {run : ArrowRun} (h : arrowRun? ts = some run) :
    0 < run.arrows ∧ run.arrows ≤ ts.length := by
  obtain _ | ⟨t, ts⟩ := ts
  · cases h
  · rw [arrowRun?] at h
    split_ifs at h
    · cases h
      exact ⟨Nat.one_pos, Nat.le_add_left ..⟩
    · cases h
      have := arrows_extendArrows_le 1 t 2 ts
      rw [List.length_cons]
      omega

/-- What is left behind a scan is a rest of the tokens that it is begun with. -/
structure ScansEnd (ts : List Token) : Prop where
  modifiers : skipModifiers ts <:+ ts
  group (depth : Nat) : afterClosing depth ts <:+ ts
  type (rest : List Token) (h : skipType? ts = some rest) : rest <:+ ts
  typeParams (depth : Nat) (rest : List Token) (h : skipTypeParams? depth ts = some rest) :
    rest <:+ ts
  arrows (run : ArrowRun) (h : arrowRun? ts = some run) :
    0 < run.arrows ∧ run.arrows ≤ ts.length

theorem scansEnd (ts : List Token) : ScansEnd ts :=
  ⟨skipModifiers_suffix ts, fun depth => afterClosing_suffix depth ts, fun _ => skipType?_suffix,
    fun _ _ => skipTypeParams?_suffix, fun _ => arrows_arrowRun?_le⟩

end Lookahead

end WriteOnce
