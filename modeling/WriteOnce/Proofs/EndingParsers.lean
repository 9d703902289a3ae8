import WriteOnce.Proofs.ParallelParsing

/-!
# Parsers that end

Wherever a parser begins among the tokens, it leaves a rest of them or fails at one of them, and
often it has taken a token before it returns. Beside it another parser is run that nests deeper: it
does the same, unless the first one is cut off.

Whether a token has been taken is a Boolean, of the value that is returned (`takes`) and of the
place where a parser begins (`inside`). The Booleans compute along a sequence of steps, so that a
production is gone through as it is written, up to the step at which a token is taken.
-/

namespace WriteOnce

variable {whole s s₁ s₂ : TokenStream}

namespace TokenStream

instance (s s₁ : TokenStream) : Decidable (s.Leaves s₁) :=
  decidable_of_iff (s₁.ahead <:+ s.ahead ∧ s₁.stop = s.stop)
    ⟨fun h => ⟨h.1, h.2⟩, fun h => ⟨h.suffix, h.stop⟩⟩

theorem Leaves.length_le (h : s.Leaves s₁) : s₁.ahead.length ≤ s.ahead.length :=
  h.suffix.length_le

/-- The stream is left of the whole one; inside it, a token has been taken. -/
structure Within (inside : Bool) (whole s : TokenStream) : Prop where
  leaves : whole.Leaves s
  less : inside = true → s.ahead.length < whole.ahead.length

theorem within_false (h : whole.Leaves s) : whole.Within false s := ⟨h, Bool.noConfusion⟩

theorem Within.of_true {inside : Bool} (h : whole.Within true s) : whole.Within inside s :=
  ⟨h.leaves, fun _ => h.less rfl⟩

/-- Behind a token, the stream is inside. -/
theorem Within.next {inside taken : Bool} (h : whole.Within inside s) (hs₁ : s.Leaves s₁)
    (htaken : taken = true → s₁.ahead.length < s.ahead.length) :
    whole.Within (taken || inside) s₁ := by
  refine ⟨h.leaves.trans hs₁, fun hinside => ?_⟩
  rcases Bool.or_eq_true_iff.1 hinside with htaken' | hinside
  · exact (htaken htaken').trans_le h.leaves.length_le
  · exact hs₁.length_le.trans_lt (h.less hinside)

/-- There is a token ahead if something holds of the current one that does not hold of the end. -/
theorem ahead_ne_nil {P : Token → Prop} (h : P s.current) (hend : ¬P (.endAt s.stop)) :
    s.ahead ≠ [] := by
  obtain ⟨_ | ⟨t, ts⟩, stop⟩ := s
  · exact absurd h hend
  · exact List.cons_ne_nil t ts

theorem ahead_ne_nil_of_text {word : Text} (hword : word.isEmpty = false)
    (h : s.current.text = word) : s.ahead ≠ [] :=
  ahead_ne_nil (P := fun t => t.text.isEmpty = false) (h ▸ hword) Bool.noConfusion

theorem ahead_ne_nil_of_sees {word : Text} (hword : word.isEmpty = false)
    (h : s.sees word = true) : s.ahead ≠ [] :=
  ahead_ne_nil_of_text hword (of_decide_eq_true (Bool.and_eq_true_iff.1 h).1)

theorem ahead_ne_nil_of_isIdent (h : s.current.isIdent = true) : s.ahead ≠ [] :=
  ahead_ne_nil (P := fun t => t.isIdent = true) h Bool.noConfusion

theorem ahead_ne_nil_of_op (h : s.current.kind = .op) : s.ahead ≠ [] :=
  ahead_ne_nil (P := fun t => t.kind = .op) h Token.Kind.noConfusion

theorem length_skip_lt (h : s.ahead ≠ []) : (s.skip 1).ahead.length < s.ahead.length := by
  have hpos := List.length_pos_iff.2 h
  rw [skip, List.length_drop]
  omega

end TokenStream

namespace Parser

variable {α β σ : Type} {cut : Prop} {inside : Bool}

/-! ## Two runs on the same tokens -/

/-- Both runs give the same: a value with a rest so related, or an error at one of these places.
Only the first one can be cut off, if that is possible at all. -/
inductive Ended (cut : Prop) (places : List Pos) (R : TokenStream → α → Prop) :
    Except ParseError (α × TokenStream) → Except ParseError (α × TokenStream) → Prop
  | ok {a : α} {s : TokenStream} (h : R s a) : Ended cut places R (.ok (a, s)) (.ok (a, s))
  | error {fault : ParseFault} {pos : Pos} (hpos : pos ∈ places) (hfault : fault ≠ .tooDeep) :
    Ended cut places R (.error ⟨fault, pos⟩) (.error ⟨fault, pos⟩)
  | cut {pos : Pos} {y : Except ParseError (α × TokenStream)} (h : cut) (hpos : pos ∈ places) :
    Ended cut places R (.error ⟨.tooDeep, pos⟩) y

/-- Begun here, the parser leaves a rest of the tokens or fails at one of the whole stream. It has
taken a token if it returns a value that `takes` holds of. -/
def EndsAt (cut : Prop) (whole s : TokenStream) (takes : α → Bool) (p q : Parser α) : Prop :=
  Ended cut whole.allPlaces
    (fun s₁ a => s.Leaves s₁ ∧ (takes a = true → s₁.ahead.length < s.ahead.length)) (p s) (q s)

/-- The same wherever the parser begins in the whole stream, or inside it. -/
def Ends (cut : Prop) (whole : TokenStream) (inside : Bool) (takes : α → Bool) (p q : Parser α) :
    Prop :=
  ∀ s, whole.Within inside s → EndsAt cut whole s takes p q

variable {takes : α → Bool} {p q : Parser α}

namespace EndsAt

theorem pure {a : α} (h : takes a = false) : EndsAt cut whole s takes (pure a) (pure a) :=
  .ok ⟨.refl s, fun htakes => nomatch h.symm.trans htakes⟩

/-- What follows need not take a token any more if one is taken, and begins inside. -/
theorem bind {f f' : α → Parser β} {must : β → Bool} (hs : whole.Within inside s)
    (h : EndsAt cut whole s takes p q)
    (hnext : ∀ a, Ends cut whole (takes a || inside) (fun b => !takes a && must b) (f a) (f' a)) :
    EndsAt cut whole s must (p >>= f) (q >>= f') := by
  change Ended cut _ _ (Except.bind (p s) _) (Except.bind (q s) _)
  unfold EndsAt at h
  generalize p s = x, q s = y at h
  cases h with
  | error hpos hfault => exact .error hpos hfault
  | cut h hpos => exact .cut h hpos
  | @ok a s₁ h =>
    obtain ⟨hs₁, hless⟩ := h
    have hrun := hnext a s₁ (hs.next hs₁ hless)
    unfold EndsAt at hrun
    simp only [Except.bind]
    generalize f a s₁ = x, f' a s₁ = y at hrun
    cases hrun with
    | error hpos hfault => exact .error hpos hfault
    | cut h hpos => exact .cut h hpos
    | @ok b s₂ h =>
      refine .ok ⟨hs₁.trans h.1, fun hmust => ?_⟩
      by_cases htakes : takes a = true
      · exact h.1.length_le.trans_lt (hless htakes)
      · exact (h.2 (by simp [htakes, hmust])).trans_le hs₁.length_le

theorem of_ok {a : α} (h : EndsAt cut whole s takes p q) (hrun : p s = .ok (a, s₁)) :
    s.Leaves s₁ ∧ (takes a = true → s₁.ahead.length < s.ahead.length) := by
  rw [EndsAt, hrun] at h
  generalize q s = y at h
  cases h with
  | ok h => exact h

theorem ite {c : Prop} [Decidable c] {p' q' : Parser α} (h : c → EndsAt cut whole s takes p q)
    (h' : ¬c → EndsAt cut whole s takes p' q') :
    EndsAt cut whole s takes (if c then p else p') (if c then q else q') := by
  split_ifs with hc
  · exact h hc
  · exact h' hc

theorem imp {must : α → Bool} (h : EndsAt cut whole s takes p q)
    (himp : ∀ a, must a = true → takes a = true) : EndsAt cut whole s must p q := by
  unfold EndsAt at h ⊢
  generalize p s = x, q s = y at h
  cases h with
  | error hpos hfault => exact .error hpos hfault
  | cut h hpos => exact .cut h hpos
  | ok h => exact .ok ⟨h.1, fun hmust => h.2 (himp _ hmust)⟩

/-- A stream that is left of a whole one has no other places. -/
theorem widen (h : EndsAt cut s s takes p q) (hs : whole.Leaves s) :
    EndsAt cut whole s takes p q := by
  unfold EndsAt at h ⊢
  generalize p s = x, q s = y at h
  cases h with
  | error hpos hfault => exact .error (hs.allPlaces_subset hpos) hfault
  | cut h hpos => exact .cut h (hs.allPlaces_subset hpos)
  | ok h => exact .ok h

theorem looking {view : TokenStream → β} {f f' : β → Parser α}
    (h : EndsAt cut whole s takes (f (view s)) (f' (view s))) :
    EndsAt cut whole s takes (look view >>= f) (look view >>= f') := h

theorem skip (h : s.ahead ≠ []) : EndsAt cut whole s (fun _ => true) (skip 1) (skip 1) :=
  .ok ⟨s.leaves_skip 1, fun _ => TokenStream.length_skip_lt h⟩

theorem take (h : s.ahead ≠ []) : EndsAt cut whole s (fun _ => true) take take :=
  .ok ⟨s.leaves_skip 1, fun _ => TokenStream.length_skip_lt h⟩

end EndsAt

namespace Ends

theorem pure {a : α} (h : takes a = false) : Ends cut whole inside takes (pure a) (pure a) :=
  fun _ _ => .pure h

theorem bind {f f' : α → Parser β} {must : β → Bool} (h : Ends cut whole inside takes p q)
    (hnext : ∀ a, Ends cut whole (takes a || inside) (fun b => !takes a && must b) (f a) (f' a)) :
    Ends cut whole inside must (p >>= f) (q >>= f') :=
  fun s hs => (h s hs).bind hs hnext

theorem ite {c : Prop} [Decidable c] {p' q' : Parser α} (h : c → Ends cut whole inside takes p q)
    (h' : ¬c → Ends cut whole inside takes p' q') :
    Ends cut whole inside takes (if c then p else p') (if c then q else q') :=
  fun s hs => .ite (fun hc => h hc s hs) fun hc => h' hc s hs

theorem imp {must : α → Bool} (h : Ends cut whole inside takes p q)
    (himp : ∀ a, must a = true → takes a = true) : Ends cut whole inside must p q :=
  fun s hs => (h s hs).imp himp

/-- Where a token has been taken already, none must be taken. -/
theorem behind (h : Ends cut whole inside takes p q) :
    Ends cut whole inside (fun _ => false) p q :=
  h.imp fun _ hmust => nomatch hmust

/-- More can be said of what begins inside. -/
theorem later (h : Ends cut whole inside takes p q) : Ends cut whole true takes p q :=
  fun s hs => h s hs.of_true

/-! ### Steps -/

variable {must : β → Bool} {f f' : α → Parser β}

/-- A look at the tokens, after which the parser goes on where it stands. -/
theorem lookingAt {view : TokenStream → α}
    (h : ∀ s, whole.Within inside s → EndsAt cut whole s must (f (view s)) (f' (view s))) :
    Ends cut whole inside must (look view >>= f) (look view >>= f') :=
  fun s hs => h s hs

theorem looking {view : TokenStream → α} (h : ∀ a, Ends cut whole inside must (f a) (f' a)) :
    Ends cut whole inside must (look view >>= f) (look view >>= f') :=
  lookingAt fun s hs => h (view s) s hs

/-- A look that tells two ways to go on apart. -/
theorem seeing {view : TokenStream → Bool} {must : α → Bool} {p' q' : Parser α}
    (h : Ends cut whole inside must p q) (h' : Ends cut whole inside must p' q') :
    Ends cut whole inside must (look view >>= fun found => if found = true then p else p')
      (look view >>= fun found => if found = true then q else q') :=
  looking fun _ => .ite (fun _ => h) fun _ => h'

theorem placing {f f' : Pos → Parser β}
    (h : ∀ pos ∈ whole.allPlaces, Ends cut whole inside must (f pos) (f' pos)) :
    Ends cut whole inside must (pos >>= f) (pos >>= f') :=
  lookingAt fun s hs => h _ (hs.leaves.allPlaces_subset s.current_pos_mem) s hs

end Ends

theorem ends_fail {fault : ParseFault} (h : fault ≠ .tooDeep) :
    Ends cut whole inside takes (fail fault) (fail fault) :=
  fun s hs => .error (hs.leaves.allPlaces_subset s.current_pos_mem) h

theorem ends_failWith {fault : Text → ParseFault} (h : ∀ text, fault text ≠ .tooDeep) :
    Ends cut whole inside takes (failWith fault) (failWith fault) :=
  fun s hs => .error (hs.leaves.allPlaces_subset s.current_pos_mem) (h _)

theorem ends_failAt {pos : Pos} {fault : ParseFault} (hpos : pos ∈ whole.allPlaces)
    (h : fault ≠ .tooDeep) : Ends cut whole inside takes (failAt pos fault) (failAt pos fault) :=
  fun _ _ => .error hpos h

theorem ends_skip (count : Nat) :
    Ends cut whole inside (fun _ => false) (skip count) (skip count) :=
  fun s _ => .ok ⟨s.leaves_skip count, Bool.noConfusion⟩

theorem ends_take : Ends cut whole inside (fun _ => false) take take :=
  fun s _ => .ok ⟨s.leaves_skip 1, Bool.noConfusion⟩

theorem ends_expect {word : Text} (hword : word.isEmpty = false) :
    Ends cut whole inside (fun _ => true) (expect word) (expect word) := by
  intro s hs
  by_cases h : s.sees word = true
  · rw [EndsAt, expect, if_pos h]
    exact EndsAt.take (TokenStream.ahead_ne_nil_of_sees hword h)
  · rw [EndsAt, expect, if_neg h]
    exact ends_failWith (fun _ => ParseFault.noConfusion) s hs

theorem ends_expectIdent : Ends cut whole inside (fun _ => true) expectIdent expectIdent := by
  intro s hs
  by_cases h : s.current.isIdent = true
  · rw [EndsAt, expectIdent, if_pos h]
    exact EndsAt.take (TokenStream.ahead_ne_nil_of_isIdent h)
  · rw [EndsAt, expectIdent, if_neg h]
    exact ends_failWith (fun _ => ParseFault.noConfusion) s hs

/-- What is accepted is taken. -/
theorem ends_accept {word : Text} (hword : word.isEmpty = false) :
    Ends cut whole inside id (accept word) (accept word) := by
  intro s hs
  rw [EndsAt, accept]
  split_ifs with h
  · have hahead := TokenStream.ahead_ne_nil_of_sees hword h
    exact .ok ⟨s.leaves_skip 1, fun _ => TokenStream.length_skip_lt hahead⟩
  · exact .ok ⟨.refl s, Bool.noConfusion⟩

/-- A word or operator that is taken begins one way to go on, and another one is left otherwise. -/
theorem Ends.accepting {word : Text} {p' q' : Parser α} (hword : word.isEmpty = false)
    (h : Ends cut whole true (fun _ => false) p q) (h' : Ends cut whole inside takes p' q') :
    Ends cut whole inside takes (accept word >>= fun found => if found = true then p else p')
      (accept word >>= fun found => if found = true then q else q') := by
  refine (ends_accept hword).bind fun found => .ite (fun hfound => ?_) fun hfound => ?_
  · subst hfound
    exact h
  · rw [Bool.eq_false_iff.2 hfound]
    exact h'

theorem ends_discard {must : Bool} (h : Ends cut whole inside (fun _ => must) p q) :
    Ends cut whole inside (fun _ => must) (discard p) (discard q) := by
  refine h.bind fun _ => .pure ?_
  exact Bool.not_and_self must

namespace Ends

variable {must : β → Bool}

theorem expecting {word : Text} {f f' : Token → Parser β} (hword : word.isEmpty = false)
    (h : ∀ t, t.pos ∈ whole.allPlaces → Ends cut whole true (fun _ => false) (f t) (f' t)) :
    Ends cut whole inside must (expect word >>= f) (expect word >>= f') := by
  intro s hs
  have hpos := hs.leaves.allPlaces_subset s.current_pos_mem
  by_cases hseen : s.sees word = true
  · have hrun : ∀ f : Token → Parser β,
        (expect word >>= f) s = (skip 1 >>= fun _ => f s.current) s := by
      intro f
      change Except.bind (expect word s) _ = _
      rw [expect, if_pos hseen]
      rfl
    rw [EndsAt, hrun, hrun]
    exact (EndsAt.skip (TokenStream.ahead_ne_nil_of_sees hword hseen)).bind hs fun _ => h _ hpos
  · change Ended cut _ _ (Except.bind (expect word s) _) (Except.bind (expect word s) _)
    rw [expect, if_neg hseen]
    exact .error hpos ParseFault.noConfusion

theorem closing {word : Text} {p q : Parser β} (hword : word.isEmpty = false)
    (h : Ends cut whole true (fun _ => false) p q) :
    Ends cut whole inside must (discard (expect word) >>= fun _ => p)
      (discard (expect word) >>= fun _ => q) :=
  (ends_discard (ends_expect hword)).bind fun _ => h

theorem naming {f f' : Token → Parser β}
    (h : ∀ t, Ends cut whole true (fun _ => false) (f t) (f' t)) :
    Ends cut whole inside must (expectIdent >>= f) (expectIdent >>= f') :=
  ends_expectIdent.bind h

end Ends

/-! ## Options and sequences -/

theorem ends_after {word : Text} (hword : word.isEmpty = false)
    (h : Ends cut whole true takes p q) :
    Ends cut whole inside Option.isSome (after word p) (after word q) :=
  .accepting hword (h.bind fun _ => .pure (by simp)) (.pure rfl)

/-- A loop in which every value takes a token. -/
theorem Ends.many {p q : Parser (Option α)} (h : Ends cut whole inside Option.isSome p q) :
    Ends cut whole inside (fun _ => false) (many p) (many q) := by
  have hloop : ∀ (fuel : List Token) (inside : Bool), Ends cut whole inside Option.isSome p q →
      Ends cut whole inside (fun _ => false) (many.loop p fuel) (many.loop q fuel) := by
    intro fuel
    induction fuel with
    | nil => exact fun inside h => h.bind fun _ => .pure (by simp)
    | cons t fuel ih =>
      refine fun inside h => h.bind fun x => ?_
      cases x with
      | none => exact .pure rfl
      | some a => exact (ih true h.later).bind fun _ => .pure rfl
  exact fun s hs => hloop s.ahead inside h s hs

section

variable {step step' : σ → Parser (Option σ)}

theorem ends_loop (h : ∀ a, Ends cut whole inside Option.isSome (step a) (step' a))
    (fuel : List Token) (a : σ) :
    Ends cut whole inside (fun _ => false) (iterate.loop step fuel a)
      (iterate.loop step' fuel a) := by
  induction fuel generalizing inside a with
  | nil => exact (h a).bind fun _ => .pure (by simp)
  | cons t fuel ih =>
    refine (h a).bind fun x => ?_
    cases x with
    | none => exact .pure rfl
    | some b => exact ih (fun a => (h a).later) b

theorem Ends.iterate (h : ∀ a, Ends cut whole inside Option.isSome (step a) (step' a)) (a : σ) :
    Ends cut whole inside (fun _ => false) (iterate step a) (iterate step' a) :=
  fun s hs => ends_loop h s.ahead a s hs

/-- A loop whose first step takes a token in any case. -/
theorem EndsAt.iterate {a : σ} (hs : whole.Within inside s)
    (hfirst : EndsAt cut whole s (fun _ => true) (step a) (step' a))
    (h : ∀ a, Ends cut whole true Option.isSome (step a) (step' a)) :
    EndsAt cut whole s (fun _ => true) (iterate step a) (iterate step' a) := by
  change EndsAt cut whole s _ (iterate.loop step s.ahead a) (iterate.loop step' s.ahead a)
  cases s.ahead with
  | nil => exact hfirst.bind hs fun _ => .pure rfl
  | cons t fuel =>
    refine hfirst.bind hs fun x => ?_
    cases x with
    | none => exact .pure rfl
    | some b => exact ends_loop h fuel b

end

theorem ends_separatedBy {separator : Text} (hseparator : separator.isEmpty = false)
    (h : Ends cut whole inside (fun _ => true) p q) :
    Ends cut whole inside (fun _ => true) (separatedBy separator p) (separatedBy separator q) :=
  h.bind fun _ => (Ends.many (ends_after hseparator h.later)).bind fun _ => .pure rfl

end Parser

end WriteOnce
