import WriteOnce.Proofs.EndingPrograms
import WriteOnce.Proofs.EnsuringParsers
import WriteOnce.Proofs.Identifiers
import WriteOnce.Proofs.Modifiers

/-!
# Looking ahead over types

The scan over a type ends where a parser of types ends. In the arguments of a type the scan counts
brackets, and what the parser takes there leaves the count as it was; behind the arguments both go
on with a further part of the name, or with brackets.

So a declaration is recognized whenever there is one, in a statement and in the header of a loop.
-/

namespace WriteOnce

open WriteOnce.Parser Lookahead

namespace TokenStream

/-- Nothing ahead is quoted, and what is a name can be declared. -/
structure Plain (s : TokenStream) : Prop where
  named : s.Named
  unquoted : ∀ t ∈ s.ahead, t.isQuoted = false

namespace Plain

variable {s s₁ : TokenStream}

theorem left (h : s.Plain) (hs : s₁.ahead <:+ s.ahead) : s₁.Plain :=
  ⟨h.named.left hs, fun t ht => h.unquoted t (hs.subset ht)⟩

theorem skip (h : s.Plain) (count : Nat) : (s.skip count).Plain :=
  h.left (s.leaves_skip count).suffix

theorem isQuoted_current (h : s.Plain) : s.current.isQuoted = false := by
  obtain ⟨_ | ⟨t, ts⟩, stop⟩ := s
  · rfl
  · exact h.unquoted t List.mem_cons_self

theorem sees_iff (h : s.Plain) {word : Text} : s.sees word = true ↔ s.current.text = word := by
  simp [sees, h.isQuoted_current]

end Plain

end TokenStream

namespace Lookahead

variable {s : TokenStream} {depth : Nat} {rest : Option (List Token)}

/-- A scan that has come here is going to end so. -/
structure Scanning (scan : TypeScan) (rest : Option (List Token)) (s : TokenStream) : Prop where
  plain : s.Plain
  ends : skipTypeFrom scan s.ahead = rest

namespace Scanning

theorem next {scan scan' : TypeScan} (h : Scanning scan rest s) (hahead : s.ahead ≠ [])
    (hstep : ∀ ts, skipTypeFrom scan (s.current :: ts) = skipTypeFrom scan' ts) :
    Scanning scan' rest (s.skip 1) := by
  refine ⟨h.plain.skip 1, ?_⟩
  obtain ⟨_ | ⟨t, ts⟩, stop⟩ := s
  · exact absurd rfl hahead
  · exact (hstep ts).symm.trans h.ends

theorem opens (h : Scanning (.inside depth) rest s) (hs : s.sees "<" = true) :
    Scanning (.inside (depth + 1)) rest (s.skip 1) := by
  have htext := h.plain.sees_iff.1 hs
  exact h.next (TokenStream.ahead_ne_nil_of_text rfl htext) fun ts => by simp [skipTypeFrom, htext]

theorem closes (h : Scanning (.inside (depth + 1)) rest s) (hs : s.sees ">" = true) :
    Scanning (.inside depth) rest (s.skip 1) := by
  have htext := h.plain.sees_iff.1 hs
  have hne : Text.ofString ">" ≠ Text.ofString "<" := by decide
  exact h.next (TokenStream.ahead_ne_nil_of_text rfl htext) fun ts => by
    simp [skipTypeFrom, htext, hne]

theorem closesLast (h : Scanning (.inside 0) rest s) (hs : s.sees ">" = true) :
    Scanning .closed rest (s.skip 1) := by
  have htext := h.plain.sees_iff.1 hs
  have hne : Text.ofString ">" ≠ Text.ofString "<" := by decide
  exact h.next (TokenStream.ahead_ne_nil_of_text rfl htext) fun ts => by
    simp [skipTypeFrom, htext, hne]

theorem passes (h : Scanning (.inside depth) rest s) (hahead : s.ahead ≠ [])
    (hpasses : inTypeArguments s.current = true) (hopens : s.current.text ≠ "<")
    (hcloses : s.current.text ≠ ">") : Scanning (.inside depth) rest (s.skip 1) :=
  h.next hahead fun ts => by simp [skipTypeFrom, hopens, hcloses, hpasses]

theorem passesName (h : Scanning (.inside depth) rest s) (hident : s.current.isIdent = true) :
    Scanning (.inside depth) rest (s.skip 1) := by
  have hname := h.plain.named.current hident
  exact h.passes (TokenStream.ahead_ne_nil_of_isIdent hident) (by simp [inTypeArguments, hident])
    (hname.ne (by decide)) (hname.ne (by decide))

theorem passesWord (h : Scanning (.inside depth) rest s)
    (hword : s.current.text ∈ primitiveNames ++ typeArgumentWords) :
    Scanning (.inside depth) rest (s.skip 1) := by
  have hother : ∀ word ∈ primitiveNames ++ typeArgumentWords,
      word.isEmpty = false ∧ word ≠ "<" ∧ word ≠ ">" := by decide
  obtain ⟨hnonempty, hopens, hcloses⟩ := hother _ hword
  have hpasses : inTypeArguments s.current = true := by
    rcases List.mem_append.1 hword with hword | hword <;> simp [inTypeArguments, hword]
  exact h.passes (TokenStream.ahead_ne_nil_of_text hnonempty rfl) hpasses hopens hcloses

end Scanning

end Lookahead

namespace Production

variable {g : Grammar} {s : TokenStream} {depth : Nat} {rest : Option (List Token)}

/-! ## Arguments of types -/

/-- In the arguments of a type a scan goes over the types that a parser takes. -/
def Crosses (p : Parser α) : Prop :=
  ∀ depth rest s, Scanning (.inside depth) rest s →
    p.Ensures s fun _ s' => Scanning (.inside depth) rest s'

theorem crosses_emptyBrackets : Crosses emptyBrackets := by
  intro depth rest s h x s' hrun
  rw [emptyBrackets] at hrun
  split_ifs at hrun with hbrackets
  · cases hrun
    obtain ⟨hopens, hcloses⟩ := Bool.and_eq_true_iff.1 hbrackets
    rw [h.plain.sees_iff] at hopens
    have hopened := h.passesWord (hopens ▸ by decide)
    have hcloses : (s.skip 1).current.text = "]" := by
      rw [TokenStream.current_skip_one]
      exact of_decide_eq_true hcloses
    have hclosed := hopened.passesWord (hcloses ▸ by decide)
    simpa [TokenStream.skip, List.drop_drop] using hclosed
  · cases hrun
    exact h

theorem crosses_dims : Crosses dims := by
  intro depth rest s h
  refine .bind ((Ensures.many (R := fun _ => True) h fun s h => ?_).mono fun _ _ h => .pure h.1)
  exact (crosses_emptyBrackets depth rest s h).mono fun _ _ h => ⟨h, fun _ _ => trivial⟩

section

variable (hg : Crosses g.typeRef)

include hg

theorem crosses_typeArg : Crosses (typeArg g) := by
  intro depth rest s h
  refine .looking (.accepting (fun hseen => .looking (.looking ?_)) fun _ => hg depth rest s h)
  have hwild := h.passesWord (h.plain.sees_iff.1 hseen ▸ by decide)
  refine .ite (fun hbound => ?_) fun _ => .pure hwild
  refine .bind (.skip (.bind ((hg depth rest _ ?_).mono fun _ _ h => .pure h)))
  rcases Bool.or_eq_true_iff.1 hbound with hword | hword <;>
    exact hwild.passesWord (hwild.plain.sees_iff.1 hword ▸ by decide)

/-- Between the brackets of type arguments a scan counts inside. -/
theorem ensures_typeArgs {J : TokenStream → Prop}
    (hopens : s.sees "<" = true → Scanning (.inside depth) rest (s.skip 1))
    (hcloses : ∀ s, Scanning (.inside depth) rest s → s.sees ">" = true → J (s.skip 1))
    (hnone : s.sees "<" = false → J s) : (typeArgs g).Ensures s fun _ s' => J s' := by
  refine .accepting (fun hseen => ?_) fun hseen => .pure (hnone hseen)
  have hopened := hopens hseen
  refine .accepting (fun hseen => .pure (hcloses _ hopened hseen)) fun _ => .bind ?_
  refine (Ensures.separatedBy (R := fun _ => True) (fun s h => ?_) hopened fun s h hseen =>
    h.passesWord (h.plain.sees_iff.1 hseen ▸ by decide)).mono fun _ s' h => .closing fun hseen =>
      .pure (hcloses s' h.1 hseen)
  exact (crosses_typeArg hg depth rest s h).mono fun _ _ h => ⟨h, trivial⟩

theorem crosses_typeArgs : Crosses (typeArgs g) := fun _ _ _ h =>
  ensures_typeArgs hg h.opens (fun _ h => h.closes) fun _ => h

theorem crosses_qualify (named : Text × List TypeRef) : Crosses (qualify g named) := by
  intro depth rest s h
  refine .seeing (fun hmore => .bind (.skip (.bind (.take ?_)))) fun _ => .pure h
  obtain ⟨hpoint, hname⟩ := Bool.and_eq_true_iff.1 hmore
  have hbehind := h.passesWord (h.plain.sees_iff.1 hpoint ▸ by decide)
  rw [← s.current_skip_one] at hname
  have hpart := hbehind.passesName hname
  exact .bind ((crosses_typeArgs hg depth rest _ hpart).mono fun _ _ h => .pure h)

theorem crosses_typeRef : Crosses (typeRef g) := by
  intro depth rest s h
  refine .looking (.ite (fun hprimitive => ?_) fun _ => .ite (fun hident => ?_) fun _ => .failWith)
  · have hname := of_decide_eq_true (Bool.and_eq_true_iff.1 hprimitive).1
    have hbehind := h.passesWord (List.mem_append_left _ hname)
    exact .bind (.skip (.bind ((crosses_dims depth rest _ hbehind).mono fun _ _ h => .pure h)))
  · refine .bind (.skip (.bind ?_))
    refine (crosses_typeArgs hg depth rest _ (h.passesName hident)).mono fun args s h => .bind ?_
    refine (Ensures.iterate (I := fun _ => Scanning (.inside depth) rest) h fun named s h =>
      crosses_qualify hg named depth rest s h).mono fun named s h => ?_
    exact .bind ((crosses_dims depth rest s h).mono fun _ _ h => .pure h)

end

theorem crosses_ofDepth (depth : Nat) : Crosses (Grammar.ofDepth depth).typeRef := by
  induction depth with
  | zero => exact fun _ _ _ _ => .fail
  | succ depth ih => exact crosses_typeRef ih

/-! ## Types -/

/-- Behind a part of a name and its arguments, a scan goes on as a parser does. -/
theorem ensures_outerArgs (hg : Crosses g.typeRef) (h : Scanning .named rest s) :
    (typeArgs g).Ensures s fun _ s' => Scanning .closed rest s' := by
  have hopens : s.sees "<" = true → Scanning (.inside 0) rest (s.skip 1) := by
    intro hseen
    have htext := h.plain.sees_iff.1 hseen
    refine h.next (TokenStream.ahead_ne_nil_of_text rfl htext) fun ts => ?_
    rw [skipTypeFrom_part (by simp), htext]
    rfl
  refine ensures_typeArgs hg hopens (fun _ h => h.closesLast) fun hseen => ?_
  refine ⟨h.plain, h.ends ▸ ?_⟩
  obtain ⟨_ | ⟨t, ts⟩, stop⟩ := s
  · rfl
  · have htext : t.text ≠ "<" := fun htext =>
      Bool.eq_false_iff.1 hseen (h.plain.sees_iff.2 htext)
    rw [skipTypeFrom_part (by simp), skipTypeFrom_part (by simp), decide_eq_false htext]
    rfl

theorem ensures_outerPart (hg : Crosses g.typeRef) (named : Text × List TypeRef)
    (h : Scanning .closed rest s) :
    (qualify g named).Ensures s fun x s' => x.isSome = true → Scanning .closed rest s' := by
  refine .seeing (fun hmore => .bind (.skip (.bind (.take ?_)))) fun _ => .pure nofun
  obtain ⟨hpoint, hname⟩ := Bool.and_eq_true_iff.1 hmore
  rw [h.plain.sees_iff] at hpoint
  have hbehind : Scanning .named rest ((s.skip 1).skip 1) := by
    refine ⟨(h.plain.skip 1).skip 1, ?_⟩
    obtain ⟨_ | ⟨t, _ | ⟨n, ts⟩⟩, stop⟩ := s
    · cases hpoint
    · cases hname
    · have htext : t.text = "." := hpoint
      have hident : n.isIdent = true := hname
      have hends := h.ends
      rw [skipTypeFrom_part (by simp), htext] at hends
      change skipTypeFrom .named ts = rest
      simpa [hident] using hends
  exact .bind ((ensures_outerArgs hg hbehind).mono fun _ _ h => .pure fun _ => h)

/-- Where no further part of a name follows, a scan goes on with brackets only. -/
theorem ends_of_not_qualified (h : Scanning .closed rest s)
    (hmore : (s.sees "." && s.next.isIdent) = false) : rest = some (skipBrackets s.ahead) := by
  rw [← h.ends]
  obtain ⟨_ | ⟨t, ts⟩, stop⟩ := s
  · rfl
  · rw [skipTypeFrom_part (by simp)]
    have hpoint : Text.ofString "." ≠ Text.ofString "[" := by decide
    by_cases htext : t.text = "."
    · have hseen : TokenStream.sees ⟨t :: ts, stop⟩ "." = true := h.plain.sees_iff.2 htext
      rw [hseen, Bool.true_and] at hmore
      cases ts with
      | nil => simp [htext, skipBrackets]
      | cons n ts =>
        have hident : n.isIdent = false := hmore
        simp [htext, hident, skipBrackets, hpoint]
    · simp [htext]

theorem qualify_declined {named : Text × List TypeRef} {s' : TokenStream}
    (hrun : qualify g named s = .ok (none, s')) :
    s' = s ∧ (s.sees "." && s.next.isIdent) = false := by
  have hdeclined : (qualify g named).Ensures s fun x s' =>
      x = none → s' = s ∧ (s.sees "." && s.next.isIdent) = false :=
    .seeing (fun _ => .bind (.skip (.bind (.take (.bind fun _ _ _ => .pure nofun)))))
      fun hmore => .pure fun _ => ⟨rfl, hmore⟩
  exact hdeclined _ _ hrun rfl

/-- A parser finds a pair of brackets where a scan does. -/
theorem ensures_emptyBrackets (h : s.Plain) :
    emptyBrackets.Ensures s fun x s' => (x = none → s'.ahead = skipBrackets s.ahead) ∧
      (x.isSome = true → (s'.Plain ∧ skipBrackets s'.ahead = skipBrackets s.ahead) ∧
        s'.ahead.length < s.ahead.length) := by
  intro x s' hrun
  rw [emptyBrackets] at hrun
  obtain ⟨_ | ⟨t, _ | ⟨u, ts⟩⟩, stop⟩ := s
  · cases hrun
    exact ⟨fun _ => rfl, Bool.noConfusion⟩
  · have hnext : Text.empty ≠ "]" := by decide
    rw [show (TokenStream.next ⟨[t], stop⟩).text = Text.empty from rfl, decide_eq_false hnext,
      Bool.and_false] at hrun
    cases hrun
    exact ⟨fun _ => rfl, Bool.noConfusion⟩
  · have hsees : TokenStream.sees ⟨t :: u :: ts, stop⟩ "[" = decide (t.text = "[") := by
      rw [Bool.eq_iff_iff, h.sees_iff, decide_eq_true_iff]
      rfl
    have hnext : TokenStream.next ⟨t :: u :: ts, stop⟩ = u := rfl
    rw [hsees, hnext] at hrun
    split_ifs at hrun with hpair
    · cases hrun
      refine ⟨fun hnone => absurd hnone (Option.some_ne_none ()), fun _ => ⟨⟨h.skip 2, ?_⟩, ?_⟩⟩
      · rw [skipBrackets, if_pos hpair]
        rfl
      · exact Nat.lt_succ_of_lt (Nat.lt_succ_self ts.length)
    · cases hrun
      refine ⟨fun _ => ?_, Bool.noConfusion⟩
      rw [skipBrackets, if_neg hpair]

/-- A parser takes as many pairs of brackets as a scan. -/
theorem ensures_dims (h : s.Plain) :
    dims.Ensures s fun _ s' => s'.ahead = skipBrackets s.ahead := by
  refine .bind ((Ensures.many_declined (I := fun s₁ => s₁.Plain ∧
    skipBrackets s₁.ahead = skipBrackets s.ahead) ⟨h, rfl⟩ ?_).mono ?_)
  · rintro s₁ ⟨hplain, hbrackets⟩
    refine (ensures_emptyBrackets hplain).mono fun x s' hx hsome => ?_
    obtain ⟨⟨hplain', hbrackets'⟩, hless⟩ := hx.2 hsome
    exact ⟨⟨hplain', hbrackets'.trans hbrackets⟩, hless⟩
  · rintro found s' ⟨s₁, ⟨hplain, hbrackets⟩, hrun⟩
    exact .pure (((ensures_emptyBrackets hplain _ _ hrun).1 rfl).trans hbrackets)

/-- What a scan leaves behind a type is what a parser leaves. -/
theorem skipType?_of_typeRef (hg : Crosses g.typeRef)
    (hqualify : ∀ named s b s', qualify g named s = .ok (some b, s') →
      s'.ahead.length < s.ahead.length) (h : s.Plain) :
    (typeRef g).Ensures s fun _ s' => skipType? s.ahead = some s'.ahead := by
  refine .looking (.ite (fun hprimitive => ?_) fun hother => .ite (fun hident => ?_) fun _ =>
    .failWith)
  · refine .bind (.skip (.bind ((ensures_dims (h.skip 1)).mono fun _ s' hs' => .pure ?_)))
    rw [hs']
    obtain ⟨_ | ⟨t, ts⟩, stop⟩ := s
    · have hempty : Text.empty ∉ primitiveNames := by decide
      exact absurd (of_decide_eq_true (Bool.and_eq_true_iff.1 hprimitive).1) hempty
    · exact if_pos hprimitive
  · have hnamed : Scanning .named (skipType? s.ahead) (s.skip 1) := by
      refine ⟨h.skip 1, ?_⟩
      obtain ⟨_ | ⟨t, ts⟩, stop⟩ := s
      · cases hident
      · have hident : t.isIdent = true := hident
        simp [skipType?, hident, TokenStream.skip]
    refine .bind (.skip (.bind ((ensures_outerArgs hg hnamed).mono fun args s₁ hs₁ => .bind ?_)))
    refine (Ensures.iterate_declined (I := fun _ => Scanning .closed (skipType? s.ahead)) hs₁
      fun named s₂ hs₂ x s₃ hrun b hb => ?_).mono fun named s' hend => ?_
    · subst hb
      exact ⟨ensures_outerPart hg named hs₂ _ _ hrun rfl, hqualify _ _ _ _ hrun⟩
    · obtain ⟨s₂, hs₂, hrun⟩ := hend
      obtain ⟨rfl, hmore⟩ := qualify_declined hrun
      refine .bind ((ensures_dims hs₂.plain).mono fun _ s₃ hs₃ => .pure ?_)
      rw [hs₃, ends_of_not_qualified hs₂ hmore]

theorem ensures_typeRef_ofDepth (depth : Nat) (h : s.Plain) :
    (typeRef (Grammar.ofDepth depth)).Ensures s fun _ s' => skipType? s.ahead = some s'.ahead := by
  refine skipType?_of_typeRef (crosses_ofDepth depth) (fun named s b s' hrun => ?_) h
  have hends : (Grammar.ofDepth depth).Ending True s false
      (Grammar.ofDepthOn s .exhausted depth) := Grammar.ending_ofDepth (Nat.le_refl depth)
  exact ((ends_qualify hends.later named s (TokenStream.within_false (.refl s))).of_ok hrun).2 rfl

/-! ## Declarations -/

/-- What can begin a type. -/
theorem ensures_typeRef_begun :
    (typeRef g).Ensures s fun _ _ => s.current.isIdent = true ∨
      (s.current.text ∈ primitiveNames ∧ s.current.isIdent = false) := by
  refine .looking (.ite (fun hprimitive => ?_) fun hother => .ite (fun hident => ?_) fun _ =>
    .failWith)
  · obtain ⟨hname, hident⟩ := Bool.and_eq_true_iff.1 hprimitive
    have hbegun := And.intro (of_decide_eq_true hname) (by simpa using hident)
    exact fun _ _ _ => .inr hbegun
  · exact fun _ _ _ => .inl hident

variable {pre mid : List Token} {marks : List Mark}

theorem skipModifiers_of_writes (h : Mark.Writes pre marks)
    (hmarks : ∀ m ∈ marks, m = .annotated ∨ m = .word .final)
    (hmid : ∀ t ∈ mid.head?, IsOther t) : skipModifiers (pre ++ mid) = mid := by
  induction h with
  | nil => exact skipModifiersFrom_of_isOther hmid (.inl rfl)
  | annotated hsign hname hargs hts ih =>
    rw [List.cons_append, List.append_assoc, List.append_assoc,
      skipModifiers_annotated hsign hname hargs (closesName_writes hts hmid)]
    exact ih fun m hm => hmarks m (List.mem_cons_of_mem _ hm)
  | @word t m ts marks _ htext _ ih =>
    obtain rfl : m = .final := by simpa using hmarks (.word m) List.mem_cons_self
    have htext : t.text = "final" := htext
    refine Eq.trans ?_ (ih fun m hm => hmarks m (List.mem_cons_of_mem _ hm))
    simp [skipModifiers, skipModifiersFrom, htext]

/-- What begins a type is no mark, and no keyword but a primitive type. -/
theorem isOther_of_begun (hs : s.Plain) (hbegun : s.current.isIdent = true ∨
    (s.current.text ∈ primitiveNames ∧ s.current.isIdent = false)) :
    (∀ t ∈ s.ahead.head?, IsOther t) ∧ headReads "class" s.ahead = false := by
  have hprimitive : ∀ word ∈ primitiveNames, word ≠ "class" ∧
      word ∉ ["@", "(", ".", "final"].map Text.ofString ∧
      Modifier.all.find? (fun m => m.word = word) = none := by decide
  obtain ⟨_ | ⟨t, ts⟩, stop⟩ := s
  · exact ⟨nofun, rfl⟩
  · change t.isIdent = true ∨ (t.text ∈ primitiveNames ∧ t.isIdent = false) at hbegun
    have hother : IsOther t ∧ t.text ≠ "class" := by
      rcases hbegun with hident | ⟨hname, hident⟩
      · have hname : t.text.IsIdentifier := hs.named t List.mem_cons_self hident
        exact ⟨⟨hname.notMem (by decide), by simp [modifier?, hident]⟩, hname.ne (by decide)⟩
      · obtain ⟨hclass, hword, hmodifier⟩ := hprimitive _ hname
        exact ⟨⟨hword, by simpa [modifier?, hident] using hmodifier⟩, hclass⟩
    refine ⟨?_, decide_eq_false hother.2⟩
    rintro _ ⟨⟩
    exact hother.1

/-- A colon goes on with no type. -/
theorem skipTypeFrom_colon {t : Token} (htext : t.text = ":") (ts : List Token) :
    skipTypeFrom .named (t :: ts) = some (t :: ts) := by
  have hopens : Text.ofString ":" ≠ Text.ofString "<" := by decide
  have hpoint : Text.ofString ":" ≠ Text.ofString "." := by decide
  have hbracket : Text.ofString ":" ≠ Text.ofString "[" := by decide
  rw [skipTypeFrom_part (by simp), htext, if_neg (by simp [hopens]), if_neg hpoint]
  cases ts with
  | nil => rfl
  | cons u ts => simp [skipBrackets, htext, hbracket]

/-- What is left of a declaration behind its first name. -/
def declRest (g : Grammar) (pos : Pos) (modifiers : List Modifier) (type : TypeRef)
    (name : Token) : Parser LocalDecl := do
  let first ← declaratorOf g name
  let others ← many (after "," (declarator g))
  return ⟨pos, modifiers, type, first :: others⟩

/-- What is left of a loop over a collection behind the colon. -/
def eachRest (g : Grammar) (pos : Pos) (modifiers : List Modifier) (type : TypeRef)
    (name : Token) : Parser Stmt := do
  let iterable ← expr g
  discard (expect ")")
  let body ← g.stmt
  return .forEach pos ⟨name.pos, modifiers, some type, name.text, false⟩ iterable body

/-- The words and signs that announce a statement. -/
def announcingWords : List Text :=
  ["\x7b", ";", "if", "while", "do", "for", "switch", "try", "return", "throw", "break", "continue",
    "synchronized"].map Text.ofString

theorem map_fst_announcedStmts (g : Grammar) :
    (announcedStmts g).map Prod.fst = announcingWords := by
  simp only [announcedStmts, announcingWords, List.map_cons, List.map_nil]

/-- Annotations and the word `final`, a type and a name stand in front. -/
structure Declares (g : Grammar) (s : TokenStream) (marks : List Mark) (type : TypeRef)
    (s₁ : TokenStream) : Prop where
  begins : ∃ pre mid, s.ahead = pre ++ mid ∧ Mark.Writes pre marks ∧
    typeRef g ⟨mid, s.stop⟩ = .ok (type, s₁)
  marks : ∀ m ∈ marks, m = .annotated ∨ m = .word .final
  name : s₁.current.isIdent = true

namespace Declares

variable {s₁ : TokenStream} {type : TypeRef}

section

variable {depth : Nat} (h : Declares (.ofDepth depth) s marks type s₁) (hs : s.Plain)

include h hs

/-- Behind the marks stands the type. -/
theorem exists_type : ∃ s₀ : TokenStream, s₀.Plain ∧ skipModifiers s.ahead = s₀.ahead ∧
    modifiers s = .ok (Mark.kept false marks, s₀) ∧ headReads "class" s₀.ahead = false ∧
    typeRef (.ofDepth depth) s₀ = .ok (type, s₁) := by
  obtain ⟨⟨pre, mid, hahead, hwrites, htype⟩, hmarks, -⟩ := h
  have hmid : TokenStream.Plain ⟨mid, s.stop⟩ := hs.left ⟨pre, hahead.symm⟩
  obtain ⟨hother, hclass⟩ := isOther_of_begun hmid (ensures_typeRef_begun _ _ htype)
  refine ⟨⟨mid, s.stop⟩, hmid, ?_, ?_, hclass, htype⟩
  · rw [hahead, skipModifiers_of_writes hwrites hmarks hother]
  · obtain ⟨ts, stop⟩ := s
    obtain rfl : ts = pre ++ mid := hahead
    exact loop_writes [] hwrites hother (by simp)

theorem measured : skipType? (skipModifiers s.ahead) = some s₁.ahead := by
  obtain ⟨s₀, hplain, hskip, -, -, htype⟩ := h.exists_type hs
  rw [hskip]
  exact ensures_typeRef_ofDepth depth hplain _ _ htype

omit hs in
theorem headIsIdent_behind : headIsIdent s₁.ahead = true := by
  have hname := h.name
  obtain ⟨_ | ⟨t, ts⟩, stop⟩ := s₁
  · cases hname
  · exact hname

/-- A declaration begins with a mark or with a type. -/
theorem begun : (s.current.isIdent = false ∧ s.current.text ∈ ["@", "final"].map Text.ofString) ∨
      typeRef (.ofDepth depth) s = .ok (type, s₁) := by
  obtain ⟨⟨pre, mid, hahead, hwrites, htype⟩, hmarks, -⟩ := h
  have hnot : ∀ word : Text, word.isReserved = true → s.current.text = word →
      s.current.isIdent = false := by
    intro word hword htext
    by_contra hident
    exact (hs.named.current (Bool.of_not_eq_false hident)).ne hword htext
  cases hwrites with
  | nil =>
    right
    rw [← htype, ← List.nil_append mid, ← hahead]
  | @annotated sign name args ts marks hsign =>
    have htext : s.current.text = "@" := by simpa [TokenStream.current, hahead] using hsign
    exact .inl ⟨hnot "@" (by decide) htext, by simp [htext]⟩
  | @word t m ts marks _ hword =>
    obtain rfl : m = .final := by simpa using hmarks (.word m) List.mem_cons_self
    have htext : s.current.text = "final" := by
      rw [TokenStream.current, hahead]
      exact hword
    exact .inl ⟨hnot "final" (by decide) htext, by simp [htext]⟩

theorem notMem_announcingWords : s.current.text ∉ announcingWords := by
  have hother : ∀ word ∈ ["@", "final"].map Text.ofString ++ primitiveNames,
      word ∉ announcingWords := by decide
  rcases h.begun hs with ⟨-, htext⟩ | htype
  · exact hother _ (List.mem_append_left _ htext)
  · rcases ensures_typeRef_begun _ _ htype with hident | ⟨hname, -⟩
    · exact (hs.named.current hident).notMem (by decide)
    · exact hother _ (List.mem_append_right _ hname)

/-- A declaration does not begin with a label. -/
theorem not_labeled : (s.current.isIdent && s.next.text = ":") = false := by
  rcases h.begun hs with ⟨hident, -⟩ | htype
  · rw [hident, Bool.false_and]
  · by_contra hlabel
    obtain ⟨hident, hcolon⟩ := Bool.and_eq_true_iff.1 (Bool.of_not_eq_false hlabel)
    have hcolon := of_decide_eq_true hcolon
    have hends := ensures_typeRef_ofDepth depth hs _ _ htype
    have hname := h.headIsIdent_behind
    obtain ⟨_ | ⟨t, _ | ⟨u, ts⟩⟩, stop⟩ := s
    · cases hident
    · cases hcolon
    · have hident : t.isIdent = true := hident
      have htext : u.text = ":" := hcolon
      rw [skipType?, hident, Bool.not_true, Bool.and_false, if_neg (by decide), if_pos rfl,
        skipTypeFrom_colon htext] at hends
      rw [← Option.some.inj hends] at hname
      exact (hs.named u (by simp) hname).ne (by decide) htext

theorem atLocalDecl : Lookahead.atLocalDecl s.ahead = true := by
  rw [Lookahead.atLocalDecl, h.measured hs]
  exact h.headIsIdent_behind

theorem not_atClassDecl : atClassDecl s.ahead = false := by
  obtain ⟨s₀, -, hskip, -, hclass, -⟩ := h.exists_type hs
  rw [atClassDecl, hskip, hclass]

theorem lookup_eq_none (g : Grammar) : (announcedStmts g).lookup s.current.text = none := by
  rw [List.lookup_eq_none_iff]
  intro e he
  have hword : e.1 ∈ announcingWords := by
    rw [← map_fst_announcedStmts g]
    exact List.mem_map_of_mem he
  simpa using fun heq : s.current.text = e.1 => h.notMem_announcingWords hs (heq ▸ hword)

theorem stmt_eq : stmt (.ofDepth depth) s = localDeclStmt (.ofDepth depth) s := by
  change (if s.current.isQuoted then exprStmt _ else
    ((announcedStmts _).lookup s.current.text).getD (plainStmt _)) s = _
  rw [hs.isQuoted_current, h.lookup_eq_none hs]
  change (if atClassDecl s.ahead then localClass _ else _) s = _
  rw [h.not_atClassDecl hs]
  change (if s.current.isIdent && s.next.text = ":" then labeledStmt _ else _) s = _
  rw [h.not_labeled hs]
  change (if Lookahead.atLocalDecl s.ahead then localDeclStmt _ else _) s = _
  rw [h.atLocalDecl hs]
  rfl

/-- A declaration takes the type and the name that the scan has measured. -/
theorem localDecl_eq :
    localDecl (.ofDepth depth) s =
      declRest (.ofDepth depth) s.current.pos (Mark.kept false marks) type s₁.current
        (s₁.skip 1) := by
  obtain ⟨s₀, -, -, hmodifiers, -, htype⟩ := h.exists_type hs
  rw [localDecl, bind_of_ok (pos_eq s), bind_of_ok hmodifiers, bind_of_ok htype]
  simp only [separatedBy, declarator, bind_assoc, pure_bind]
  rw [bind_of_ok (expectIdent_of_isIdent h.name)]
  rfl

theorem forInit_eq :
    forInit (.ofDepth depth) s = (ForInit.decl <$> localDecl (.ofDepth depth)) s := by
  have hword : Text.ofString ";" ∈ announcingWords := by decide
  have hsemicolon : s.sees ";" = false := by
    rw [Bool.eq_false_iff, ne_eq, hs.sees_iff]
    exact fun heq => h.notMem_announcingWords hs (heq ▸ hword)
  change (if s.sees ";" then pure (ForInit.exprs []) else _ : Parser ForInit) s = _
  rw [hsemicolon]
  change (if Lookahead.atLocalDecl s.ahead then _ else _ : Parser ForInit) s = _
  rw [h.atLocalDecl hs]
  rfl

theorem plain_behind : s₁.Plain :=
  hs.left ((skipType?_suffix (h.measured hs)).trans (skipModifiers_suffix s.ahead))

theorem forEachRest_eq (hcolon : s₁.next.text = ":") (pos : Pos) :
    forEachRest (.ofDepth depth) pos s =
      eachRest (.ofDepth depth) pos (Mark.kept false marks) type s₁.current (s₁.skip 2) := by
  obtain ⟨s₀, -, -, hmodifiers, -, htype⟩ := h.exists_type hs
  have hseen : (s₁.skip 1).sees ":" = true := by
    rw [((h.plain_behind hs).skip 1).sees_iff, TokenStream.current_skip_one, hcolon]
  rw [forEachRest, bind_of_ok hmodifiers, bind_of_ok htype,
    bind_of_ok (expectIdent_of_isIdent h.name), bind_of_ok (discard_of_ok (expect_of_sees hseen))]
  obtain ⟨_ | ⟨t, ts⟩, stop⟩ := s₁ <;> rfl

theorem atForEachHeader_eq : atForEachHeader s.ahead = decide (s₁.next.text = ":") := by
  have hname := h.headIsIdent_behind
  rw [atForEachHeader, h.measured hs]
  obtain ⟨_ | ⟨t, ts⟩, stop⟩ := s₁
  · cases hname
  · change (headIsIdent (t :: ts) && headReads ":" ts) = _
    rw [hname]
    cases ts <;> rfl

theorem header_eq {word opening : Token} (hword : word.text = "for") (hopening : opening.text = "(")
    (hkinds : word.isQuoted = false ∧ opening.isQuoted = false) :
    stmt (.ofDepth depth) ⟨word :: opening :: s.ahead, s.stop⟩ =
      if s₁.next.text = ":" then
        eachRest (.ofDepth depth) word.pos (Mark.kept false marks) type s₁.current (s₁.skip 2)
      else forRest (.ofDepth depth) word.pos s := by
  have hfor : expect "for" ⟨word :: opening :: s.ahead, s.stop⟩ =
      .ok (word, ⟨opening :: s.ahead, s.stop⟩) :=
    expect_of_sees (by simp [TokenStream.sees, TokenStream.current, hword, hkinds.1])
  have hparenthesis : expect "(" ⟨opening :: s.ahead, s.stop⟩ = .ok (opening, s) :=
    expect_of_sees (by simp [TokenStream.sees, TokenStream.current, hopening, hkinds.2])
  have hlookup : (announcedStmts (.ofDepth depth)).lookup word.text =
      some (forStmt (.ofDepth depth)) := by
    rw [hword]
    rfl
  change (if word.isQuoted then exprStmt _ else
    ((announcedStmts _).lookup word.text).getD (plainStmt _)) _ = _
  rw [hkinds.1, hlookup]
  change forStmt _ _ = _
  rw [forStmt, bind_of_ok hfor, bind_of_ok (discard_of_ok hparenthesis)]
  change (if atForEachHeader s.ahead then forEachRest _ word.pos else forRest _ word.pos) s = _
  rw [h.atForEachHeader_eq hs]
  by_cases hcolon : s₁.next.text = ":"
  · rw [if_pos hcolon, ← h.forEachRest_eq hs hcolon, if_pos (decide_eq_true hcolon)]
  · rw [if_neg hcolon, if_neg (by simpa using hcolon)]

end

end Declares

/-- A declaration is recognized in a statement and in the header of a loop, and takes what the scan
has measured. -/
structure Announced (g : Grammar) (s : TokenStream) (modifiers : List Modifier) (type : TypeRef)
    (s₁ : TokenStream) : Prop where
  measured : skipType? (skipModifiers s.ahead) = some s₁.ahead
  stmt : stmt g s = localDeclStmt g s
  localDecl : localDecl g s = declRest g s.current.pos modifiers type s₁.current (s₁.skip 1)
  header (word opening : Token) (hword : word.text = "for") (hopening : opening.text = "(")
    (hkinds : word.isQuoted = false ∧ opening.isQuoted = false) :
    Production.stmt g ⟨word :: opening :: s.ahead, s.stop⟩ =
      if s₁.next.text = ":" then eachRest g word.pos modifiers type s₁.current (s₁.skip 2)
      else forRest g word.pos s
  init : forInit g s = (ForInit.decl <$> Production.localDecl g) s

theorem Declares.recognized {depth : Nat} {s₁ : TokenStream} {type : TypeRef}
    (h : Declares (.ofDepth depth) s marks type s₁) (hs : s.Plain) :
    Announced (.ofDepth depth) s (Mark.kept false marks) type s₁ where
  measured := h.measured hs
  stmt := h.stmt_eq hs
  localDecl := h.localDecl_eq hs
  header _ _ hword hopening hkinds := h.header_eq hs hword hopening hkinds
  init := h.forInit_eq hs

/-- Wherever a type begins among tokens of which none is quoted, a scan leaves what a parser of
types leaves. So a statement or the header of a loop is recognized if it begins with annotations
and the word `final`, a type and a name, and takes them as the scan has measured them. -/
theorem typeRef_measured {source : List Char} {whole : TokenStream}
    (hwhole : tokenize source = .ok whole) (hunquoted : ∀ t ∈ whole.ahead, t.isQuoted = false)
    (depth i : Nat) :
    (∀ type s', (Grammar.ofDepth depth).typeRef (whole.skip i) = .ok (type, s') →
      skipType? (whole.skip i).ahead = some s'.ahead) ∧
    ∀ marks type s₁, Declares (.ofDepth depth) (whole.skip i) marks type s₁ →
      Announced (.ofDepth depth) (whole.skip i) (Mark.kept false marks) type s₁ := by
  have hs : (whole.skip i).Plain :=
    TokenStream.Plain.skip ⟨TokenStream.named_of_tokenize hwhole, hunquoted⟩ i
  refine ⟨fun type s' hrun => ?_, fun marks type s₁ h => h.recognized hs⟩
  cases depth with
  | zero => cases hrun
  | succ depth => exact ensures_typeRef_ofDepth depth hs type s' hrun

/-- `@A final B<?> c : d`, as the header of a loop has it. -/
def declaration : TokenStream where
  ahead := [⟨.op, "@", ⟨1, 1⟩⟩, ⟨.ident, "A", ⟨1, 2⟩⟩, ⟨.keyword, "final", ⟨1, 4⟩⟩,
    ⟨.ident, "B", ⟨1, 10⟩⟩, ⟨.op, "<", ⟨1, 11⟩⟩, ⟨.op, "?", ⟨1, 12⟩⟩, ⟨.op, ">", ⟨1, 13⟩⟩,
    ⟨.ident, "c", ⟨1, 15⟩⟩, ⟨.op, ":", ⟨1, 17⟩⟩, ⟨.ident, "d", ⟨1, 19⟩⟩]
  stop := ⟨1, 20⟩

theorem typeRef_measured_declaration :
    tokenize "@A final B<?> c : d".toList = .ok declaration ∧
    skipType? (declaration.skip 3).ahead = some (declaration.skip 7).ahead ∧
    ∃ type, Announced (.ofDepth 1) declaration [] type (declaration.skip 7) := by
  have hwhole : tokenize "@A final B<?> c : d".toList = .ok declaration := by decide +kernel
  have hunquoted : ∀ t ∈ declaration.ahead, t.isQuoted = false := by decide
  obtain ⟨⟨type, s₁⟩, htype, hs₁⟩ := FlowGraph.exists_ok_of_any
    (x := typeRef (.ofDepth 1) (declaration.skip 3)) (p := fun x => x.2 = declaration.skip 7)
    (by decide +kernel)
  obtain rfl : s₁ = declaration.skip 7 := of_decide_eq_true hs₁
  have hfinal := @Mark.Writes.word ⟨.keyword, "final", ⟨1, 4⟩⟩ .final _ _ rfl rfl .nil
  have hwrites := @Mark.Writes.annotated ⟨.op, "@", ⟨1, 1⟩⟩ [⟨.ident, "A", ⟨1, 2⟩⟩] [] _ _ rfl
    (.last rfl) .none hfinal
  refine ⟨hwhole, (typeRef_measured hwhole hunquoted 2 3).1 _ _ htype, type,
    (typeRef_measured hwhole hunquoted 1 0).2 [.annotated, .word .final] _ _ ⟨?_, by simp, rfl⟩⟩
  exact ⟨_, _, rfl, hwrites, htype⟩

end Production

end WriteOnce
