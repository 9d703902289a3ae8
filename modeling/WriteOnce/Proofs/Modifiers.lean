import WriteOnce.Proofs.Verdicts
import WriteOnce.Suggestion

/-!
# Modifiers in front of a declaration

Annotations and modifiers can stand in any order in front of a declaration. The
parser keeps the modifiers in the order of the source, except that the scan over an
annotation goes on over what `Lookahead.skipModifiers` takes for more of the same:
a `final` whose nearest neighbour to the left, other `final`s apart, is an annotation
is lost. A `final` that is not lost settles the verdict on its variable.
-/

namespace WriteOnce

/-! ## Marks as written -/

/-- What can stand in front of a declaration. -/
inductive Mark
  | annotated
  | word (modifier : Modifier)
  deriving DecidableEq

namespace Mark

/-- Tokens among which every parenthesis has its partner. -/
inductive Balanced : List Token → Prop
  | nil : Balanced []
  | plain {t : Token} {ts : List Token} : t.text ≠ "(" → t.text ≠ ")" → Balanced ts →
    Balanced (t :: ts)
  | group {opening closing : Token} {inner ts : List Token} : opening.text = "(" →
    closing.text = ")" → Balanced inner → Balanced ts →
    Balanced (opening :: (inner ++ closing :: ts))

inductive QualifiedName : List Token → Prop
  | last {name : Token} : name.isIdent = true → QualifiedName [name]
  | part {name point : Token} {ts : List Token} : name.isIdent = true → point.text = "." →
    QualifiedName ts → QualifiedName (name :: point :: ts)

/-- The arguments of an annotation, which can be left out. -/
inductive Arguments : List Token → Prop
  | none : Arguments []
  | group {opening closing : Token} {inner : List Token} : opening.text = "(" →
    closing.text = ")" → Balanced inner → Arguments (opening :: (inner ++ [closing]))

/-- Tokens that write these marks. -/
inductive Writes : List Token → List Mark → Prop
  | nil : Writes [] []
  | annotated {sign : Token} {name args ts : List Token} {marks : List Mark} :
    sign.text = "@" → QualifiedName name → Arguments args → Writes ts marks →
    Writes (sign :: (name ++ (args ++ ts))) (.annotated :: marks)
  | word {t : Token} {m : Modifier} {ts : List Token} {marks : List Mark} :
    t.kind = .keyword → t.text = m.word → Writes ts marks → Writes (t :: ts) (.word m :: marks)

/-- The modifiers among the marks. -/
def words (marks : List Mark) : List Modifier :=
  marks.filterMap fun
    | .annotated => none
    | .word m => some m

/-- The modifiers that the parser keeps; `behind` says whether an annotation stands in front,
with nothing but `final` between. -/
def kept (behind : Bool) : List Mark → List Modifier
  | [] => []
  | .annotated :: marks => kept true marks
  | .word m :: marks =>
    if behind = true ∧ m = .final then kept true marks else m :: kept false marks

/-! ## What is kept -/

theorem kept_sublist (behind : Bool) (marks : List Mark) : (kept behind marks).Sublist
    (words marks) := by
  fun_induction kept behind marks with
  | case1 => exact .slnil
  | case2 behind marks ih => exact ih
  | case3 behind m marks h ih => exact ih.cons m
  | case4 behind m marks h ih => exact ih.cons_cons m

/-- No modifier but `final` is ever lost. -/
theorem kept_filter (behind : Bool) (marks : List Mark) :
    (kept behind marks).filter (· ≠ .final) = (words marks).filter (· ≠ .final) := by
  fun_induction kept behind marks with
  | case1 => rfl
  | case2 behind marks ih => exact ih
  | case3 behind m marks h ih =>
    obtain ⟨-, rfl⟩ := h
    exact ih
  | case4 behind m marks h ih =>
    change _ = List.filter _ (m :: words marks)
    rw [List.filter_cons, List.filter_cons, ih]

/-- Behind these marks, a `final` has an annotation for its nearest neighbour, other `final`s
apart. `behind` says the same about what stands in front of the marks. -/
def loses (behind : Bool) (marks : List Mark) : Bool :=
  match marks.reverse.dropWhile (· = .word .final) with
  | [] => behind
  | nearest :: _ => nearest = .annotated

@[simp] theorem loses_nil (behind : Bool) : loses behind [] = behind := rfl

theorem loses_cons (behind : Bool) (mark : Mark) (marks : List Mark) :
    loses behind (mark :: marks) =
      loses (if mark = .word .final then behind else mark = .annotated) marks := by
  unfold loses
  rw [List.reverse_cons, List.dropWhile_append]
  cases hrest : marks.reverse.dropWhile (· = .word .final) with
  | nil =>
    by_cases hmark : mark = .word .final <;> simp [hmark]
  | cons m ms => simp

/-- A `final` is kept exactly if its nearest neighbour to the left, other `final`s apart, is no
annotation. -/
theorem final_mem_kept {behind : Bool} {marks : List Mark} :
    .final ∈ kept behind marks ↔
      ∃ before after, marks = before ++ .word .final :: after ∧ loses behind before = false := by
  fun_induction kept behind marks with
  | case1 => simp
  | case2 behind marks ih =>
    rw [ih]
    constructor
    · rintro ⟨before, after, rfl, h⟩
      exact ⟨.annotated :: before, after, rfl, by simpa [loses_cons] using h⟩
    · rintro ⟨before, after, heq, h⟩
      obtain _ | ⟨mark, before⟩ := before
      · cases heq
      · cases heq
        exact ⟨before, after, rfl, by simpa [loses_cons] using h⟩
  | case3 behind m marks hlost ih =>
    obtain ⟨rfl, rfl⟩ := hlost
    rw [ih]
    constructor
    · rintro ⟨before, after, rfl, h⟩
      exact ⟨.word .final :: before, after, rfl, by simpa [loses_cons] using h⟩
    · rintro ⟨before, after, heq, h⟩
      obtain _ | ⟨mark, before⟩ := before
      · cases h
      · cases heq
        exact ⟨before, after, rfl, by simpa [loses_cons] using h⟩
  | case4 behind m marks hkept ih =>
    by_cases hm : m = .final
    · subst hm
      have hbehind : behind = false := by simpa using hkept
      subst hbehind
      simp only [List.mem_cons, true_or, true_iff]
      exact ⟨[], marks, rfl, rfl⟩
    · have hfinal : Modifier.final ∈ m :: kept false marks ↔ .final ∈ kept false marks := by
        simp [Ne.symm hm]
      have hword : Mark.word m ≠ .word .final := fun h => hm (Mark.word.inj h)
      rw [hfinal, ih]
      constructor
      · rintro ⟨before, after, rfl, h⟩
        exact ⟨.word m :: before, after, rfl, by simpa [loses_cons, hword] using h⟩
      · rintro ⟨before, after, heq, h⟩
        obtain _ | ⟨mark, before⟩ := before
        · exact absurd (List.cons.inj heq).1 hword
        · cases heq
          exact ⟨before, after, rfl, by simpa [loses_cons, hword] using h⟩

end Mark

/-! ## Scanning over annotations -/

namespace Lookahead

open Mark

theorem skipModifiersFrom_balanced {depth : Nat} {inner rest : List Token}
    (h : Balanced inner) :
    skipModifiersFrom (.inside depth) (inner ++ rest) = skipModifiersFrom (.inside depth) rest := by
  induction h generalizing depth rest with
  | nil => rfl
  | plain hopening hclosing _ ih => simp [skipModifiersFrom, hopening, hclosing, ih]
  | group hopening hclosing _ _ ihinner ih =>
    have hne : Text.ofString ")" ≠ Text.ofString "(" := by decide
    simp [skipModifiersFrom, hopening, hclosing, hne, ihinner, ih]

/-- A token that goes on with no annotation and is no mark of its own. -/
structure IsOther (t : Token) : Prop where
  text : t.text ∉ ["@", "(", ".", "final"].map Text.ofString
  modifier : Production.modifier? t = none

variable {rest : List Token}

theorem skipModifiersFrom_of_isOther (h : ∀ t ∈ rest.head?, IsOther t) {scan : ModifierScan}
    (hscan : scan = .between ∨ scan = .named) : skipModifiersFrom scan rest = rest := by
  obtain _ | ⟨t, ts⟩ := rest
  · rcases hscan with rfl | rfl <;> rfl
  · have htext := (h t rfl).text
    simp only [List.map_cons, List.map_nil, List.mem_cons, List.not_mem_nil, or_false,
      not_or] at htext
    obtain ⟨hsign, hopening, hpoint, hfinal⟩ := htext
    rcases hscan with rfl | rfl <;> simp [skipModifiersFrom, hsign, hopening, hpoint, hfinal]

/-- The tokens in front of which the arguments of an annotation end, or are left out. -/
def ClosesName (ts : List Token) : Prop := ∀ t ∈ ts.head?, t.text ≠ "(" ∧ t.text ≠ "."

theorem skipModifiersFrom_arguments {args : List Token} (hargs : Arguments args)
    (hts : ClosesName rest) :
    skipModifiersFrom .named (args ++ rest) = skipModifiersFrom .between rest := by
  cases hargs with
  | none =>
    obtain _ | ⟨t, ts⟩ := rest
    · rfl
    · obtain ⟨hopening, hpoint⟩ := hts t rfl
      simp [skipModifiersFrom, hopening, hpoint]
  | group hopening hclosing hinner =>
    have hpoint : Text.ofString "(" ≠ Text.ofString "." := by decide
    have hne : Text.ofString ")" ≠ Text.ofString "(" := by decide
    simp [skipModifiersFrom, hopening, hclosing, hpoint, hne, skipModifiersFrom_balanced hinner]

theorem skipModifiersFrom_name {name : List Token} (hname : QualifiedName name) :
    skipModifiersFrom .atName (name ++ rest) = skipModifiersFrom .named rest := by
  induction hname with
  | last => rfl
  | part _ hpoint hname ih =>
    have hhead : ∀ {ts : List Token}, QualifiedName ts → headIsIdent (ts ++ rest) = true := by
      rintro _ (hident | hident) <;> simpa [headIsIdent] using hident
    simp [skipModifiersFrom, hpoint, hhead hname, ih]

theorem headIsIdent_name {name : List Token} (hname : QualifiedName name) :
    headIsIdent (name ++ rest) = true := by
  cases hname with
  | last hident => exact hident
  | part hident => exact hident

end Lookahead

namespace Production

open Mark Lookahead WriteOnce.Parser

theorem find?_word (m : Modifier) : Modifier.all.find? (·.word = m.word) = some m := by
  cases m <;> rfl

theorem word_injective : Function.Injective Modifier.word := fun m n h =>
  Option.some.inj ((find?_word m).symm.trans (h ▸ find?_word n))

theorem word_ne {m : Modifier} (sign : Text) (h : ∀ m ∈ Modifier.all, m.word ≠ sign) :
    m.word ≠ sign := h m (by cases m <;> decide)

theorem modifier?_eq_some {t : Token} {m : Modifier} (hkind : t.kind = .keyword)
    (htext : t.text = m.word) : modifier? t = some m := by
  have hident : t.isIdent = false := by simp [Token.isIdent, hkind]
  rw [modifier?, hident, htext]
  exact find?_word m

variable {ts rest : List Token} {marks : List Mark}

theorem closesName_writes (h : Writes ts marks) (hrest : ∀ t ∈ rest.head?, IsOther t) :
    ClosesName (ts ++ rest) := by
  cases h with
  | nil =>
    intro t ht
    have htext := (hrest t ht).text
    simp only [List.map_cons, List.mem_cons, not_or] at htext
    exact ⟨htext.2.1, htext.2.2.1⟩
  | annotated hsign =>
    rintro _ ⟨⟩
    rw [hsign]
    decide
  | word _ htext =>
    rintro _ ⟨⟩
    rw [htext]
    exact ⟨word_ne _ (by decide), word_ne _ (by decide)⟩

theorem skipModifiers_annotated {sign : Token} {name args : List Token} (hsign : sign.text = "@")
    (hname : QualifiedName name) (hargs : Arguments args) (hrest : ClosesName rest) :
    skipModifiers (sign :: (name ++ (args ++ rest))) = skipModifiers rest := by
  have hfinal : Text.ofString "@" ≠ Text.ofString "final" := by decide
  simp [skipModifiers, skipModifiersFrom, hsign, hfinal, headIsIdent_name hname,
    skipModifiersFrom_name hname, skipModifiersFrom_arguments hargs hrest]

/-- A scan stops in front of the first modifier that it does not lose. -/
theorem skipModifiers_writes (h : Writes ts marks) (hrest : ∀ t ∈ rest.head?, IsOther t) :
    ∃ ts' marks', Writes ts' marks' ∧ skipModifiers (ts ++ rest) = ts' ++ rest ∧
      ts'.length ≤ ts.length ∧ kept true marks = kept false marks' := by
  induction h with
  | nil => exact ⟨[], [], .nil, skipModifiersFrom_of_isOther hrest (.inl rfl), le_rfl, rfl⟩
  | @annotated sign name args ts marks hsign hname hargs hts ih =>
    obtain ⟨ts', marks', hts', hskip, hlength, hkept⟩ := ih
    refine ⟨ts', marks', hts', ?_, ?_, hkept⟩
    · rw [List.cons_append, List.append_assoc, List.append_assoc,
        skipModifiers_annotated hsign hname hargs (closesName_writes hts hrest), hskip]
    · simp only [List.length_cons, List.length_append]
      omega
  | @word t m ts marks hkind htext hts ih =>
    have hsign : m.word ≠ Text.ofString "@" := word_ne _ (by decide)
    by_cases hm : m = .final
    · subst hm
      obtain ⟨ts', marks', hts', hskip, hlength, hkept⟩ := ih
      refine ⟨ts', marks', hts', ?_, hlength.trans (Nat.le_succ _), hkept⟩
      have hfinal : t.text = Text.ofString "final" := htext
      rw [← hskip]
      simp [skipModifiers, skipModifiersFrom, hfinal]
    · have hfinal : m.word ≠ Text.ofString "final" := fun h => hm (word_injective h)
      refine ⟨t :: ts, .word m :: marks, .word hkind htext hts, ?_, le_rfl, ?_⟩
      · simp [skipModifiers, skipModifiersFrom, htext, hsign, hfinal]
      · simp [kept, hm]

variable {stop : Pos} (acc : List Modifier)

theorem nextModifier_other (h : ∀ t ∈ rest.head?, IsOther t) :
    nextModifier acc ⟨rest, stop⟩ = .ok (none, ⟨rest, stop⟩) := by
  obtain _ | ⟨t, ts⟩ := rest
  · rfl
  · obtain ⟨htext, hmodifier⟩ := h t rfl
    have hsign : t.text ≠ Text.ofString "@" := by simp_all
    have hcurrent : TokenStream.current ⟨t :: ts, stop⟩ = t := rfl
    simp [nextModifier, hcurrent, hsign, hmodifier]

theorem nextModifier_annotated {sign : Token} {name ts : List Token} (hsign : sign.text = "@")
    (hname : QualifiedName name) :
    nextModifier acc ⟨sign :: (name ++ ts), stop⟩ =
      .ok (some acc, ⟨skipModifiers (sign :: (name ++ ts)), stop⟩) := by
  have hcurrent : TokenStream.current ⟨sign :: (name ++ ts), stop⟩ = sign := rfl
  have hnext : (TokenStream.next ⟨sign :: (name ++ ts), stop⟩).isIdent = true := by
    cases hname with
    | last hident => exact hident
    | part hident => exact hident
  simp [nextModifier, hcurrent, hsign, hnext]

theorem nextModifier_word {t : Token} {m : Modifier} {ts : List Token} (hkind : t.kind = .keyword)
    (htext : t.text = m.word) :
    nextModifier acc ⟨t :: ts, stop⟩ = .ok (some (acc ++ [m]), ⟨ts, stop⟩) := by
  have hcurrent : TokenStream.current ⟨t :: ts, stop⟩ = t := rfl
  have hsign : t.text ≠ Text.ofString "@" := htext ▸ word_ne _ (by decide)
  simp [nextModifier, hcurrent, hsign, modifier?_eq_some hkind htext, TokenStream.skip]

/-- The fuel is enough if it counts the tokens of the marks. -/
theorem loop_writes {fuel : List Token} (h : Writes ts marks)
    (hrest : ∀ t ∈ rest.head?, IsOther t) (hfuel : ts.length ≤ fuel.length) :
    iterate.loop nextModifier fuel acc ⟨ts ++ rest, stop⟩ =
      .ok (acc ++ kept false marks, ⟨rest, stop⟩) := by
  induction fuel generalizing ts marks acc with
  | nil =>
    cases h with
    | nil => simpa [kept] using iterate.loop_stop (nextModifier_other acc hrest) []
    | annotated => cases hfuel
    | word => cases hfuel
  | cons t fuel ih =>
    cases h with
    | nil => simpa [kept] using iterate.loop_stop (nextModifier_other acc hrest) (t :: fuel)
    | annotated hsign hname hargs hts =>
      obtain ⟨ts', marks', hts', hskip, hlength, hkept⟩ := skipModifiers_writes hts hrest
      rw [List.cons_append, List.append_assoc, List.append_assoc,
        iterate.loop_next (nextModifier_annotated acc hsign hname),
        skipModifiers_annotated hsign hname hargs (closesName_writes hts hrest), hskip]
      refine (ih acc hts' ?_).trans ?_
      · simp only [List.length_cons, List.length_append] at hfuel
        omega
      · rw [kept, hkept]
    | word hkind htext hts =>
      rw [List.cons_append, iterate.loop_next (nextModifier_word acc hkind htext),
        ih _ hts (Nat.le_of_succ_le_succ hfuel), List.append_assoc]
      rfl

/-- The parser takes all marks in front of a declaration. Of their modifiers it loses every
`final` whose nearest neighbour to the left, other `final`s apart, is an annotation, and no
other. -/
theorem modifiers_writes (h : Writes ts marks) (hrest : ∀ t ∈ rest.head?, IsOther t) :
    modifiers ⟨ts ++ rest, stop⟩ = .ok (kept false marks, ⟨rest, stop⟩) ∧
      (kept false marks).Sublist (words marks) ∧
      (kept false marks).filter (· ≠ .final) = (words marks).filter (· ≠ .final) ∧
      (isFinal (kept false marks) = true ↔ ∃ before after,
        marks = before ++ .word .final :: after ∧ loses false before = false) := by
  refine ⟨?_, kept_sublist false marks, kept_filter false marks, ?_⟩
  · have hfuel : ts.length ≤ (ts ++ rest).length := by simp
    exact loop_writes [] h hrest hfuel
  · rw [← final_mem_kept]
    simp [isFinal]

/-- `@A @B(1) final int`: the `final` is lost. -/
theorem modifiers_writes_annotated : ∃ (ts rest : List Token) (stop : Pos),
    Writes ts [.annotated, .annotated, .word .final] ∧
    modifiers ⟨ts ++ rest, stop⟩ = .ok ([], ⟨rest, stop⟩) := by
  have hargs : Arguments [⟨.op, "(", ⟨1, 6⟩⟩, ⟨.int, "1", ⟨1, 7⟩⟩, ⟨.op, ")", ⟨1, 8⟩⟩] :=
    .group rfl rfl (.plain (by decide) (by decide) .nil)
  have hfinal := @Writes.word ⟨.keyword, "final", ⟨1, 10⟩⟩ .final _ _ rfl rfl .nil
  have hsecond := @Writes.annotated ⟨.op, "@", ⟨1, 4⟩⟩ [⟨.ident, "B", ⟨1, 5⟩⟩] _ _ _ rfl (.last rfl)
    hargs hfinal
  have hwrites := @Writes.annotated ⟨.op, "@", ⟨1, 1⟩⟩ [⟨.ident, "A", ⟨1, 2⟩⟩] [] _ _ rfl
    (.last rfl) .none hsecond
  have hrest : ∀ t ∈ [(⟨.keyword, "int", ⟨1, 16⟩⟩ : Token)].head?, IsOther t := by
    rintro _ ⟨⟩
    exact ⟨by decide, by decide⟩
  exact ⟨_, _, ⟨1, 19⟩, hwrites, (modifiers_writes hwrites hrest).1⟩

end Production

/-! ## Final variables -/

namespace Analysis

variable {f : Fragment} {owner : Text} {vs : Verdicts} {s s' : Session}

theorem isFinal_settles (h : (compute f owner).run s = (.ok vs, s')) :
    ∀ e ∈ vs, e.1.var.isFinal = true → e.2 = .cannot .alreadyImmutable := by
  obtain ⟨c, us, sums, found, -, -, -, -, hjudges, rfl⟩ := compute_spec h
  intro e he hfinal
  obtain ⟨u, -, hverdict⟩ := hjudges.mem_iff.1 ⟨e.1, (mem_sortBy _).1 he, rfl⟩
  rw [← hverdict, Chart.verdict, if_pos hfinal]

/-- No line is ever printed about a final variable, whatever the options hide. -/
theorem isFinal_of_mem_suggestions (h : (compute f owner).run s = (.ok vs, s'))
    (options : Option Options) (shown : Options) :
    ∀ v ∈ ((vs.hide options).suggestions shown), v.isFinal = false := by
  intro v hv
  obtain ⟨⟨d, verdict⟩, he, rfl⟩ := List.mem_map.1 hv
  obtain ⟨he, hcan⟩ := List.mem_filter.1 ((mem_sortBy _).1 he)
  simp only [Bool.and_eq_true] at hcan
  have hsettles : ∀ x, (d, x) ∈ vs → x.isCan = true → d.var.isFinal = false := by
    intro x hx hcan
    by_contra hfinal
    have hx := isFinal_settles h _ hx (Bool.eq_true_of_not_eq_false hfinal)
    rw [show x = .cannot .alreadyImmutable from hx] at hcan
    cases hcan
  cases options with
  | none => exact hsettles verdict he hcan.1
  | some o =>
    obtain ⟨⟨d, x⟩, hx, heq⟩ := List.mem_map.1 he
    obtain ⟨rfl, hverdict⟩ := Prod.ext_iff.1 heq
    refine hsettles x hx ?_
    dsimp only at hverdict
    split at hverdict
    · rw [← hverdict] at hcan
      cases hcan.1
    · rw [hverdict]
      exact hcan.1

/-- `{ @A final int x = 1; }` -/
def annotatedFinal : List Char := "\x7b @A final int x = 1; \x7d".toList

/-- What is written `final` is suggested for `final`. -/
theorem suggestions_annotatedFinal : ∃ (b : Block) (vs : Verdicts) (s' : Session),
    Block.parse annotatedFinal = .ok b ∧
    (fragment (.block b) "<block>").run (.fresh none) = (.ok vs, s') ∧
    vs.suggestions .default = [⟨"x", .localVariable, 1, 16, "<block>", false, false⟩] := by
  obtain ⟨b, hb, hrun⟩ := FlowGraph.exists_ok_of_any (x := Block.parse annotatedFinal)
    (p := fun b => ((fragment (.block b) "<block>").run (.fresh none)).1.toOption.any fun vs =>
      vs.suggestions .default = [⟨"x", .localVariable, 1, 16, "<block>", false, false⟩])
    (by decide +kernel)
  obtain ⟨vs, s', hrun, hsuggestions⟩ := exists_run_of_any hrun
  exact ⟨b, vs, s', hb, hrun, of_decide_eq_true hsuggestions⟩

end Analysis

end WriteOnce
