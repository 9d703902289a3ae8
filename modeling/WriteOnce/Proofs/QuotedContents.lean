import WriteOnce.Proofs.ParsedSources
import WriteOnce.Proofs.PathsOfRoutines

/-!
# Contents of quoted tokens

What stands between quotation marks is data. A parser goes the same way for all contents, and puts
them into the literals of the tree. The exceptions are contents that are steering words: some looks
at a token take them for what they say.
-/

namespace WriteOnce

open WriteOnce.Parser

/-- Tokens that differ in what they quote at most. If they do, neither content is a steering
word. -/
structure Token.Alike (t u : Token) : Prop where
  kind : u.kind = t.kind
  pos : u.pos = t.pos
  text : u.text = t.text ∨ t.isQuoted = true ∧ t.text ∉ steeringWords ∧ u.text ∉ steeringWords

instance (t u : Token) : Decidable (t.Alike u) :=
  decidable_of_iff
    (u.kind = t.kind ∧ u.pos = t.pos ∧
      (u.text = t.text ∨ t.isQuoted = true ∧ t.text ∉ steeringWords ∧ u.text ∉ steeringWords))
    ⟨fun ⟨hkind, hpos, htext⟩ => ⟨hkind, hpos, htext⟩, fun h => ⟨h.kind, h.pos, h.text⟩⟩

/-- The tree with nothing in its string and character literals. -/
def Tree.unquoted (t : Tree) : Tree := t.requote fun _ => .empty

/-- Two results that differ in the contents of literals at most: both read a tree, or both fail at
the same position. -/
inductive Parser.Agree {α : Type} (view : α → Tree) :
    Except ParseError (α × TokenStream) → Except ParseError (α × TokenStream) → Prop
  | ok {a b : α} {s s' : TokenStream} (h : (view b).unquoted = (view a).unquoted) :
    Agree view (.ok (a, s)) (.ok (b, s'))
  | error {e e' : ParseError} (h : e'.pos = e.pos) : Agree view (.error e) (.error e')

/-! ## Dropped contents

Tokens that are alike become equal when all contents but steering words are dropped, so that both
runs are compared with one on the same tokens. -/

/-- Nothing but the contents that steer is kept. -/
def Recast.dropping : Recast where
  place := id
  content text := if text ∈ steeringWords then text else .empty
  steady word hword text := by
    have hempty : Text.empty ∉ steeringWords := by decide
    by_cases h : text ∈ steeringWords
    · rw [if_pos h]
    · rw [if_neg h]
      constructor
      · rintro rfl
        exact absurd hword hempty
      · rintro rfl
        exact absurd hword h

theorem Token.Alike.recast_eq {t u : Token} (h : t.Alike u) :
    u.recast .dropping = t.recast .dropping := by
  have hsame : u.isQuoted = t.isQuoted := by rw [isQuoted, isQuoted, h.kind]
  rw [recast, recast, hsame, h.kind, h.pos]
  rcases h.text with htext | ⟨hquoted, hfree, hfree'⟩
  · rw [htext]
  · have hcontent : ∀ text ∉ steeringWords, Recast.dropping.content text = .empty := fun _ ht =>
      if_neg ht
    rw [hquoted, if_pos rfl, if_pos rfl, hcontent _ hfree, hcontent _ hfree']

theorem TokenStream.recast_eq_of_alike {s s' : TokenStream}
    (h : List.Forall₂ Token.Alike s.ahead s'.ahead) (hstop : s'.stop = s.stop) :
    s'.recast .dropping = s.recast .dropping := by
  have hahead : s'.ahead.map (Token.recast .dropping) = s.ahead.map (Token.recast .dropping) := by
    generalize s.ahead = ts, s'.ahead = us at h
    induction h with
    | nil => rfl
    | cons hhead _ ih => rw [List.map_cons, List.map_cons, hhead.recast_eq, ih]
  rw [recast, recast, hahead, hstop]

theorem Tree.unquoted_recast (t : Tree) : (t.recast .dropping).unquoted = t.unquoted := by
  have hplaces : t.move Recast.dropping.place = t := t.move_id
  rw [recast, hplaces, unquoted, requote_requote]
  rfl

/-- Runs on different tokens agree if both are followed on the same ones. -/
theorem Parser.agree_of_follows {α : Type} {view : α → Tree} {p : Parser α} {s s' : TokenStream}
    (h : Follows .dropping s s p p (Reads .dropping view s))
    (h' : Follows .dropping s' s' p p (Reads .dropping view s'))
    (hsame : s'.recast .dropping = s.recast .dropping) : Agree view (p s) (p s') := by
  have hrun' := h' (.refl s')
  rw [hsame] at hrun'
  rcases (h (.refl s)).outcome with ⟨a, s₁, c, hx, hy, -, hc⟩ | ⟨fault, _, pos, hx, hy, -⟩
  · rcases hrun'.outcome with ⟨b, s₂, d, hx', hy', -, hd⟩ | ⟨fault', _, pos', -, hy', -⟩
    · rw [hy] at hy'
      cases congrArg Prod.fst (Except.ok.inj hy')
      have htrees : (view b).recast .dropping = (view a).recast .dropping :=
        hd.moved.symm.trans hc.moved
      rw [hx, hx']
      apply Agree.ok
      rw [← (view b).unquoted_recast, htrees, (view a).unquoted_recast]
    · rw [hy] at hy'
      cases hy'
  · rcases hrun'.outcome with ⟨b, s₂, d, -, hy', -⟩ | ⟨fault', _, pos', hx', hy', -⟩
    · rw [hy] at hy'
      cases hy'
    · rw [hy] at hy'
      have hpos : pos = pos' := congrArg ParseError.pos (Except.error.inj hy')
      rw [hx, hx']
      exact .error hpos.symm

/-! ## Whole sources and blocks -/

namespace Grammar

/-- Contents that are no steering words make no difference to what is parsed, at any limit of
nesting. -/
theorem contents_steer_nothing {s s' : TokenStream}
    (h : List.Forall₂ Token.Alike s.ahead s'.ahead) (hstop : s'.stop = s.stop)
    (hcoded : ∀ t ∈ s.ahead, t.text.Coded) (hcoded' : ∀ t ∈ s'.ahead, t.text.Coded)
    (depth : Nat) :
    Agree Program.tree (program (.ofDepth depth) s) (program (.ofDepth depth) s') ∧
      Agree Block.tree ((ofDepth depth).block s) ((ofDepth depth).block s') ∧
      Agree Block.tree (wholeBlock (.ofDepth depth) s) (wholeBlock (.ofDepth depth) s') := by
  have hw : Readable .dropping s := ⟨hcoded, keepsArrows_id s.ahead⟩
  have hw' : Readable .dropping s' := ⟨hcoded', keepsArrows_id s'.ahead⟩
  have hg := steady_ofDepth hw depth
  have hg' := steady_ofDepth hw' depth
  have hsame := TokenStream.recast_eq_of_alike h hstop
  refine ⟨?_, ?_, ?_⟩
  · exact agree_of_follows (follows_program hg) (follows_program hg') hsame
  · exact agree_of_follows (hg.block s) (hg'.block s') hsame
  · exact agree_of_follows (follows_wholeBlock hg) (follows_wholeBlock hg') hsame

/-- `{ f("do"); }` -/
def callDo : List Char := "\x7b f(\"do\"); \x7d".toList

/-- `{ f("if"); }` -/
def callIf : List Char := "\x7b f(\"if\"); \x7d".toList

/-- Keywords between quotation marks are contents like any other. -/
theorem contents_steer_nothing_keywords : ∃ s s',
    tokenize callDo = .ok s ∧ tokenize callIf = .ok s' ∧ s' ≠ s ∧
    List.Forall₂ Token.Alike s.ahead s'.ahead ∧ s'.stop = s.stop ∧
    (wholeBlock (.ofDepth depthLimit) s).toBool = true ∧
    Agree Block.tree (wholeBlock (.ofDepth depthLimit) s)
      (wholeBlock (.ofDepth depthLimit) s') := by
  obtain ⟨s, hs, hany⟩ := FlowGraph.exists_ok_of_any (x := tokenize callDo)
    (p := fun s => (wholeBlock (.ofDepth depthLimit) s).toBool &&
      (tokenize callIf).toOption.any fun s' => decide (s' ≠ s) &&
        decide (List.Forall₂ Token.Alike s.ahead s'.ahead) && decide (s'.stop = s.stop))
    (by decide +kernel)
  obtain ⟨hok, hany⟩ := Bool.and_eq_true_iff.1 hany
  obtain ⟨s', hs', h⟩ := FlowGraph.exists_ok_of_any hany
  simp only [Bool.and_eq_true, decide_eq_true_eq] at h
  obtain ⟨⟨hne, halike⟩, hstop⟩ := h
  refine ⟨s, s', hs, hs', hne, halike, hstop, hok, ?_⟩
  exact (contents_steer_nothing halike hstop (inOrder_tokenize hs).coded
    (inOrder_tokenize hs').coded depthLimit).2.2

/-- `{ @A("a") int x = 1; }` -/
def quotedLetter : List Char := "\x7b @A(\"a\") int x = 1; \x7d".toList

/-- `{ @A("(") int x = 1; }` -/
def quotedParenthesis : List Char := "\x7b @A(\"(\") int x = 1; \x7d".toList

/-- The sources differ in one quoted content. An annotation is passed over up to the parenthesis
that closes it, and the quoted one counts as opened: the second source is rejected. -/
theorem contents_steer_annotations : ∃ s s', tokenize quotedLetter = .ok s ∧
    tokenize quotedParenthesis = .ok s' ∧ s'.stop = s.stop ∧
    List.Forall₂ (fun t u : Token => u.kind = t.kind ∧ u.pos = t.pos ∧
      (u.text = t.text ∨ t.isQuoted = true)) s.ahead s'.ahead ∧
    ¬Agree Block.tree (wholeBlock (.ofDepth depthLimit) s)
      (wholeBlock (.ofDepth depthLimit) s') := by
  obtain ⟨s, hs, hany⟩ := FlowGraph.exists_ok_of_any (x := tokenize quotedLetter)
    (p := fun s => (wholeBlock (.ofDepth depthLimit) s).toBool &&
      (tokenize quotedParenthesis).toOption.any fun s' =>
        !(wholeBlock (.ofDepth depthLimit) s').toBool && decide (s'.stop = s.stop) &&
          decide (List.Forall₂ (fun t u : Token => u.kind = t.kind ∧ u.pos = t.pos ∧
            (u.text = t.text ∨ t.isQuoted = true)) s.ahead s'.ahead))
    (by decide +kernel)
  obtain ⟨hok, hany⟩ := Bool.and_eq_true_iff.1 hany
  obtain ⟨s', hs', h⟩ := FlowGraph.exists_ok_of_any hany
  simp only [Bool.and_eq_true, Bool.not_eq_true', decide_eq_true_eq] at h
  obtain ⟨⟨hfails, hstop⟩, halike⟩ := h
  refine ⟨s, s', hs, hs', hstop, halike, fun hagree => ?_⟩
  generalize wholeBlock (.ofDepth depthLimit) s = x, wholeBlock (.ofDepth depthLimit) s' = y
    at hok hfails hagree
  cases hagree with
  | ok => cases hfails
  | error => cases hok

end Grammar

end WriteOnce
