import Mathlib.Data.List.Infix
import WriteOnce.Grammar.Types

/-!
# Tokens at other positions, with other contents

The same tokens can stand at other places of a source, and what is quoted can say something else.
What a parser sees of the tokens does not change, with two exceptions. Operators made of `>`
depend on which tokens touch each other; and some looks at a token go by its text alone, so that
quoted words and signs of the language pass for themselves.
-/

namespace WriteOnce

/-- The words and signs for which a token is taken by its text alone, quoted or not. -/
def steeringWords : List Text :=
  primitiveNames ++ Modifier.all.map Modifier.word ++ Lookahead.typeArgumentWords ++
    ["<", ">", ">=", "(", ")", "@", ":", "->", "class", "this", "new"].map Text.ofString

theorem primitiveNames_subset : primitiveNames ⊆ steeringWords := by
  intro word hword
  simp [steeringWords, hword]

theorem typeArgumentWords_subset : Lookahead.typeArgumentWords ⊆ steeringWords := by
  intro word hword
  simp [steeringWords, hword]

theorem Modifier.word_mem (m : Modifier) : m.word ∈ steeringWords := by
  have hall : m ∈ Modifier.all := by cases m <;> decide
  have hword := List.mem_map_of_mem (f := Modifier.word) hall
  simp [steeringWords, hword]

/-- The words and signs that productions and scans look for by text alone. -/
theorem mem_steeringWords :
    ("final" : Text) ∈ steeringWords ∧ ("class" : Text) ∈ steeringWords ∧
    ("this" : Text) ∈ steeringWords ∧ ("new" : Text) ∈ steeringWords ∧
    ("<" : Text) ∈ steeringWords ∧ (">" : Text) ∈ steeringWords ∧ (">=" : Text) ∈ steeringWords ∧
    ("(" : Text) ∈ steeringWords ∧ (")" : Text) ∈ steeringWords ∧ ("[" : Text) ∈ steeringWords ∧
    ("]" : Text) ∈ steeringWords ∧ ("," : Text) ∈ steeringWords ∧ ("." : Text) ∈ steeringWords ∧
    ("@" : Text) ∈ steeringWords ∧ (":" : Text) ∈ steeringWords ∧
    ("->" : Text) ∈ steeringWords := by
  refine ⟨Modifier.word_mem .final, ?_⟩
  simp [steeringWords, Lookahead.typeArgumentWords]

/-- A change of the places of tokens and of the contents of quoted ones. No content becomes a
steering word or ceases to be one. -/
structure Recast where
  place : Pos → Pos
  content : Text → Text
  steady : ∀ word ∈ steeringWords, ∀ text, content text = word ↔ text = word

/-- Only the places change. -/
def Recast.still (φ : Pos → Pos) : Recast := ⟨φ, id, fun _ _ _ => Iff.rfl⟩

/-- The token at another position. -/
def Token.move (φ : Pos → Pos) (t : Token) : Token := ⟨t.kind, t.text, φ t.pos⟩

/-- The stream with all its tokens, and its end, at other positions. -/
def TokenStream.move (φ : Pos → Pos) (s : TokenStream) : TokenStream :=
  ⟨s.ahead.map (Token.move φ), φ s.stop⟩

variable (ρ : Recast)

/-- The token at another position, and with another content if it is quoted. -/
def Token.recast (t : Token) : Token :=
  ⟨t.kind, if t.isQuoted then ρ.content t.text else t.text, ρ.place t.pos⟩

/-- The stream with all its tokens, and its end, changed. -/
def TokenStream.recast (s : TokenStream) : TokenStream :=
  ⟨s.ahead.map (Token.recast ρ), ρ.place s.stop⟩

variable {ρ} {φ : Pos → Pos}

/-! ## Single tokens -/

namespace Token

variable (t : Token)

@[simp] theorem kind_recast : (t.recast ρ).kind = t.kind := rfl

@[simp] theorem pos_recast : (t.recast ρ).pos = ρ.place t.pos := rfl

@[simp] theorem pos_move : (t.move φ).pos = φ t.pos := rfl

@[simp] theorem isIdent_recast : (t.recast ρ).isIdent = t.isIdent := rfl

@[simp] theorem isQuoted_recast : (t.recast ρ).isQuoted = t.isQuoted := rfl

/-- Only what is quoted can say something else. -/
theorem text_recast {t : Token} (h : t.isQuoted = false) : (t.recast ρ).text = t.text := by
  rw [recast, h]
  rfl

theorem isQuoted_of_isIdent {t : Token} (h : t.isIdent = true) : t.isQuoted = false := by
  rw [isIdent, decide_eq_true_eq] at h
  rw [isQuoted, h]
  rfl

theorem text_recast_ident {t : Token} (h : t.isIdent = true) : (t.recast ρ).text = t.text :=
  text_recast (isQuoted_of_isIdent h)

theorem text_recast_op {t : Token} (h : t.kind = .op) : (t.recast ρ).text = t.text := by
  have hquoted : t.isQuoted = false := by
    rw [isQuoted, h]
    rfl
  exact text_recast hquoted

/-- A token passes for the same steering words. -/
theorem reads_recast {word : Text} (h : word ∈ steeringWords) :
    (t.recast ρ).text = word ↔ t.text = word := by
  unfold recast
  cases t.isQuoted with
  | true => exact ρ.steady word h t.text
  | false => exact Iff.rfl

theorem mem_recast {words : List Text} (h : words ⊆ steeringWords) :
    (t.recast ρ).text ∈ words ↔ t.text ∈ words := by
  constructor
  · intro ht
    have htext : t.text = (t.recast ρ).text := (t.reads_recast (h ht)).1 rfl
    rwa [htext]
  · intro ht
    rwa [(t.reads_recast (h ht)).2 rfl]

/-- The text of a steering word stays. -/
theorem text_recast_mem {t : Token} (h : t.text ∈ steeringWords) : (t.recast ρ).text = t.text :=
  (t.reads_recast h).2 rfl

theorem text_recast_id {t : Token} (h : ρ.content = id) : (t.recast ρ).text = t.text := by
  rw [recast, h]
  exact ite_self t.text

theorem recast_still : t.recast (.still φ) = t.move φ := by
  have htext : (t.recast (.still φ)).text = t.text := t.text_recast_id rfl
  rw [move, ← htext]
  rfl

end Token

namespace TokenStream

variable (s : TokenStream)

@[simp] theorem ahead_recast : (s.recast ρ).ahead = s.ahead.map (Token.recast ρ) := rfl

@[simp] theorem current_recast : (s.recast ρ).current = s.current.recast ρ := by
  obtain ⟨_ | ⟨t, ts⟩, stop⟩ := s <;> rfl

@[simp] theorem next_recast : (s.recast ρ).next = s.next.recast ρ := by
  obtain ⟨_ | ⟨t, _ | ⟨u, ts⟩⟩, stop⟩ := s <;> rfl

@[simp] theorem skip_recast (count : Nat) :
    (s.recast ρ).skip count = (s.skip count).recast ρ := by
  simp [skip, recast]

@[simp] theorem sees_recast (word : Text) : (s.recast ρ).sees word = s.sees word := by
  rw [sees, sees, current_recast, Token.isQuoted_recast]
  cases hquoted : s.current.isQuoted with
  | true => rw [Bool.not_true, Bool.and_false, Bool.and_false]
  | false => rw [Token.text_recast hquoted]

@[simp] theorem atEnd_recast : (s.recast ρ).atEnd = s.atEnd := by
  simp [atEnd]

theorem ahead_move : (s.move φ).ahead = s.ahead.map (Token.move φ) := rfl

theorem toList_move : (s.move φ).toList = s.toList.map (Token.move φ) := by
  simp [toList, move, Token.endAt, Token.move]

theorem recast_still : s.recast (.still φ) = s.move φ := by
  rw [recast, move, List.map_congr_left fun t _ => t.recast_still]
  rfl

end TokenStream

/-! ## Scans -/

namespace Lookahead

variable (ts : List Token)

theorem inTypeArguments_recast (t : Token) :
    inTypeArguments (t.recast ρ) = inTypeArguments t := by
  simp only [inTypeArguments, Token.isIdent_recast, t.mem_recast primitiveNames_subset,
    t.mem_recast typeArgumentWords_subset]

theorem headReads_map {word : Text} (h : word ∈ steeringWords) :
    headReads word (ts.map (Token.recast ρ)) = headReads word ts := by
  cases ts with
  | nil => rfl
  | cons t ts => exact decide_eq_decide.2 (t.reads_recast h)

@[simp] theorem headIsIdent_map : headIsIdent (ts.map (Token.recast ρ)) = headIsIdent ts := by
  cases ts <;> rfl

@[simp] theorem afterClosing_map (depth : Nat) :
    afterClosing depth (ts.map (Token.recast ρ)) =
      (afterClosing depth ts).map (Token.recast ρ) := by
  induction ts generalizing depth with
  | nil => rfl
  | cons t ts ih =>
    simp only [List.map_cons, afterClosing, Token.reads_recast, mem_steeringWords, ih]
    split_ifs
    · rfl
    · cases depth <;> rfl
    · rfl

@[simp] theorem skipModifiersFrom_map (scan : ModifierScan) :
    skipModifiersFrom scan (ts.map (Token.recast ρ)) =
      (skipModifiersFrom scan ts).map (Token.recast ρ) := by
  induction ts generalizing scan with
  | nil => cases scan <;> rfl
  | cons t ts ih =>
    rw [List.map_cons]
    cases scan with
    | atName => exact ih .named
    | inside depth =>
      simp only [skipModifiersFrom, Token.reads_recast, mem_steeringWords, ih]
      split_ifs
      · rfl
      · cases depth <;> rfl
      · rfl
    | _ =>
      simp only [skipModifiersFrom, Token.reads_recast, mem_steeringWords, headIsIdent_map, ih]
      split_ifs <;> rfl

@[simp] theorem skipModifiers_map :
    skipModifiers (ts.map (Token.recast ρ)) = (skipModifiers ts).map (Token.recast ρ) :=
  skipModifiersFrom_map ts _

@[simp] theorem skipBrackets_map :
    skipBrackets (ts.map (Token.recast ρ)) = (skipBrackets ts).map (Token.recast ρ) := by
  fun_induction skipBrackets ts with
  | case1 t u ts h ih =>
    simp only [List.map_cons, skipBrackets, Token.reads_recast, mem_steeringWords, if_pos h, ih]
  | case2 t u ts h =>
    simp only [List.map_cons, skipBrackets, Token.reads_recast, mem_steeringWords, if_neg h]
  | case3 ts h =>
    obtain _ | ⟨t, _ | ⟨u, ts⟩⟩ := ts
    · rfl
    · rfl
    · exact absurd rfl (h t u ts)

/-- Behind a part of a name a further part is passed over, or what follows stays. -/
theorem skipTypeFrom_part {scan : TypeScan} (hscan : ∀ depth, scan ≠ .inside depth) (t : Token)
    (ts : List Token) :
    skipTypeFrom scan (t :: ts) =
      if scan = .named && t.text = "<" then skipTypeFrom (.inside 0) ts
      else if t.text = "." then
        match ts with
        | n :: rest => if n.isIdent then skipTypeFrom .named rest else some (t :: ts)
        | [] => some [t]
      else some (skipBrackets (t :: ts)) := by
  rw [skipTypeFrom.eq_def]
  cases scan with
  | inside depth => exact absurd rfl (hscan depth)
  | _ => rfl

theorem skipTypeFrom_map (scan : TypeScan) : (ts : List Token) →
    skipTypeFrom scan (ts.map (Token.recast ρ)) =
      (skipTypeFrom scan ts).map (List.map (Token.recast ρ))
  | [] => by cases scan <;> rfl
  | t :: ts => by
    have ih := fun scan => skipTypeFrom_map scan ts
    by_cases hscan : ∀ depth, scan ≠ .inside depth
    · rw [List.map_cons, skipTypeFrom_part hscan, skipTypeFrom_part hscan, ih, ← List.map_cons,
        skipBrackets_map]
      obtain _ | ⟨n, rest⟩ := ts
      · simp only [Token.reads_recast, mem_steeringWords]
        split_ifs <;> rfl
      · have hrest := skipTypeFrom_map .named rest
        simp only [List.map_cons, hrest, Token.isIdent_recast,
          Token.reads_recast, mem_steeringWords]
        split_ifs <;> rfl
    · obtain ⟨depth, rfl⟩ : ∃ depth, scan = .inside depth := by simpa using hscan
      simp only [List.map_cons, skipTypeFrom, inTypeArguments_recast,
        Token.reads_recast, mem_steeringWords, ih]
      split_ifs
      · rfl
      · cases depth <;> rfl
      · rfl
      · rfl

@[simp] theorem skipType?_map :
    skipType? (ts.map (Token.recast ρ)) = (skipType? ts).map (List.map (Token.recast ρ)) := by
  obtain _ | ⟨t, ts⟩ := ts
  · rfl
  · simp only [List.map_cons, skipType?, skipBrackets_map, skipTypeFrom_map,
      Token.isIdent_recast, t.mem_recast primitiveNames_subset]
    split_ifs <;> rfl

@[simp] theorem skipTypeParams?_map (depth : Nat) :
    skipTypeParams? depth (ts.map (Token.recast ρ)) =
      (skipTypeParams? depth ts).map (List.map (Token.recast ρ)) := by
  induction ts generalizing depth with
  | nil => rfl
  | cons t ts ih =>
    simp only [List.map_cons, skipTypeParams?, inTypeArguments_recast,
      Token.reads_recast, mem_steeringWords, ih]
    split_ifs
    · rfl
    · cases depth <;> rfl
    · rfl
    · rfl

@[simp] theorem atLocalDecl_map : atLocalDecl (ts.map (Token.recast ρ)) = atLocalDecl ts := by
  simp [atLocalDecl, Option.any_map]

@[simp] theorem atForEachHeader_map :
    atForEachHeader (ts.map (Token.recast ρ)) = atForEachHeader ts := by
  have hcolon : ∀ ts : List Token,
      headReads ":" (ts.map (Token.recast ρ)) = headReads ":" ts := fun ts =>
    headReads_map ts (by simp only [mem_steeringWords])
  simp [atForEachHeader, Option.any_map, ← List.map_tail, hcolon]

@[simp] theorem atClassDecl_map : atClassDecl (ts.map (Token.recast ρ)) = atClassDecl ts := by
  rw [atClassDecl, skipModifiers_map, headReads_map _ (by simp only [mem_steeringWords])]
  rfl

@[simp] theorem atLambda_map : atLambda (ts.map (Token.recast ρ)) = atLambda ts := by
  obtain _ | ⟨t, ts⟩ := ts
  · rfl
  · have harrow : ∀ ts : List Token,
        headReads "->" (ts.map (Token.recast ρ)) = headReads "->" ts := fun ts =>
      headReads_map ts (by simp only [mem_steeringWords])
    simp only [List.map_cons, atLambda, afterClosing_map, harrow,
      Token.isIdent_recast, Token.reads_recast, mem_steeringWords]

theorem beginsCastOperand_recast (t : Token) :
    beginsCastOperand (t.recast ρ) = beginsCastOperand t := by
  cases hquoted : t.isQuoted with
  | true =>
    obtain ⟨kind, text, pos⟩ := t
    cases kind <;> cases hquoted <;> rfl
  | false =>
    have htext : (t.recast ρ).text = t.text := Token.text_recast hquoted
    unfold beginsCastOperand
    rw [Token.kind_recast, htext]

@[simp] theorem atCast_map : atCast (ts.map (Token.recast ρ)) = atCast ts := by
  obtain _ | ⟨t, ts⟩ := ts
  · rfl
  · have hhead : (ts.map (Token.recast ρ)).head?.any (·.text ∈ primitiveNames) =
        ts.head?.any (·.text ∈ primitiveNames) := by
      cases ts with
      | nil => rfl
      | cons u us => exact decide_eq_decide.2 (u.mem_recast primitiveNames_subset)
    simp only [List.map_cons, atCast, skipType?_map, hhead,
      Token.isQuoted_recast, Token.reads_recast, mem_steeringWords]
    obtain h | ⟨_ | ⟨closing, _ | ⟨u, rest⟩⟩, h⟩ := (skipType? ts).eq_none_or_eq_some <;> rw [h]
    · rfl
    · rfl
    · simp only [Option.map_some, List.map_cons, Token.reads_recast, mem_steeringWords]
      rfl
    · simp only [Option.map_some, List.map_cons, List.head?_cons,
        Option.any_some, Token.reads_recast, mem_steeringWords, beginsCastOperand_recast]

/-! ## What a scan leaves -/

theorem skipModifiersFrom_suffix (scan : ModifierScan) (ts : List Token) :
    skipModifiersFrom scan ts <:+ ts := by
  induction ts generalizing scan with
  | nil => cases scan <;> exact List.suffix_rfl
  | cons t ts ih =>
    have hlater : ∀ scan, skipModifiersFrom scan ts <:+ t :: ts := fun scan =>
      (ih scan).trans (List.suffix_cons t ts)
    cases scan with
    | atName => exact hlater .named
    | inside depth =>
      simp only [skipModifiersFrom]
      split_ifs
      · exact hlater _
      · cases depth <;> exact hlater _
      · exact hlater _
    | _ =>
      simp only [skipModifiersFrom]
      split_ifs <;> first | exact hlater _ | exact List.suffix_rfl

theorem skipModifiers_suffix (ts : List Token) : skipModifiers ts <:+ ts :=
  skipModifiersFrom_suffix .between ts

theorem skipTypeParams?_suffix {depth : Nat} {ts rest : List Token}
    (h : skipTypeParams? depth ts = some rest) : rest <:+ ts := by
  induction ts generalizing depth with
  | nil => cases h
  | cons t ts ih =>
    have hlater : ∀ {depth}, skipTypeParams? depth ts = some rest → rest <:+ t :: ts := fun h =>
      (ih h).trans (List.suffix_cons t ts)
    simp only [skipTypeParams?] at h
    split_ifs at h
    · exact hlater h
    · cases depth with
      | zero =>
        cases h
        exact List.suffix_cons t _
      | succ depth => exact hlater h
    · exact hlater h

/-! ## Operators made of `>` -/

/-- Wherever a `>` is followed by a token, both touch at the new places as they did before. -/
def KeepsArrows (φ : Pos → Pos) (ts : List Token) : Prop :=
  ∀ (before : List Token) (t u : Token) (after : List Token), ts = before ++ t :: u :: after →
    t.text = ">" → adjacent (t.move φ) (u.move φ) = adjacent t u

theorem KeepsArrows.suffix {ts us : List Token} (h : KeepsArrows φ us) (hts : ts <:+ us) :
    KeepsArrows φ ts := by
  obtain ⟨front, rfl⟩ := hts
  rintro before t u after rfl
  exact h (front ++ before) t u after (List.append_assoc ..).symm

/-- Whether a token touches a `>` does not depend on what it says. -/
theorem adjacent_recast {t : Token} (ht : t.text = ">") (u : Token) :
    adjacent (t.recast ρ) (u.recast ρ) = adjacent (t.move ρ.place) (u.move ρ.place) := by
  have htext : (t.recast ρ).text = ">" := (t.reads_recast (by simp only [mem_steeringWords])).2 ht
  have htext' : (t.move ρ.place).text = ">" := ht
  rw [adjacent, adjacent, htext, htext']
  rfl

theorem extendArrows_map {t : Token} {ts : List Token} (h : KeepsArrows ρ.place (t :: ts))
    (ht : t.text = ">") (arrows more : Nat) :
    extendArrows arrows (t.recast ρ) more (ts.map (Token.recast ρ)) =
      extendArrows arrows t more ts := by
  induction more generalizing arrows t ts with
  | zero => rfl
  | succ more ih =>
    obtain _ | ⟨u, ts⟩ := ts
    · rfl
    · rw [List.map_cons, extendArrows, extendArrows, adjacent_recast ht, h [] t u ts rfl ht]
      simp only [Token.reads_recast, mem_steeringWords]
      by_cases hu : u.text = ">"
      · rw [if_pos hu, if_pos hu, ih (h.suffix (List.suffix_cons t _)) hu]
      · rw [if_neg hu, if_neg hu]

theorem arrowRun?_map {ts : List Token} (h : KeepsArrows ρ.place ts) :
    arrowRun? (ts.map (Token.recast ρ)) = arrowRun? ts := by
  obtain _ | ⟨t, ts⟩ := ts
  · rfl
  · simp only [List.map_cons, arrowRun?, Token.kind_recast, Token.reads_recast, mem_steeringWords]
    by_cases ht : t.text = ">"
    · rw [extendArrows_map h ht]
    · rw [if_neg ht, if_neg ht]

end Lookahead

end WriteOnce
