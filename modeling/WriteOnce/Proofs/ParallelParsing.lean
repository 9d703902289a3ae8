import WriteOnce.Proofs.Codes
import WriteOnce.Proofs.RecastTrees
import WriteOnce.Proofs.TokenUses

/-!
# Parsing changed tokens

Two runs of a parser on tokens that differ in their places and in what is quoted go the same way:
both give the same tree, up to its places and the contents of its literals, or both fail at the
same token. On the way it is kept count of what the tree uses tokens for, since no token declares
two variables, is two names or begins two lambdas.
-/

namespace WriteOnce

/-- Every element is a code point. -/
def Text.Coded (t : Text) : Prop := ∀ c ∈ t.codes, IsCodePoint c

namespace Tree

mutual

/-- All texts of the tree are made of code points. -/
def Coded : Tree → Prop
  | node _ fields => CodedFields fields
  | list items => CodedItems items
  | text value => value.Coded
  | _ => True

def CodedFields : List (Text × Tree) → Prop
  | [] => True
  | (_, t) :: fields => t.Coded ∧ CodedFields fields

def CodedItems : List Tree → Prop
  | [] => True
  | t :: items => t.Coded ∧ CodedItems items

end

theorem codedItems_append {ts us : List Tree} (hts : CodedItems ts) (hus : CodedItems us) :
    CodedItems (ts ++ us) := by
  induction ts with
  | nil => exact hus
  | cons t ts ih => exact ⟨hts.1, ih hts.2⟩

end Tree

/-- What a token can be used for. -/
def Token.uses (t : Token) : List (Pos × Tree.Use) := [(t.pos, .name t.text), (t.pos, .lambda)]

namespace TokenStream

/-- What is left of a stream after some tokens. -/
structure Leaves (s s₁ : TokenStream) : Prop where
  suffix : s₁.ahead <:+ s.ahead
  stop : s₁.stop = s.stop

theorem Leaves.refl (s : TokenStream) : s.Leaves s := ⟨List.suffix_rfl, rfl⟩

theorem Leaves.trans {s s₁ s₂ : TokenStream} (h : s.Leaves s₁) (h' : s₁.Leaves s₂) :
    s.Leaves s₂ := ⟨h'.suffix.trans h.suffix, h'.stop.trans h.stop⟩

theorem current_skip_one (s : TokenStream) : (s.skip 1).current = s.next := by
  obtain ⟨_ | ⟨t, ts⟩, stop⟩ := s <;> rfl

theorem leaves_skip (s : TokenStream) (count : Nat) : s.Leaves (s.skip count) :=
  ⟨List.drop_suffix count s.ahead, rfl⟩

/-- The places of the tokens ahead. -/
def places (s : TokenStream) : List Pos := s.ahead.map Token.pos

/-- The places of the tokens ahead and of the end. -/
def allPlaces (s : TokenStream) : List Pos := s.toList.map Token.pos

theorem current_pos_mem (s : TokenStream) : s.current.pos ∈ s.allPlaces := by
  obtain ⟨_ | ⟨t, ts⟩, stop⟩ := s <;> simp [allPlaces, toList, current]

theorem Leaves.allPlaces_subset {s s₁ : TokenStream} (h : s.Leaves s₁) :
    s₁.allPlaces ⊆ s.allPlaces := by
  have hend := congrArg Token.endAt h.stop
  simp only [allPlaces, toList, hend]
  exact List.map_subset _ (List.append_subset.2
    ⟨List.Subset.trans h.suffix.subset (List.subset_append_left ..),
      List.subset_append_right ..⟩)

/-- The tokens ahead, by place and text. -/
def names (s : TokenStream) : List (Pos × Text) := s.ahead.map fun t => (t.pos, t.text)

/-- What the tokens ahead can be used for. -/
def uses (s : TokenStream) : List (Pos × Tree.Use) := s.ahead.flatMap Token.uses

theorem Leaves.count_le {s s₁ : TokenStream} (h : s.Leaves s₁) (p : Pos × Tree.Use) :
    s₁.uses.count p ≤ s.uses.count p := by
  obtain ⟨taken, htaken⟩ := h.suffix
  rw [uses, uses, ← htaken, List.flatMap_append, List.count_append]
  exact Nat.le_add_left _ _

/-- What is left of a stream after its first token and maybe more. -/
structure Passes (s s₁ : TokenStream) : Prop where
  ahead : s.ahead = s.current :: s.ahead.tail
  behind : s₁.ahead <:+ s.ahead.tail

theorem passes_of_ahead {s s₁ : TokenStream} {t : Token} (h : s.ahead = t :: s₁.ahead) :
    s.Passes s₁ := by
  obtain ⟨_ | ⟨t, ts⟩, stop⟩ := s
  · cases h
  · exact ⟨rfl, (List.cons.inj h).2 ▸ List.suffix_rfl⟩

theorem Passes.left {s s₁ s₂ : TokenStream} (h : s.Passes s₁) (h' : s₁.Leaves s₂) :
    s.Passes s₂ := ⟨h.ahead, h'.suffix.trans h.behind⟩

/-- A token that is passed can no longer be used. -/
theorem Passes.count_le {s s₁ : TokenStream} (h : s.Passes s₁) (p : Pos × Tree.Use) :
    s.current.uses.count p + s₁.uses.count p ≤ s.uses.count p := by
  have hbehind : Leaves ⟨s.ahead.tail, s.stop⟩ ⟨s₁.ahead, s.stop⟩ := ⟨h.behind, rfl⟩
  have hle := hbehind.count_le p
  rw [uses, uses] at hle
  rw [uses, uses, h.ahead, List.flatMap_cons, List.count_append]
  exact Nat.add_le_add_left hle _

theorem count_names (s : TokenStream) (pos : Pos) (name : Text) :
    s.names.count (pos, name) = s.uses.count (pos, .name name) := by
  unfold names uses
  induction s.ahead with
  | nil => rfl
  | cons t ts ih =>
    rw [List.flatMap_cons, List.count_append, List.map_cons, List.count_cons, ih]
    simp [Token.uses, List.count_cons, Nat.add_comm]

theorem count_places (s : TokenStream) (pos : Pos) :
    s.places.count pos = s.uses.count (pos, .lambda) := by
  unfold places uses
  induction s.ahead with
  | nil => rfl
  | cons t ts ih =>
    rw [List.flatMap_cons, List.count_append, List.map_cons, List.count_cons, ih]
    simp [Token.uses, List.count_cons, Nat.add_comm]

end TokenStream

variable (ρ : Recast)

/-! ## What trees take from tokens -/

/-- Between two streams, the same tree was read, up to the change. -/
structure Yields (s s₁ : TokenStream) (t u : Tree) : Prop where
  moved : u = t.recast ρ
  coded : t.Coded
  uses : ∀ p, t.uses.count p + s₁.uses.count p ≤ s.uses.count p

/-- The same for the fields of a node. -/
structure YieldsFields (s s₁ : TokenStream) (fs gs : List (Text × Tree)) : Prop where
  moved : gs = Tree.recastFields ρ fs
  coded : Tree.CodedFields fs
  uses : ∀ p, (Tree.usesFields fs).count p + s₁.uses.count p ≤ s.uses.count p

/-- The same for the items of a list. -/
structure YieldsItems (s s₁ : TokenStream) (ts us : List Tree) : Prop where
  moved : us = Tree.recastItems ρ ts
  coded : Tree.CodedItems ts
  uses : ∀ p, (Tree.usesItems ts).count p + s₁.uses.count p ≤ s.uses.count p

variable {ρ} {s s₁ s₂ : TokenStream} {t u : Tree} {fs gs : List (Text × Tree)} {ts us : List Tree}

namespace Yields

theorem leaf (h : s.Leaves s₁) (hmoved : u = t.recast ρ) (hcoded : t.Coded)
    (huses : t.uses = []) : Yields ρ s s₁ t u :=
  ⟨hmoved, hcoded, fun p => by simpa [huses] using h.count_le p⟩

theorem text {value : Text} (h : value.Coded) (hs : s.Leaves s₁) :
    Yields ρ s s₁ (.text value) (.text value) := leaf hs rfl h rfl

/-- The text of a token that is not changed. -/
theorem word {t : Token} (ht : (t.recast ρ).text = t.text) (h : t.text.Coded) (hs : s.Leaves s₁) :
    Yields ρ s s₁ (.text t.text) (.text (t.recast ρ).text) :=
  leaf hs (congrArg Tree.text ht) h rfl

theorem number (value : Nat) (hs : s.Leaves s₁) :
    Yields ρ s s₁ (.number value) (.number value) := leaf hs rfl trivial rfl

theorem flag (value : Bool) (hs : s.Leaves s₁) :
    Yields ρ s s₁ (.flag value) (.flag value) := leaf hs rfl trivial rfl

theorem absent (hs : s.Leaves s₁) : Yields ρ s s₁ .absent .absent := leaf hs rfl trivial rfl

/-- A node that uses no token itself and is no literal. -/
theorem placed {label field : Text} (pos : Pos) (h : YieldsFields ρ s s₁ fs gs)
    (hlabel : label ≠ "JParam" ∧ label ≠ "JDeclarator" ∧ label ≠ "JName" ∧ label ≠ "JLambda" ∧
      label ≠ "JLiteral") :
    Yields ρ s s₁ (.node label ((field, .place pos) :: fs))
      (.node label ((field, .place (ρ.place pos)) :: gs)) := by
  obtain ⟨hparam, hdeclarator, hname, hlambda, hliteral⟩ := hlabel
  refine ⟨by rw [h.moved, Tree.recast_node hliteral]; rfl, ⟨trivial, h.coded⟩, fun p => ?_⟩
  rw [Tree.uses, Tree.ownUses_eq_nil hparam hdeclarator hname hlambda]
  exact h.uses p

/-- A node that declares a variable or is a name stands at a token of its own, which is the name. -/
theorem declaring {label field : Text} {name : Token}
    (hlabel : label ≠ "JLambda" ∧ label ≠ "JLiteral") (htaken : s.ahead = name :: s₁.ahead)
    (hname : fs.lookup ("name" : Text) = some (.text name.text))
    (h : YieldsFields ρ s₁ s₂ fs gs) :
    Yields ρ s s₂ (.node label ((field, .place name.pos) :: fs))
      (.node label ((field, .place (ρ.place name.pos)) :: gs)) := by
  obtain ⟨hlambda, hliteral⟩ := hlabel
  refine ⟨by rw [h.moved, Tree.recast_node hliteral]; rfl, ⟨trivial, h.coded⟩, fun p => ?_⟩
  have hown : (Tree.ownUses label ((field, .place name.pos) :: fs)).count p ≤
      name.uses.count p := by
    rw [Tree.ownUses, Tree.ownName, hname, if_neg hlambda]
    split_ifs
    · exact (List.singleton_sublist.2 (.head _)).count_le p
    · exact Nat.zero_le _
  have hfields : (Tree.usesFields ((field, .place name.pos) :: fs)).count p =
      (Tree.usesFields fs).count p := rfl
  have huses := h.uses p
  have hcurrent : s.current = name := by rw [TokenStream.current, htaken]; rfl
  have htokens := (TokenStream.passes_of_ahead htaken).count_le p
  rw [hcurrent] at htokens
  rw [Tree.uses, List.count_append, hfields]
  omega

/-- A lambda begins at a token in front of everything behind its parameters. Lambdas do not stand
in parameters. -/
theorem lambda {field name : Text} {params params' : Tree} (hpasses : s.Passes s₁)
    (hparams : Yields ρ s s₁ params params') (hnone : ∀ pos, (pos, .lambda) ∉ params.uses)
    (h : YieldsFields ρ s₁ s₂ fs gs) :
    Yields ρ s s₂ (.node "JLambda" ((field, .place s.current.pos) :: (name, params) :: fs))
      (.node "JLambda" ((field, .place (ρ.place s.current.pos)) :: (name, params') :: gs)) := by
  refine ⟨?_, ⟨trivial, hparams.coded, h.coded⟩, fun p => ?_⟩
  · rw [h.moved, hparams.moved, Tree.recast_node (by simp)]
    rfl
  have hown : Tree.ownUses "JLambda" ((field, .place s.current.pos) :: (name, params) :: fs) =
      [(s.current.pos, .lambda)] := by
    rw [Tree.ownUses, if_neg (by simp), if_pos rfl, Tree.ownLambda]
  have hfields : (Tree.usesFields ((field, .place s.current.pos) :: (name, params) :: fs)).count p =
      params.uses.count p + (Tree.usesFields fs).count p := by
    rw [Tree.usesFields, Tree.usesFields, List.count_append, List.count_append]
    exact Nat.zero_add _
  have huses := h.uses p
  rw [Tree.uses, hown, List.count_append, hfields]
  obtain ⟨pos, use⟩ := p
  cases use with
  | name name =>
    have hhead := hparams.uses (pos, .name name)
    have hother : [(s.current.pos, Tree.Use.lambda)].count (pos, .name name) = 0 := by simp
    omega
  | lambda =>
    have hhead := List.count_eq_zero_of_not_mem (hnone pos)
    have hfirst : [(s.current.pos, Tree.Use.lambda)].count (pos, .lambda) ≤
        s.current.uses.count (pos, .lambda) :=
      (List.sublist_cons_self _ _).count_le _
    have htokens := hpasses.count_le (pos, .lambda)
    omega

theorem list (h : YieldsItems ρ s s₁ ts us) : Yields ρ s s₁ (.list ts) (.list us) :=
  ⟨congrArg _ h.moved, h.coded, h.uses⟩

/-- Tokens in front are passed over. -/
theorem pass (hs : s.Leaves s₁) (h : Yields ρ s₁ s₂ t u) : Yields ρ s s₂ t u :=
  ⟨h.moved, h.coded, fun p => (h.uses p).trans (hs.count_le p)⟩

/-- Tokens behind are passed over. -/
theorem left (h : Yields ρ s s₁ t u) (hs : s₁.Leaves s₂) : Yields ρ s s₂ t u :=
  ⟨h.moved, h.coded, fun p => (Nat.add_le_add_left (hs.count_le p) _).trans (h.uses p)⟩

/-- A tree that uses no tokens may have been read anywhere. -/
theorem anywhere {s' s₁' : TokenStream} (h : Yields ρ s s₁ t u) (huses : t.uses = [])
    (hs : s'.Leaves s₁') : Yields ρ s' s₁' t u :=
  ⟨h.moved, h.coded, fun p => by simpa [huses] using hs.count_le p⟩

end Yields

namespace YieldsFields

theorem nil (hs : s.Leaves s₁) : YieldsFields ρ s s₁ [] [] :=
  ⟨rfl, trivial, fun p => by simpa [Tree.usesFields] using hs.count_le p⟩

theorem cons {name : Text} (h : Yields ρ s s₁ t u) (hs : YieldsFields ρ s₁ s₂ fs gs) :
    YieldsFields ρ s s₂ ((name, t) :: fs) ((name, u) :: gs) := by
  refine ⟨by rw [h.moved, hs.moved]; rfl, ⟨h.coded, hs.coded⟩, fun p => ?_⟩
  have hhead := h.uses p
  have htail := hs.uses p
  rw [Tree.usesFields, List.count_append]
  omega

theorem pass (hs : s.Leaves s₁) (h : YieldsFields ρ s₁ s₂ fs gs) : YieldsFields ρ s s₂ fs gs :=
  ⟨h.moved, h.coded, fun p => (h.uses p).trans (hs.count_le p)⟩

end YieldsFields

namespace YieldsItems

theorem nil (hs : s.Leaves s₁) : YieldsItems ρ s s₁ [] [] :=
  ⟨rfl, trivial, fun p => by simpa [Tree.usesItems] using hs.count_le p⟩

theorem cons (h : Yields ρ s s₁ t u) (hs : YieldsItems ρ s₁ s₂ ts us) :
    YieldsItems ρ s s₂ (t :: ts) (u :: us) := by
  refine ⟨by rw [h.moved, hs.moved]; rfl, ⟨h.coded, hs.coded⟩, fun p => ?_⟩
  have hhead := h.uses p
  have htail := hs.uses p
  rw [Tree.usesItems, List.count_append]
  omega

theorem of_list (h : Yields ρ s s₁ (.list ts) (.list us)) : YieldsItems ρ s s₁ ts us :=
  ⟨Tree.list.inj h.moved, h.coded, h.uses⟩

theorem pass (hs : s.Leaves s₁) (h : YieldsItems ρ s₁ s₂ ts us) : YieldsItems ρ s s₂ ts us :=
  ⟨h.moved, h.coded, fun p => (h.uses p).trans (hs.count_le p)⟩

theorem append {ts' us' : List Tree} (h : YieldsItems ρ s s₁ ts us)
    (h' : YieldsItems ρ s₁ s₂ ts' us') : YieldsItems ρ s s₂ (ts ++ ts') (us ++ us') := by
  refine ⟨by rw [h.moved, h'.moved, Tree.recastItems_append],
    Tree.codedItems_append h.coded h'.coded, fun p => ?_⟩
  have hhead := h.uses p
  have htail := h'.uses p
  rw [Tree.usesItems_append, List.count_append]
  omega

end YieldsItems

/-! ## Runs side by side -/

namespace Parser

variable {α β γ δ : Type}

/-- The results of two runs: both give values so related, or both fail at one of the given places,
and what is left or where they fail is changed. If contents stay, so does the fault. -/
inductive Parallel (ρ : Recast) (places : List Pos) (R : TokenStream → α → β → Prop) :
    Except ParseError (α × TokenStream) → Except ParseError (β × TokenStream) → Prop
  | ok {a : α} {b : β} {s : TokenStream} (h : R s a b) :
    Parallel ρ places R (.ok (a, s)) (.ok (b, s.recast ρ))
  | error {fault fault' : ParseFault} {pos : Pos} (h : pos ∈ places)
    (hfault : ρ.content = id → fault' = fault) :
    Parallel ρ places R (.error ⟨fault, pos⟩) (.error ⟨fault', ρ.place pos⟩)

theorem Parallel.of_ok {places : List Pos} {R : TokenStream → α → β → Prop} {a : α}
    {y : Except ParseError (β × TokenStream)} (h : Parallel ρ places R (.ok (a, s)) y) :
    ∃ b, y = .ok (b, s.recast ρ) ∧ R s a b := by
  cases h with
  | ok h => exact ⟨_, rfl, h⟩

theorem Parallel.outcome {places : List Pos} {R : TokenStream → α → β → Prop}
    {x : Except ParseError (α × TokenStream)} {y : Except ParseError (β × TokenStream)}
    (h : Parallel ρ places R x y) :
    (∃ a s b, x = .ok (a, s) ∧ y = .ok (b, s.recast ρ) ∧ R s a b) ∨
    (∃ fault fault' pos, x = .error ⟨fault, pos⟩ ∧ y = .error ⟨fault', ρ.place pos⟩ ∧
      pos ∈ places) := by
  cases h with
  | ok h => exact .inl ⟨_, _, _, rfl, rfl, h⟩
  | error h _ => exact .inr ⟨_, _, _, rfl, rfl, h⟩

/-- What is known of the tokens as a whole: their texts are made of code points, and the change of
places keeps operators made of `>` together. -/
structure Readable (ρ : Recast) (whole : TokenStream) : Prop where
  coded : ∀ t ∈ whole.ahead, t.text.Coded
  arrows : Lookahead.KeepsArrows ρ.place whole.ahead

variable (ρ) (whole : TokenStream)

/-- In the middle of the whole stream, a parser goes the same way as the other one on the changed
tokens; what is left afterwards and the values of both are related by `R`. -/
def Follows (s : TokenStream) (p : Parser α) (q : Parser β) (R : TokenStream → α → β → Prop) :
    Prop :=
  whole.Leaves s →
    Parallel ρ whole.allPlaces (fun s₁ a b => s.Leaves s₁ ∧ R s₁ a b) (p s) (q (s.recast ρ))

variable {ρ whole} {p : Parser α} {q : Parser β} {R : TokenStream → α → β → Prop}

namespace Follows

theorem pure {a : α} {b : β} (h : R s a b) : Follows ρ whole s (Pure.pure a) (Pure.pure b) R :=
  fun _ => .ok ⟨.refl s, h⟩

theorem bind {f : α → Parser γ} {g : β → Parser δ} {S : TokenStream → γ → δ → Prop}
    (h : Follows ρ whole s p q R)
    (hnext : ∀ s₁ a b, s.Leaves s₁ → R s₁ a b → Follows ρ whole s₁ (f a) (g b) S) :
    Follows ρ whole s (p >>= f) (q >>= g) S := by
  intro hs
  have hrun := h hs
  change Parallel ρ _ _ (Except.bind (p s) _) (Except.bind (q (s.recast ρ)) _)
  generalize p s = x, q (s.recast ρ) = y at hrun
  cases hrun with
  | error hpos hfault => exact .error hpos hfault
  | @ok a b s₁ hok =>
    obtain ⟨hs₁, hR⟩ := hok
    have hnext := hnext s₁ a b hs₁ hR (hs.trans hs₁)
    simp only [Except.bind]
    generalize f a s₁ = x, g b (s₁.recast ρ) = y at hnext
    cases hnext with
    | error hpos hfault => exact .error hpos hfault
    | ok hok => exact .ok ⟨hs₁.trans hok.1, hok.2⟩

theorem imp {S : TokenStream → α → β → Prop} (h : Follows ρ whole s p q R)
    (hRS : ∀ s₁ a b, s.Leaves s₁ → R s₁ a b → S s₁ a b) : Follows ρ whole s p q S := by
  intro hs
  have hrun := h hs
  generalize p s = x, q (s.recast ρ) = y at hrun
  cases hrun with
  | error hpos hfault => exact .error hpos hfault
  | ok hok => exact .ok ⟨hok.1, hRS _ _ _ hok.1 hok.2⟩

/-- What is read stands in the whole stream. -/
theorem within (h : whole.Leaves s → Follows ρ whole s p q R) : Follows ρ whole s p q R :=
  fun hs => h hs hs

theorem ite {c : Prop} [Decidable c] {p' : Parser α} {q' : Parser β}
    (h : c → Follows ρ whole s p q R) (h' : ¬c → Follows ρ whole s p' q' R) :
    Follows ρ whole s (if c then p else p') (if c then q else q') R := by
  split_ifs with hc
  · exact h hc
  · exact h' hc

end Follows

/-! ## Single tokens -/

/-- A token and its place were taken. -/
structure Takes (ρ : Recast) (whole : TokenStream) (t u : Token) : Prop where
  moved : u = t.recast ρ
  coded : t.text.Coded
  place : t.pos ∈ whole.allPlaces

theorem takes_current (hw : Readable ρ whole) (hs : whole.Leaves s) :
    Takes ρ whole s.current (s.recast ρ).current := by
  refine ⟨s.current_recast, ?_, hs.allPlaces_subset s.current_pos_mem⟩
  obtain ⟨_ | ⟨t, ts⟩, stop⟩ := s
  · intro c hc
    cases hc
  · exact hw.coded t (hs.suffix.subset (.head _))

theorem follows_look {view : TokenStream → γ} (h : view (s.recast ρ) = view s) :
    Follows ρ whole s (look view) (look view) fun s₁ a b => s₁ = s ∧ a = view s ∧ b = a :=
  fun _ => .ok ⟨.refl s, rfl, rfl, h⟩

theorem follows_current (hw : Readable ρ whole) :
    Follows ρ whole s current current fun s₁ t u => s₁ = s ∧ t = s.current ∧ Takes ρ whole t u :=
  fun hs => .ok ⟨.refl s, rfl, rfl, takes_current hw hs⟩

theorem follows_pos :
    Follows ρ whole s pos pos fun s₁ p q =>
      s₁ = s ∧ p = s.current.pos ∧ q = ρ.place p ∧ p ∈ whole.allPlaces :=
  fun hs => .ok ⟨.refl s, rfl, rfl, congrArg Token.pos s.current_recast,
    hs.allPlaces_subset s.current_pos_mem⟩

theorem follows_failAt {pos : Pos} (h : pos ∈ whole.allPlaces) (fault : ParseFault) :
    Follows ρ whole s (failAt pos fault : Parser α) (failAt (ρ.place pos) fault : Parser β) R :=
  fun _ => .error h fun _ => rfl

theorem follows_fail (fault : ParseFault) :
    Follows ρ whole s (fail fault : Parser α) (fail fault : Parser β) R := by
  intro hs
  rw [fail, fail, s.current_recast]
  exact .error (hs.allPlaces_subset s.current_pos_mem) fun _ => rfl

theorem follows_failWith (fault : Text → ParseFault) :
    Follows ρ whole s (failWith fault : Parser α) (failWith fault : Parser β) R := by
  intro hs
  rw [failWith, failWith, s.current_recast]
  refine .error (hs.allPlaces_subset s.current_pos_mem) fun hcontent => ?_
  rw [Token.text_recast_id hcontent]

theorem follows_skip (count : Nat) :
    Follows ρ whole s (skip count) (skip count) fun s₁ _ _ => s₁ = s.skip count := by
  intro hs
  rw [skip, skip, s.skip_recast]
  exact .ok ⟨s.leaves_skip count, rfl⟩

theorem follows_take (hw : Readable ρ whole) :
    Follows ρ whole s take take fun _ t u => t = s.current ∧ Takes ρ whole t u := by
  intro hs
  rw [take, take, s.skip_recast]
  exact .ok ⟨s.leaves_skip 1, rfl, takes_current hw hs⟩

theorem follows_expect (hw : Readable ρ whole) (word : Text) :
    Follows ρ whole s (expect word) (expect word) fun s₁ t u =>
      Takes ρ whole t u ∧ (word ≠ .empty → s.Passes s₁) := by
  intro hs
  rw [expect, expect, s.sees_recast]
  split_ifs with hsees
  · rw [take, take, s.skip_recast]
    refine .ok ⟨s.leaves_skip 1, takes_current hw hs, fun hword => ?_⟩
    rw [TokenStream.sees, Bool.and_eq_true, decide_eq_true_eq] at hsees
    obtain ⟨_ | ⟨t, ts⟩, stop⟩ := s
    · exact absurd hsees.1.symm hword
    · exact TokenStream.passes_of_ahead rfl
  · exact follows_failWith _ hs

/-- A name is a token of its own. -/
theorem follows_expectIdent (hw : Readable ρ whole) :
    Follows ρ whole s expectIdent expectIdent fun s₁ t u =>
      Takes ρ whole t u ∧ u.text = t.text ∧ s.ahead = t :: s₁.ahead := by
  intro hs
  rw [expectIdent, expectIdent, s.current_recast, Token.isIdent_recast]
  split_ifs with hident
  · rw [take, take, s.skip_recast]
    refine .ok ⟨s.leaves_skip 1, takes_current hw hs, ?_, ?_⟩
    · rw [s.current_recast, Token.text_recast_ident hident]
    obtain ⟨_ | ⟨t, ts⟩, stop⟩ := s
    · cases hident
    · rfl
  · exact follows_failWith _ hs

theorem follows_accept (word : Text) :
    Follows ρ whole s (accept word) (accept word) fun _ a b => b = a := by
  intro hs
  rw [accept, accept, s.sees_recast, s.skip_recast]
  split_ifs
  · exact .ok ⟨s.leaves_skip 1, rfl⟩
  · exact .ok ⟨.refl s, rfl⟩

theorem follows_discard (h : Follows ρ whole s p q R) :
    Follows ρ whole s (discard p) (discard q) fun s₁ _ _ => ∃ a b, R s₁ a b := by
  intro hs
  have hrun := h hs
  change Parallel ρ _ _ (Except.bind (p s) _) (Except.bind (q (s.recast ρ)) _)
  generalize p s = x, q (s.recast ρ) = y at hrun
  cases hrun with
  | error hpos hfault => exact .error hpos hfault
  | ok hok => exact .ok ⟨hok.1, _, _, hok.2⟩

/-! ## Steps

How two runs go on behind a step that makes no difference between them. -/

namespace Follows

variable {S : TokenStream → α → β → Prop}

theorem looking {view : TokenStream → γ} {f : γ → Parser α} {g : γ → Parser β}
    (h : view (s.recast ρ) = view s)
    (hnext : ∀ x, view s = x → Follows ρ whole s (f x) (g x) S) :
    Follows ρ whole s (look view >>= f) (look view >>= g) S := by
  refine (follows_look h).bind ?_
  rintro s₁ _ _ - ⟨rfl, rfl, rfl⟩
  exact hnext _ rfl

theorem seeing (word : Text) {f : Bool → Parser α} {g : Bool → Parser β}
    (hnext : ∀ found, Follows ρ whole s (f found) (g found) S) :
    Follows ρ whole s (sees word >>= f) (sees word >>= g) S :=
  looking (s.sees_recast word) fun found _ => hnext found

theorem accepting (word : Text) {f : Bool → Parser α} {g : Bool → Parser β}
    (hnext : ∀ s₁ found, s.Leaves s₁ → Follows ρ whole s₁ (f found) (g found) S) :
    Follows ρ whole s (accept word >>= f) (accept word >>= g) S := by
  refine (follows_accept word).bind ?_
  rintro s₁ _ found hs₁ rfl
  exact hnext s₁ found hs₁

theorem placing {f : Pos → Parser α} {g : Pos → Parser β}
    (hnext : ∀ p ∈ whole.allPlaces, Follows ρ whole s (f p) (g (ρ.place p)) S) :
    Follows ρ whole s (pos >>= f) (pos >>= g) S := by
  refine follows_pos.bind ?_
  rintro s₁ p _ - ⟨rfl, -, rfl, hp⟩
  exact hnext p hp

theorem skipping (count : Nat) {f : Parser α} {g : Parser β}
    (hnext : ∀ s₁, s.Leaves s₁ → Follows ρ whole s₁ f g S) :
    Follows ρ whole s (skip count >>= fun _ => f) (skip count >>= fun _ => g) S :=
  (follows_skip count).bind fun s₁ _ _ hs₁ _ => hnext s₁ hs₁

variable {f : Token → Parser α} {g : Token → Parser β}

theorem atCurrent (hw : Readable ρ whole)
    (hnext : ∀ t, t.text.Coded → t.pos ∈ whole.allPlaces →
      Follows ρ whole s (f t) (g (t.recast ρ)) S) :
    Follows ρ whole s (current >>= f) (current >>= g) S := by
  refine (follows_current hw).bind ?_
  rintro s₁ t _ - ⟨rfl, -, rfl, hcoded, hpos⟩
  exact hnext t hcoded hpos

theorem taking (hw : Readable ρ whole)
    (hnext : ∀ s₁, s.Leaves s₁ → s.current.text.Coded →
      Follows ρ whole s₁ (f s.current) (g (s.current.recast ρ)) S) :
    Follows ρ whole s (take >>= f) (take >>= g) S := by
  refine (follows_take hw).bind ?_
  rintro s₁ _ _ hs₁ ⟨rfl, rfl, hcoded, -⟩
  exact hnext s₁ hs₁ hcoded

theorem expecting (hw : Readable ρ whole) (word : Text)
    (hnext : ∀ s₁ t, s.Leaves s₁ → t.pos ∈ whole.allPlaces →
      Follows ρ whole s₁ (f t) (g (t.recast ρ)) S) :
    Follows ρ whole s (expect word >>= f) (expect word >>= g) S := by
  refine (follows_expect hw word).bind ?_
  rintro s₁ t _ hs₁ ⟨⟨rfl, -, hpos⟩, -⟩
  exact hnext s₁ t hs₁ hpos

theorem naming (hw : Readable ρ whole)
    (hnext : ∀ s₁ t, s.Leaves s₁ → t.text.Coded → (t.recast ρ).text = t.text →
      s.ahead = t :: s₁.ahead → Follows ρ whole s₁ (f t) (g (t.recast ρ)) S) :
    Follows ρ whole s (expectIdent >>= f) (expectIdent >>= g) S := by
  refine (follows_expectIdent hw).bind ?_
  rintro s₁ t _ hs₁ ⟨⟨rfl, hcoded, -⟩, htext, htaken⟩
  exact hnext s₁ t hs₁ hcoded htext htaken

theorem closing (hw : Readable ρ whole) (word : Text) {f : Parser α} {g : Parser β}
    (hnext : ∀ s₁, s.Leaves s₁ → Follows ρ whole s₁ f g S) :
    Follows ρ whole s (discard (expect word) >>= fun _ => f)
      (discard (expect word) >>= fun _ => g) S :=
  (follows_discard (follows_expect hw word)).bind fun s₁ _ _ hs₁ _ => hnext s₁ hs₁

end Follows

/-! ## Options and sequences -/

variable (R : TokenStream → TokenStream → α → β → Prop)

/-- Both have a value, or neither has one. -/
inductive Maybe (s s₁ : TokenStream) : Option α → Option β → Prop
  | none (h : s.Leaves s₁) : Maybe s s₁ none none
  | some {a : α} {b : β} (h : R s s₁ a b) : Maybe s s₁ (some a) (some b)

/-- Values that were read one behind the other. -/
inductive Chain : TokenStream → TokenStream → List α → List β → Prop
  | nil {s s₁ : TokenStream} (h : s.Leaves s₁) : Chain s s₁ [] []
  | cons {s s₁ s₂ : TokenStream} {a : α} {b : β} {as : List α} {bs : List β} (h : R s s₁ a b)
    (hrest : Chain s₁ s₂ as bs) : Chain s s₂ (a :: as) (b :: bs)

variable {R}

theorem Chain.length_eq {as : List α} {bs : List β} (h : Chain R s s₁ as bs) :
    bs.length = as.length := by
  induction h with
  | nil => rfl
  | cons _ _ ih => exact congrArg (· + 1) ih

theorem Chain.imp {S : TokenStream → TokenStream → α → β → Prop} {as : List α} {bs : List β}
    (h : Chain R s s₁ as bs) (hRS : ∀ {s s₁ a b}, R s s₁ a b → S s s₁ a b) :
    Chain S s s₁ as bs := by
  induction h with
  | nil hs => exact .nil hs
  | cons h _ ih => exact .cons (hRS h) ih

theorem Follows.many {p : Parser (Option α)} {q : Parser (Option β)}
    (h : ∀ s₁, s.Leaves s₁ → Follows ρ whole s₁ p q fun s₂ x y => Maybe R s₁ s₂ x y) :
    Follows ρ whole s (many p) (many q) fun s₁ as bs => Chain R s s₁ as bs := by
  have hloop : ∀ (fuel : List Token) s₁, s.Leaves s₁ →
      Follows ρ whole s₁ (many.loop p fuel) (many.loop q (fuel.map (Token.recast ρ)))
        fun s₂ as bs => Chain R s₁ s₂ as bs := by
    intro fuel
    induction fuel with
    | nil =>
      intro s₁ hs₁
      refine (h s₁ hs₁).bind fun s₂ x y hs₂ hxy => .pure ?_
      cases hxy with
      | none hs => exact .nil hs
      | some hR => exact .cons hR (.nil (.refl s₂))
    | cons t fuel ih =>
      intro s₁ hs₁
      refine (h s₁ hs₁).bind fun s₂ x y hs₂ hxy => ?_
      cases hxy with
      | none hs => exact .pure (.nil hs)
      | some hR => exact (ih s₂ (hs₁.trans hs₂)).bind fun s₃ as bs _ hrest => .pure (.cons hR hrest)
  exact fun hs => hloop s.ahead s (.refl s) hs

/-- `R` holds of the value that a loop goes on with, and of the last one. -/
theorem Follows.iterate {σ τ : Type} {step : σ → Parser (Option σ)} {step' : τ → Parser (Option τ)}
    {R : TokenStream → σ → τ → Prop} {a : σ} {b : τ}
    (hstep : ∀ s₁ a b, s.Leaves s₁ → R s₁ a b → Follows ρ whole s₁ (step a) (step' b)
      fun s₂ x y => x.isSome = y.isSome ∧ R s₂ (x.getD a) (y.getD b))
    (h : R s a b) : Follows ρ whole s (iterate step a) (iterate step' b) R := by
  have hloop : ∀ (fuel : List Token) s₁ a b, s.Leaves s₁ → R s₁ a b →
      Follows ρ whole s₁ (iterate.loop step fuel a)
        (iterate.loop step' (fuel.map (Token.recast ρ)) b) R := by
    intro fuel
    induction fuel with
    | nil =>
      intro s₁ a b hs₁ h
      exact (hstep s₁ a b hs₁ h).bind fun s₂ x y _ hxy => .pure hxy.2
    | cons t fuel ih =>
      intro s₁ a b hs₁ h
      refine (hstep s₁ a b hs₁ h).bind fun s₂ x y hs₂ hxy => ?_
      obtain ⟨hsome, hR⟩ := hxy
      cases x with
      | none =>
        cases y with
        | none => exact .pure hR
        | some => cases hsome
      | some =>
        cases y with
        | none => cases hsome
        | some => exact ih s₂ _ _ (hs₁.trans hs₂) hR
  exact fun hs => hloop s.ahead s a b (.refl s) h hs

/-! ## Values with a tree -/

/-- Values that have the same tree, up to the change. -/
def Reads (ρ : Recast) (view : α → Tree) (s s₁ : TokenStream) (a b : α) : Prop :=
  Yields ρ s s₁ (view a) (view b)

variable {view : α → Tree} {p : Parser α}

theorem Maybe.yields {x y : Option α} (h : Maybe (Reads ρ view) s s₁ x y) :
    Yields ρ s s₁ (Tree.option view x) (Tree.option view y) := by
  cases h with
  | none hs => exact .absent hs
  | some h => exact h

theorem Chain.items {as bs : List α} (h : Chain (Reads ρ view) s s₁ as bs) :
    YieldsItems ρ s s₁ (as.map view) (bs.map view) := by
  induction h with
  | nil hs => exact .nil hs
  | cons h _ ih => exact .cons h ih

/-- The same for another way to write down the trees of the values. -/
theorem Chain.trees {as bs : List α} {trees : List α → List Tree}
    (h : Chain (Reads ρ view) s s₁ as bs) (htrees : ∀ as, trees as = as.map view) :
    YieldsItems ρ s s₁ (trees as) (trees bs) := by
  rw [htrees, htrees]
  exact h.items

/-- Places without a value take nothing but tokens. -/
theorem Chain.presentItems {as bs : List (Option α)} (h : Chain (Maybe (Reads ρ view)) s s₁ as bs) :
    YieldsItems ρ s s₁ ((as.filterMap id).map view) ((bs.filterMap id).map view) := by
  induction h with
  | nil hs => exact .nil hs
  | cons h _ ih =>
    cases h with
    | none hs => exact ih.pass hs
    | some h => exact .cons h ih

theorem follows_after (word : Text)
    (h : ∀ s₁, s.Leaves s₁ → Follows ρ whole s₁ p p fun s₂ a b => Reads ρ view s₁ s₂ a b) :
    Follows ρ whole s (after word p) (after word p) fun s₁ x y =>
      Maybe (Reads ρ view) s s₁ x y := by
  refine (follows_accept word).bind fun s₁ found _ hs₁ hfound => ?_
  subst hfound
  refine .ite (fun _ => ?_) fun _ => .pure (.none hs₁)
  exact (h s₁ hs₁).bind fun s₂ a b _ hab => .pure (.some (hab.pass hs₁))

theorem follows_separatedBy (word : Text)
    (h : ∀ s₁, s.Leaves s₁ → Follows ρ whole s₁ p p fun s₂ a b => Reads ρ view s₁ s₂ a b) :
    Follows ρ whole s (separatedBy word p) (separatedBy word p) fun s₁ as bs =>
      Chain (Reads ρ view) s s₁ as bs := by
  refine (h s (.refl s)).bind fun s₁ a b hs₁ hab => ?_
  refine (Follows.many fun s₂ hs₂ => follows_after word fun s₃ hs₃ =>
    h s₃ (hs₁.trans (hs₂.trans hs₃))).bind fun s₂ as bs _ hrest => ?_
  exact .pure (.cons hab hrest)

end Parser

end WriteOnce
