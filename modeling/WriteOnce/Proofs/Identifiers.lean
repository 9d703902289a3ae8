import WriteOnce.Proofs.TokenOrder

/-!
# Names as they can be written

Every token is read from a piece of the source, and a token that is a name has a text that no
keyword has, nor any operator, since it begins with a letter.
-/

namespace WriteOnce

theorem Text.ofChars_injective : Function.Injective Text.ofChars := fun _ _ h =>
  List.map_injective_iff.2 (fun _ _ hcode => Char.toNat_inj.1 hcode) (congrArg Text.codes h)

/-- A name that a source can declare: a letter, then letters and digits, and no keyword. -/
def Text.IsIdentifier (t : Text) : Prop :=
  ∃ c cs, t = .ofChars (c :: cs) ∧ Lexer.isLetter c = true ∧
    (∀ d ∈ cs, Lexer.isLetter d = true ∨ d.isDigit = true) ∧ t ∉ Token.keywords

/-- A keyword, or a text that does not begin with a letter. -/
def Text.isReserved (t : Text) : Bool :=
  t ∈ Token.keywords || !t.codes.head?.any fun code => Lexer.isLetter (Char.ofNat code)

theorem Text.IsIdentifier.isReserved {t : Text} (h : t.IsIdentifier) : t.isReserved = false := by
  obtain ⟨c, cs, rfl, hletter, -, hkeyword⟩ := h
  rw [Text.isReserved, decide_eq_false hkeyword]
  simp [ofChars, hletter]

theorem Text.IsIdentifier.ne {t : Text} (h : t.IsIdentifier) {word : Text}
    (hword : word.isReserved = true) : t ≠ word := by
  rintro rfl
  cases hword.symm.trans h.isReserved

theorem Text.IsIdentifier.notMem {t : Text} (h : t.IsIdentifier) {words : List Text}
    (hwords : ∀ word ∈ words, word.isReserved = true) : t ∉ words :=
  fun ht => h.ne (hwords t ht) rfl

namespace Lexer

/-- Every token is read from a piece. -/
theorem exists_readPiece {skip : Nat} {pos : Pos} {cs : List Char} {s : TokenStream}
    (h : scan skip pos cs = .ok s) : ∀ t ∈ s.ahead, ∃ c cs length,
      readPiece c cs = .ok (.token t.kind t.text, length) := by
  induction cs generalizing skip pos s with
  | nil =>
    cases h
    exact fun t ht => nomatch ht
  | cons c cs ih =>
    cases skip with
    | succ skip => exact ih h
    | zero =>
      rw [scan] at h
      split at h
      · cases h
      · rename_i piece length hpiece
        dsimp only at h
        cases piece with
        | token kind text =>
          obtain ⟨rest, hrest, rfl⟩ := exists_of_map_eq_ok h
          exact List.forall_mem_cons.2 ⟨⟨c, cs, length, hpiece⟩, ih hrest⟩
        | _ => exact ih h

theorem isIdentifier_of_readPiece {c : Char} {cs : List Char} {text : Text} {length : Nat}
    (h : readPiece c cs = .ok (.token .ident text, length)) : text.IsIdentifier := by
  cases readsToken h with
  | number _ hnumber => rcases kind_number hnumber with hkind | hkind <;> cases hkind
  | word hfirst hletters hkind =>
    obtain hkind | ⟨-, hkeyword⟩ := hkind
    · cases hkind
    · exact ⟨c, _, rfl, hfirst, hletters, hkeyword⟩

end Lexer

/-- The names among tokens are names that a source can declare. -/
def TokenStream.Named (s : TokenStream) : Prop :=
  ∀ t ∈ s.ahead, t.isIdent = true → t.text.IsIdentifier

namespace TokenStream

variable {s s₁ : TokenStream}

theorem named_of_tokenize {source : List Char} (h : tokenize source = .ok s) : s.Named := by
  intro t ht hident
  obtain ⟨c, cs, length, hpiece⟩ := Lexer.exists_readPiece h t ht
  rw [show t.kind = .ident from of_decide_eq_true hident] at hpiece
  exact Lexer.isIdentifier_of_readPiece hpiece

theorem Named.left (h : s.Named) (hs : s₁.ahead <:+ s.ahead) : s₁.Named :=
  fun t ht => h t (hs.subset ht)

theorem Named.current (h : s.Named) (hident : s.current.isIdent = true) :
    s.current.text.IsIdentifier := by
  obtain ⟨_ | ⟨t, ts⟩, stop⟩ := s
  · cases hident
  · exact h t List.mem_cons_self hident

end TokenStream

end WriteOnce
