/-!
# Text as a sequence of code points

A character literal can name a surrogate code point on its own, and no string
of characters holds one. Everything the library reads, compares and prints is
therefore a `Text`: a list of code points, surrogates included.
-/

namespace WriteOnce

/-- A sequence of Unicode code points, surrogates included. -/
structure Text where
  codes : List Nat
  deriving DecidableEq, Inhabited

namespace Text

def empty : Text := ⟨[]⟩

def ofChars (cs : List Char) : Text := ⟨cs.map Char.toNat⟩

def ofString (s : String) : Text := ofChars s.toList

instance : Coe String Text := ⟨ofString⟩

instance : Append Text := ⟨fun s t => ⟨s.codes ++ t.codes⟩⟩

@[simp] theorem codes_append (s t : Text) : (s ++ t).codes = s.codes ++ t.codes := rfl

@[simp] theorem codes_ofChars (cs : List Char) : (ofChars cs).codes = cs.map Char.toNat := rfl

@[ext] theorem ext {s t : Text} (h : s.codes = t.codes) : s = t := by
  cases s; cases t; simp_all

theorem append_assoc (s t u : Text) : s ++ t ++ u = s ++ (t ++ u) := ext (List.append_assoc ..)

theorem append_empty (t : Text) : t ++ empty = t := ext (List.append_nil _)

def isEmpty (t : Text) : Bool := t.codes.isEmpty

def isSurrogate (code : Nat) : Bool := 0xD800 ≤ code && code ≤ 0xDFFF

/-- The string with these code points, if none of them is a surrogate. -/
def toString? (t : Text) : Option String :=
  if t.codes.any isSurrogate then none
  else some (String.ofList (t.codes.map Char.ofNat))

/-- Decimal digits, without leading zeros. -/
def ofNat (n : Nat) : Text := ofChars (Nat.toDigits 10 n)

def ofInt : Int → Text
  | .ofNat n => ofNat n
  | .negSucc n => ofString "-" ++ ofNat (n + 1)

/-- The parts in order, with the separator between neighbours. -/
def join (separator : Text) : List Text → Text
  | [] => empty
  | [t] => t
  | t :: ts => t ++ separator ++ join separator ts

/-- Order by code points: a proper beginning comes first. -/
def le (s t : Text) : Bool := codesLe s.codes t.codes
where
  codesLe : List Nat → List Nat → Bool
    | [], _ => true
    | _ :: _, [] => false
    | a :: as, b :: bs => a < b || (a = b && codesLe as bs)

/-- The beginning of a text, of so many code points. -/
def take (count : Nat) (t : Text) : Text := ⟨t.codes.take count⟩

def startsWith (t beginning : Text) : Bool := beginning.codes.isPrefixOf t.codes

/-- The pieces between the occurrences of a code point: one more than those. -/
def split (separator : Nat) (t : Text) : List Text :=
  (pieces t.codes).map Text.mk
where
  pieces : List Nat → List (List Nat)
    | [] => [[]]
    | c :: cs =>
      if c = separator then [] :: pieces cs
      else match pieces cs with
        | piece :: rest => (c :: piece) :: rest
        | [] => [[c]]

end Text

end WriteOnce
