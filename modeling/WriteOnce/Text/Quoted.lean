import WriteOnce.Text.Printable

/-!
# Quoted text

A quoted text stands between quotation marks on one line and shows no code
point that cannot be printed. The mark is the apostrophe, unless the text holds
an apostrophe and no double quotation mark.
-/

namespace WriteOnce

namespace Text

namespace Quoted

def apostrophe : Nat := 0x27

def doubleQuote : Nat := 0x22

def backslash : Nat := 0x5C

def mark (t : Text) : Nat :=
  if t.codes.contains apostrophe && !t.codes.contains doubleQuote then doubleQuote
  else apostrophe

def hexDigit (n : Nat) : Nat := if n < 10 then 0x30 + n else 0x57 + n

/-- The last `width` hexadecimal digits of a number, in lower case. -/
def hexDigits : Nat → Nat → List Nat
  | 0, _ => []
  | width + 1, n => hexDigits width (n / 16) ++ [hexDigit (n % 16)]

/-- The escape of a code point that is not printable: two, four or eight digits. -/
def numericEscape (code : Nat) : List Nat :=
  if code < 0x100 then backslash :: 0x78 :: hexDigits 2 code
  else if code < 0x10000 then backslash :: 0x75 :: hexDigits 4 code
  else backslash :: 0x55 :: hexDigits 8 code

/-- What stands for one code point between the given marks. -/
def encodeCode (printable : Nat → Bool) (quote code : Nat) : List Nat :=
  if code = quote || code = backslash then [backslash, code]
  else if code = 0x0A then [backslash, 0x6E]
  else if code = 0x0D then [backslash, 0x72]
  else if code = 0x09 then [backslash, 0x74]
  else if printable code then [code]
  else numericEscape code

def encode (printable : Nat → Bool) (t : Text) : Text :=
  let quote := mark t
  ⟨quote :: t.codes.flatMap (encodeCode printable quote) ++ [quote]⟩

end Quoted

/-- The quoted form that keeps the code points of `isPrintable`. -/
def quoted (t : Text) : Text := Quoted.encode isPrintable t

end Text

end WriteOnce
