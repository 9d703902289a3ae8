import WriteOnce.Text.Quoted

/-!
# Numerals in any script

Unicode assigns ten consecutive code points to the decimal digits of a script.
Superscripts, circled numbers and the like are digits as well, but have no place
in a decimal numeral. A numeral may have so many digits and no more.
-/

namespace WriteOnce

namespace Text

/-- The zeros of the scripts: nine more digits follow each of them. -/
def decimalZeros : List Nat :=
  [0x30, 0x660, 0x6F0, 0x7C0, 0x966, 0x9E6, 0xA66, 0xAE6, 0xB66, 0xBE6, 0xC66, 0xCE6, 0xD66,
   0xDE6, 0xE50, 0xED0, 0xF20, 0x1040, 0x1090, 0x17E0, 0x1810, 0x1946, 0x19D0, 0x1A80, 0x1A90,
   0x1B50, 0x1BB0, 0x1C40, 0x1C50, 0xA620, 0xA8D0, 0xA900, 0xA9D0, 0xA9F0, 0xAA50, 0xABF0,
   0xFF10, 0x104A0, 0x10D30, 0x11066, 0x110F0, 0x11136, 0x111D0, 0x112F0, 0x11450, 0x114D0,
   0x11650, 0x116C0, 0x11730, 0x118E0, 0x11950, 0x11C50, 0x11D50, 0x11DA0, 0x16A60, 0x16AC0,
   0x16B50, 0x1D7CE, 0x1D7D8, 0x1D7E2, 0x1D7EC, 0x1D7F6, 0x1E140, 0x1E2F0, 0x1E950, 0x1FBF0]

/-- Digits that belong to no decimal numeral, as closed intervals. -/
def otherDigitRanges : List (Nat × Nat) :=
  [(0xB2, 0xB3), (0xB9, 0xB9), (0x1369, 0x1371), (0x19DA, 0x19DA), (0x2070, 0x2070),
   (0x2074, 0x2079), (0x2080, 0x2089), (0x2460, 0x2468), (0x2474, 0x247C), (0x2488, 0x2490),
   (0x24EA, 0x24EA), (0x24F5, 0x24FD), (0x24FF, 0x24FF), (0x2776, 0x277E), (0x2780, 0x2788),
   (0x278A, 0x2792), (0x10A40, 0x10A43), (0x10E60, 0x10E68), (0x11052, 0x1105A),
   (0x1F100, 0x1F10A)]

def decimalValue? (code : Nat) : Option Nat :=
  (decimalZeros.find? fun low => low ≤ code && code < low + 10).map (code - ·)

def isDigit (code : Nat) : Bool :=
  (decimalValue? code).isSome
    || otherDigitRanges.any fun (low, high) => low ≤ code && code ≤ high

def allDigits (t : Text) : Bool := !t.isEmpty && t.codes.all isDigit

/-- The decimal digits in front, by value. -/
def leadingDecimals : List Nat → List Nat
  | [] => []
  | code :: codes =>
    match decimalValue? code with
    | some value => value :: leadingDecimals codes
    | none => []

/-- The most digits a numeral may have. -/
def longestNumeral : Nat := 4300

end Text

/-- Why digits are not read as a number. -/
inductive NumeralFault
  /-- Not all of these digits are decimal. -/
  | notDecimal (digits : Text)
  /-- There are so many decimal digits. -/
  | tooLong (count : Nat)
  deriving DecidableEq

namespace NumeralFault

/-- How much of a quoted numeral is shown, its opening mark included. -/
def shown : Nat := 200

def message : NumeralFault → Text
  | notDecimal digits => "invalid literal for int() with base 10: " ++ digits.quoted.take shown
  | tooLong count =>
    "Exceeds the limit (" ++ Text.ofNat Text.longestNumeral
      ++ " digits) for integer string conversion: value has " ++ Text.ofNat count
      ++ " digits; use sys.set_int_max_str_digits() to increase the limit"

end NumeralFault

/-- The value of a text of digits. That there are too many decimal digits in front is noticed
before a digit that is not decimal. -/
def Text.numeral (t : Text) : Except NumeralFault Nat :=
  let values := leadingDecimals t.codes
  if longestNumeral < values.length then .error (.tooLong values.length)
  else if values.length < t.codes.length then .error (.notDecimal t)
  else .ok (values.foldl (fun n d => 10 * n + d) 0)

end WriteOnce
