import WriteOnce.Text.Basic

/-!
# Lines

A text is written line by line, each line with a line feed behind it. It is read
back at every code point that Unicode takes as the end of a line or a page, and at
the three larger information separators.
-/

namespace WriteOnce

namespace Text

def lineFeed : Nat := 0x0A

def carriageReturn : Nat := 0x0D

def endsLine (code : Nat) : Bool :=
  (lineFeed ≤ code && code ≤ carriageReturn) || (0x1C ≤ code && code ≤ 0x1E) || code = 0x85
    || code = 0x2028 || code = 0x2029

/-- The lines in order, each with its end. -/
def ofLines (lines : List Text) : Text := ⟨lines.flatMap fun line => line.codes ++ [lineFeed]⟩

/-- Puts a code point in front of the first line. -/
def prependCode (code : Nat) : List (List Nat) → List (List Nat)
  | [] => [[code]]
  | line :: lines => (code :: line) :: lines

/-- The lines without their ends; a carriage return and a line feed behind it are one end. The
last line may lack its end. -/
def linesOf : List Nat → List (List Nat)
  | [] => []
  | [code] => if endsLine code then [[]] else [[code]]
  | code :: next :: codes =>
    if code = carriageReturn && next = lineFeed then [] :: linesOf codes
    else if endsLine code then [] :: linesOf (next :: codes)
    else prependCode code (linesOf (next :: codes))

def lines (t : Text) : List Text := (linesOf t.codes).map Text.mk

end Text

end WriteOnce
