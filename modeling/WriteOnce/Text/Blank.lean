import WriteOnce.Text.Basic

/-!
# Blank code points and trimming

Blank are the code points of the Unicode property `White_Space` and the four
information separators U+001C to U+001F.
-/

namespace WriteOnce

namespace Text

def isBlank (code : Nat) : Bool :=
  (0x09 ≤ code && code ≤ 0x0D) || (0x1C ≤ code && code ≤ 0x20) || code = 0x85 || code = 0xA0
    || code = 0x1680 || (0x2000 ≤ code && code ≤ 0x200A) || code = 0x2028 || code = 0x2029
    || code = 0x202F || code = 0x205F || code = 0x3000

/-- The text without the blanks at its two ends. -/
def trim (t : Text) : Text :=
  ⟨((t.codes.dropWhile isBlank).reverse.dropWhile isBlank).reverse⟩

end Text

end WriteOnce
