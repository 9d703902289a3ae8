import WriteOnce.Text.Basic

/-!
# UTF-8

The bytes of a text. Surrogates have no place in this encoding; a text is encoded
after they have been escaped.
-/

namespace WriteOnce

namespace Text

/-- The byte of a continuation that carries six bits of the code point. -/
def continuationByte (bits : Nat) : UInt8 := UInt8.ofNat (0x80 + bits % 0x40)

def utf8Bytes (code : Nat) : List UInt8 :=
  if code < 0x80 then [UInt8.ofNat code]
  else if code < 0x800 then [UInt8.ofNat (0xC0 + code / 0x40), continuationByte code]
  else if code < 0x10000 then
    [UInt8.ofNat (0xE0 + code / 0x1000), continuationByte (code / 0x40), continuationByte code]
  else
    [UInt8.ofNat (0xF0 + code / 0x40000), continuationByte (code / 0x1000),
      continuationByte (code / 0x40), continuationByte code]

def utf8 (t : Text) : List UInt8 := t.codes.flatMap utf8Bytes

end Text

end WriteOnce
