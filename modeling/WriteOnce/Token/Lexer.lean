import WriteOnce.Text.Quoted
import WriteOnce.Token.Basic

/-!
# Reading tokens

The source is cut into pieces: blanks, comments and tokens. `readPiece` looks at
the first piece and counts its characters; `scan` walks over the characters once,
placing each piece and keeping the tokens.
-/

namespace WriteOnce

inductive LexFault
  | unterminatedComment
  | hexWithoutDigits
  | exponentWithoutDigits
  | unterminatedString
  | unterminatedChar
  | emptyChar
  | unfinishedEscape
  | badUnicodeEscape
  | unknownEscape (c : Char)
  | unexpectedCharacter (c : Char)
  deriving DecidableEq

structure LexError where
  fault : LexFault
  pos : Pos
  deriving DecidableEq

def LexFault.message : LexFault → Text
  | .unterminatedComment => "unterminated block comment"
  | .hexWithoutDigits => "hex literal needs digits"
  | .exponentWithoutDigits => "invalid float exponent"
  | .unterminatedString => "unterminated string literal"
  | .unterminatedChar => "unterminated char literal"
  | .emptyChar => "empty char literal"
  | .unfinishedEscape => "unexpected end of literal in escape"
  | .badUnicodeEscape => "invalid unicode escape"
  | .unknownEscape c => "invalid escape: \\" ++ Text.ofChars [c]
  | .unexpectedCharacter c => "unexpected character: " ++ (Text.ofChars [c]).quoted

def LexError.message (e : LexError) : Text := e.pos.locate e.fault.message

namespace Lexer

def isHexDigit (c : Char) : Bool :=
  c.isDigit || ('a' ≤ c && c ≤ 'f') || ('A' ≤ c && c ≤ 'F')

/-- The characters a name may begin with. -/
def isLetter (c : Char) : Bool := c.isAlpha || c = '_' || c = '$'

def isBlank (c : Char) : Bool :=
  c = ' ' || c = '\t' || c = '\r' || c = '\x0c' || c = '\n'

/-- The number of characters up to the end of a block comment, its `*/` included. -/
def commentLength? : List Char → Option Nat
  | [] => none
  | '*' :: '/' :: _ => some 2
  | _ :: cs => (commentLength? cs).map (· + 1)

/-! ## Numbers -/

/-- The first character if it is one of these, else nothing. -/
def oneOf (choices : List Char) (cs : List Char) : List Char :=
  (cs.take 1).filter choices.contains

def digitRun (cs : List Char) : List Char := cs.takeWhile fun c => c.isDigit || c = '_'

/-- The part of a number that begins with its point. A point before a letter is no part of it. -/
def fraction : List Char → List Char
  | '.' :: c :: cs =>
    if c.isDigit then '.' :: digitRun (c :: cs) else if isLetter c then [] else ['.']
  | ['.'] => ['.']
  | _ => []

/-- The exponent, or nothing; `none` if an exponent begins but has no digits. -/
def exponent? (cs : List Char) : Option (List Char) :=
  let marker := oneOf ['e', 'E'] cs
  if marker.isEmpty then some []
  else
    let sign := oneOf ['+', '-'] (cs.drop 1)
    let digits := (cs.drop (1 + sign.length)).takeWhile Char.isDigit
    if digits.isEmpty then none else some (marker ++ sign ++ digits)

def decimalNumber (cs : List Char) : Except LexFault (Token.Kind × List Char) :=
  let whole := digitRun cs
  let cs := cs.drop whole.length
  let part := fraction cs
  let cs := cs.drop part.length
  match exponent? cs with
  | none => .error .exponentWithoutDigits
  | some power =>
    let cs := cs.drop power.length
    let floatMark := oneOf ['f', 'F', 'd', 'D'] cs
    if part.isEmpty && power.isEmpty && floatMark.isEmpty then
      .ok (.int, whole ++ oneOf ['L', 'l'] cs)
    else
      .ok (.float, whole ++ part ++ power ++ floatMark)

/-- The number that begins here, with its kind. -/
def number (cs : List Char) : Except LexFault (Token.Kind × List Char) :=
  let lead := cs.take 2
  if lead = ['0', 'x'] || lead = ['0', 'X'] then
    let digits := (cs.drop 2).takeWhile fun c => isHexDigit c || c = '_'
    if digits.isEmpty then .error .hexWithoutDigits
    else .ok (.int, lead ++ digits ++ oneOf ['L', 'l'] (cs.drop (2 + digits.length)))
  else
    decimalNumber cs

/-! ## Literals between quotation marks -/

def hexValue (c : Char) : Nat :=
  if c.isDigit then c.toNat - 0x30 else if 'a' ≤ c then c.toNat - 0x57 else c.toNat - 0x37

/-- Escapes of a single character. -/
def simpleEscapes : List (Char × Nat) :=
  [('n', 0x0A), ('r', 0x0D), ('t', 0x09), ('b', 0x08), ('f', 0x0C), ('\\', 0x5C), ('"', 0x22),
   ('\'', 0x27), ('0', 0x00)]

/-- The code point an escape stands for and its length, both without the backslash. -/
def escape : List Char → Except LexFault (Nat × Nat)
  | [] => .error .unfinishedEscape
  | c :: cs =>
    match simpleEscapes.lookup c with
    | some code => .ok (code, 1)
    | none =>
      if c = 'u' then
        let marks := cs.takeWhile (· = 'u')
        let digits := (cs.drop marks.length).take 4
        if digits.length = 4 && digits.all isHexDigit then
          .ok (digits.foldl (fun n d => 16 * n + hexValue d) 0, 1 + marks.length + 4)
        else .error .badUnicodeEscape
      else .error (.unknownEscape c)

/-- The content of a string literal and its length with the closing mark. `skip` characters
belong to an escape that is already decoded; `offset` counts the columns since the opening mark.
A fault comes with the column it is reported at, counted likewise. -/
def stringContent : Nat → Nat → List Char → Except (LexFault × Nat) (List Nat × Nat)
  | _, _, [] => .error (.unterminatedString, 0)
  | skip + 1, offset, _ :: cs => stringContent skip (offset + 1) cs
  | 0, offset, c :: cs =>
    if c = '"' then .ok ([], offset)
    else if c = '\n' then .error (.unterminatedString, 0)
    else if c = '\\' then
      match escape cs with
      | .error fault => .error (fault, offset + 1)
      | .ok (code, length) =>
        (stringContent length (offset + 1) cs).map fun (codes, size) => (code :: codes, size)
    else
      (stringContent 0 (offset + 1) cs).map fun (codes, size) => (c.toNat :: codes, size)

/-- Requires the closing mark of a character literal after `length` characters. -/
def closeChar (code length : Nat) (cs : List Char) : Except (LexFault × Nat) (Nat × Nat) :=
  if (cs.drop length).head? = some '\'' then .ok (code, length + 1)
  else .error (.unterminatedChar, 0)

/-- The content of a character literal and its length with the closing mark. -/
def charContent : List Char → Except (LexFault × Nat) (Nat × Nat)
  | [] => .error (.unterminatedChar, 0)
  | c :: cs =>
    if c = '\n' then .error (.unterminatedChar, 0)
    else if c = '\\' then
      match escape cs with
      | .error fault => .error (fault, 2)
      | .ok (code, length) => closeChar code (length + 1) (c :: cs)
    else if c = '\'' then .error (.emptyChar, 0)
    else closeChar c.toNat 1 (c :: cs)

/-! ## Pieces -/

inductive Piece
  | blank
  | lineComment
  | blockComment
  | token (kind : Token.Kind) (text : Text)

/-- The piece that begins with `c`, and how many characters of `cs` belong to it. A fault comes
with its column, counted from `c`. -/
def readPiece (c : Char) (cs : List Char) : Except (LexFault × Nat) (Piece × Nat) :=
  if isBlank c then .ok (.blank, 0)
  else if c = '/' && cs.head? = some '/' then
    .ok (.lineComment, (cs.takeWhile (· ≠ '\n')).length)
  else if c = '/' && cs.head? = some '*' then
    match commentLength? (cs.drop 1) with
    | some length => .ok (.blockComment, 1 + length)
    | none => .error (.unterminatedComment, 0)
  else if c.isDigit || (c = '.' && (cs.head?.map Char.isDigit).getD false) then
    match number (c :: cs) with
    | .ok (kind, lexeme) => .ok (.token kind (.ofChars lexeme), lexeme.length - 1)
    | .error fault => .error (fault, 0)
  else if c = '"' then
    (stringContent 0 1 cs).map fun (codes, length) => (.token .string ⟨codes⟩, length)
  else if c = '\'' then
    (charContent cs).map fun (code, length) => (.token .char ⟨[code]⟩, length)
  else if isLetter c then
    let rest := cs.takeWhile fun c => isLetter c || c.isDigit
    let word := Text.ofChars (c :: rest)
    .ok (.token (if word ∈ Token.keywords then .keyword else .ident) word, rest.length)
  else
    let source := (c :: cs.take 2).map Char.toNat
    match Token.longOperators.find? fun op => op.codes.isPrefixOf source with
    | some op => .ok (.token .op op, op.codes.length - 1)
    | none =>
      if Text.ofChars [c] ∈ Token.shortOperators then .ok (.token .op (.ofChars [c]), 0)
      else .error (.unexpectedCharacter c, 0)

/-- The position after a piece. A line comment takes no columns: only the end of the input can
follow it on its line. -/
def Piece.next (piece : Piece) (pos : Pos) (cs : List Char) : Pos :=
  match piece with
  | .lineComment => pos
  | _ => pos.afterAll cs

/-- Reads on at `pos`, where `skip` characters belong to a piece that is already read and placed. -/
def scan : Nat → Pos → List Char → Except LexError TokenStream
  | _, pos, [] => .ok ⟨[], pos⟩
  | skip + 1, pos, _ :: cs => scan skip pos cs
  | 0, pos, c :: cs =>
    match readPiece c cs with
    | .error (fault, offset) => .error ⟨fault, pos.right offset⟩
    | .ok (piece, length) =>
      let next := piece.next pos (c :: cs.take length)
      match piece with
      | .token kind text =>
        (scan length next cs).map fun s => ⟨⟨kind, text, pos⟩ :: s.ahead, s.stop⟩
      | _ => scan length next cs

end Lexer

/-- The tokens of a source, or the first place where none can be read. -/
def tokenize (source : List Char) : Except LexError TokenStream :=
  Lexer.scan 0 Pos.start source

end WriteOnce
