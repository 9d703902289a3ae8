import WriteOnce.Pos

/-!
# Tokens

A token keeps the text that it stands for: for a string or character literal
that is the decoded content, for every other token the source text itself.
-/

namespace WriteOnce

namespace Token

inductive Kind
  | int
  | float
  | string
  | char
  | ident
  | keyword
  | op
  | endOfInput
  deriving DecidableEq, Inhabited

end Token

structure Token where
  kind : Token.Kind
  text : Text
  pos : Pos
  deriving DecidableEq, Inhabited

namespace Token

def keywords : List Text :=
  ["abstract", "boolean", "break", "byte", "case", "catch", "char", "class", "continue",
   "default", "do", "double", "else", "extends", "false", "final", "finally", "float", "for",
   "if", "implements", "instanceof", "int", "long", "native", "new", "null", "private",
   "protected", "public", "return", "short", "static", "strictfp", "super", "switch",
   "synchronized", "this", "throw", "throws", "transient", "true", "try", "void", "volatile",
   "while"].map Text.ofString

/-- Operators of two and three characters, longer ones first. A `>` followed by anything
but `=` always stands alone, so that nested type arguments close one at a time. -/
def longOperators : List Text :=
  ["<<=", "...", "->", "::", "++", "--", "&&", "||", "<=", ">=", "==", "!=", "<<", "+=", "-=",
   "*=", "/=", "%=", "&=", "|=", "^="].map Text.ofString

def shortOperators : List Text :=
  ["+", "-", "*", "/", "%", "&", "|", "^", "~", "!", "<", ">", "=", "(", ")", "[", "]", "\x7b",
   "\x7d", ",", ";", ":", ".", "?", "@"].map Text.ofString

/-- The name of a token's type: a keyword is a type of its own. -/
def typeName (t : Token) : Text :=
  match t.kind with
  | .int => "INT"
  | .float => "FLOAT"
  | .string => "STRING"
  | .char => "CHAR"
  | .ident => "IDENT"
  | .keyword => t.text
  | .op => "OP"
  | .endOfInput => "EOF"

/-- Whether the token is written with quotation marks. -/
def isQuoted (t : Token) : Bool := t.kind = .string || t.kind = .char

def isIdent (t : Token) : Bool := t.kind = .ident

/-- The token that stands for the end of an input. -/
def endAt (pos : Pos) : Token := ⟨.endOfInput, .empty, pos⟩

end Token

/-- The tokens that are left to read, and where the input ends. -/
structure TokenStream where
  ahead : List Token
  stop : Pos
  deriving DecidableEq, Inhabited

namespace TokenStream

/-- All tokens, the one for the end of the input included. -/
def toList (s : TokenStream) : List Token := s.ahead ++ [Token.endAt s.stop]

end TokenStream

end WriteOnce
