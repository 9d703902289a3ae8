import WriteOnce.Token.Basic
import WriteOnce.Syntax.Basic

/-!
# Parsers on a token stream

A parser takes tokens from the front of a stream or fails at the token in front.
The productions of the grammar refer to each other through a `Grammar`, a record
of parsers, and recursion is limited by tying that record a fixed number of times.
-/

namespace WriteOnce

/-- Constructs that can be cut off by the end of the input. -/
inductive Enclosure
  | classBody
  | block
  | switch
  deriving DecidableEq

def Enclosure.word : Enclosure → Text
  | .classBody => "class body"
  | .block => "block"
  | .switch => "switch"

inductive ParseFault
  | expected (word got : Text)
  | expectedIdent (got : Text)
  | expectedType (got : Text)
  | expectedExpr (got : Text)
  | expectedGroup (got : Text)
  | expectedField
  | expectedMethod
  | expectedNew (type : Text)
  | unfinished (enclosure : Enclosure)
  | malformedTypeParams
  | arrowGroup
  | tryResources
  | tryWithoutHandler
  | badTarget
  | badOperand (op : Text)
  | afterBlock (got : Text)
  | tooDeep
  deriving DecidableEq

def ParseFault.message : ParseFault → Text
  | .expected word got => "expected '" ++ word ++ "', got '" ++ got ++ "'"
  | .expectedIdent got => "expected identifier, got '" ++ got ++ "'"
  | .expectedType got => "expected type, got '" ++ got ++ "'"
  | .expectedExpr got => "expected expression, got '" ++ got ++ "'"
  | .expectedGroup got => "expected 'case' or 'default', got '" ++ got ++ "'"
  | .expectedField => "expected field name after '.'"
  | .expectedMethod => "expected method name after '::'"
  | .expectedNew type => "expected '(' or '[' after 'new " ++ type ++ "'"
  | .unfinished enclosure => "unexpected end of input in " ++ enclosure.word
  | .malformedTypeParams => "malformed type parameters"
  | .arrowGroup => "arrow-form switch cases are not supported"
  | .tryResources => "try-with-resources is not supported"
  | .tryWithoutHandler => "try must have catch or finally"
  | .badTarget => "invalid assignment target"
  | .badOperand op => "invalid " ++ op ++ " operand"
  | .afterBlock got => "unexpected '" ++ got ++ "' after block"
  | .tooDeep => "nesting too deep to parse"

structure ParseError where
  fault : ParseFault
  pos : Pos
  deriving DecidableEq

/-- Where nesting becomes too deep says nothing about the source, so that message has no place. -/
def ParseError.message (e : ParseError) : Text :=
  if e.fault = .tooDeep then e.fault.message else e.pos.locate e.fault.message

namespace TokenStream

/-- The token in front; at the end, the token that stands for it. -/
def current (s : TokenStream) : Token := s.ahead.headD (Token.endAt s.stop)

/-- The token behind the current one. -/
def next (s : TokenStream) : Token := s.ahead.tail.headD (Token.endAt s.stop)

def skip (s : TokenStream) (count : Nat) : TokenStream := { s with ahead := s.ahead.drop count }

/-- Whether the current token is this word or operator. Quoted literals are neither. -/
def sees (s : TokenStream) (word : Text) : Bool :=
  s.current.text = word && !s.current.isQuoted

def atEnd (s : TokenStream) : Bool := s.ahead.isEmpty

end TokenStream

abbrev Parser := StateT TokenStream (Except ParseError)

namespace Parser

def look (view : TokenStream → α) : Parser α := fun s => .ok (view s, s)

def failAt (pos : Pos) (fault : ParseFault) : Parser α := fun _ => .error ⟨fault, pos⟩

/-- Fails at the current token. -/
def fail (fault : ParseFault) : Parser α := fun s => .error ⟨fault, s.current.pos⟩

/-- Fails at the current token, with a fault that quotes it. -/
def failWith (fault : Text → ParseFault) : Parser α := fun s =>
  .error ⟨fault s.current.text, s.current.pos⟩

def current : Parser Token := look TokenStream.current

def pos : Parser Pos := look (·.current.pos)

def sees (word : Text) : Parser Bool := look (·.sees word)

def skip (count : Nat) : Parser Unit := fun s => .ok ((), s.skip count)

/-- Takes the current token; at the end nothing is taken. -/
def take : Parser Token := fun s => .ok (s.current, s.skip 1)

def expect (word : Text) : Parser Token := fun s =>
  if s.sees word then take s else failWith (.expected word) s

def expectIdent : Parser Token := fun s =>
  if s.current.isIdent then take s else failWith .expectedIdent s

/-- Takes the current token if it is this word or operator. -/
def accept (word : Text) : Parser Bool := fun s =>
  if s.sees word then .ok (true, s.skip 1) else .ok (false, s)

/-- Parses an option if this word or operator announces it. -/
def after (word : Text) (p : Parser α) : Parser (Option α) := do
  if ← accept word then return some (← p) else return none

/-- Runs `step` on a value until it declines. Every step takes at least one token, so the tokens
ahead count enough of them, up to the last one, which finds nothing more to take. -/
def iterate (step : σ → Parser (Option σ)) (a : σ) : Parser σ := fun s => loop s.ahead a s
where
  loop : List Token → σ → Parser σ
    | [], a => do return (← step a).getD a
    | _ :: fuel, a => do
      match ← step a with
      | none => return a
      | some b => loop fuel b

theorem iterate.loop_stop {step : σ → Parser (Option σ)} {a : σ} {s s' : TokenStream}
    (h : step a s = .ok (none, s')) (fuel : List Token) :
    iterate.loop step fuel a s = .ok (a, s') := by
  cases fuel <;> simp only [loop, bind, StateT.bind, h] <;> rfl

theorem iterate.loop_next {step : σ → Parser (Option σ)} {a b : σ} {s s' : TokenStream}
    (h : step a s = .ok (some b, s')) (t : Token) (fuel : List Token) :
    iterate.loop step (t :: fuel) a s = iterate.loop step fuel b s' := by
  simp only [loop, bind, StateT.bind, h]
  rfl

/-- Collects values until there is none. Every value takes at least one token, so the tokens
ahead count enough attempts, up to the last one, which finds nothing more to take. -/
def many (p : Parser (Option α)) : Parser (List α) := fun s => loop s.ahead s
where
  loop : List Token → Parser (List α)
    | [] => do return (← p).toList
    | _ :: fuel => do
      match ← p with
      | none => return []
      | some a => return a :: (← loop fuel)

/-- One value, and one more after each separator. -/
def separatedBy (separator : Text) (p : Parser α) : Parser (List α) := do
  let first ← p
  let others ← many (after separator p)
  return first :: others

end Parser

/-- The productions that occur inside others, each for one level of nesting less. -/
structure Grammar where
  typeRef : Parser TypeRef
  expr : Parser Expr
  conditional : Parser Expr
  unary : Parser Expr
  /-- The elements of an array literal, with the position of its brace. -/
  arrayLit : Parser (Pos × List Expr)
  block : Parser Block
  stmt : Parser Stmt
  /-- The members between the braces of a class; a class with a name can have constructors. -/
  classBody : (className : Option Text) → Parser (List Member)
  classDecl : Pos → List Modifier → Parser ClassDecl

/-- The grammar in which every production nests too deeply. -/
def Grammar.exhausted : Grammar where
  typeRef := Parser.fail .tooDeep
  expr := Parser.fail .tooDeep
  conditional := Parser.fail .tooDeep
  unary := Parser.fail .tooDeep
  arrayLit := Parser.fail .tooDeep
  block := Parser.fail .tooDeep
  stmt := Parser.fail .tooDeep
  classBody _ := Parser.fail .tooDeep
  classDecl _ _ := Parser.fail .tooDeep

end WriteOnce
