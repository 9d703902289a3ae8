import WriteOnce.Grammar.Statements

/-!
# Classes and their members
-/

namespace WriteOnce

namespace Production

open WriteOnce.Parser

variable (g : Grammar)

/-- Passes over bracketed type parameters, if they are in front. -/
def skipTypeParams : Parser Unit := fun s =>
  if s.sees "<" then
    match Lookahead.skipTypeParams? 0 s.ahead.tail with
    | some rest => .ok ((), { s with ahead := rest })
    | none => fail .malformedTypeParams s
  else .ok ((), s)

/-- The rest of a method or constructor, from its parameters on. -/
def methodRest (pos : Pos) (modifiers : List Modifier) (result : Option TypeRef) (name : Text) :
    Parser Member := do
  discard (expect "(")
  let params ← paramList g
  discard (expect ")")
  discard dims
  discard (after "throws" (separatedBy "," (typeRef g)))
  if ← accept ";" then
    return .method pos modifiers result name params none
  else
    return .method pos modifiers result name params (some (← block g))

/-- A method or a field: what follows the name tells them apart. -/
def typedMember (pos : Pos) (modifiers : List Modifier) : Parser Member := do
  let type ← typeRef g
  let name ← expectIdent
  if ← sees "(" then
    methodRest g pos modifiers (some type) name.text
  else
    let first ← declaratorOf g name
    let others ← many (after "," (declarator g))
    discard (expect ";")
    return .field pos modifiers type (first :: others)

/-- Whether a constructor of this class begins here. -/
def atConstructor (className : Option Text) (s : TokenStream) : Bool :=
  s.current.isIdent && some s.current.text = className && s.next.text = "("

/-- A semicolon alone is no member. -/
def member (className : Option Text) : Parser (Option Member) := do
  let pos ← pos
  if ← accept ";" then
    return none
  else
    let modifiers ← modifiers
    if ← sees "\x7b" then
      return some (.initializer pos (modifiers.contains .static) (← block g))
    else if ← sees "class" then
      return some (.classDecl (← g.classDecl pos modifiers))
    else
      skipTypeParams
      if ← look (atConstructor className) then
        let name ← take
        return some (← methodRest g pos modifiers none name.text)
      else
        return some (← typedMember g pos modifiers)

def classBody (className : Option Text) : Parser (List Member) := do
  discard (expect "\x7b")
  let members ← many (enclosed .classBody (·.sees "\x7d") (member g className))
  discard (expect "\x7d")
  return members.filterMap id

/-- The names of a superclass and of interfaces are read and dropped. -/
def classDecl (pos : Pos) (modifiers : List Modifier) : Parser ClassDecl := do
  discard (expect "class")
  let name ← expectIdent
  skipTypeParams
  discard (after "extends" (typeRef g))
  discard (after "implements" (separatedBy "," (typeRef g)))
  return ⟨pos, modifiers, name.text, ← classBody g (some name.text)⟩

end Production

namespace Grammar

open WriteOnce.Parser

/-- The productions whose inner productions are those of `g`. -/
def nest (g : Grammar) : Grammar where
  typeRef := Production.typeRef g
  expr := Production.expr g
  conditional := Production.conditional g
  unary := Production.unary g
  arrayLit := Production.arrayLit g
  block := Production.block g
  stmt := Production.stmt g
  classBody := Production.classBody g
  classDecl := Production.classDecl g

/-- The grammar in which productions can stand inside each other this many times. -/
def ofDepth : Nat → Grammar
  | 0 => exhausted
  | depth + 1 => nest (ofDepth depth)

/-- How deeply a source may nest where nothing else is said. -/
def depthLimit : Nat := 500

variable (g : Grammar)

/-- A class of a source, with its modifiers; a semicolon alone is none. -/
def topLevelClass : Parser (Option ClassDecl) := do
  if ← accept ";" then
    return none
  else
    let pos ← pos
    return some (← g.classDecl pos (← Production.modifiers))

/-- A class or a semicolon, up to the end of the input. -/
def programItem : Parser (Option (Option ClassDecl)) := do
  if ← look TokenStream.atEnd then return none else return some (← topLevelClass g)

def program : Parser Program := do return ⟨(← many (programItem g)).filterMap id⟩

/-- A block with nothing behind it. -/
def wholeBlock : Parser Block := do
  let body ← g.block
  if ← look TokenStream.atEnd then return body else failWith .afterBlock

end Grammar

end WriteOnce
