import WriteOnce.Grammar.Basic
import WriteOnce.Grammar.Lookahead

/-!
# Types, modifiers and parameters
-/

namespace WriteOnce

namespace Production

open WriteOnce.Parser

/-- A pair of empty brackets, if one is in front. -/
def emptyBrackets : Parser (Option Unit) := fun s =>
  if s.sees "[" && s.next.text = "]" then .ok (some (), s.skip 2) else .ok (none, s)

/-- The number of empty bracket pairs in front. -/
def dims : Parser Nat := do return (← many emptyBrackets).length

/-- The modifier with this word. -/
def modifier? (t : Token) : Option Modifier :=
  if t.isIdent then none else Modifier.all.find? fun m => m.word = t.text

/-- Takes an annotation, with every annotation and every `final` that directly follows it, or one
modifier. -/
def nextModifier (modifiers : List Modifier) : Parser (Option (List Modifier)) := fun s =>
  if s.current.text = "@" && s.next.isIdent then
    .ok (some modifiers, { s with ahead := Lookahead.skipModifiers s.ahead })
  else
    match modifier? s.current with
    | some m => .ok (some (modifiers ++ [m]), s.skip 1)
    | none => .ok (none, s)

def modifiers : Parser (List Modifier) := iterate nextModifier []

variable (g : Grammar)

/-- A type argument: a type, or a wildcard with or without a bound. -/
def typeArg : Parser TypeRef := do
  let pos ← pos
  if ← accept "?" then
    if (← sees "extends") || (← sees "super") then
      skip 1
      return ⟨pos, "?", [← g.typeRef], 0⟩
    else
      return ⟨pos, "?", [], 0⟩
  else
    g.typeRef

def typeArgs : Parser (List TypeRef) := do
  if ← accept "<" then
    if ← accept ">" then
      return []
    else
      let args ← separatedBy "," (typeArg g)
      discard (expect ">")
      return args
  else
    return []

/-- Extends a qualified name by a point, a further name and its arguments. -/
def qualify (named : Text × List TypeRef) : Parser (Option (Text × List TypeRef)) := do
  let more ← look fun s => s.sees "." && s.next.isIdent
  if more then
    skip 1
    let name ← take
    return some (named.1 ++ "." ++ name.text, ← typeArgs g)
  else
    return none

def typeRef : Parser TypeRef := do
  let t ← current
  if t.text ∈ primitiveNames && !t.isIdent then
    skip 1
    return ⟨t.pos, t.text, [], ← dims⟩
  else if t.isIdent then
    skip 1
    let args ← typeArgs g
    let (name, args) ← iterate (qualify g) (t.text, args)
    return ⟨t.pos, name, args, ← dims⟩
  else
    failWith .expectedType

/-- Brackets behind the name of a parameter belong to its type. -/
def param : Parser Param := do
  let modifiers ← modifiers
  let type ← typeRef g
  let varargs ← accept "..."
  let name ← expectIdent
  let more ← dims
  return ⟨name.pos, modifiers, some { type with dims := type.dims + more }, name.text, varargs⟩

/-- The parameters up to a closing parenthesis, which is left. -/
def paramList : Parser (List Param) := do
  if ← sees ")" then return [] else separatedBy "," (param g)

/-- A lambda parameter whose type is inferred. -/
def inferredParam : Parser Param := do
  let name ← expectIdent
  return ⟨name.pos, [], none, name.text, false⟩

end Production

end WriteOnce
