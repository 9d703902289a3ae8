import WriteOnce.Grammar.Types

/-!
# Expressions

Binary operators are read level by level, the loosest first, and associate to the
left; assignments and conditionals associate to the right.
-/

namespace WriteOnce

namespace Production

open WriteOnce.Parser

variable (g : Grammar)

def argList : Parser (List Expr) := do
  if ← sees ")" then return [] else separatedBy "," g.expr

/-- An element of an array literal is an expression or a literal of its own. -/
def arrayElement : Parser Expr := do
  if ← sees "\x7b" then
    let (pos, elements) ← g.arrayLit
    return .arrayLit pos elements
  else
    g.expr

/-- A further element, if a comma and an element follow; a comma alone is taken. -/
def nextArrayElement : Parser (Option Expr) := do
  if ← accept "," then
    if ← sees "\x7d" then return none else return some (← arrayElement g)
  else
    return none

def arrayLit : Parser (Pos × List Expr) := do
  let brace ← expect "\x7b"
  if ← accept "\x7d" then
    return (brace.pos, [])
  else
    let first ← arrayElement g
    let others ← many (nextArrayElement g)
    discard (expect "\x7d")
    return (brace.pos, first :: others)

/-- One bracket pair of a new array, with or without its size. -/
def arraySize : Parser (Option (Option Expr)) := do
  if ← accept "[" then
    if ← accept "]" then
      return some none
    else
      let size ← g.expr
      discard (expect "]")
      return some (some size)
  else
    return none

def newExpr : Parser Expr := do
  let word ← expect "new"
  let type ← typeRef g
  if 0 < type.dims then
    let (elementsPos, elements) ← arrayLit g
    return .newArrayOf word.pos type elementsPos elements
  else if ← accept "(" then
    let args ← argList g
    discard (expect ")")
    if ← sees "\x7b" then
      return .newAnonymous word.pos type args (← g.classBody none)
    else
      return .newObject word.pos type args
  else if ← sees "[" then
    let sizes ← many (arraySize g)
    return .newArray word.pos { type with dims := sizes.length } (sizes.filterMap id)
  else
    fail (.expectedNew type.name)

def lambdaParams : Parser (List Param) := do
  if ← look (·.current.isIdent) then
    return [← inferredParam]
  else
    discard (expect "(")
    let inferred ← look fun s => s.current.isIdent && (s.next.text = "," || s.next.text = ")")
    let params ← if inferred then separatedBy "," inferredParam else paramList g
    discard (expect ")")
    return params

def lambda : Parser Expr := do
  let pos ← pos
  let params ← lambdaParams g
  discard (expect "->")
  if ← sees "\x7b" then
    return .lambda pos params (.block (← g.block))
  else
    return .lambda pos params (.expr (← g.expr))

def literal? (t : Token) : Option Literal :=
  match t.kind with
  | .int => some (.int t.text)
  | .float => some (.float t.text)
  | .string => some (.string t.text)
  | .char => some (.char t.text)
  | _ =>
    if t.text = "true" then some (.bool true)
    else if t.text = "false" then some (.bool false)
    else if t.text = "null" then some .null
    else none

/-- Names include `this`, `super` and the primitive types, which never denote a variable. -/
def isNameWord (t : Token) : Bool :=
  t.isIdent || t.text = "this" || t.text = "super" || t.text ∈ primitiveNames

def primary : Parser Expr := do
  let t ← current
  match literal? t with
  | some value =>
    skip 1
    return .literal t.pos value
  | none =>
    if ← look fun s => Lookahead.atLambda s.ahead then
      lambda g
    else if isNameWord t then
      skip 1
      return .name t.pos t.text
    else if ← accept "(" then
      let inner ← g.expr
      discard (expect ")")
      return inner
    else if ← sees "new" then
      newExpr g
    else
      failWith .expectedExpr

def stepOp? (s : TokenStream) : Option StepOp :=
  if s.current.kind = .op then
    [StepOp.increment, StepOp.decrement].find? fun op => op.symbol = s.current.text
  else none

def fieldSuffix (object : Expr) : Parser Expr := do
  let t ← current
  if t.isIdent || t.text = "class" || t.text = "this" then
    skip 1
    return .field object.pos object t.text
  else
    fail .expectedField

def methodSuffix (object : Expr) : Parser Expr := do
  let t ← current
  if t.isIdent || t.text = "new" then
    skip 1
    return .methodRef object.pos object t.text
  else
    fail .expectedMethod

/-- Extends an expression by one suffix, if one follows. -/
def suffix (e : Expr) : Parser (Option Expr) := do
  if ← accept "." then
    return some (← fieldSuffix e)
  else if ← accept "[" then
    let position ← g.expr
    discard (expect "]")
    return some (.index e.pos e position)
  else if ← accept "(" then
    let args ← argList g
    discard (expect ")")
    return some (.call e.pos e args)
  else if ← accept "::" then
    return some (← methodSuffix e)
  else
    match ← look stepOp? with
    | some op =>
      if e.isTarget then
        skip 1
        return some (.step e.pos op false e)
      else
        fail (.badOperand op.symbol)
    | none => return none

def postfixed : Parser Expr := do iterate (suffix g) (← primary g)

def unaryOp? (s : TokenStream) : Option UnaryOp :=
  if s.current.kind = .op then
    [UnaryOp.plus, .minus, .not, .complement].find? fun op => op.symbol = s.current.text
  else none

def castExpr : Parser Expr := do
  let parenthesis ← take
  let type ← typeRef g
  discard (expect ")")
  return .cast parenthesis.pos type (← g.unary)

def unary : Parser Expr := do
  let pos ← pos
  match ← look unaryOp? with
  | some op =>
    skip 1
    return .unary pos op (← g.unary)
  | none =>
    match ← look stepOp? with
    | some op =>
      skip 1
      let target ← g.unary
      if target.isTarget then
        return .step pos op true target
      else
        failAt pos (.badOperand op.symbol)
    | none =>
      if ← look fun s => Lookahead.atCast s.ahead then castExpr g else postfixed g

/-! ## Binary operators -/

/-- The operator in front, if it is one of these, with the number of its tokens. -/
def operator? (ops : List BinaryOp) (s : TokenStream) : Option (BinaryOp × Nat) :=
  (ops.find? fun op => s.sees op.symbol).map fun op => (op, 1)

/-- Extends the left operand by an operator and a right operand, if an operator follows. -/
def binaryStep (op? : TokenStream → Option (BinaryOp × Nat)) (operand : Parser Expr)
    (left : Expr) : Parser (Option Expr) := do
  match ← look op? with
  | some (op, count) =>
    skip count
    return some (.binary left.pos op left (← operand))
  | none => return none

/-- Operands joined from the left by the operators of one level. -/
def chain (op? : TokenStream → Option (BinaryOp × Nat)) (operand : Parser Expr) :
    Parser Expr := do
  iterate (binaryStep op? operand) (← operand)

def shiftOp? (s : TokenStream) : Option (BinaryOp × Nat) :=
  if s.sees "<<" then some (.shiftLeft, 1)
  else
    match Lookahead.arrowRun? s.ahead with
    | some ⟨2, false⟩ => some (.shiftRight, 2)
    | some ⟨3, false⟩ => some (.shiftRightZero, 3)
    | _ => none

def comparisonOp? (s : TokenStream) : Option (BinaryOp × Nat) :=
  match operator? [.less, .lessEqual] s with
  | some found => some found
  | none =>
    match Lookahead.arrowRun? s.ahead with
    | some ⟨1, false⟩ => some (.greater, 1)
    | some ⟨1, true⟩ => some (.greaterEqual, 1)
    | _ => none

def product : Parser Expr := chain (operator? [.multiply, .divide, .remainder]) (unary g)

def sum : Parser Expr := chain (operator? [.add, .subtract]) (product g)

def shift : Parser Expr := chain shiftOp? (sum g)

/-- A comparison, or a test for a type. -/
def comparisonStep (left : Expr) : Parser (Option Expr) := do
  if ← accept "instanceof" then
    return some (.instanceOf left.pos left (← typeRef g))
  else
    binaryStep comparisonOp? (shift g) left

def comparison : Parser Expr := do iterate (comparisonStep g) (← shift g)

def equality : Parser Expr := chain (operator? [.equal, .notEqual]) (comparison g)

def bitAnd : Parser Expr := chain (operator? [.bitAnd]) (equality g)

def bitXor : Parser Expr := chain (operator? [.bitXor]) (bitAnd g)

def bitOr : Parser Expr := chain (operator? [.bitOr]) (bitXor g)

def conjunction : Parser Expr := chain (operator? [.and]) (bitOr g)

def disjunction : Parser Expr := chain (operator? [.or]) (conjunction g)

/-! ## Conditionals and assignments -/

def conditional : Parser Expr := do
  let cond ← disjunction g
  if ← accept "?" then
    let onTrue ← g.expr
    discard (expect ":")
    return .conditional cond.pos cond onTrue (← g.conditional)
  else
    return cond

def simpleAssignOps : List AssignOp :=
  [.plain, .add, .subtract, .multiply, .divide, .remainder, .bitAnd, .bitOr, .bitXor, .shiftLeft]

/-- The assignment operator in front, with the number of its tokens. -/
def assignOp? (s : TokenStream) : Option (AssignOp × Nat) :=
  let simple :=
    if s.current.kind = .op then
      simpleAssignOps.find? fun op => op.symbol = s.current.text
    else none
  match simple with
  | some op => some (op, 1)
  | none =>
    match Lookahead.arrowRun? s.ahead with
    | some ⟨2, true⟩ => some (.shiftRight, 2)
    | some ⟨3, true⟩ => some (.shiftRightZero, 3)
    | _ => none

/-- An array literal can stand behind a plain assignment only. -/
def assignedValue (op : AssignOp) : Parser Expr := do
  if (← sees "\x7b") && op = .plain then
    let (pos, elements) ← arrayLit g
    return .arrayLit pos elements
  else
    g.expr

def expr : Parser Expr := do
  let left ← conditional g
  match ← look assignOp? with
  | some (op, count) =>
    if left.isTarget then
      skip count
      return .assign left.pos op left (← assignedValue g op)
    else
      fail .badTarget
  | none => return left

end Production

end WriteOnce
