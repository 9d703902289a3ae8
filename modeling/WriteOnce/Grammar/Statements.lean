import WriteOnce.Grammar.Expressions

/-!
# Statements
-/

namespace WriteOnce

namespace Production

open WriteOnce.Parser

variable (g : Grammar)

def exprInParens : Parser Expr := do
  discard (expect "(")
  let e ← expr g
  discard (expect ")")
  return e

/-- An expression or an array literal, as can initialize a variable. -/
def initialValue : Parser Expr := do
  if ← sees "\x7b" then
    let (pos, elements) ← arrayLit g
    return .arrayLit pos elements
  else
    expr g

/-- The declarator whose name is already taken. -/
def declaratorOf (name : Token) : Parser Declarator := do
  let dims ← dims
  let init ← after "=" (initialValue g)
  return ⟨name.pos, name.text, dims, init⟩

def declarator : Parser Declarator := do declaratorOf g (← expectIdent)

def localDecl : Parser LocalDecl := do
  let pos ← pos
  let modifiers ← modifiers
  let type ← typeRef g
  return ⟨pos, modifiers, type, ← separatedBy "," (declarator g)⟩

/-- One item between braces, up to the closing brace or the end of the input. -/
def enclosed (enclosure : Enclosure) (closes : TokenStream → Bool) (item : Parser α) :
    Parser (Option α) := do
  if ← look closes then return none
  else if ← look TokenStream.atEnd then fail (.unfinished enclosure)
  else return some (← item)

def block : Parser Block := do
  let brace ← expect "\x7b"
  let stmts ← many (enclosed .block (·.sees "\x7d") g.stmt)
  discard (expect "\x7d")
  return ⟨brace.pos, stmts⟩

def exprStmt : Parser Stmt := do
  let pos ← pos
  let e ← expr g
  discard (expect ";")
  return .expr pos e

def ifStmt : Parser Stmt := do
  let word ← expect "if"
  let cond ← exprInParens g
  let onTrue ← g.stmt
  let onFalse ← after "else" g.stmt
  return .ifElse word.pos cond onTrue onFalse

def whileStmt : Parser Stmt := do
  let word ← expect "while"
  let cond ← exprInParens g
  return .whileLoop word.pos cond (← g.stmt)

def doStmt : Parser Stmt := do
  let word ← expect "do"
  let body ← g.stmt
  discard (expect "while")
  let cond ← exprInParens g
  discard (expect ";")
  return .doLoop word.pos body cond

/-- The rest of a loop over a collection, behind the opening parenthesis. -/
def forEachRest (pos : Pos) : Parser Stmt := do
  let modifiers ← modifiers
  let type ← typeRef g
  let name ← expectIdent
  discard (expect ":")
  let iterable ← expr g
  discard (expect ")")
  let body ← g.stmt
  return .forEach pos ⟨name.pos, modifiers, some type, name.text, false⟩ iterable body

def forInit : Parser ForInit := do
  if ← sees ";" then return .exprs []
  else if ← look fun s => Lookahead.atLocalDecl s.ahead then return .decl (← localDecl g)
  else return .exprs (← separatedBy "," (expr g))

/-- A parser's value, unless this word or operator shows that it is left out. -/
def unlessSeen (word : Text) (p : Parser α) : Parser (Option α) := do
  if ← sees word then return none else return some (← p)

/-- The rest of a loop with three clauses, behind the opening parenthesis. -/
def forRest (pos : Pos) : Parser Stmt := do
  let init ← forInit g
  discard (expect ";")
  let cond ← unlessSeen ";" (expr g)
  discard (expect ";")
  let update ← unlessSeen ")" (separatedBy "," (expr g))
  discard (expect ")")
  return .forLoop pos init cond (update.getD []) (← g.stmt)

def forStmt : Parser Stmt := do
  let word ← expect "for"
  discard (expect "(")
  if ← look fun s => Lookahead.atForEachHeader s.ahead then
    forEachRest g word.pos
  else
    forRest g word.pos

def seesGroup (s : TokenStream) : Bool := s.sees "case" || s.sees "default"

/-- The labels behind one `case` or `default`, added to those already read. -/
def groupLabels (labels : List Expr × Bool) : Parser (Option (List Expr × Bool)) := do
  if ← look seesGroup then
    let (values, isDefault) := labels
    let labels ←
      if ← accept "default" then pure (values, true)
      else do
        skip 1
        pure (values ++ (← separatedBy "," (conditional g)), isDefault)
    if ← sees "->" then
      fail .arrowGroup
    else
      discard (expect ":")
      return some labels
  else
    return none

def switchGroup : Parser SwitchGroup := do
  let pos ← pos
  if ← look seesGroup then
    let (labels, isDefault) ← iterate (groupLabels g) ([], false)
    let body ← many (enclosed .switch (fun s => seesGroup s || s.sees "\x7d") g.stmt)
    return ⟨pos, labels, isDefault, body⟩
  else
    failWith .expectedGroup

def switchStmt : Parser Stmt := do
  let word ← expect "switch"
  let selector ← exprInParens g
  discard (expect "\x7b")
  let groups ← many (unlessSeen "\x7d" (switchGroup g))
  discard (expect "\x7d")
  return .switch word.pos selector groups

/-- A handler's parameter counts as declared with the first of its types. -/
def catchClause : Parser (Option CatchClause) := do
  if ← sees "catch" then
    let word ← take
    discard (expect "(")
    let modifiers ← modifiers
    let type ← typeRef g
    let others ← many (after "|" (typeRef g))
    let name ← expectIdent
    discard (expect ")")
    let body ← block g
    let param := ⟨name.pos, modifiers, some type, name.text, false⟩
    return some ⟨word.pos, param, type :: others, body⟩
  else
    return none

def tryStmt : Parser Stmt := do
  let word ← expect "try"
  if ← sees "(" then
    fail .tryResources
  else
    let body ← block g
    let clauses ← many (catchClause g)
    let cleanup ← after "finally" (block g)
    if clauses.isEmpty && cleanup.isNone then
      failAt word.pos .tryWithoutHandler
    else
      return .tryCatch word.pos body clauses cleanup

def returnStmt : Parser Stmt := do
  let word ← expect "return"
  let value ← unlessSeen ";" (expr g)
  discard (expect ";")
  return .returnValue word.pos value

def throwStmt : Parser Stmt := do
  let word ← expect "throw"
  let value ← expr g
  discard (expect ";")
  return .throwValue word.pos value

/-- A jump, with the label that it names, if any. -/
def jumpStmt (jump : Pos → Option Text → Stmt) : Parser Stmt := do
  let word ← take
  let label ←
    if ← look (·.current.isIdent) then pure (some (← take).text) else pure none
  discard (expect ";")
  return jump word.pos label

/-- Evaluates the lock and then runs the block. -/
def synchronizedStmt : Parser Stmt := do
  let word ← expect "synchronized"
  let lock ← exprInParens g
  let body ← block g
  return .block ⟨word.pos, [.expr lock.pos lock, .block body]⟩

def localClass : Parser Stmt := do
  let pos ← pos
  let modifiers ← modifiers
  return .localClass pos (← g.classDecl pos modifiers)

def labeledStmt : Parser Stmt := do
  let label ← take
  skip 1
  return .labeled label.pos label.text (← g.stmt)

def localDeclStmt : Parser Stmt := do
  let decl ← localDecl g
  discard (expect ";")
  return .localDecl decl

/-- Statements that no keyword announces. -/
def plainStmt : Parser Stmt := do
  if ← look fun s => Lookahead.atClassDecl s.ahead then localClass g
  else if ← look fun s => s.current.isIdent && s.next.text = ":" then labeledStmt g
  else if ← look fun s => Lookahead.atLocalDecl s.ahead then localDeclStmt g
  else exprStmt g

def emptyStmt : Parser Stmt := do return .empty (← take).pos

/-- The statements that begin with a word or sign of their own. -/
def announcedStmts : List (Text × Parser Stmt) :=
  [("\x7b", do return .block (← block g)), (";", emptyStmt), ("if", ifStmt g),
   ("while", whileStmt g), ("do", doStmt g), ("for", forStmt g), ("switch", switchStmt g),
   ("try", tryStmt g), ("return", returnStmt g), ("throw", throwStmt g),
   ("break", jumpStmt .breakTo), ("continue", jumpStmt .continueTo),
   ("synchronized", synchronizedStmt g)]

def stmt : Parser Stmt := do
  let t ← current
  if t.isQuoted then exprStmt g
  else ((announcedStmts g).lookup t.text).getD (plainStmt g)

end Production

end WriteOnce
