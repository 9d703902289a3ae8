import WriteOnce.Pos

/-!
# Syntax trees

The trees of a small class language in the manner of Java. Every statement,
expression and declaration keeps the position at which it begins; parameters and
declarators keep the position of the declared name.
-/

namespace WriteOnce

inductive Modifier
  | publicAccess
  | protectedAccess
  | privateAccess
  | static
  | abstract
  | final
  | native
  | synchronized
  | transient
  | volatile
  | strictfp
  deriving DecidableEq

namespace Modifier

def all : List Modifier :=
  [.publicAccess, .protectedAccess, .privateAccess, .static, .abstract, .final, .native,
   .synchronized, .transient, .volatile, .strictfp]

def word : Modifier → Text
  | .publicAccess => "public"
  | .protectedAccess => "protected"
  | .privateAccess => "private"
  | .static => "static"
  | .abstract => "abstract"
  | .final => "final"
  | .native => "native"
  | .synchronized => "synchronized"
  | .transient => "transient"
  | .volatile => "volatile"
  | .strictfp => "strictfp"

end Modifier

inductive UnaryOp
  | plus
  | minus
  | not
  | complement
  deriving DecidableEq

def UnaryOp.symbol : UnaryOp → Text
  | .plus => "+"
  | .minus => "-"
  | .not => "!"
  | .complement => "~"

/-- Operators that add or subtract one in place. -/
inductive StepOp
  | increment
  | decrement
  deriving DecidableEq

def StepOp.symbol : StepOp → Text
  | .increment => "++"
  | .decrement => "--"

inductive BinaryOp
  | or
  | and
  | bitOr
  | bitXor
  | bitAnd
  | equal
  | notEqual
  | less
  | greater
  | lessEqual
  | greaterEqual
  | shiftLeft
  | shiftRight
  | shiftRightZero
  | add
  | subtract
  | multiply
  | divide
  | remainder
  deriving DecidableEq

def BinaryOp.symbol : BinaryOp → Text
  | .or => "||"
  | .and => "&&"
  | .bitOr => "|"
  | .bitXor => "^"
  | .bitAnd => "&"
  | .equal => "=="
  | .notEqual => "!="
  | .less => "<"
  | .greater => ">"
  | .lessEqual => "<="
  | .greaterEqual => ">="
  | .shiftLeft => "<<"
  | .shiftRight => ">>"
  | .shiftRightZero => ">>>"
  | .add => "+"
  | .subtract => "-"
  | .multiply => "*"
  | .divide => "/"
  | .remainder => "%"

inductive AssignOp
  | plain
  | add
  | subtract
  | multiply
  | divide
  | remainder
  | bitAnd
  | bitOr
  | bitXor
  | shiftLeft
  | shiftRight
  | shiftRightZero
  deriving DecidableEq

def AssignOp.symbol : AssignOp → Text
  | .plain => "="
  | .add => "+="
  | .subtract => "-="
  | .multiply => "*="
  | .divide => "/="
  | .remainder => "%="
  | .bitAnd => "&="
  | .bitOr => "|="
  | .bitXor => "^="
  | .shiftLeft => "<<="
  | .shiftRight => ">>="
  | .shiftRightZero => ">>>="

/-- Numbers keep their source text, quoted literals their decoded content. -/
inductive Literal
  | int (digits : Text)
  | float (digits : Text)
  | string (content : Text)
  | char (content : Text)
  | bool (value : Bool)
  | null
  deriving DecidableEq

/-- A type as written: a qualified name, the arguments of its last part, and array brackets.
A wildcard argument is the name `?` with its bound as argument. -/
structure TypeRef where
  pos : Pos
  name : Text
  args : List TypeRef
  dims : Nat

/-- The type is missing where it is inferred, as for the parameters of some lambdas. -/
structure Param where
  pos : Pos
  modifiers : List Modifier
  type : Option TypeRef
  name : Text
  varargs : Bool

mutual

inductive Expr where
  | literal (pos : Pos) (value : Literal)
  | name (pos : Pos) (name : Text)
  | field (pos : Pos) (object : Expr) (name : Text)
  | index (pos : Pos) (object : Expr) (position : Expr)
  | call (pos : Pos) (callee : Expr) (args : List Expr)
  | newObject (pos : Pos) (type : TypeRef) (args : List Expr)
  /-- An object of an anonymous class with these members. -/
  | newAnonymous (pos : Pos) (type : TypeRef) (args : List Expr) (members : List Member)
  | newArray (pos : Pos) (type : TypeRef) (sizes : List Expr)
  /-- A new array with its elements; `elementsPos` is where their brace stands. -/
  | newArrayOf (pos : Pos) (type : TypeRef) (elementsPos : Pos) (elements : List Expr)
  | arrayLit (pos : Pos) (elements : List Expr)
  | unary (pos : Pos) (op : UnaryOp) (operand : Expr)
  | step (pos : Pos) (op : StepOp) (before : Bool) (target : Expr)
  | binary (pos : Pos) (op : BinaryOp) (left right : Expr)
  | instanceOf (pos : Pos) (operand : Expr) (type : TypeRef)
  | cast (pos : Pos) (type : TypeRef) (operand : Expr)
  | conditional (pos : Pos) (cond onTrue onFalse : Expr)
  | assign (pos : Pos) (op : AssignOp) (target value : Expr)
  | lambda (pos : Pos) (params : List Param) (body : LambdaBody)
  | methodRef (pos : Pos) (object : Expr) (name : Text)

inductive LambdaBody where
  | expr (body : Expr)
  | block (body : Block)

inductive Stmt where
  | block (body : Block)
  | localDecl (decl : LocalDecl)
  | expr (pos : Pos) (value : Expr)
  | ifElse (pos : Pos) (cond : Expr) (onTrue : Stmt) (onFalse : Option Stmt)
  | whileLoop (pos : Pos) (cond : Expr) (body : Stmt)
  | doLoop (pos : Pos) (body : Stmt) (cond : Expr)
  | forLoop (pos : Pos) (init : ForInit) (cond : Option Expr) (update : List Expr) (body : Stmt)
  | forEach (pos : Pos) (param : Param) (iterable : Expr) (body : Stmt)
  | switch (pos : Pos) (selector : Expr) (groups : List SwitchGroup)
  | tryCatch (pos : Pos) (body : Block) (clauses : List CatchClause) (cleanup : Option Block)
  | returnValue (pos : Pos) (value : Option Expr)
  | throwValue (pos : Pos) (value : Expr)
  | breakTo (pos : Pos) (label : Option Text)
  | continueTo (pos : Pos) (label : Option Text)
  | labeled (pos : Pos) (label : Text) (body : Stmt)
  | empty (pos : Pos)
  | localClass (pos : Pos) (decl : ClassDecl)

inductive ForInit where
  | decl (decl : LocalDecl)
  | exprs (values : List Expr)

structure Block where
  pos : Pos
  stmts : List Stmt

structure LocalDecl where
  pos : Pos
  modifiers : List Modifier
  type : TypeRef
  declarators : List Declarator

structure Declarator where
  pos : Pos
  name : Text
  dims : Nat
  init : Option Expr

/-- Labels in front of statements that run on into the next group. -/
structure SwitchGroup where
  pos : Pos
  labels : List Expr
  isDefault : Bool
  body : List Stmt

structure CatchClause where
  pos : Pos
  param : Param
  types : List TypeRef
  body : Block

inductive Member where
  | field (pos : Pos) (modifiers : List Modifier) (type : TypeRef) (declarators : List Declarator)
  /-- A constructor has no result type, an abstract method no body. -/
  | method (pos : Pos) (modifiers : List Modifier) (result : Option TypeRef) (name : Text)
      (params : List Param) (body : Option Block)
  | initializer (pos : Pos) (isStatic : Bool) (body : Block)
  | classDecl (decl : ClassDecl)

structure ClassDecl where
  pos : Pos
  modifiers : List Modifier
  name : Text
  members : List Member

end

structure Program where
  classes : List ClassDecl

namespace Expr

def pos : Expr → Pos
  | literal pos .. | name pos .. | field pos .. | index pos .. | call pos .. | newObject pos ..
  | newAnonymous pos .. | newArray pos .. | newArrayOf pos .. | arrayLit pos .. | unary pos ..
  | step pos .. | binary pos .. | instanceOf pos .. | cast pos .. | conditional pos ..
  | assign pos .. | lambda pos .. | methodRef pos .. => pos

def isName : Expr → Bool
  | name .. => true
  | _ => false

/-- Whether the expression names something that can be written to. -/
def isTarget : Expr → Bool
  | name .. | field .. | index .. => true
  | _ => false

end Expr

namespace Stmt

def pos : Stmt → Pos
  | block body => body.pos
  | localDecl decl => decl.pos
  | expr pos .. | ifElse pos .. | whileLoop pos .. | doLoop pos .. | forLoop pos ..
  | forEach pos .. | switch pos .. | tryCatch pos .. | returnValue pos .. | throwValue pos ..
  | breakTo pos .. | continueTo pos .. | labeled pos .. | empty pos | localClass pos .. => pos

end Stmt

namespace Member

def pos : Member → Pos
  | field pos .. | method pos .. | initializer pos .. => pos
  | classDecl decl => decl.pos

end Member

def isFinal (modifiers : List Modifier) : Bool := modifiers.contains .final

end WriteOnce
