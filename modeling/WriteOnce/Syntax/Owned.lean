import WriteOnce.Syntax.Tree

/-!
# Members with their owners

Methods with a body and initializers are labelled by the classes and members they
stand in. A class inside a member or a field adds to the label of that member, or
of the class that has the field; its members come behind those of the class around
it.
-/

namespace WriteOnce

/-- A member and the label of what owns its variables. -/
structure OwnedMember where
  owner : Text
  member : Member

namespace Member

def methodLabel (owner name : Text) (pos : Pos) : Text :=
  owner ++ "." ++ name ++ "@" ++ Text.ofNat pos.line

/-- Initializers are numbered within their class. -/
def initializerLabel (owner : Text) (isStatic : Bool) (number : Nat) : Text :=
  owner ++ (if isStatic then ".<clinit>#" else ".<init>#") ++ Text.ofNat number

def anonymousLabel (owner : Text) (pos : Pos) : Text := owner ++ "$anon@" ++ pos.text

/-- The methods with a body and the initializers among some members; `number` counts the
initializers in front of them. -/
def owned (owner : Text) (number : Nat) : List Member → List OwnedMember
  | [] => []
  | m :: ms =>
    match m with
    | .method pos _ _ name _ (some _) =>
      ⟨methodLabel owner name pos, m⟩ :: owned owner number ms
    | .initializer _ isStatic _ =>
      ⟨initializerLabel owner isStatic number, m⟩ :: owned owner (number + 1) ms
    | _ => owned owner number ms

end Member

mutual

/-- The members of all classes in an expression. -/
def Expr.owned (owner : Text) : Expr → List OwnedMember
  | .literal .. | .name .. => []
  | .field _ object _ => object.owned owner
  | .index _ object position => object.owned owner ++ position.owned owner
  | .call _ callee args => callee.owned owner ++ Expr.ownedAll owner args
  | .newObject _ _ args => Expr.ownedAll owner args
  | .newAnonymous pos _ args members =>
    let label := Member.anonymousLabel owner pos
    (Member.owned label 0 members ++ Member.ownedInside label 0 members)
      ++ Expr.ownedAll owner args
  | .newArray _ _ sizes => Expr.ownedAll owner sizes
  | .newArrayOf _ _ _ elements => Expr.ownedAll owner elements
  | .arrayLit _ elements => Expr.ownedAll owner elements
  | .unary _ _ operand => operand.owned owner
  | .step _ _ _ target => target.owned owner
  | .binary _ _ left right => left.owned owner ++ right.owned owner
  | .instanceOf _ operand _ => operand.owned owner
  | .cast _ _ operand => operand.owned owner
  | .conditional _ cond onTrue onFalse =>
    cond.owned owner ++ (onTrue.owned owner ++ onFalse.owned owner)
  | .assign _ _ target value => target.owned owner ++ value.owned owner
  | .lambda _ _ body => body.owned owner
  | .methodRef _ object _ => object.owned owner

def Expr.ownedAll (owner : Text) : List Expr → List OwnedMember
  | [] => []
  | e :: es => e.owned owner ++ Expr.ownedAll owner es

def Expr.ownedOption (owner : Text) : Option Expr → List OwnedMember
  | none => []
  | some e => e.owned owner

def LambdaBody.owned (owner : Text) : LambdaBody → List OwnedMember
  | .expr body => body.owned owner
  | .block body => body.owned owner

def Stmt.owned (owner : Text) : Stmt → List OwnedMember
  | .block body => body.owned owner
  | .localDecl ⟨_, _, _, declarators⟩ => Declarator.ownedAll owner declarators
  | .expr _ value => value.owned owner
  | .ifElse _ cond onTrue onFalse =>
    cond.owned owner ++ (onTrue.owned owner ++ Stmt.ownedOption owner onFalse)
  | .whileLoop _ cond body => cond.owned owner ++ body.owned owner
  | .doLoop _ body cond => body.owned owner ++ cond.owned owner
  | .forLoop _ init cond update body =>
    init.owned owner ++ (Expr.ownedOption owner cond ++
      (Expr.ownedAll owner update ++ body.owned owner))
  | .forEach _ _ iterable body => iterable.owned owner ++ body.owned owner
  | .switch _ selector groups => selector.owned owner ++ SwitchGroup.ownedAll owner groups
  | .tryCatch _ body clauses cleanup =>
    body.owned owner ++ (CatchClause.ownedAll owner clauses ++ Block.ownedOption owner cleanup)
  | .returnValue _ value => Expr.ownedOption owner value
  | .throwValue _ value => value.owned owner
  | .breakTo .. | .continueTo .. | .empty .. => []
  | .labeled _ _ body => body.owned owner
  | .localClass _ ⟨_, _, name, members⟩ =>
    let label := owner ++ "$" ++ name
    Member.owned label 0 members ++ Member.ownedInside label 0 members

def Stmt.ownedAll (owner : Text) : List Stmt → List OwnedMember
  | [] => []
  | s :: ss => s.owned owner ++ Stmt.ownedAll owner ss

def Stmt.ownedOption (owner : Text) : Option Stmt → List OwnedMember
  | none => []
  | some s => s.owned owner

def ForInit.owned (owner : Text) : ForInit → List OwnedMember
  | .decl ⟨_, _, _, declarators⟩ => Declarator.ownedAll owner declarators
  | .exprs values => Expr.ownedAll owner values

def Block.owned (owner : Text) : Block → List OwnedMember
  | ⟨_, stmts⟩ => Stmt.ownedAll owner stmts

def Block.ownedOption (owner : Text) : Option Block → List OwnedMember
  | none => []
  | some b => b.owned owner

def Declarator.ownedAll (owner : Text) : List Declarator → List OwnedMember
  | [] => []
  | ⟨_, _, _, init⟩ :: ds => Expr.ownedOption owner init ++ Declarator.ownedAll owner ds

def SwitchGroup.ownedAll (owner : Text) : List SwitchGroup → List OwnedMember
  | [] => []
  | ⟨_, labels, _, body⟩ :: gs =>
    Expr.ownedAll owner labels ++ (Stmt.ownedAll owner body ++ SwitchGroup.ownedAll owner gs)

def CatchClause.ownedAll (owner : Text) : List CatchClause → List OwnedMember
  | [] => []
  | ⟨_, _, _, body⟩ :: cs => body.owned owner ++ CatchClause.ownedAll owner cs

/-- The members of all classes inside some members; `number` counts the initializers in front. -/
def Member.ownedInside (owner : Text) (number : Nat) : List Member → List OwnedMember
  | [] => []
  | .field _ _ _ declarators :: ms =>
    Declarator.ownedAll owner declarators ++ Member.ownedInside owner number ms
  | .method pos _ _ name _ body :: ms =>
    Block.ownedOption (Member.methodLabel owner name pos) body
      ++ Member.ownedInside owner number ms
  | .initializer _ isStatic body :: ms =>
    body.owned (Member.initializerLabel owner isStatic number)
      ++ Member.ownedInside owner (number + 1) ms
  | .classDecl ⟨_, _, name, members⟩ :: ms =>
    let label := owner ++ "." ++ name
    (Member.owned label 0 members ++ Member.ownedInside label 0 members)
      ++ Member.ownedInside owner number ms

end

/-- Every member of a program that can be analyzed. -/
def Program.ownedMembers (p : Program) : List OwnedMember :=
  p.classes.flatMap fun c =>
    Member.owned c.name 0 c.members ++ Member.ownedInside c.name 0 c.members

end WriteOnce
