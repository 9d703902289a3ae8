import WriteOnce.Syntax.Fragment

/-!
# What analyses read of the syntax

No analysis looks at types, at most of the names or at the form in which an object is
made. The core of a piece of syntax leaves these out, and moves what is left to other
positions.
-/

namespace WriteOnce

variable (φ : Pos → Pos)

/-! ## Cores -/

def TypeRef.blank : TypeRef := ⟨⟨0, 0⟩, .empty, [], 0⟩

def Param.core (p : Param) : Param := ⟨φ p.pos, p.modifiers, none, p.name, false⟩

mutual

def Expr.core : Expr → Expr
  | .literal pos value => .literal (φ pos) value
  | .name pos name => .name (φ pos) name
  | .field pos object _ => .field (φ pos) object.core .empty
  | .index pos object position => .index (φ pos) object.core position.core
  | .call pos callee args => .call (φ pos) callee.core (Expr.cores args)
  | .newAnonymous pos _ args members =>
    .newAnonymous (φ pos) .blank (Expr.cores args) (Member.cores members)
  | .newObject pos _ args | .newArray pos _ args | .newArrayOf pos _ _ args =>
    .newObject (φ pos) .blank (Expr.cores args)
  | .arrayLit pos elements => .arrayLit (φ pos) (Expr.cores elements)
  | .unary pos op operand => .unary (φ pos) op operand.core
  | .step pos _ _ target => .step (φ pos) .increment true target.core
  | .binary pos op left right => .binary (φ pos) op left.core right.core
  | .instanceOf pos operand _ => .instanceOf (φ pos) operand.core .blank
  | .cast pos _ operand => .cast (φ pos) .blank operand.core
  | .conditional pos cond onTrue onFalse =>
    .conditional (φ pos) cond.core onTrue.core onFalse.core
  | .assign pos _ target value => .assign (φ pos) .plain target.core value.core
  | .lambda pos params body => .lambda (φ pos) (params.map (Param.core φ)) body.core
  | .methodRef pos object _ => .methodRef (φ pos) object.core .empty

def Expr.cores : List Expr → List Expr
  | [] => []
  | e :: es => e.core :: Expr.cores es

def Expr.coreOption : Option Expr → Option Expr
  | none => none
  | some e => some e.core

def LambdaBody.core : LambdaBody → LambdaBody
  | .expr body => .expr body.core
  | .block body => .block body.core

def Stmt.core : Stmt → Stmt
  | .block body => .block body.core
  | .localDecl decl => .localDecl decl.core
  | .expr pos value => .expr (φ pos) value.core
  | .ifElse pos cond onTrue onFalse =>
    .ifElse (φ pos) cond.core onTrue.core (Stmt.coreOption onFalse)
  | .whileLoop pos cond body => .whileLoop (φ pos) cond.core body.core
  | .doLoop pos body cond => .doLoop (φ pos) body.core cond.core
  | .forLoop pos init cond update body =>
    .forLoop (φ pos) init.core (Expr.coreOption cond) (Expr.cores update) body.core
  | .forEach pos param iterable body =>
    .forEach (φ pos) (param.core φ) iterable.core body.core
  | .switch pos selector groups => .switch (φ pos) selector.core (SwitchGroup.cores groups)
  | .tryCatch pos body clauses cleanup =>
    .tryCatch (φ pos) body.core (CatchClause.cores clauses) (Block.coreOption cleanup)
  | .returnValue pos value => .returnValue (φ pos) (Expr.coreOption value)
  | .throwValue pos value => .throwValue (φ pos) value.core
  | .breakTo pos label => .breakTo (φ pos) label
  | .continueTo pos label => .continueTo (φ pos) label
  | .labeled pos label body => .labeled (φ pos) label body.core
  | .empty pos => .empty (φ pos)
  | .localClass pos decl => .localClass (φ pos) decl.core

def Stmt.cores : List Stmt → List Stmt
  | [] => []
  | s :: ss => s.core :: Stmt.cores ss

def Stmt.coreOption : Option Stmt → Option Stmt
  | none => none
  | some s => some s.core

def ForInit.core : ForInit → ForInit
  | .decl decl => .decl decl.core
  | .exprs values => .exprs (Expr.cores values)

def Block.core : Block → Block
  | ⟨pos, stmts⟩ => ⟨φ pos, Stmt.cores stmts⟩

def Block.coreOption : Option Block → Option Block
  | none => none
  | some b => some b.core

def LocalDecl.core : LocalDecl → LocalDecl
  | ⟨pos, modifiers, _, declarators⟩ => ⟨φ pos, modifiers, .blank, Declarator.cores declarators⟩

def Declarator.cores : List Declarator → List Declarator
  | [] => []
  | ⟨pos, name, _, init⟩ :: ds => ⟨φ pos, name, 0, Expr.coreOption init⟩ :: Declarator.cores ds

def SwitchGroup.cores : List SwitchGroup → List SwitchGroup
  | [] => []
  | ⟨pos, labels, isDefault, body⟩ :: gs =>
    ⟨φ pos, Expr.cores labels, isDefault, Stmt.cores body⟩ :: SwitchGroup.cores gs

def CatchClause.cores : List CatchClause → List CatchClause
  | [] => []
  | ⟨pos, param, _, body⟩ :: cs =>
    ⟨φ pos, param.core φ, [], body.core⟩ :: CatchClause.cores cs

def Member.core : Member → Member
  | .field pos _ _ declarators => .field (φ pos) [] .blank (Declarator.cores declarators)
  | .method pos _ _ name params body =>
    .method (φ pos) [] none name (params.map (Param.core φ)) (Block.coreOption body)
  | .initializer pos isStatic body => .initializer (φ pos) isStatic body.core
  | .classDecl decl => .classDecl decl.core

def Member.cores : List Member → List Member
  | [] => []
  | m :: ms => m.core :: Member.cores ms

def ClassDecl.core : ClassDecl → ClassDecl
  | ⟨pos, _, name, members⟩ => ⟨φ pos, [], name, Member.cores members⟩

end

def Program.core (p : Program) : Program := ⟨p.classes.map (ClassDecl.core φ)⟩

def Fragment.core : Fragment → Fragment
  | .program p => .program (p.core φ)
  | .member m => .member (m.core φ)
  | .block b => .block (b.core φ)

end WriteOnce
