import WriteOnce.Syntax.Basic
import WriteOnce.Sorting

/-!
# Syntax trees in uniform shape

Every piece of syntax is shown as a `Tree`: a node has the name of its class and
its fields in a fixed order. What does not depend on the class of a node, such as
printing or fingerprinting, is done on this view.
-/

namespace WriteOnce

inductive Tree
  | node (label : Text) (fields : List (Text × Tree))
  | list (items : List Tree)
  | place (pos : Pos)
  | text (value : Text)
  | number (value : Nat)
  | flag (value : Bool)
  | absent

namespace Tree

def option (view : α → Tree) : Option α → Tree
  | none => absent
  | some a => view a

def texts (ts : List Text) : Tree := list (ts.map text)

mutual

/-- The nodes with a given class, outermost and leftmost first, with their fields. -/
def nodesOf (label : Text) : Tree → List (List (Text × Tree))
  | node l fields =>
    let inner := nodesOfFields label fields
    if l = label then fields :: inner else inner
  | list items => nodesOfItems label items
  | _ => []

def nodesOfFields (label : Text) : List (Text × Tree) → List (List (Text × Tree))
  | [] => []
  | (_, t) :: fields => nodesOf label t ++ nodesOfFields label fields

def nodesOfItems (label : Text) : List Tree → List (List (Text × Tree))
  | [] => []
  | t :: items => nodesOf label t ++ nodesOfItems label items

end

/-- The position and the name in the fields of a simple name. -/
def nameOf? : List (Text × Tree) → Option (Pos × Text)
  | [(_, place pos), (_, text name)] => some (pos, name)
  | _ => none

/-- All simple names, by position. -/
def names (t : Tree) : List (Pos × Text) :=
  sortBy (fun m n => m.1.le n.1) ((t.nodesOf "JName").filterMap nameOf?)

end Tree

def Modifier.trees (modifiers : List Modifier) : Tree := Tree.texts (modifiers.map Modifier.word)

mutual

def TypeRef.tree : TypeRef → Tree
  | ⟨pos, name, args, dims⟩ =>
    .node "JType" [("pos", .place pos), ("name", .text name), ("args", .list (TypeRef.trees args)),
      ("dims", .number dims)]

def TypeRef.trees : List TypeRef → List Tree
  | [] => []
  | t :: ts => t.tree :: TypeRef.trees ts

end

def Param.tree (p : Param) : Tree :=
  .node "JParam" [("pos", .place p.pos), ("modifiers", Modifier.trees p.modifiers),
    ("typ", Tree.option TypeRef.tree p.type), ("name", .text p.name), ("varargs", .flag p.varargs)]

def Literal.kindName : Literal → Text
  | .int _ => "int"
  | .float _ => "float"
  | .string _ => "string"
  | .char _ => "char"
  | .bool _ => "bool"
  | .null => "null"

def Literal.raw : Literal → Text
  | .int digits | .float digits => digits
  | .string content | .char content => content
  | .bool true => "true"
  | .bool false => "false"
  | .null => "null"

/-- The class names of expressions. -/
def Expr.className : Expr → Text
  | .literal .. => "JLiteral"
  | .name .. => "JName"
  | .field .. => "JFieldAccess"
  | .index .. => "JIndex"
  | .call .. => "JCall"
  | .newObject .. | .newAnonymous .. | .newArray .. | .newArrayOf .. => "JNew"
  | .arrayLit .. => "JArrayLit"
  | .unary .. => "JUnary"
  | .step .. => "JIncDec"
  | .binary .. => "JBinary"
  | .instanceOf .. => "JInstanceOf"
  | .cast .. => "JCast"
  | .conditional .. => "JTernary"
  | .assign .. => "JAssign"
  | .lambda .. => "JLambda"
  | .methodRef .. => "JMethodRef"

/-- The class names of statements. -/
def Stmt.className : Stmt → Text
  | .block .. => "JBlock"
  | .localDecl .. => "JLocalDecl"
  | .expr .. => "JExprStmt"
  | .ifElse .. => "JIf"
  | .whileLoop .. => "JWhile"
  | .doLoop .. => "JDoWhile"
  | .forLoop .. => "JFor"
  | .forEach .. => "JForEach"
  | .switch .. => "JSwitch"
  | .tryCatch .. => "JTry"
  | .returnValue .. => "JReturn"
  | .throwValue .. => "JThrow"
  | .breakTo .. => "JBreak"
  | .continueTo .. => "JContinue"
  | .labeled .. => "JLabeled"
  | .empty .. => "JEmpty"
  | .localClass .. => "JLocalClass"

/-- The class names of class members. -/
def Member.className : Member → Text
  | .field .. => "JFieldDecl"
  | .method .. => "JMethodDecl"
  | .initializer .. => "JInitializer"
  | .classDecl .. => "JClassDecl"

mutual

def Expr.tree : Expr → Tree
  | .literal pos value =>
    .node "JLiteral" [("pos", .place pos), ("kind", .text value.kindName), ("raw", .text value.raw)]
  | .name pos name => .node "JName" [("pos", .place pos), ("name", .text name)]
  | .field pos object name =>
    .node "JFieldAccess" [("pos", .place pos), ("obj", object.tree), ("field", .text name)]
  | .index pos object position =>
    .node "JIndex" [("pos", .place pos), ("obj", object.tree), ("index", position.tree)]
  | .call pos callee args =>
    .node "JCall" [("pos", .place pos), ("func", callee.tree), ("args", .list (Expr.trees args))]
  | .newObject pos type args =>
    .node "JNew" [("pos", .place pos), ("typ", type.tree), ("args", .list (Expr.trees args)),
      ("dims", .list []), ("init", .absent), ("body", .absent)]
  | .newAnonymous pos type args members =>
    .node "JNew" [("pos", .place pos), ("typ", type.tree), ("args", .list (Expr.trees args)),
      ("dims", .list []), ("init", .absent), ("body", .list (Member.trees members))]
  | .newArray pos type sizes =>
    .node "JNew" [("pos", .place pos), ("typ", type.tree), ("args", .list []),
      ("dims", .list (Expr.trees sizes)), ("init", .absent), ("body", .absent)]
  | .newArrayOf pos type elementsPos elements =>
    .node "JNew" [("pos", .place pos), ("typ", type.tree), ("args", .list []), ("dims", .list []),
      ("init", .node "JArrayLit" [("pos", .place elementsPos),
        ("elements", .list (Expr.trees elements))]),
      ("body", .absent)]
  | .arrayLit pos elements =>
    .node "JArrayLit" [("pos", .place pos), ("elements", .list (Expr.trees elements))]
  | .unary pos op operand =>
    .node "JUnary" [("pos", .place pos), ("op", .text op.symbol), ("operand", operand.tree)]
  | .step pos op before target =>
    .node "JIncDec" [("pos", .place pos), ("op", .text op.symbol), ("prefix", .flag before),
      ("target", target.tree)]
  | .binary pos op left right =>
    .node "JBinary" [("pos", .place pos), ("op", .text op.symbol), ("left", left.tree),
      ("right", right.tree)]
  | .instanceOf pos operand type =>
    .node "JInstanceOf" [("pos", .place pos), ("expr", operand.tree), ("typ", type.tree)]
  | .cast pos type operand =>
    .node "JCast" [("pos", .place pos), ("typ", type.tree), ("expr", operand.tree)]
  | .conditional pos cond onTrue onFalse =>
    .node "JTernary" [("pos", .place pos), ("cond", cond.tree), ("then_expr", onTrue.tree),
      ("else_expr", onFalse.tree)]
  | .assign pos op target value =>
    .node "JAssign" [("pos", .place pos), ("op", .text op.symbol), ("target", target.tree),
      ("value", value.tree)]
  | .lambda pos params body =>
    .node "JLambda" [("pos", .place pos), ("params", .list (params.map Param.tree)),
      ("body", body.tree)]
  | .methodRef pos object name =>
    .node "JMethodRef" [("pos", .place pos), ("obj", object.tree), ("name", .text name)]

def Expr.trees : List Expr → List Tree
  | [] => []
  | e :: es => e.tree :: Expr.trees es

def Expr.treeOption : Option Expr → Tree
  | none => .absent
  | some e => e.tree

def LambdaBody.tree : LambdaBody → Tree
  | .expr body => body.tree
  | .block body => body.tree

def Stmt.tree : Stmt → Tree
  | .block body => body.tree
  | .localDecl decl => decl.tree
  | .expr pos value => .node "JExprStmt" [("pos", .place pos), ("expr", value.tree)]
  | .ifElse pos cond onTrue onFalse =>
    .node "JIf" [("pos", .place pos), ("cond", cond.tree), ("then", onTrue.tree),
      ("orelse", Stmt.treeOption onFalse)]
  | .whileLoop pos cond body =>
    .node "JWhile" [("pos", .place pos), ("cond", cond.tree), ("body", body.tree)]
  | .doLoop pos body cond =>
    .node "JDoWhile" [("pos", .place pos), ("body", body.tree), ("cond", cond.tree)]
  | .forLoop pos init cond update body =>
    .node "JFor" [("pos", .place pos), ("init", init.tree), ("cond", Expr.treeOption cond),
      ("update", .list (Expr.trees update)), ("body", body.tree)]
  | .forEach pos param iterable body =>
    .node "JForEach" [("pos", .place pos), ("param", param.tree), ("iterable", iterable.tree),
      ("body", body.tree)]
  | .switch pos selector groups =>
    .node "JSwitch" [("pos", .place pos), ("expr", selector.tree),
      ("cases", .list (SwitchGroup.trees groups))]
  | .tryCatch pos body clauses cleanup =>
    .node "JTry" [("pos", .place pos), ("body", body.tree),
      ("catches", .list (CatchClause.trees clauses)), ("finally_body", Block.treeOption cleanup)]
  | .returnValue pos value =>
    .node "JReturn" [("pos", .place pos), ("value", Expr.treeOption value)]
  | .throwValue pos value => .node "JThrow" [("pos", .place pos), ("expr", value.tree)]
  | .breakTo pos label =>
    .node "JBreak" [("pos", .place pos), ("label", Tree.option .text label)]
  | .continueTo pos label =>
    .node "JContinue" [("pos", .place pos), ("label", Tree.option .text label)]
  | .labeled pos label body =>
    .node "JLabeled" [("pos", .place pos), ("label", .text label), ("body", body.tree)]
  | .empty pos => .node "JEmpty" [("pos", .place pos)]
  | .localClass pos decl => .node "JLocalClass" [("pos", .place pos), ("decl", decl.tree)]

def Stmt.trees : List Stmt → List Tree
  | [] => []
  | s :: ss => s.tree :: Stmt.trees ss

def Stmt.treeOption : Option Stmt → Tree
  | none => .absent
  | some s => s.tree

/-- Expressions in the head of a loop are shown as statements. -/
def ForInit.tree : ForInit → Tree
  | .decl decl => .list [decl.tree]
  | .exprs values => .list (Expr.statementTrees values)

def Expr.statementTrees : List Expr → List Tree
  | [] => []
  | e :: es =>
    .node "JExprStmt" [("pos", .place e.pos), ("expr", e.tree)] :: Expr.statementTrees es

def Block.tree : Block → Tree
  | ⟨pos, stmts⟩ => .node "JBlock" [("pos", .place pos), ("stmts", .list (Stmt.trees stmts))]

def Block.treeOption : Option Block → Tree
  | none => .absent
  | some b => b.tree

def LocalDecl.tree : LocalDecl → Tree
  | ⟨pos, modifiers, type, declarators⟩ =>
    .node "JLocalDecl" [("pos", .place pos), ("modifiers", Modifier.trees modifiers),
      ("typ", type.tree), ("declarators", .list (Declarator.trees declarators))]

def Declarator.tree : Declarator → Tree
  | ⟨pos, name, dims, init⟩ =>
    .node "JDeclarator" [("pos", .place pos), ("name", .text name), ("dims", .number dims),
      ("init", Expr.treeOption init)]

def Declarator.trees : List Declarator → List Tree
  | [] => []
  | d :: ds => d.tree :: Declarator.trees ds

def SwitchGroup.tree : SwitchGroup → Tree
  | ⟨pos, labels, isDefault, body⟩ =>
    .node "JSwitchCase" [("pos", .place pos), ("labels", .list (Expr.trees labels)),
      ("is_default", .flag isDefault), ("body", .list (Stmt.trees body))]

def SwitchGroup.trees : List SwitchGroup → List Tree
  | [] => []
  | g :: gs => g.tree :: SwitchGroup.trees gs

def CatchClause.tree : CatchClause → Tree
  | ⟨pos, param, types, body⟩ =>
    .node "JCatch" [("pos", .place pos), ("param", param.tree),
      ("types", .list (types.map TypeRef.tree)), ("body", body.tree)]

def CatchClause.trees : List CatchClause → List Tree
  | [] => []
  | c :: cs => c.tree :: CatchClause.trees cs

def Member.tree : Member → Tree
  | .field pos modifiers type declarators =>
    .node "JFieldDecl" [("pos", .place pos), ("modifiers", Modifier.trees modifiers),
      ("typ", type.tree), ("declarators", .list (Declarator.trees declarators))]
  | .method pos modifiers result name params body =>
    .node "JMethodDecl" [("pos", .place pos), ("modifiers", Modifier.trees modifiers),
      ("ret", Tree.option TypeRef.tree result), ("name", .text name),
      ("params", .list (params.map Param.tree)), ("body", Block.treeOption body)]
  | .initializer pos isStatic body =>
    .node "JInitializer" [("pos", .place pos), ("is_static", .flag isStatic), ("body", body.tree)]
  | .classDecl decl => decl.tree

def Member.trees : List Member → List Tree
  | [] => []
  | m :: ms => m.tree :: Member.trees ms

def ClassDecl.tree : ClassDecl → Tree
  | ⟨pos, modifiers, name, members⟩ =>
    .node "JClassDecl" [("pos", .place pos), ("modifiers", Modifier.trees modifiers),
      ("name", .text name), ("members", .list (Member.trees members))]

end

def Program.tree (p : Program) : Tree :=
  .node "JModule" [("classes", .list (p.classes.map ClassDecl.tree))]

end WriteOnce
