import WriteOnce.Proofs.ParallelParsing
import WriteOnce.Syntax.Fragment

/-!
# The classes of nodes

A node of a tree of syntax belongs to one of finitely many classes. The class tells which fields
the node has, and so does the name of the class.
-/

namespace WriteOnce

namespace Tree

/-- The classes of nodes. -/
inductive NodeClass
  | typeRef | param | literal | name | fieldAccess | index | call | creation | arrayLit | unary
  | step | binary | instanceOf | cast | conditional | assign | lambda | methodRef | exprStmt
  | ifElse | whileLoop | doLoop | forLoop | forEach | switch | tryCatch | returnValue | throwValue
  | breakTo | continueTo | labeled | empty | localClass | block | localDecl | declarator
  | switchGroup | catchClause | fieldDecl | method | initializer | classDecl | program
  deriving DecidableEq

/-- The name of a class and those of its fields. -/
def NodeClass.signature : NodeClass → Text × List Text
  | .typeRef => ("JType", ["pos", "name", "args", "dims"])
  | .param => ("JParam", ["pos", "modifiers", "typ", "name", "varargs"])
  | .literal => ("JLiteral", ["pos", "kind", "raw"])
  | .name => ("JName", ["pos", "name"])
  | .fieldAccess => ("JFieldAccess", ["pos", "obj", "field"])
  | .index => ("JIndex", ["pos", "obj", "index"])
  | .call => ("JCall", ["pos", "func", "args"])
  | .creation => ("JNew", ["pos", "typ", "args", "dims", "init", "body"])
  | .arrayLit => ("JArrayLit", ["pos", "elements"])
  | .unary => ("JUnary", ["pos", "op", "operand"])
  | .step => ("JIncDec", ["pos", "op", "prefix", "target"])
  | .binary => ("JBinary", ["pos", "op", "left", "right"])
  | .instanceOf => ("JInstanceOf", ["pos", "expr", "typ"])
  | .cast => ("JCast", ["pos", "typ", "expr"])
  | .conditional => ("JTernary", ["pos", "cond", "then_expr", "else_expr"])
  | .assign => ("JAssign", ["pos", "op", "target", "value"])
  | .lambda => ("JLambda", ["pos", "params", "body"])
  | .methodRef => ("JMethodRef", ["pos", "obj", "name"])
  | .exprStmt => ("JExprStmt", ["pos", "expr"])
  | .ifElse => ("JIf", ["pos", "cond", "then", "orelse"])
  | .whileLoop => ("JWhile", ["pos", "cond", "body"])
  | .doLoop => ("JDoWhile", ["pos", "body", "cond"])
  | .forLoop => ("JFor", ["pos", "init", "cond", "update", "body"])
  | .forEach => ("JForEach", ["pos", "param", "iterable", "body"])
  | .switch => ("JSwitch", ["pos", "expr", "cases"])
  | .tryCatch => ("JTry", ["pos", "body", "catches", "finally_body"])
  | .returnValue => ("JReturn", ["pos", "value"])
  | .throwValue => ("JThrow", ["pos", "expr"])
  | .breakTo => ("JBreak", ["pos", "label"])
  | .continueTo => ("JContinue", ["pos", "label"])
  | .labeled => ("JLabeled", ["pos", "label", "body"])
  | .empty => ("JEmpty", ["pos"])
  | .localClass => ("JLocalClass", ["pos", "decl"])
  | .block => ("JBlock", ["pos", "stmts"])
  | .localDecl => ("JLocalDecl", ["pos", "modifiers", "typ", "declarators"])
  | .declarator => ("JDeclarator", ["pos", "name", "dims", "init"])
  | .switchGroup => ("JSwitchCase", ["pos", "labels", "is_default", "body"])
  | .catchClause => ("JCatch", ["pos", "param", "types", "body"])
  | .fieldDecl => ("JFieldDecl", ["pos", "modifiers", "typ", "declarators"])
  | .method => ("JMethodDecl", ["pos", "modifiers", "ret", "name", "params", "body"])
  | .initializer => ("JInitializer", ["pos", "is_static", "body"])
  | .classDecl => ("JClassDecl", ["pos", "modifiers", "name", "members"])
  | .program => ("JModule", ["classes"])

mutual

/-- Every node has the fields of its class. -/
def Signed : Tree → Prop
  | node label fields =>
    (∃ c : NodeClass, c.signature = (label, fields.map Prod.fst)) ∧ SignedFields fields
  | list items => SignedItems items
  | _ => True

def SignedFields : List (Text × Tree) → Prop
  | [] => True
  | (_, t) :: fields => t.Signed ∧ SignedFields fields

def SignedItems : List Tree → Prop
  | [] => True
  | t :: items => t.Signed ∧ SignedItems items

end

namespace NodeClass

/-- All classes. -/
def all : List NodeClass :=
  [.typeRef, .param, .literal, .name, .fieldAccess, .index, .call, .creation, .arrayLit, .unary,
    .step, .binary, .instanceOf, .cast, .conditional, .assign, .lambda, .methodRef, .exprStmt,
    .ifElse, .whileLoop, .doLoop, .forLoop, .forEach, .switch, .tryCatch, .returnValue,
    .throwValue, .breakTo, .continueTo, .labeled, .empty, .localClass, .block, .localDecl,
    .declarator, .switchGroup, .catchClause, .fieldDecl, .method, .initializer, .classDecl,
    .program]

theorem mem_all (c : NodeClass) : c ∈ all := by
  cases c <;> simp [all]

/-- A name stands for one class only. -/
theorem signature_unique {c d : NodeClass} (h : c.signature.1 = d.signature.1) : c = d := by
  have hall : ∀ c ∈ all, ∀ d ∈ all, c.signature.1 = d.signature.1 → c = d := by
    decide +kernel
  exact hall c c.mem_all d d.mem_all h

/-- The name of a class begins with a letter of its own and holds no parenthesis. -/
theorem signature_label (c : NodeClass) :
    c.signature.1.codes.head? = some 0x4A ∧ ∀ code ∈ c.signature.1.codes, code ≠ 0x28 := by
  have hall : ∀ c ∈ all,
      c.signature.1.codes.head? = some 0x4A ∧ ∀ code ∈ c.signature.1.codes, code ≠ 0x28 := by
    decide +kernel
  exact hall c c.mem_all

theorem coded_signature (c : NodeClass) : c.signature.1.Coded := by
  have hall : ∀ c ∈ all, ∀ code ∈ c.signature.1.codes, code < 0x110000 := by
    decide +kernel
  exact hall c c.mem_all

end NodeClass

theorem signed_texts (ts : List Text) : (Tree.texts ts).Signed := by
  change SignedItems (ts.map .text)
  induction ts with
  | nil => trivial
  | cons t ts ih => exact ⟨trivial, ih⟩

theorem signedItems_map {α : Type} {view : α → Tree} (h : ∀ a, (view a).Signed) (as : List α) :
    SignedItems (as.map view) := by
  induction as with
  | nil => trivial
  | cons a as ih => exact ⟨h a, ih⟩

theorem signed_option {α : Type} {f : α → Tree} (h : ∀ a, (f a).Signed) (x : Option α) :
    (Tree.option f x).Signed := by
  cases x with
  | none => trivial
  | some a => exact h a

end Tree

open WriteOnce.Tree

/-! ## Trees of syntax -/

mutual

theorem TypeRef.signed : (t : TypeRef) → t.tree.Signed
  | ⟨_, _, args, _⟩ =>
    ⟨⟨.typeRef, rfl⟩, trivial, trivial, TypeRef.signed_trees args, trivial, trivial⟩

theorem TypeRef.signed_trees : (ts : List TypeRef) → SignedItems (TypeRef.trees ts)
  | [] => trivial
  | t :: ts => ⟨t.signed, TypeRef.signed_trees ts⟩

end

theorem Param.signed (p : Param) : p.tree.Signed :=
  ⟨⟨.param, rfl⟩, trivial, Tree.signed_texts _,
    Tree.signed_option TypeRef.signed p.type, trivial, trivial, trivial⟩

mutual

theorem Expr.signed : (e : Expr) → e.tree.Signed
  | .literal .. => ⟨⟨.literal, rfl⟩, trivial, trivial, trivial, trivial⟩
  | .name .. => ⟨⟨.name, rfl⟩, trivial, trivial, trivial⟩
  | .field _ object _ =>
    ⟨⟨.fieldAccess, rfl⟩, trivial, object.signed, trivial, trivial⟩
  | .index _ object position =>
    ⟨⟨.index, rfl⟩, trivial, object.signed, position.signed, trivial⟩
  | .call _ callee args =>
    ⟨⟨.call, rfl⟩, trivial, callee.signed, Expr.signed_trees args, trivial⟩
  | .newObject _ type args =>
    ⟨⟨.creation, rfl⟩, trivial, type.signed, Expr.signed_trees args, trivial, trivial, trivial,
      trivial⟩
  | .newAnonymous _ type args members =>
    ⟨⟨.creation, rfl⟩, trivial, type.signed, Expr.signed_trees args, trivial, trivial,
      Member.signed_trees members, trivial⟩
  | .newArray _ type sizes =>
    ⟨⟨.creation, rfl⟩, trivial, type.signed, trivial, Expr.signed_trees sizes, trivial, trivial,
      trivial⟩
  | .newArrayOf _ type _ elements =>
    ⟨⟨.creation, rfl⟩, trivial, type.signed, trivial, trivial, ⟨⟨.arrayLit, rfl⟩, trivial,
      Expr.signed_trees elements, trivial⟩, trivial, trivial⟩
  | .arrayLit _ elements =>
    ⟨⟨.arrayLit, rfl⟩, trivial, Expr.signed_trees elements, trivial⟩
  | .unary _ _ operand =>
    ⟨⟨.unary, rfl⟩, trivial, trivial, operand.signed, trivial⟩
  | .step _ _ _ target =>
    ⟨⟨.step, rfl⟩, trivial, trivial, trivial, target.signed, trivial⟩
  | .binary _ _ left right =>
    ⟨⟨.binary, rfl⟩, trivial, trivial, left.signed, right.signed, trivial⟩
  | .instanceOf _ operand type =>
    ⟨⟨.instanceOf, rfl⟩, trivial, operand.signed, type.signed, trivial⟩
  | .cast _ type operand =>
    ⟨⟨.cast, rfl⟩, trivial, type.signed, operand.signed, trivial⟩
  | .conditional _ cond onTrue onFalse =>
    ⟨⟨.conditional, rfl⟩, trivial, cond.signed, onTrue.signed, onFalse.signed, trivial⟩
  | .assign _ _ target value =>
    ⟨⟨.assign, rfl⟩, trivial, trivial, target.signed, value.signed, trivial⟩
  | .lambda _ params body =>
    ⟨⟨.lambda, rfl⟩, trivial, signedItems_map Param.signed params, body.signed, trivial⟩
  | .methodRef _ object _ =>
    ⟨⟨.methodRef, rfl⟩, trivial, object.signed, trivial, trivial⟩

theorem Expr.signed_trees : (xs : List Expr) → SignedItems (Expr.trees xs)
  | [] => trivial
  | x :: xs => ⟨x.signed, Expr.signed_trees xs⟩

theorem Expr.signed_option : (x : Option Expr) → (Expr.treeOption x).Signed
  | none => trivial
  | some x => x.signed

theorem LambdaBody.signed : (b : LambdaBody) → b.tree.Signed
  | .expr body => body.signed
  | .block body => body.signed

theorem Stmt.signed : (s : Stmt) → s.tree.Signed
  | .block body => body.signed
  | .localDecl decl => decl.signed
  | .expr _ value => ⟨⟨.exprStmt, rfl⟩, trivial, value.signed, trivial⟩
  | .ifElse _ cond onTrue onFalse =>
    ⟨⟨.ifElse, rfl⟩, trivial, cond.signed, onTrue.signed, Stmt.signed_option onFalse, trivial⟩
  | .whileLoop _ cond body =>
    ⟨⟨.whileLoop, rfl⟩, trivial, cond.signed, body.signed, trivial⟩
  | .doLoop _ body cond =>
    ⟨⟨.doLoop, rfl⟩, trivial, body.signed, cond.signed, trivial⟩
  | .forLoop _ init cond update body =>
    ⟨⟨.forLoop, rfl⟩, trivial, init.signed, Expr.signed_option cond, Expr.signed_trees update,
      body.signed, trivial⟩
  | .forEach _ param iterable body =>
    ⟨⟨.forEach, rfl⟩, trivial, param.signed, iterable.signed, body.signed, trivial⟩
  | .switch _ selector groups =>
    ⟨⟨.switch, rfl⟩, trivial, selector.signed, SwitchGroup.signed_trees groups, trivial⟩
  | .tryCatch _ body clauses cleanup =>
    ⟨⟨.tryCatch, rfl⟩, trivial, body.signed, CatchClause.signed_trees clauses,
      Block.signed_option cleanup, trivial⟩
  | .returnValue _ value =>
    ⟨⟨.returnValue, rfl⟩, trivial, Expr.signed_option value, trivial⟩
  | .throwValue _ value => ⟨⟨.throwValue, rfl⟩, trivial, value.signed, trivial⟩
  | .breakTo _ label =>
    ⟨⟨.breakTo, rfl⟩, trivial, signed_option (f := Tree.text) (fun _ => trivial) label, trivial⟩
  | .continueTo _ label =>
    ⟨⟨.continueTo, rfl⟩, trivial, signed_option (f := Tree.text) (fun _ => trivial) label,
      trivial⟩
  | .labeled _ _ body =>
    ⟨⟨.labeled, rfl⟩, trivial, trivial, body.signed, trivial⟩
  | .empty _ => ⟨⟨.empty, rfl⟩, trivial, trivial⟩
  | .localClass _ decl => ⟨⟨.localClass, rfl⟩, trivial, decl.signed, trivial⟩

theorem Stmt.signed_trees : (xs : List Stmt) → SignedItems (Stmt.trees xs)
  | [] => trivial
  | x :: xs => ⟨x.signed, Stmt.signed_trees xs⟩

theorem Stmt.signed_option : (x : Option Stmt) → (Stmt.treeOption x).Signed
  | none => trivial
  | some x => x.signed

theorem ForInit.signed : (i : ForInit) → i.tree.Signed
  | .decl decl => ⟨decl.signed, trivial⟩
  | .exprs values => Expr.signed_statementTrees values

theorem Expr.signed_statementTrees : (es : List Expr) → SignedItems (Expr.statementTrees es)
  | [] => trivial
  | e :: es =>
    ⟨⟨⟨.exprStmt, rfl⟩, trivial, e.signed, trivial⟩, Expr.signed_statementTrees es⟩

theorem Block.signed : (x : Block) → x.tree.Signed
  | ⟨_, stmts⟩ =>
    ⟨⟨.block, rfl⟩, trivial, Stmt.signed_trees stmts, trivial⟩

theorem Block.signed_option : (x : Option Block) → (Block.treeOption x).Signed
  | none => trivial
  | some x => x.signed

theorem LocalDecl.signed : (x : LocalDecl) → x.tree.Signed
  | ⟨_, _, type, declarators⟩ =>
    ⟨⟨.localDecl, rfl⟩, trivial, signed_texts _, type.signed, Declarator.signed_trees declarators,
      trivial⟩

theorem Declarator.signed : (x : Declarator) → x.tree.Signed
  | ⟨_, _, _, init⟩ =>
    ⟨⟨.declarator, rfl⟩, trivial, trivial, trivial, Expr.signed_option init, trivial⟩

theorem Declarator.signed_trees : (xs : List Declarator) → SignedItems (Declarator.trees xs)
  | [] => trivial
  | x :: xs => ⟨x.signed, Declarator.signed_trees xs⟩

theorem SwitchGroup.signed : (x : SwitchGroup) → x.tree.Signed
  | ⟨_, labels, _, body⟩ =>
    ⟨⟨.switchGroup, rfl⟩, trivial, Expr.signed_trees labels, trivial, Stmt.signed_trees body,
      trivial⟩

theorem SwitchGroup.signed_trees : (xs : List SwitchGroup) → SignedItems (SwitchGroup.trees xs)
  | [] => trivial
  | x :: xs => ⟨x.signed, SwitchGroup.signed_trees xs⟩

theorem CatchClause.signed : (x : CatchClause) → x.tree.Signed
  | ⟨_, param, types, body⟩ =>
    ⟨⟨.catchClause, rfl⟩, trivial, param.signed, signedItems_map TypeRef.signed types,
      body.signed, trivial⟩

theorem CatchClause.signed_trees : (xs : List CatchClause) → SignedItems (CatchClause.trees xs)
  | [] => trivial
  | x :: xs => ⟨x.signed, CatchClause.signed_trees xs⟩

theorem Member.signed : (m : Member) → m.tree.Signed
  | .field _ _ type declarators =>
    ⟨⟨.fieldDecl, rfl⟩, trivial, signed_texts _, type.signed, Declarator.signed_trees declarators,
      trivial⟩
  | .method _ _ result _ params body =>
    ⟨⟨.method, rfl⟩, trivial, signed_texts _, signed_option TypeRef.signed result, trivial,
      signedItems_map Param.signed params, Block.signed_option body, trivial⟩
  | .initializer _ _ body =>
    ⟨⟨.initializer, rfl⟩, trivial, trivial, body.signed, trivial⟩
  | .classDecl decl => decl.signed

theorem Member.signed_trees : (xs : List Member) → SignedItems (Member.trees xs)
  | [] => trivial
  | x :: xs => ⟨x.signed, Member.signed_trees xs⟩

theorem ClassDecl.signed : (x : ClassDecl) → x.tree.Signed
  | ⟨_, _, _, members⟩ =>
    ⟨⟨.classDecl, rfl⟩, trivial, signed_texts _, trivial, Member.signed_trees members, trivial⟩

end

theorem Program.signed (p : Program) : p.tree.Signed :=
  ⟨⟨.program, rfl⟩, signedItems_map ClassDecl.signed p.classes, trivial⟩

theorem Fragment.signed : (f : Fragment) → f.tree.Signed
  | .program p => p.signed
  | .member m => m.signed
  | .block b => b.signed

end WriteOnce
