import WriteOnce.Scope.Collection
import WriteOnce.Syntax.Fragment

/-!
# Outlines of code

What matters for names in a body of code: where they stand, where variables are declared, and how
far the regions reach in which the declarations hold. An outline has this and nothing else, in the
order of the source. Classes inside the code are no part of it, and neither is a bare name in front
of arguments.
-/

namespace WriteOnce

/-- What a declarator or a parameter declares. -/
structure Decl where
  pos : Pos
  name : Text
  kind : Variable.Kind
  isFinal : Bool
  multi : Bool

/-- The variable that is made in a routine with this label. -/
def Decl.variable (owner : Text) (d : Decl) : Variable :=
  ⟨d.name, d.kind, d.pos.line, d.pos.col, owner, d.isFinal, d.multi⟩

def Param.decl (kind : Variable.Kind) (p : Param) : Decl :=
  ⟨p.pos, p.name, kind, isFinal p.modifiers, false⟩

def LocalDecl.decls (multi : Bool) : LocalDecl → List Decl
  | ⟨_, modifiers, _, declarators⟩ =>
    declarators.map fun d => ⟨d.pos, d.name, .localVariable, isFinal modifiers, multi⟩

/-- A stretch of code up to the end of the region that it stands in. -/
inductive Outline
  | nil
  | name (pos : Pos) (word : Text) (rest : Outline)
  | declare (d : Decl) (rest : Outline)
  | region (inner rest : Outline)
  /-- A lambda; what is inside begins with the declarations of its parameters. -/
  | lambda (pos : Pos) (params : List Decl) (inner rest : Outline)

namespace Outline

/-- One stretch of code behind another one in the same region. -/
def append : Outline → Outline → Outline
  | nil, o => o
  | name pos word rest, o => name pos word (rest.append o)
  | declare d rest, o => declare d (rest.append o)
  | region inner rest, o => region inner (rest.append o)
  | lambda pos params inner rest, o => lambda pos params inner (rest.append o)

instance : Append Outline := ⟨append⟩

@[simp] theorem nil_append (o : Outline) : nil ++ o = o := rfl

@[simp] theorem name_append (pos : Pos) (word : Text) (rest o : Outline) :
    name pos word rest ++ o = name pos word (rest ++ o) := rfl

@[simp] theorem declare_append (d : Decl) (rest o : Outline) :
    declare d rest ++ o = declare d (rest ++ o) := rfl

@[simp] theorem region_append (inner rest o : Outline) :
    region inner rest ++ o = region inner (rest ++ o) := rfl

@[simp] theorem lambda_append (pos : Pos) (params : List Decl) (inner rest o : Outline) :
    lambda pos params inner rest ++ o = lambda pos params inner (rest ++ o) := rfl

/-- One declaration behind the other. -/
def declares : List Decl → Outline
  | [] => nil
  | d :: ds => declare d (declares ds)

/-- The names in the code, with their places. -/
def names : Outline → List (Pos × Text)
  | nil => []
  | name pos word rest => (pos, word) :: rest.names
  | declare _ rest => rest.names
  | region inner rest => inner.names ++ rest.names
  | lambda _ _ inner rest => inner.names ++ rest.names

/-- What is declared in the code. -/
def decls : Outline → List Decl
  | nil => []
  | name _ _ rest => rest.decls
  | declare d rest => d :: rest.decls
  | region inner rest => inner.decls ++ rest.decls
  | lambda _ _ inner rest => inner.decls ++ rest.decls

/-- What is declared outside the lambdas in the code. -/
def own : Outline → List Decl
  | nil => []
  | name _ _ rest => rest.own
  | declare d rest => d :: rest.own
  | region inner rest => inner.own ++ rest.own
  | lambda _ _ _ rest => rest.own

end Outline

/-- A lambda in a routine with this label. -/
structure PlacedLambda where
  owner : Text
  pos : Pos
  params : List Decl
  inner : Outline

def PlacedLambda.label (l : PlacedLambda) : Text := l.owner ++ "$lambda@" ++ l.pos.text

/-- A declaration in a routine with this label, and the code in which it is known. -/
structure Binding where
  owner : Text
  decl : Decl
  scope : Outline

def Binding.variable (b : Binding) : Variable := b.decl.variable b.owner

def Binding.site (b : Binding) : Pos × Variable := (b.decl.pos, b.variable)

namespace Outline

/-- All lambdas in the code of a routine, each in front of those inside it. -/
def lambdas (owner : Text) : Outline → List PlacedLambda
  | nil => []
  | name _ _ rest => rest.lambdas owner
  | declare _ rest => rest.lambdas owner
  | region inner rest => inner.lambdas owner ++ rest.lambdas owner
  | lambda pos params inner rest =>
    let l : PlacedLambda := ⟨owner, pos, params, inner⟩
    l :: (inner.lambdas l.label ++ rest.lambdas owner)

/-- All declarations in the code of a routine. Each is known in the rest of its region. -/
def bindings (owner : Text) : Outline → List Binding
  | nil => []
  | name _ _ rest => rest.bindings owner
  | declare d rest => ⟨owner, d, rest⟩ :: rest.bindings owner
  | region inner rest => inner.bindings owner ++ rest.bindings owner
  | lambda pos params inner rest =>
    inner.bindings (PlacedLambda.label ⟨owner, pos, params, inner⟩) ++ rest.bindings owner

/-- The variables that are made, with the places of their declarations. -/
def sites (owner : Text) (o : Outline) : List (Pos × Variable) :=
  (o.bindings owner).map Binding.site

/-- What names denote behind the code. -/
def after (owner : Text) (env : Env) : Outline → Env
  | nil => env
  | name _ _ rest => rest.after owner env
  | declare d rest => rest.after owner (env.bind (d.variable owner))
  | region _ rest => rest.after owner env
  | lambda _ _ _ rest => rest.after owner env

/-- The places of names, with what the names denote there. -/
def refs (owner : Text) (env : Env) : Outline → List (Pos × Variable)
  | nil => []
  | name pos word rest =>
    ((env.find? word).map (pos, ·)).toList ++ rest.refs owner env
  | declare d rest => rest.refs owner (env.bind (d.variable owner))
  | region inner rest => inner.refs owner env ++ rest.refs owner env
  | lambda pos params inner rest =>
    inner.refs (PlacedLambda.label ⟨owner, pos, params, inner⟩) env ++ rest.refs owner env

theorem map_decl_bindings (owner : Text) (o : Outline) :
    (o.bindings owner).map Binding.decl = o.decls := by
  induction o generalizing owner with
  | nil => rfl
  | _ => simp [bindings, decls, *]

@[simp] theorem decls_declares (ds : List Decl) : (declares ds).decls = ds := by
  induction ds with
  | nil => rfl
  | cons d ds ih => exact congrArg (d :: ·) ih

@[simp] theorem names_declares (ds : List Decl) : (declares ds).names = [] := by
  induction ds with
  | nil => rfl
  | cons d ds ih => exact ih

section Append

variable {owner : Text} {env : Env} (o o' : Outline)

@[simp] theorem append_nil : o ++ nil = o := by
  induction o with
  | nil => rfl
  | _ => simp [*]

theorem append_assoc (o'' : Outline) : (o ++ o') ++ o'' = o ++ (o' ++ o'') := by
  induction o with
  | nil => rfl
  | _ => simp [*]

@[simp] theorem names_append : (o ++ o').names = o.names ++ o'.names := by
  induction o with
  | nil => rfl
  | _ => simp [names, *]

@[simp] theorem decls_append : (o ++ o').decls = o.decls ++ o'.decls := by
  induction o with
  | nil => rfl
  | _ => simp [decls, *]

@[simp] theorem own_append : (o ++ o').own = o.own ++ o'.own := by
  induction o with
  | nil => rfl
  | _ => simp [own, *]

@[simp] theorem lambdas_append :
    (o ++ o').lambdas owner = o.lambdas owner ++ o'.lambdas owner := by
  induction o generalizing owner with
  | nil => rfl
  | _ => simp [lambdas, *]

@[simp] theorem sites_append : (o ++ o').sites owner = o.sites owner ++ o'.sites owner := by
  induction o generalizing owner with
  | nil => rfl
  | _ => simp_all [sites, bindings, Binding.site, Binding.variable]

@[simp] theorem after_append :
    (o ++ o').after owner env = o'.after owner (o.after owner env) := by
  induction o generalizing env with
  | nil => rfl
  | _ => simp [after, *]

@[simp] theorem refs_append : (o ++ o').refs owner env =
    o.refs owner env ++ o'.refs owner (o.after owner env) := by
  induction o generalizing owner env with
  | nil => rfl
  | _ => simp [refs, after, *]

end Append

end Outline

mutual

def Expr.outline : Expr → Outline
  | .literal .. => .nil
  | .name pos name => .name pos name .nil
  | .field _ object _ => object.outline
  | .index _ object position => object.outline ++ position.outline
  | .call _ callee args => (if callee.isName then .nil else callee.outline) ++ Expr.outlineAll args
  | .newObject _ _ args => Expr.outlineAll args
  | .newAnonymous _ _ args _ => Expr.outlineAll args
  | .newArray _ _ sizes => Expr.outlineAll sizes
  | .newArrayOf _ _ _ elements => Expr.outlineAll elements
  | .arrayLit _ elements => Expr.outlineAll elements
  | .unary _ _ operand => operand.outline
  | .step _ _ _ target => target.outline
  | .binary _ _ left right => left.outline ++ right.outline
  | .instanceOf _ operand _ => operand.outline
  | .cast _ _ operand => operand.outline
  | .conditional _ cond onTrue onFalse => cond.outline ++ (onTrue.outline ++ onFalse.outline)
  | .assign _ _ target value => target.outline ++ value.outline
  | .lambda pos params body =>
    let decls := params.map (Param.decl .parameter)
    .lambda pos decls (.declares decls ++ body.outline) .nil
  | .methodRef _ object _ => object.outline

def Expr.outlineAll : List Expr → Outline
  | [] => .nil
  | e :: es => e.outline ++ Expr.outlineAll es

def Expr.outlineOption : Option Expr → Outline
  | none => .nil
  | some e => e.outline

def LambdaBody.outline : LambdaBody → Outline
  | .expr body => body.outline
  | .block body => body.outline

/-- The initial values of declarators. -/
def Declarator.outlineInits : List Declarator → Outline
  | [] => .nil
  | ⟨_, _, _, init⟩ :: ds => Expr.outlineOption init ++ Declarator.outlineInits ds

/-- A variable is known from its declaration to the end of the block, the loop, the switch, the
handler or the lambda around it. -/
def Stmt.outline : Stmt → Outline
  | .block body => body.outline
  | .localDecl decl => decl.outline false
  | .expr _ value => value.outline
  | .ifElse _ cond onTrue onFalse =>
    cond.outline ++ (onTrue.outline ++ Stmt.outlineOption onFalse)
  | .whileLoop _ cond body => cond.outline ++ .region body.outline .nil
  | .doLoop _ body cond => .region body.outline .nil ++ cond.outline
  | .forLoop _ init cond update body =>
    .region (init.outline ++
      ((Expr.outlineOption cond ++ Expr.outlineAll update) ++ body.outline)) .nil
  | .forEach _ param iterable body =>
    iterable.outline ++ .region (.declare (param.decl .forEachParameter) body.outline) .nil
  | .switch _ selector groups =>
    selector.outline ++ .region (SwitchGroup.outlineAll groups) .nil
  | .tryCatch _ body clauses cleanup =>
    body.outline ++ (CatchClause.outlineAll clauses ++ Block.outlineOption cleanup)
  | .returnValue _ value => Expr.outlineOption value
  | .throwValue _ value => value.outline
  | .labeled _ _ body => body.outline
  | .breakTo .. | .continueTo .. | .empty .. | .localClass .. => .nil

def Stmt.outlineAll : List Stmt → Outline
  | [] => .nil
  | s :: ss => s.outline ++ Stmt.outlineAll ss

def Stmt.outlineOption : Option Stmt → Outline
  | none => .nil
  | some s => s.outline

/-- All variables of one declaration are declared in front of their initial values. -/
def LocalDecl.outline (multi : Bool) : LocalDecl → Outline
  | ⟨pos, modifiers, type, declarators⟩ =>
    .declares (LocalDecl.decls multi ⟨pos, modifiers, type, declarators⟩) ++
      Declarator.outlineInits declarators

def ForInit.outline : ForInit → Outline
  | .decl decl => decl.outline (1 < decl.declarators.length)
  | .exprs values => Expr.outlineAll values

def Block.outline : Block → Outline
  | ⟨_, stmts⟩ => .region (Stmt.outlineAll stmts) .nil

def Block.outlineOption : Option Block → Outline
  | none => .nil
  | some b => b.outline

def SwitchGroup.outlineAll : List SwitchGroup → Outline
  | [] => .nil
  | ⟨_, labels, _, body⟩ :: gs =>
    Expr.outlineAll labels ++ (Stmt.outlineAll body ++ SwitchGroup.outlineAll gs)

def CatchClause.outlineAll : List CatchClause → Outline
  | [] => .nil
  | ⟨_, param, _, body⟩ :: cs =>
    .region (.declare (param.decl .catchParameter) body.outline) .nil ++
      CatchClause.outlineAll cs

end

/-- The parameters and the body of a fragment that is code. -/
def Fragment.code? : Fragment → Option (List Param × Block)
  | .member (.method _ _ _ _ params (some body)) => some (params, body)
  | .member (.initializer _ _ body) => some ([], body)
  | .block body => some ([], body)
  | _ => none

/-- The outline of a body behind its parameters. -/
def Block.outlineWith (params : List Param) (body : Block) : Outline :=
  .declares (params.map (Param.decl .parameter)) ++ Stmt.outlineAll body.stmts

end WriteOnce
