import WriteOnce.Analysis.Error
import WriteOnce.Scope.Basic
import WriteOnce.Syntax.Fragment

/-!
# Collecting scopes, routines and names

One walk over a body in source order finds every declaration, what every name
denotes, and the lambdas, which are routines of their own. A loop, switch or
handler opens its scope before its head is walked, so that scopes and
declarations come in the order in which the constructs are met.
-/

namespace WriteOnce

/-- What a walk has found. `vars` and `children` belong to the scope that is open,
`declared` to the routine that is walked. -/
structure Found where
  vars : List Variable
  children : List Scope
  declared : List Declaration
  refs : List (Pos × Variable)
  sites : List (Pos × Variable)
  routines : List Routine

namespace Found

def nothing : Found := ⟨[], [], [], [], [], []⟩

instance : Append Found where
  append f g :=
    ⟨f.vars ++ g.vars, f.children ++ g.children, f.declared ++ g.declared,
      f.refs ++ g.refs, f.sites ++ g.sites, f.routines ++ g.routines⟩

def ref (pos : Pos) (v : Variable) : Found := { nothing with refs := [(pos, v)] }

/-- A variable declared at `pos` in a scope of this kind. -/
def declaration (pos : Pos) (v : Variable) (kind : Scope.Kind) : Found :=
  { nothing with vars := [v], declared := [⟨v, some kind⟩], sites := [(pos, v)] }

/-- What is found in a scope, seen from the scope around it. -/
def enclose (kind : Scope.Kind) (site : Site) (inner : Found) : Found :=
  { inner with
    vars := [], children := [⟨kind, site, inner.vars, inner.children, []⟩] }

/-- Walks `head` first, although the scope of `body` is already open. -/
def headOf (body head : Found) : Found :=
  { head ++ body with children := body.children ++ head.children }

end Found

namespace Collection

/-- Where a walk is: the label of the routine and the kind of the open scope. -/
structure Context where
  owner : Text
  scope : Scope.Kind

def Context.inScope (c : Context) (kind : Scope.Kind) : Context := { c with scope := kind }

def Context.variable (c : Context) (pos : Pos) (name : Text) (kind : Variable.Kind)
    (isFinal multi : Bool) : Variable :=
  ⟨name, kind, pos.line, pos.col, c.owner, isFinal, multi⟩

/-- Declares a variable: the environment that knows it, and what is found. -/
def declare (c : Context) (env : Env) (pos : Pos) (v : Variable) : Env × Found :=
  (env.bind v, .declaration pos v c.scope)

def declareParam (c : Context) (env : Env) (kind : Variable.Kind) (p : Param) : Env × Found :=
  declare c env p.pos (c.variable p.pos p.name kind (isFinal p.modifiers) false)

def declareParams (c : Context) (env : Env) : List Param → Env × Found
  | [] => (env, .nothing)
  | p :: ps =>
    let (env, first) := declareParam c env .parameter p
    let (env, others) := declareParams c env ps
    (env, first ++ others)

/-- All declarators of a declaration are in scope in each of their initial values. -/
def declareLocals (c : Context) (env : Env) (isFinal multi : Bool) :
    List Declarator → Env × Found
  | [] => (env, .nothing)
  | d :: ds =>
    let v := c.variable d.pos d.name .localVariable isFinal multi
    let (env, first) := declare c env d.pos v
    let (env, others) := declareLocals c env isFinal multi ds
    (env, first ++ others)

def declareLocalDecl (c : Context) (env : Env) (multi : Bool) : LocalDecl → Env × Found
  | ⟨_, modifiers, _, declarators⟩ => declareLocals c env (isFinal modifiers) multi declarators

/-- What is found in a lambda. Its parameters are declared with its body, and what names denote
outside is kept with its scope. -/
def closure (c : Context) (env : Env) (pos : Pos) (label : Text) (body : LambdaBody)
    (params inner : Found) : Found :=
  let site : Site := ⟨"JLambda", pos⟩
  let found := params ++ inner
  { Found.nothing with
    children := [⟨.closureBody, site, found.vars, found.children, env⟩]
    refs := found.refs
    sites := found.sites
    routines :=
      ⟨label, some c.owner, site, body, params.vars, found.declared⟩ :: found.routines }

mutual

def walkExpr (c : Context) (env : Env) : Expr → Found
  | .literal .. => .nothing
  | .name pos name =>
    match env.find? name with
    | some v => .ref pos v
    | none => .nothing
  | .field _ object _ => walkExpr c env object
  | .index _ object position => walkExpr c env object ++ walkExpr c env position
  -- A bare name in front of arguments is a method and no variable.
  | .call _ callee args =>
    (if callee.isName then .nothing else walkExpr c env callee) ++ walkExprs c env args
  | .newObject _ _ args => walkExprs c env args
  | .newAnonymous _ _ args _ => walkExprs c env args
  | .newArray _ _ sizes => walkExprs c env sizes
  | .newArrayOf _ _ _ elements => walkExprs c env elements
  | .arrayLit _ elements => walkExprs c env elements
  | .unary _ _ operand => walkExpr c env operand
  | .step _ _ _ target => walkExpr c env target
  | .binary _ _ left right => walkExpr c env left ++ walkExpr c env right
  | .instanceOf _ operand _ => walkExpr c env operand
  | .cast _ _ operand => walkExpr c env operand
  | .conditional _ cond onTrue onFalse =>
    walkExpr c env cond ++ (walkExpr c env onTrue ++ walkExpr c env onFalse)
  | .assign _ _ target value => walkExpr c env target ++ walkExpr c env value
  | .lambda pos params body =>
    let inner : Context := ⟨c.owner ++ "$lambda@" ++ pos.text, .closureBody⟩
    let (innerEnv, declared) := declareParams inner env params
    closure c env pos inner.owner body declared (walkLambdaBody inner innerEnv body)
  | .methodRef _ object _ => walkExpr c env object

def walkExprs (c : Context) (env : Env) : List Expr → Found
  | [] => .nothing
  | e :: es => walkExpr c env e ++ walkExprs c env es

def walkLambdaBody (c : Context) (env : Env) : LambdaBody → Found
  | .expr body => walkExpr c env body
  | .block ⟨_, stmts⟩ => (walkStmts c env stmts).2

def walkOption (c : Context) (env : Env) : Option Expr → Found
  | none => .nothing
  | some e => walkExpr c env e

/-- The initial values of declarators. -/
def walkInits (c : Context) (env : Env) : List Declarator → Found
  | [] => .nothing
  | ⟨_, _, _, init⟩ :: ds => walkOption c env init ++ walkInits c env ds

def walkLocalDecl (c : Context) (env : Env) : LocalDecl → Found
  | ⟨_, _, _, declarators⟩ => walkInits c env declarators

def walkStmts (c : Context) (env : Env) : List Stmt → Env × Found
  | [] => (env, .nothing)
  | s :: ss =>
    let (env, first) := walkStmt c env false s
    let (env, others) := walkStmts c env ss
    (env, first ++ others)

/-- A block opens a scope, unless the scope is already open around it: then it is `bare`. A
declaration that is a branch of its own stays in scope behind the branch. -/
def walkStmt (c : Context) (env : Env) (bare : Bool) : Stmt → Env × Found
  | .block ⟨pos, stmts⟩ =>
    if bare then (env, (walkStmts c env stmts).2)
    else
      let inner := (walkStmts (c.inScope .generic) env stmts).2
      (env, inner.enclose .generic ⟨"JBlock", pos⟩)
  | .localDecl decl =>
    let (env, declared) := declareLocalDecl c env false decl
    (env, declared ++ walkLocalDecl c env decl)
  | .expr _ value => (env, walkExpr c env value)
  | .ifElse _ cond onTrue onFalse =>
    let head := walkExpr c env cond
    let (env, first) := walkStmt c env false onTrue
    let (env, second) := walkBranch c env onFalse
    (env, head ++ (first ++ second))
  | .whileLoop _ cond body =>
    let inner := (walkStmt (c.inScope .loopBody) env true body).2
    let loop := inner.enclose .loopBody ⟨body.className, body.pos⟩
    (env, loop.headOf (walkExpr c env cond))
  | .doLoop _ body cond =>
    let inner := (walkStmt (c.inScope .loopBody) env true body).2
    let loop := inner.enclose .loopBody ⟨body.className, body.pos⟩
    (env, loop ++ walkExpr c env cond)
  | .forLoop pos init cond update body =>
    let loop := c.inScope .loopBody
    let (loopEnv, first) := walkForInit loop env init
    let head := walkOption loop loopEnv cond ++ walkExprs loop loopEnv update
    let inner := (walkStmt loop loopEnv true body).2
    (env, (first ++ (head ++ inner)).enclose .loopBody ⟨"JFor", pos⟩)
  | .forEach pos param iterable body =>
    let loop := c.inScope .loopBody
    let (loopEnv, declared) := declareParam loop env .forEachParameter param
    let inner := (walkStmt loop loopEnv true body).2
    let found := (declared ++ inner).enclose .loopBody ⟨"JForEach", pos⟩
    (env, found.headOf (walkExpr c env iterable))
  | .switch pos selector groups =>
    let inner := (walkGroups (c.inScope .switchBlock) env groups).2
    let found := inner.enclose .switchBlock ⟨"JSwitch", pos⟩
    (env, found.headOf (walkExpr c env selector))
  | .tryCatch _ body clauses cleanup =>
    let (opened, walked) := walkClauses c env clauses
    (env, opened ++ (walkBlock c env body ++ (walked ++ walkCleanup c env cleanup)))
  | .returnValue _ value => (env, walkOption c env value)
  | .throwValue _ value => (env, walkExpr c env value)
  | .labeled _ _ body => walkStmt c env false body
  | .breakTo .. | .continueTo .. | .empty .. | .localClass .. => (env, .nothing)

def walkBranch (c : Context) (env : Env) : Option Stmt → Env × Found
  | none => (env, .nothing)
  | some s => walkStmt c env false s

/-- The first clause of a loop's head: with several declarators, their variables are marked. -/
def walkForInit (c : Context) (env : Env) : ForInit → Env × Found
  | .decl decl =>
    let (env, declared) := declareLocalDecl c env (1 < decl.declarators.length) decl
    (env, declared ++ walkLocalDecl c env decl)
  | .exprs values => (env, walkExprs c env values)

/-- The groups of a switch share one scope. -/
def walkGroups (c : Context) (env : Env) : List SwitchGroup → Env × Found
  | [] => (env, .nothing)
  | ⟨_, labels, _, body⟩ :: gs =>
    let head := walkExprs c env labels
    let (env, first) := walkStmts c env body
    let (env, others) := walkGroups c env gs
    (env, head ++ (first ++ others))

def walkBlock (c : Context) (env : Env) : Block → Found
  | ⟨pos, stmts⟩ =>
    let inner := (walkStmts (c.inScope .generic) env stmts).2
    inner.enclose .generic ⟨"JBlock", pos⟩

def walkCleanup (c : Context) (env : Env) : Option Block → Found
  | none => .nothing
  | some b => walkBlock c env b

/-- What is found as the handlers open their scopes, the last one first, and what is found later
in their bodies. -/
def walkClauses (c : Context) (env : Env) : List CatchClause → Found × Found
  | [] => (.nothing, .nothing)
  | ⟨pos, param, _, ⟨_, stmts⟩⟩ :: cs =>
    let handler := c.inScope .catchBlock
    let (handlerEnv, declared) := declareParam handler env .catchParameter param
    let inner := (walkStmts handler handlerEnv stmts).2
    let scope := (declared ++ inner).enclose .catchBlock ⟨"JCatch", pos⟩
    let (opened, walked) := walkClauses c env cs
    (opened ++ { Found.nothing with
        children := scope.children, declared := declared.declared, sites := declared.sites },
      { inner with vars := [], children := [] } ++ walked)

end

end Collection

/-- Everything known about a body: its routines, the body itself first and every lambda behind
the routine it stands in; the scopes; and the variables that names denote and declarations make,
by position. -/
structure Collection where
  root : Routine
  closures : List Routine
  scope : Scope
  refs : List (Pos × Variable)
  sites : List (Pos × Variable)

namespace Collection

def routines (c : Collection) : List Routine := c.root :: c.closures

/-- The variable that the name at this position denotes. -/
def lookup? (c : Collection) (pos : Pos) : Option Variable := c.refs.lookup pos

/-- The variable declared at this position. -/
def declared? (c : Collection) (pos : Pos) : Option Variable := c.sites.lookup pos

/-- The collection of a body with the given parameters. -/
def ofBody (label : Text) (kind : Scope.Kind) (site : Site) (params : List Param)
    (body : Block) : Collection :=
  let context : Context := ⟨label, kind⟩
  let (env, declared) := declareParams context [] params
  let found := declared ++ (walkStmts context env body.stmts).2
  { root := ⟨label, none, site, .block body, declared.vars, found.declared⟩
    closures := found.routines
    scope := ⟨kind, site, found.vars, found.children, []⟩
    refs := found.refs
    sites := found.sites }

def ofBlock (label : Text) (b : Block) : Collection :=
  ofBody label .initializer ⟨"JBlock", b.pos⟩ [] b

def ofMember (label : Text) : Member → Except AnalysisError Collection
  | .method pos _ _ _ params (some body) =>
    .ok (ofBody label .methodBody ⟨"JMethodDecl", pos⟩ params body)
  | .method pos _ _ _ _ none => .error ⟨.methodWithoutBody, pos⟩
  | .initializer pos _ body => .ok (ofBody label .initializer ⟨"JInitializer", pos⟩ [] body)
  | m => .error ⟨.notAnalyzable m.className, .nowhere⟩

def ofFragment (label : Text) : Fragment → Except AnalysisError Collection
  | .block b => .ok (ofBlock label b)
  | .member m => ofMember label m
  | f => .error ⟨.notAnalyzable f.className, .nowhere⟩

/-- The number, in preorder, of the scope that holds the body of a routine. -/
def scopeIndex? (c : Collection) (r : Routine) : Option Nat :=
  if r.isClosure then
    c.scope.walk.findIdx? fun (s, _) => s.kind = .closureBody && s.site = r.site
  else some 0

/-- The number, in preorder, of the scope that declares a variable. -/
def declaringIndex? (c : Collection) (v : Variable) : Option Nat :=
  c.scope.walk.findIdx? fun (s, _) => s.vars.contains v

end Collection

end WriteOnce
