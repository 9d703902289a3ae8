import WriteOnce.Proofs.Runs
import WriteOnce.Scope.Collection

/-!
# Collecting step by step

The collector takes one piece of code after the other from a stack, each with the
place where it stands: the tables in which names are looked up, the open scope and
the routine. Tables, scopes and routines are shared and only grow. What is declared
at a place is seen by everything that waits at this place or inside it.
-/

namespace WriteOnce

namespace Scope

/-- Changes the scope at the end of a path, which goes down by places among children. -/
def modifyAt (change : Scope → Scope) : List Nat → Scope → Scope
  | [], s => change s
  | i :: path, s => { s with children := s.children.modify i (modifyAt change path) }

/-- How many scopes are directly inside the one at the end of a path. -/
def sizeAt : List Nat → Scope → Nat
  | [], s => s.children.length
  | i :: path, s => (s.children[i]?).elim 0 (sizeAt path)

def addChild (s child : Scope) : Scope := { s with children := s.children ++ [child] }

def addVar (v : Variable) (s : Scope) : Scope := { s with vars := s.vars ++ [v] }

end Scope

/-- A variable that is declared in a scope of this kind. Parameters are listed once more. -/
def Routine.addVar (v : Variable) (kind : Scope.Kind) (r : Routine) : Routine :=
  { r with
    params := if v.kind = .parameter then r.params ++ [v] else r.params
    declarations := r.declarations ++ [⟨v, some kind⟩] }

namespace Collection

/-- Where a piece of code stands. Tables and routines are known by their numbers, and the open scope
by its path. -/
structure Place where
  context : Context
  /-- The table for what is declared here. -/
  table : Nat
  /-- The tables around it, innermost first. -/
  outer : List Nat
  scope : List Nat
  routine : Nat

def Place.tables (p : Place) : List Nat := p.table :: p.outer

inductive Item
  | stmt (s : Stmt)
  | expr (e : Expr)

/-- What is left to visit, next first. -/
abbrev Work := List (Item × Place)

namespace Place

def stmts (p : Place) (stmts : List Stmt) : Work := stmts.map fun s => (.stmt s, p)

def exprs (p : Place) (es : List Expr) : Work := es.map fun e => (.expr e, p)

/-- The statements of a block whose scope is already open, or another statement alone. -/
def body (p : Place) : Stmt → Work
  | .block ⟨_, stmts⟩ => p.stmts stmts
  | s => p.stmts [s]

def block? (p : Place) (b : Option Block) : Work := p.stmts (b.toList.map .block)

end Place

/-- What all pieces of code share. -/
structure Store where
  tables : List Env
  scope : Scope
  routines : List Routine
  refs : List (Pos × Variable)
  sites : List (Pos × Variable)

namespace Store

/-- What is in some tables, one behind the other. -/
def chain (st : Store) (tables : List Nat) : Env := tables.flatMap fun t => st.tables[t]?.getD []

/-- What names denote at a place. -/
def env (st : Store) (p : Place) : Env := st.chain p.tables

/-- A new table inside those of a place. -/
def nest (st : Store) (p : Place) : Place × Store :=
  ({ p with table := st.tables.length, outer := p.tables },
    { st with tables := st.tables ++ [[]] })

/-- A new scope inside that of a place, with a table of its own. -/
def enter (st : Store) (p : Place) (kind : Scope.Kind) (site : Site) (captured : Env) :
    Place × Store :=
  let (q, st') := st.nest p
  ({ q with
      context := p.context.inScope kind
      scope := p.scope ++ [Scope.sizeAt p.scope st.scope] },
    { st' with scope := st.scope.modifyAt (·.addChild ⟨kind, site, [], [], captured⟩) p.scope })

/-- The scope of a lambda, which is a routine of its own. -/
def enterLambda (st : Store) (p : Place) (pos : Pos) (body : LambdaBody) : Place × Store :=
  let label := p.context.owner ++ "$lambda@" ++ pos.text
  let site : Site := ⟨"JLambda", pos⟩
  let (q, st') := st.enter p .closureBody site (st.env p)
  ({ q with context := ⟨label, .closureBody⟩, routine := st.routines.length },
    { st' with
      routines := st.routines ++ [⟨label, some p.context.owner, site, body, [], []⟩] })

def declare (st : Store) (p : Place) (pos : Pos) (v : Variable) : Store :=
  { st with
    tables := st.tables.modify p.table (·.bind v)
    scope := st.scope.modifyAt (·.addVar v) p.scope
    routines := st.routines.modify p.routine (·.addVar v p.context.scope)
    sites := st.sites ++ [(pos, v)] }

def declareParam (st : Store) (p : Place) (kind : Variable.Kind) (param : Param) : Store :=
  st.declare p param.pos
    (p.context.variable param.pos param.name kind (isFinal param.modifiers) false)

def declareParams (st : Store) (p : Place) (params : List Param) : Store :=
  params.foldl (·.declareParam p .parameter ·) st

def declareLocals (st : Store) (p : Place) (isFinal multi : Bool) (ds : List Declarator) : Store :=
  ds.foldl (fun st d =>
    st.declare p d.pos (p.context.variable d.pos d.name .localVariable isFinal multi)) st

/-- What a name denotes at a place, if it denotes a variable there. -/
def refer (st : Store) (p : Place) (pos : Pos) (name : Text) : Store :=
  match (st.env p).find? name with
  | some v => { st with refs := st.refs ++ [(pos, v)] }
  | none => st

/-- All declarators are declared before their initial values are visited. -/
def visitLocalDecl (st : Store) (p : Place) (multi : Bool) : LocalDecl → Work × Store
  | ⟨_, modifiers, _, declarators⟩ =>
    (p.exprs (declarators.filterMap Declarator.init),
      st.declareLocals p (isFinal modifiers) multi declarators)

/-- A clause of the head of a loop that is an expression is visited as a statement. -/
def visitForInit (st : Store) (p : Place) : ForInit → Work × Store
  | .decl decl => st.visitLocalDecl p (1 < decl.declarators.length) decl
  | .exprs values => (p.stmts (values.map fun e => .expr e.pos e), st)

/-- The handlers open their scopes and declare their parameters, the last one first. -/
def visitClauses (st : Store) (p : Place) : List CatchClause → Work × Store
  | [] => ([], st)
  | ⟨pos, param, _, ⟨_, stmts⟩⟩ :: cs =>
    let (later, st) := st.visitClauses p cs
    let (q, st) := st.enter p .catchBlock ⟨"JCatch", pos⟩ []
    let (r, st) := st.nest q
    (r.stmts stmts ++ later, st.declareParam q .catchParameter param)

/-- The statements of a block have a table inside that of the parameters. -/
def visitLambdaBody (st : Store) (p : Place) : LambdaBody → Work × Store
  | .expr e => (p.exprs [e], st)
  | .block ⟨_, stmts⟩ =>
    let (q, st) := st.nest p
    (q.stmts stmts, st)

def visitExpr (st : Store) (p : Place) : Expr → Work × Store
  | .literal .. => ([], st)
  | .name pos name => ([], st.refer p pos name)
  | .field _ operand _ | .unary _ _ operand | .step _ _ _ operand | .instanceOf _ operand _
  | .cast _ _ operand | .methodRef _ operand _ => (p.exprs [operand], st)
  | .index _ first second | .binary _ _ first second | .assign _ _ first second =>
    (p.exprs [first, second], st)
  | .call _ callee args => (p.exprs ((if callee.isName then [] else [callee]) ++ args), st)
  | .newObject _ _ args | .newAnonymous _ _ args _ | .newArray _ _ args => (p.exprs args, st)
  | .newArrayOf _ _ elementsPos elements => (p.exprs [.arrayLit elementsPos elements], st)
  | .arrayLit _ elements => (p.exprs elements, st)
  | .conditional _ cond onTrue onFalse => (p.exprs [cond, onTrue, onFalse], st)
  | .lambda pos params body =>
    let (q, st) := st.enterLambda p pos body
    (st.declareParams q params).visitLambdaBody q body

def visitStmt (st : Store) (p : Place) : Stmt → Work × Store
  | .block ⟨pos, stmts⟩ =>
    let (q, st) := st.enter p .generic ⟨"JBlock", pos⟩ []
    (q.stmts stmts, st)
  | .localDecl decl => st.visitLocalDecl p false decl
  | .expr _ value => (p.exprs [value], st)
  | .ifElse _ cond onTrue onFalse =>
    (p.exprs [cond] ++ p.stmts (onTrue :: onFalse.toList), st)
  | .whileLoop _ cond body =>
    let (q, st) := st.enter p .loopBody ⟨body.className, body.pos⟩ []
    (p.exprs [cond] ++ q.body body, st)
  | .doLoop _ body cond =>
    let (q, st) := st.enter p .loopBody ⟨body.className, body.pos⟩ []
    (q.body body ++ p.exprs [cond], st)
  | .forLoop pos init cond update body =>
    let (q, st) := st.enter p .loopBody ⟨"JFor", pos⟩ []
    let (r, st) := st.nest q
    let (first, st) := st.visitForInit q init
    (first ++ (q.exprs cond.toList ++ q.exprs update ++ r.body body), st)
  | .forEach pos param iterable body =>
    let (q, st) := st.enter p .loopBody ⟨"JForEach", pos⟩ []
    let (r, st) := st.nest q
    (p.exprs [iterable] ++ r.body body, st.declareParam q .forEachParameter param)
  | .switch pos selector groups =>
    let (q, st) := st.enter p .switchBlock ⟨"JSwitch", pos⟩ []
    (p.exprs [selector] ++ groups.flatMap fun g => q.exprs g.labels ++ q.stmts g.body, st)
  | .tryCatch _ body clauses cleanup =>
    let (handlers, st) := st.visitClauses p clauses
    (p.stmts [.block body] ++ (handlers ++ p.block? cleanup), st)
  | .returnValue _ value => (p.exprs value.toList, st)
  | .throwValue _ value => (p.exprs [value], st)
  | .labeled _ _ body => (p.stmts [body], st)
  | .breakTo .. | .continueTo .. | .empty .. | .localClass .. => ([], st)

def visit (st : Store) (p : Place) : Item → Work × Store
  | .stmt s => st.visitStmt p s
  | .expr e => st.visitExpr p e

end Store

/-- One step of the collector, unless nothing is left to visit. -/
def step? : Work × Store → Option (Work × Store)
  | ([], _) => none
  | ((item, p) :: work, st) =>
    let (items, st) := st.visit p item
    some (items ++ work, st)

/-- The collector in front of a body: its parameters are declared, and its statements have a table
of their own. -/
def start (label : Text) (kind : Scope.Kind) (site : Site) (params : List Param) (body : Block) :
    Work × Store :=
  let p : Place := ⟨⟨label, kind⟩, 0, [], [], 0⟩
  let st : Store :=
    ⟨[[]], ⟨kind, site, [], [], []⟩, [⟨label, none, site, .block body, [], []⟩], [], []⟩
  let (q, st) := (st.declareParams p params).nest p
  (q.stmts body.stmts, st)

end Collection

end WriteOnce
