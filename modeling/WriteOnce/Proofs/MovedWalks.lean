import WriteOnce.Proofs.Cores
import WriteOnce.Proofs.MovedLists
import WriteOnce.Scope.Collection

/-!
# Walking over the core of a body

The walk over the core of a body finds what the walk over the body finds, elsewhere. The
owners of variables tell where lambdas stand, so that they change with the positions; what is
compared is therefore seen through two views, one for each walk.
-/

namespace WriteOnce

/-- What is seen of what a walk finds: another position, variable and body in place of each. -/
structure View where
  pos : Pos → Pos
  var : Variable → Variable
  body : LambdaBody → LambdaBody

namespace View

variable (w : View)

def declaration (d : Declaration) : Declaration := ⟨w.var d.var, d.scope⟩

def entry (e : Pos × Variable) : Pos × Variable := (w.pos e.1, w.var e.2)

/-- Labels are not seen. -/
def routine (r : Routine) : Routine where
  label := .empty
  parent := r.parent.map fun _ => .empty
  site := ⟨.empty, w.pos r.site.pos⟩
  body := w.body r.body
  params := r.params.map w.var
  declarations := r.declarations.map w.declaration

/-- Scopes are not seen. -/
def found (f : Found) : Found where
  vars := f.vars.map w.var
  children := []
  declared := f.declared.map w.declaration
  refs := f.refs.map w.entry
  sites := f.sites.map w.entry
  routines := f.routines.map w.routine

def env (env : Env) : Env := env.map fun e => (e.1, w.var e.2)

@[simp] theorem found_nothing : w.found .nothing = .nothing := rfl

@[simp] theorem found_append (f g : Found) : w.found (f ++ g) = w.found f ++ w.found g := by
  change w.found ⟨f.vars ++ g.vars, _, _, _, _, _⟩ = ⟨_, _, _, _, _, _⟩
  simp only [found, List.map_append, List.append_nil]

@[simp] theorem found_enclose (kind : Scope.Kind) (site : Site) (f : Found) :
    w.found (f.enclose kind site) = { w.found f with vars := [] } := rfl

@[simp] theorem found_headOf (body head : Found) :
    w.found (body.headOf head) = w.found head ++ w.found body := by
  rw [← found_append]
  rfl

theorem find?_env (env : Env) (name : Text) :
    (w.env env).find? name = (env.find? name).map w.var :=
  lookup_map (f := id) Function.injective_id w.var name env

/-- Two views show the same of a declaration and of the one that stands elsewhere for it.
`owners` relates the owners of the two. -/
structure Matches (φ : Pos → Pos) (owners : Text → Text → Prop) (w w' : View) : Prop where
  pos : ∀ p, w'.pos (φ p) = w.pos p
  body : ∀ b, w'.body (LambdaBody.core φ b) = w.body b
  var : ∀ {o o'}, owners o o' → ∀ (p : Pos) name kind isFinal multi,
    w'.var ⟨name, kind, (φ p).line, (φ p).col, o', isFinal, multi⟩ =
      w.var ⟨name, kind, p.line, p.col, o, isFinal, multi⟩
  lambda : ∀ {o o'}, owners o o' → ∀ p : Pos,
    owners (o ++ "$lambda@" ++ p.text) (o' ++ "$lambda@" ++ (φ p).text)

end View

namespace Collection

variable {φ : Pos → Pos} {owners : Text → Text → Prop} {w w' : View}

/-- Both walks are at the same place, under owners that are related. -/
structure Context.Matches (owners : Text → Text → Prop) (c c' : Context) : Prop where
  owner : owners c.owner c'.owner
  scope : c'.scope = c.scope

theorem Context.Matches.inScope {c c' : Context} (h : c.Matches owners c') (kind : Scope.Kind) :
    (c.inScope kind).Matches owners (c'.inScope kind) :=
  ⟨h.owner, rfl⟩

/-- The two walks agree on what they have found and on what names denote behind it. -/
structure Agree (w w' : View) (r r' : Env × Found) : Prop where
  env : w'.env r'.1 = w.env r.1
  found : w'.found r'.2 = w.found r.2

variable {c c' : Context} {env env' : Env}

/-! ## Declarations -/

theorem agree_declare (M : View.Matches φ owners w w') (hc : c.Matches owners c')
    (henv : w'.env env' = w.env env) (pos : Pos) (name : Text) (kind : Variable.Kind)
    (isFinal multi : Bool) :
    Agree w w' (declare c env pos (c.variable pos name kind isFinal multi))
      (declare c' env' (φ pos) (c'.variable (φ pos) name kind isFinal multi)) := by
  have hvar : w'.var (c'.variable (φ pos) name kind isFinal multi) =
      w.var (c.variable pos name kind isFinal multi) := M.var hc.owner pos name kind isFinal multi
  constructor
  · change (name, _) :: w'.env env' = (name, _) :: w.env env
    rw [henv, hvar]
  · simp only [declare, View.found, Found.declaration, Found.nothing, View.declaration, View.entry,
      List.map_cons, List.map_nil, hvar, hc.scope, M.pos]

theorem Agree.append {r r' : Env × Found} {next next' : Env → Env × Found} (h : Agree w w' r r')
    (hnext : ∀ env env', w'.env env' = w.env env → Agree w w' (next env) (next' env')) :
    Agree w w' ((next r.1).1, r.2 ++ (next r.1).2) ((next' r'.1).1, r'.2 ++ (next' r'.1).2) := by
  have hothers := hnext r.1 r'.1 h.env
  refine ⟨hothers.env, ?_⟩
  rw [View.found_append, View.found_append, h.found, hothers.found]

theorem agree_declareParam (M : View.Matches φ owners w w') (hc : c.Matches owners c')
    (henv : w'.env env' = w.env env) (kind : Variable.Kind) (p : Param) :
    Agree w w' (declareParam c env kind p) (declareParam c' env' kind (p.core φ)) :=
  agree_declare M hc henv p.pos p.name kind (isFinal p.modifiers) false

theorem agree_declareParams (M : View.Matches φ owners w w') (hc : c.Matches owners c')
    (henv : w'.env env' = w.env env) (ps : List Param) :
    Agree w w' (declareParams c env ps) (declareParams c' env' (ps.map (Param.core φ))) := by
  induction ps generalizing env env' with
  | nil => exact ⟨henv, rfl⟩
  | cons p ps ih =>
    exact (agree_declareParam M hc henv .parameter p).append fun _ _ h => ih h

theorem agree_declareLocals (M : View.Matches φ owners w w') (hc : c.Matches owners c')
    (henv : w'.env env' = w.env env) (isFinal multi : Bool) (ds : List Declarator) :
    Agree w w' (declareLocals c env isFinal multi ds)
      (declareLocals c' env' isFinal multi (Declarator.cores φ ds)) := by
  induction ds generalizing env env' with
  | nil => exact ⟨henv, rfl⟩
  | cons d ds ih =>
    obtain ⟨pos, name, dims, init⟩ := d
    exact (agree_declare M hc henv pos name .localVariable isFinal multi).append fun _ _ h =>
      ih h

theorem agree_declareLocalDecl (M : View.Matches φ owners w w') (hc : c.Matches owners c')
    (henv : w'.env env' = w.env env) (multi : Bool) (decl : LocalDecl) :
    Agree w w' (declareLocalDecl c env multi decl)
      (declareLocalDecl c' env' multi (decl.core φ)) := by
  obtain ⟨pos, modifiers, type, declarators⟩ := decl
  exact agree_declareLocals M hc henv (isFinal modifiers) multi declarators

theorem length_cores (φ : Pos → Pos) (ds : List Declarator) :
    (Declarator.cores φ ds).length = ds.length := by
  induction ds with
  | nil => rfl
  | cons d ds ih =>
    obtain ⟨pos, name, dims, init⟩ := d
    exact congrArg Nat.succ ih

/-! ## Walks -/

theorem found_both {f f' g g' : Found} (h : w'.found f' = w.found f)
    (h' : w'.found g' = w.found g) : w'.found (f' ++ g') = w.found (f ++ g) := by
  rw [View.found_append, View.found_append, h, h']

theorem found_enclosed {f f' : Found} (h : w'.found f' = w.found f) (kind kind' : Scope.Kind)
    (site site' : Site) : w'.found (f'.enclose kind' site') = w.found (f.enclose kind site) := by
  rw [View.found_enclose, View.found_enclose, h]

theorem found_headOf {body body' head head' : Found} (h : w'.found head' = w.found head)
    (h' : w'.found body' = w.found body) :
    w'.found (body'.headOf head') = w.found (body.headOf head) := by
  rw [View.found_headOf, View.found_headOf, h, h']

theorem found_closure (M : View.Matches φ owners w w') (pos : Pos) (label label' : Text)
    (body : LambdaBody) {params params' inner inner' : Found}
    (hparams : w'.found params' = w.found params) (hinner : w'.found inner' = w.found inner) :
    w'.found (closure c' env' (φ pos) label' (body.core φ) params' inner') =
      w.found (closure c env pos label body params inner) := by
  have hfound := found_both hparams hinner
  have hrefs : (params' ++ inner').refs.map w'.entry = (params ++ inner).refs.map w.entry :=
    congrArg Found.refs hfound
  have hsites : (params' ++ inner').sites.map w'.entry = (params ++ inner).sites.map w.entry :=
    congrArg Found.sites hfound
  have hroutines : (params' ++ inner').routines.map w'.routine =
      (params ++ inner).routines.map w.routine := congrArg Found.routines hfound
  have hdeclared : (params' ++ inner').declared.map w'.declaration =
      (params ++ inner).declared.map w.declaration := congrArg Found.declared hfound
  have hvars : params'.vars.map w'.var = params.vars.map w.var := congrArg Found.vars hparams
  simp only [closure, View.found, Found.nothing, View.routine, List.map_cons, List.map_nil,
    Option.map_some, hrefs, hsites, hroutines, hdeclared, hvars, M.pos, M.body]

mutual

theorem found_walkExpr (M : View.Matches φ owners w w') {c c' : Context} {env env' : Env}
    (hc : c.Matches owners c') (henv : w'.env env' = w.env env) : (e : Expr) →
    w'.found (walkExpr c' env' (e.core φ)) = w.found (walkExpr c env e)
  | .literal .. => rfl
  | .name pos name => by
    have hfind : (env'.find? name).map w'.var = (env.find? name).map w.var := by
      rw [← View.find?_env, ← View.find?_env, henv]
    simp only [Expr.core, walkExpr]
    cases hv : env.find? name with
    | none =>
      rw [hv, Option.map_none, Option.map_eq_none_iff] at hfind
      rw [hfind]
      rfl
    | some v =>
      rw [hv, Option.map_some, Option.map_eq_some_iff] at hfind
      obtain ⟨v', hv', hvar⟩ := hfind
      simp only [hv', View.found, Found.ref, Found.nothing, View.entry, List.map_cons,
        List.map_nil, hvar, M.pos]
  | .field _ operand _ | .unary _ _ operand | .step _ _ _ operand | .instanceOf _ operand _
  | .cast _ _ operand | .methodRef _ operand _ => found_walkExpr M hc henv operand
  | .index _ first second | .binary _ _ first second | .assign _ _ first second =>
    found_both (found_walkExpr M hc henv first) (found_walkExpr M hc henv second)
  | .call _ callee args => by
    refine found_both ?_ (found_walkExprs M hc henv args)
    have hname : (callee.core φ).isName = callee.isName := by cases callee <;> rfl
    rw [hname]
    split
    · rfl
    · exact found_walkExpr M hc henv callee
  | .newObject _ _ args | .newAnonymous _ _ args _ | .newArray _ _ args | .newArrayOf _ _ _ args
  | .arrayLit _ args => found_walkExprs M hc henv args
  | .conditional _ cond onTrue onFalse =>
    found_both (found_walkExpr M hc henv cond)
      (found_both (found_walkExpr M hc henv onTrue) (found_walkExpr M hc henv onFalse))
  | .lambda pos params body => by
    have hinner : Context.Matches owners ⟨c.owner ++ "$lambda@" ++ pos.text, .closureBody⟩
        ⟨c'.owner ++ "$lambda@" ++ (φ pos).text, .closureBody⟩ := ⟨M.lambda hc.owner pos, rfl⟩
    have hparams := agree_declareParams M hinner henv params
    exact found_closure M pos _ _ body hparams.found
      (found_walkLambdaBody M hinner hparams.env body)
termination_by structural e => e

theorem found_walkExprs (M : View.Matches φ owners w w') {c c' : Context} {env env' : Env}
    (hc : c.Matches owners c') (henv : w'.env env' = w.env env) : (es : List Expr) →
    w'.found (walkExprs c' env' (Expr.cores φ es)) = w.found (walkExprs c env es)
  | [] => rfl
  | e :: es => found_both (found_walkExpr M hc henv e) (found_walkExprs M hc henv es)
termination_by structural es => es

theorem found_walkLambdaBody (M : View.Matches φ owners w w') {c c' : Context} {env env' : Env}
    (hc : c.Matches owners c') (henv : w'.env env' = w.env env) : (body : LambdaBody) →
    w'.found (walkLambdaBody c' env' (body.core φ)) = w.found (walkLambdaBody c env body)
  | .expr body => found_walkExpr M hc henv body
  | .block ⟨_, stmts⟩ => (agree_walkStmts M hc henv stmts).found
termination_by structural body => body

theorem found_walkOption (M : View.Matches φ owners w w') {c c' : Context} {env env' : Env}
    (hc : c.Matches owners c') (henv : w'.env env' = w.env env) : (e : Option Expr) →
    w'.found (walkOption c' env' (Expr.coreOption φ e)) = w.found (walkOption c env e)
  | none => rfl
  | some e => found_walkExpr M hc henv e
termination_by structural e => e

theorem found_walkInits (M : View.Matches φ owners w w') {c c' : Context} {env env' : Env}
    (hc : c.Matches owners c') (henv : w'.env env' = w.env env) : (ds : List Declarator) →
    w'.found (walkInits c' env' (Declarator.cores φ ds)) = w.found (walkInits c env ds)
  | [] => rfl
  | ⟨_, _, _, init⟩ :: ds =>
    found_both (found_walkOption M hc henv init) (found_walkInits M hc henv ds)
termination_by structural ds => ds

theorem found_walkLocalDecl (M : View.Matches φ owners w w') {c c' : Context} {env env' : Env}
    (hc : c.Matches owners c') (henv : w'.env env' = w.env env) : (decl : LocalDecl) →
    w'.found (walkLocalDecl c' env' (decl.core φ)) = w.found (walkLocalDecl c env decl)
  | ⟨_, _, _, declarators⟩ => found_walkInits M hc henv declarators
termination_by structural decl => decl

theorem agree_walkStmts (M : View.Matches φ owners w w') {c c' : Context} {env env' : Env}
    (hc : c.Matches owners c') (henv : w'.env env' = w.env env) : (stmts : List Stmt) →
    Agree w w' (walkStmts c env stmts) (walkStmts c' env' (Stmt.cores φ stmts))
  | [] => ⟨henv, rfl⟩
  | s :: ss => (agree_walkStmt M hc henv false s).append fun _ _ h => agree_walkStmts M hc h ss
termination_by structural stmts => stmts

theorem agree_walkStmt (M : View.Matches φ owners w w') {c c' : Context} {env env' : Env}
    (hc : c.Matches owners c') (henv : w'.env env' = w.env env) (bare : Bool) : (s : Stmt) →
    Agree w w' (walkStmt c env bare s) (walkStmt c' env' bare (s.core φ))
  | .block ⟨pos, stmts⟩ => by
    cases bare with
    | true => exact ⟨henv, (agree_walkStmts M hc henv stmts).found⟩
    | false =>
      exact ⟨henv, found_enclosed (agree_walkStmts M (hc.inScope .generic) henv stmts).found ..⟩
  | .localDecl decl =>
    have hdecl := agree_declareLocalDecl M hc henv false decl
    ⟨hdecl.env, found_both hdecl.found (found_walkLocalDecl M hc hdecl.env decl)⟩
  | .expr _ value => ⟨henv, found_walkExpr M hc henv value⟩
  | .ifElse _ cond onTrue onFalse =>
    have hbranches := (agree_walkStmt M hc henv false onTrue).append fun _ _ h =>
      agree_walkBranch M hc h onFalse
    ⟨hbranches.env, found_both (found_walkExpr M hc henv cond) hbranches.found⟩
  | .whileLoop _ cond body =>
    have hbody := agree_walkStmt M (hc.inScope .loopBody) henv true body
    ⟨henv, found_headOf (found_walkExpr M hc henv cond) (found_enclosed hbody.found ..)⟩
  | .doLoop _ body cond =>
    have hbody := agree_walkStmt M (hc.inScope .loopBody) henv true body
    ⟨henv, found_both (found_enclosed hbody.found ..) (found_walkExpr M hc henv cond)⟩
  | .forLoop pos init cond update body => by
    have hloop := hc.inScope .loopBody
    have hinit := agree_walkForInit M hloop henv init
    have hhead := found_both (found_walkOption M hloop hinit.env cond)
      (found_walkExprs M hloop hinit.env update)
    have hbody := agree_walkStmt M hloop hinit.env true body
    exact ⟨henv, found_enclosed (found_both hinit.found (found_both hhead hbody.found)) ..⟩
  | .forEach pos param iterable body => by
    have hloop := hc.inScope .loopBody
    have hparam := agree_declareParam M hloop henv .forEachParameter param
    have hbody := agree_walkStmt M hloop hparam.env true body
    exact ⟨henv, found_headOf (found_walkExpr M hc henv iterable)
      (found_enclosed (found_both hparam.found hbody.found) ..)⟩
  | .switch pos selector groups =>
    have hgroups := agree_walkGroups M (hc.inScope .switchBlock) henv groups
    ⟨henv, found_headOf (found_walkExpr M hc henv selector) (found_enclosed hgroups.found ..)⟩
  | .tryCatch _ body clauses cleanup => by
    obtain ⟨hopened, hwalked⟩ := found_walkClauses M hc henv clauses
    exact ⟨henv, found_both hopened (found_both (found_walkBlock M hc henv body)
      (found_both hwalked (found_walkCleanup M hc henv cleanup)))⟩
  | .returnValue _ value => ⟨henv, found_walkOption M hc henv value⟩
  | .throwValue _ value => ⟨henv, found_walkExpr M hc henv value⟩
  | .labeled _ _ body => agree_walkStmt M hc henv false body
  | .breakTo .. | .continueTo .. | .empty .. | .localClass .. => ⟨henv, rfl⟩
termination_by structural s => s

theorem agree_walkBranch (M : View.Matches φ owners w w') {c c' : Context} {env env' : Env}
    (hc : c.Matches owners c') (henv : w'.env env' = w.env env) : (s : Option Stmt) →
    Agree w w' (walkBranch c env s) (walkBranch c' env' (Stmt.coreOption φ s))
  | none => ⟨henv, rfl⟩
  | some s => agree_walkStmt M hc henv false s
termination_by structural s => s

theorem agree_walkForInit (M : View.Matches φ owners w w') {c c' : Context} {env env' : Env}
    (hc : c.Matches owners c') (henv : w'.env env' = w.env env) : (init : ForInit) →
    Agree w w' (walkForInit c env init) (walkForInit c' env' (init.core φ))
  | .decl decl => by
    have hlength : (decl.core φ).declarators.length = decl.declarators.length := by
      obtain ⟨pos, modifiers, type, declarators⟩ := decl
      exact length_cores φ declarators
    have hdecl := agree_declareLocalDecl M hc henv (1 < decl.declarators.length) decl
    simp only [ForInit.core, walkForInit, hlength]
    exact ⟨hdecl.env, found_both hdecl.found (found_walkLocalDecl M hc hdecl.env decl)⟩
  | .exprs values => ⟨henv, found_walkExprs M hc henv values⟩
termination_by structural init => init

theorem agree_walkGroups (M : View.Matches φ owners w w') {c c' : Context} {env env' : Env}
    (hc : c.Matches owners c') (henv : w'.env env' = w.env env) : (groups : List SwitchGroup) →
    Agree w w' (walkGroups c env groups) (walkGroups c' env' (SwitchGroup.cores φ groups))
  | [] => ⟨henv, rfl⟩
  | ⟨_, labels, _, body⟩ :: gs =>
    have hbodies := (agree_walkStmts M hc henv body).append fun _ _ h => agree_walkGroups M hc h gs
    ⟨hbodies.env, found_both (found_walkExprs M hc henv labels) hbodies.found⟩
termination_by structural groups => groups

theorem found_walkBlock (M : View.Matches φ owners w w') {c c' : Context} {env env' : Env}
    (hc : c.Matches owners c') (henv : w'.env env' = w.env env) : (b : Block) →
    w'.found (walkBlock c' env' (b.core φ)) = w.found (walkBlock c env b)
  | ⟨_, stmts⟩ => found_enclosed (agree_walkStmts M (hc.inScope .generic) henv stmts).found ..
termination_by structural b => b

theorem found_walkCleanup (M : View.Matches φ owners w w') {c c' : Context} {env env' : Env}
    (hc : c.Matches owners c') (henv : w'.env env' = w.env env) : (b : Option Block) →
    w'.found (walkCleanup c' env' (Block.coreOption φ b)) = w.found (walkCleanup c env b)
  | none => rfl
  | some b => found_walkBlock M hc henv b
termination_by structural b => b

theorem found_walkClauses (M : View.Matches φ owners w w') {c c' : Context} {env env' : Env}
    (hc : c.Matches owners c') (henv : w'.env env' = w.env env) : (clauses : List CatchClause) →
    w'.found (walkClauses c' env' (CatchClause.cores φ clauses)).1 =
        w.found (walkClauses c env clauses).1 ∧
      w'.found (walkClauses c' env' (CatchClause.cores φ clauses)).2 =
        w.found (walkClauses c env clauses).2
  | [] => ⟨rfl, rfl⟩
  | ⟨_, param, _, ⟨_, stmts⟩⟩ :: cs => by
    obtain ⟨hopened, hwalked⟩ := found_walkClauses M hc henv cs
    have hparam := agree_declareParam M (hc.inScope .catchBlock) henv .catchParameter param
    have hbody := agree_walkStmts M (hc.inScope .catchBlock) hparam.env stmts
    refine ⟨found_both hopened ?_, found_both ?_ hwalked⟩
    · exact congrArg
        (fun f : Found => { Found.nothing with declared := f.declared, sites := f.sites })
        hparam.found
    · exact congrArg (fun f : Found => { f with vars := [] }) hbody.found
termination_by structural clauses => clauses

end

end Collection

end WriteOnce
