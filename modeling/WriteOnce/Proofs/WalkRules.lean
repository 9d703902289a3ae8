import WriteOnce.Proofs.Outlines

/-!
# Rules for walks

A walk over code is put together in a few ways, and the outline of the code shows how. What holds of
the smallest walks, and is kept wherever walks are put together, holds of every walk.
-/

namespace WriteOnce

namespace Collection

/-- The rules for a property of walks in a routine, which begin where names denote what is in the
environment. -/
structure WalkRules (P : Text → Env → Outline → Env × Found → Prop) : Prop where
  nothing (owner : Text) (env : Env) : P owner env .nil (env, .nothing)
  name (owner : Text) (env : Env) (pos : Pos) (word : Text) :
    P owner env (.name pos word .nil)
      (env, match env.find? word with | some v => .ref pos v | none => .nothing)
  declare (c : Context) (env : Env) (d : Decl) :
    P c.owner env (.declare d .nil) (declare c env d.pos (d.variable c.owner))
  append {owner : Text} {env : Env} {o o' : Outline} {r r' : Env × Found}
    (h : P owner env o r) (h' : P owner r.1 o' r') : P owner env (o ++ o') (r'.1, r.2 ++ r'.2)
  /-- What is declared in a region is not known behind it. -/
  region {owner : Text} {env : Env} {o : Outline} {r : Env × Found} (h : P owner env o r) :
    P owner env (.region o .nil) (env, r.2)
  enclose {owner : Text} {env : Env} {o : Outline} {r : Env × Found} (h : P owner env o r)
    {kind : Scope.Kind} (hkind : kind ≠ .closureBody) (site : Site) :
    P owner env (.region o .nil) (env, r.2.enclose kind site)
  /-- The order in which something was found does not count, except for names and routines. -/
  of_perm {owner : Text} {env : Env} {o : Outline} {f g : Found} (h : P owner env o (env, f))
    (hvars : g.vars.Perm f.vars) (hchildren : g.children.Perm f.children)
    (hdeclared : f.declared.Perm g.declared) (hrefs : g.refs = f.refs)
    (hsites : f.sites.Perm g.sites) (hroutines : g.routines = f.routines) : P owner env o (env, g)
  /-- The parameters of a lambda are declared in front of its body. -/
  closure {c inner : Context} {env : Env} {pos : Pos} {params : List Param} {body : LambdaBody}
    {r : Env × Found} (hinner : inner.owner = c.owner ++ "$lambda@" ++ pos.text)
    (h : P inner.owner env (.declares (params.map (Param.decl .parameter)) ++ body.outline)
      (r.1, (declareParams inner env params).2 ++ r.2)) :
    P c.owner env
      (.lambda pos (params.map (Param.decl .parameter))
        (.declares (params.map (Param.decl .parameter)) ++ body.outline) .nil)
      (env, closure c env pos inner.owner body (declareParams inner env params).2 r.2)

/-- What is found as handlers are opened and walked, both together. -/
structure WalkedParts (P : Text → Env → Outline → Env × Found → Prop) (owner : Text) (env : Env)
    (o : Outline) (r : Found × Found) : Prop where
  both : P owner env o (env, r.1 ++ r.2)
  refs : r.1.refs = []
  routines : r.1.routines = []

namespace WalkRules

variable {P : Text → Env → Outline → Env × Found → Prop} {owner : Text} {env : Env}
  {o o' o'' : Outline} {r : Found × Found} {f g : Found}

theorem headOf (rules : WalkRules P) (h : P owner env o (env, f)) (h' : P owner env o' (env, g)) :
    P owner env (o ++ o') (env, g.headOf f) :=
  rules.of_perm (rules.append h h') (.refl _) List.perm_append_comm (.refl _) rfl (.refl _) rfl

theorem declareParam (rules : WalkRules P) (c : Context) (env : Env) (kind : Variable.Kind)
    (p : Param) : P c.owner env (.declare (p.decl kind) .nil) (declareParam c env kind p) :=
  rules.declare c env (p.decl kind)

theorem declareParams (rules : WalkRules P) (c : Context) (env : Env) (ps : List Param) :
    P c.owner env (.declares (ps.map (Param.decl .parameter))) (declareParams c env ps) := by
  induction ps generalizing env with
  | nil => exact rules.nothing c.owner env
  | cons p ps ih => exact rules.append (rules.declareParam c env .parameter p) (ih _)

theorem declareLocals (rules : WalkRules P) (c : Context) (env : Env) (isFinal multi : Bool)
    (ds : List Declarator) :
    P c.owner env (.declares (ds.map fun d => ⟨d.pos, d.name, .localVariable, isFinal, multi⟩))
      (declareLocals c env isFinal multi ds) := by
  induction ds generalizing env with
  | nil => exact rules.nothing c.owner env
  | cons d ds ih =>
    exact rules.append (rules.declare c env ⟨d.pos, d.name, .localVariable, isFinal, multi⟩) (ih _)

/-- The scope of one more handler with its parameter is opened behind those of the others. Its body
is walked before theirs. -/
theorem openHandler (rules : WalkRules P) (h : WalkedParts P owner env o' r) {kind : Scope.Kind}
    {site : Site} (hclause : P owner env o (env, (f ++ g).enclose kind site)) (hrefs : f.refs = [])
    (hroutines : f.routines = []) :
    WalkedParts P owner env (o ++ o')
      (r.1 ++ { Found.nothing with
          children := ((f ++ g).enclose kind site).children, declared := f.declared,
          sites := f.sites },
        { g with vars := [], children := [] } ++ r.2) := by
  obtain ⟨⟨vars, children, declared, refs, sites, routines⟩, walked⟩ := r
  obtain ⟨hboth, hopened, hopened'⟩ := h
  cases hopened
  cases hopened'
  obtain ⟨vars', children', declared', refs', sites', routines'⟩ := f
  cases hrefs
  cases hroutines
  have hperm {α : Type} (as bs cs ds : List α) :
      ((as ++ bs) ++ (cs ++ ds)).Perm ((bs ++ cs) ++ (as ++ ds)) := by
    have hassoc : (as ++ bs) ++ (cs ++ ds) = as ++ ((bs ++ cs) ++ ds) := by
      simp only [List.append_assoc]
    exact hassoc ▸ List.perm_append_comm_assoc ..
  refine ⟨rules.of_perm (rules.append hclause hboth) ?_ (hperm ..) (hperm ..).symm rfl
    (hperm ..).symm rfl, rfl, rfl⟩
  change ((vars ++ []) ++ ([] ++ walked.vars)).Perm ([] ++ (vars ++ walked.vars))
  rw [List.append_nil]
  exact .refl _

/-- Handlers behind a body open their scopes before the body is walked. -/
theorem handlersBehind (rules : WalkRules P) (h : WalkedParts P owner env o' r)
    (hbody : P owner env o (env, f)) (hcleanup : P owner env o'' (env, g)) :
    P owner env (o ++ (o' ++ o'')) (env, r.1 ++ (f ++ (r.2 ++ g))) := by
  obtain ⟨⟨vars, children, declared, refs, sites, routines⟩, walked⟩ := r
  obtain ⟨hboth, hrefs, hroutines⟩ := h
  cases hrefs
  cases hroutines
  have hperm {α : Type} (as bs cs ds : List α) :
      (as ++ (bs ++ (cs ++ ds))).Perm (bs ++ ((as ++ cs) ++ ds)) := by
    rw [List.append_assoc]
    exact List.perm_append_comm_assoc ..
  exact rules.of_perm (rules.append hbody (rules.append hboth hcleanup)) (hperm ..) (hperm ..)
    (hperm ..).symm rfl (hperm ..).symm rfl

mutual

/-- The rules lead through every walk. -/
theorem of_walkExpr (rules : WalkRules P) (c : Context) (env : Env) : (e : Expr) →
    P c.owner env e.outline (env, walkExpr c env e)
  | .literal .. => rules.nothing ..
  | .name pos name => rules.name c.owner env pos name
  | .field _ operand _ | .unary _ _ operand | .step _ _ _ operand | .instanceOf _ operand _
  | .cast _ _ operand | .methodRef _ operand _ => rules.of_walkExpr c env operand
  | .index _ first second | .binary _ _ first second | .assign _ _ first second =>
    rules.append (rules.of_walkExpr c env first) (rules.of_walkExpr c env second)
  | .call _ callee args => by
    have hcallee : P c.owner env (if callee.isName then .nil else callee.outline)
        (env, if callee.isName then .nothing else walkExpr c env callee) := by
      split
      · exact rules.nothing ..
      · exact rules.of_walkExpr c env callee
    exact rules.append hcallee (rules.of_walkExprs c env args)
  | .newObject _ _ args | .newAnonymous _ _ args _ | .newArray _ _ args | .newArrayOf _ _ _ args
  | .arrayLit _ args => rules.of_walkExprs c env args
  | .conditional _ cond onTrue onFalse =>
    rules.append (rules.of_walkExpr c env cond)
      (rules.append (rules.of_walkExpr c env onTrue) (rules.of_walkExpr c env onFalse))
  | .lambda pos params body =>
    let inner : Context := ⟨c.owner ++ "$lambda@" ++ pos.text, .closureBody⟩
    have hbody := rules.append (rules.declareParams inner env params)
      (rules.of_walkLambdaBody inner _ body)
    rules.closure rfl hbody
termination_by structural e => e

theorem of_walkExprs (rules : WalkRules P) (c : Context) (env : Env) : (es : List Expr) →
    P c.owner env (Expr.outlineAll es) (env, walkExprs c env es)
  | [] => rules.nothing ..
  | e :: es => rules.append (rules.of_walkExpr c env e) (rules.of_walkExprs c env es)
termination_by structural es => es

theorem of_walkLambdaBody (rules : WalkRules P) (c : Context) (env : Env) : (body : LambdaBody) →
    P c.owner env body.outline (env, walkLambdaBody c env body)
  | .expr body => rules.of_walkExpr c env body
  | .block ⟨_, stmts⟩ => rules.region (rules.of_walkStmts c env stmts)
termination_by structural body => body

theorem of_walkOption (rules : WalkRules P) (c : Context) (env : Env) : (e : Option Expr) →
    P c.owner env (Expr.outlineOption e) (env, walkOption c env e)
  | none => rules.nothing ..
  | some e => rules.of_walkExpr c env e
termination_by structural e => e

theorem of_walkInits (rules : WalkRules P) (c : Context) (env : Env) : (ds : List Declarator) →
    P c.owner env (Declarator.outlineInits ds) (env, walkInits c env ds)
  | [] => rules.nothing ..
  | ⟨_, _, _, init⟩ :: ds =>
    rules.append (rules.of_walkOption c env init) (rules.of_walkInits c env ds)
termination_by structural ds => ds

theorem of_localDecl (rules : WalkRules P) (c : Context) (env : Env) (multi : Bool) :
    (decl : LocalDecl) →
    P c.owner env (decl.outline multi)
      ((declareLocalDecl c env multi decl).1, (declareLocalDecl c env multi decl).2 ++
        walkLocalDecl c (declareLocalDecl c env multi decl).1 decl)
  | ⟨_, modifiers, _, declarators⟩ =>
    rules.append (rules.declareLocals c env (isFinal modifiers) multi declarators)
      (rules.of_walkInits c _ declarators)
termination_by structural decl => decl

theorem of_walkStmts (rules : WalkRules P) (c : Context) (env : Env) : (stmts : List Stmt) →
    P c.owner env (Stmt.outlineAll stmts) (walkStmts c env stmts)
  | [] => rules.nothing ..
  | s :: ss => rules.append (rules.of_walkStmt c env false s) (rules.of_walkStmts c _ ss)
termination_by structural stmts => stmts

theorem of_walkStmt (rules : WalkRules P) (c : Context) (env : Env) (bare : Bool) : (s : Stmt) →
    P c.owner env s.outline (walkStmt c env bare s)
  | .block ⟨pos, stmts⟩ => by
    cases bare with
    | true => exact rules.region (rules.of_walkStmts c env stmts)
    | false =>
      have hstmts := rules.of_walkStmts (c.inScope .generic) env stmts
      exact rules.enclose hstmts (by simp) ⟨"JBlock", pos⟩
  | .localDecl decl => rules.of_localDecl c env false decl
  | .expr _ value => rules.of_walkExpr c env value
  | .ifElse _ cond onTrue onFalse =>
    rules.append (rules.of_walkExpr c env cond)
      (rules.append (rules.of_walkStmt c env false onTrue) (rules.of_walkBranch c _ onFalse))
  | .whileLoop _ cond body =>
    rules.headOf (rules.of_walkExpr c env cond)
      (rules.enclose (rules.of_walkStmt (c.inScope .loopBody) env true body) (by simp) _)
  | .doLoop _ body cond =>
    rules.append (rules.enclose (rules.of_walkStmt (c.inScope .loopBody) env true body) (by simp) _)
      (rules.of_walkExpr c env cond)
  | .forLoop _ init cond update body =>
    let loop := c.inScope .loopBody
    have hhead := rules.append (rules.of_walkOption loop (walkForInit loop env init).1 cond)
      (rules.of_walkExprs loop (walkForInit loop env init).1 update)
    have hbody := rules.of_walkStmt loop (walkForInit loop env init).1 true body
    rules.enclose (rules.append (rules.of_walkForInit loop env init) (rules.append hhead hbody))
      (by simp) _
  | .forEach _ param iterable body =>
    let loop := c.inScope .loopBody
    have hparam := rules.declareParam loop env .forEachParameter param
    rules.headOf (rules.of_walkExpr c env iterable)
      (rules.enclose (rules.append hparam (rules.of_walkStmt loop _ true body)) (by simp) _)
  | .switch _ selector groups =>
    rules.headOf (rules.of_walkExpr c env selector)
      (rules.enclose (rules.of_walkGroups (c.inScope .switchBlock) env groups) (by simp) _)
  | .tryCatch _ body clauses cleanup =>
    rules.handlersBehind (rules.of_walkClauses c env clauses) (rules.of_walkBlock c env body)
      (rules.of_walkCleanup c env cleanup)
  | .returnValue _ value => rules.of_walkOption c env value
  | .throwValue _ value => rules.of_walkExpr c env value
  | .labeled _ _ body => rules.of_walkStmt c env false body
  | .breakTo .. | .continueTo .. | .empty .. | .localClass .. => rules.nothing ..
termination_by structural s => s

theorem of_walkBranch (rules : WalkRules P) (c : Context) (env : Env) : (s : Option Stmt) →
    P c.owner env (Stmt.outlineOption s) (walkBranch c env s)
  | none => rules.nothing ..
  | some s => rules.of_walkStmt c env false s
termination_by structural s => s

theorem of_walkForInit (rules : WalkRules P) (c : Context) (env : Env) : (init : ForInit) →
    P c.owner env init.outline (walkForInit c env init)
  | .decl decl => rules.of_localDecl c env _ decl
  | .exprs values => rules.of_walkExprs c env values
termination_by structural init => init

theorem of_walkGroups (rules : WalkRules P) (c : Context) (env : Env) :
    (groups : List SwitchGroup) →
    P c.owner env (SwitchGroup.outlineAll groups) (walkGroups c env groups)
  | [] => rules.nothing ..
  | ⟨_, labels, _, body⟩ :: gs =>
    rules.append (rules.of_walkExprs c env labels)
      (rules.append (rules.of_walkStmts c env body) (rules.of_walkGroups c _ gs))
termination_by structural groups => groups

theorem of_walkBlock (rules : WalkRules P) (c : Context) (env : Env) : (b : Block) →
    P c.owner env b.outline (env, walkBlock c env b)
  | ⟨_, stmts⟩ => rules.enclose (rules.of_walkStmts (c.inScope .generic) env stmts) (by simp) _
termination_by structural b => b

theorem of_walkCleanup (rules : WalkRules P) (c : Context) (env : Env) : (b : Option Block) →
    P c.owner env (Block.outlineOption b) (env, walkCleanup c env b)
  | none => rules.nothing ..
  | some b => rules.of_walkBlock c env b
termination_by structural b => b

theorem of_walkClauses (rules : WalkRules P) (c : Context) (env : Env) :
    (clauses : List CatchClause) →
    WalkedParts P c.owner env (CatchClause.outlineAll clauses) (walkClauses c env clauses)
  | [] => ⟨rules.nothing .., rfl, rfl⟩
  | ⟨pos, param, _, ⟨_, stmts⟩⟩ :: cs => by
    have hparam := rules.declareParam (c.inScope .catchBlock) env .catchParameter param
    have hbody := rules.of_walkStmts (c.inScope .catchBlock)
      (Collection.declareParam (c.inScope .catchBlock) env .catchParameter param).1 stmts
    have hkind : Scope.Kind.catchBlock ≠ .closureBody := by simp
    exact rules.openHandler (rules.of_walkClauses c env cs)
      (rules.enclose (rules.append hparam (rules.region hbody)) hkind ⟨"JCatch", pos⟩) rfl rfl
termination_by structural clauses => clauses

end

end WalkRules

theorem vars_declareParams (c : Context) (env : Env) (ps : List Param) :
    (declareParams c env ps).2.vars =
      (ps.map (Param.decl .parameter)).map (Decl.variable c.owner) := by
  induction ps generalizing env with
  | nil => rfl
  | cons p ps ih => exact congrArg (_ :: ·) (ih _)

/-- The collection of a body comes from one walk, of which everything holds that follows the
rules. -/
theorem exists_walk (owner : Text) (kind : Scope.Kind) (site : Site) (params : List Param)
    (body : Block) :
    ∃ r, (∀ P, WalkRules P → P owner [] (body.outlineWith params) r) ∧
      ofBody owner kind site params body =
        { root := ⟨owner, none, site, .block body,
            (params.map (Param.decl .parameter)).map (Decl.variable owner), r.2.declared⟩
          closures := r.2.routines
          scope := ⟨kind, site, r.2.vars, r.2.children, []⟩
          refs := r.2.refs
          sites := r.2.sites } := by
  refine ⟨_, fun P rules => rules.append (rules.declareParams ⟨owner, kind⟩ [] params)
    (rules.of_walkStmts ⟨owner, kind⟩ (declareParams ⟨owner, kind⟩ [] params).1 body.stmts), ?_⟩
  rw [← vars_declareParams ⟨owner, kind⟩ [] params]
  rfl

end Collection

end WriteOnce
