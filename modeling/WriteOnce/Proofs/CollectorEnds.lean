import WriteOnce.Proofs.CollectorGrowth

/-!
# The collector finds what the walk finds

For each piece of code the collector comes, in finitely many steps, to a store that
has grown by what the walk over this piece finds. What else waits on the stack is
not touched. So with the whole body behind it the collector has the scopes, the
routines and the names of the collection.
-/

namespace WriteOnce

namespace Collection

open Store

variable {c d : Context} {env : Env} {work work' : Work} {st st' st'' : Store} {p : Place}
  {r r' : Env × Found} {f g : Found}

/-! ## Runs of the collector -/

/-- From one store the collector comes to another by all this work, whatever waits behind it. -/
def Does (work : Work) (st st' : Store) : Prop :=
  ∀ rest, StepsTo step? (work ++ rest, st) (rest, st')

namespace Does

theorem nil (st : Store) : Does [] st st := fun _ => .refl

theorem append (h : Does work st st') (h' : Does work' st' st'') :
    Does (work ++ work') st st'' := by
  intro rest
  rw [List.append_assoc]
  exact (h (work' ++ rest)).trans (h' rest)

theorem step {item : Item} (h : Does (st.visit p item).1 (st.visit p item).2 st') :
    Does [(item, p)] st st' :=
  fun rest => .head rfl (h rest)

end Does

/-- A visit, and all the work that comes from it, finds what a walk finds. -/
def Visits (visit : Store → Place → Work × Store) (c : Context) (env : Env) (r : Env × Found) :
    Prop :=
  ∀ ⦃st p⦄, st.Waits p c env →
    ∃ st', Does (visit st p).1 (visit st p).2 st' ∧ Ran p [] r st st'

/-- Pieces of code find what a walk finds. -/
abbrev Runs (work : Place → Work) (c : Context) (env : Env) (r : Env × Found) : Prop :=
  Visits (fun st p => (work p, st)) c env r

namespace Runs

variable {work work' : Place → Work}

theorem step {item : Item} (h : Visits (fun st p => st.visit p item) c env r) :
    Runs (fun p => [(item, p)]) c env r := by
  intro st p hw
  obtain ⟨st', hdo, hran⟩ := h hw
  exact ⟨st', hdo.step, hran⟩

theorem nil : Runs (fun _ => []) c env (env, .nothing) :=
  fun st _ hw => ⟨st, .nil st, .nothing rfl rfl rfl rfl, .refl st, hw.env⟩

theorem append (h : Runs work c env r) (h' : Runs work' c r.1 r') :
    Runs (fun p => work p ++ work' p) c env (r'.1, r.2 ++ r'.2) := by
  intro st p hw
  obtain ⟨st₁, hdo, hran⟩ := h hw
  obtain ⟨st₂, hdo', hran'⟩ := h' (hran.waits hw)
  exact ⟨st₂, hdo.append hdo', hran.trans hw hran'⟩

end Runs

/-! ## Expressions -/

mutual

/-- Expressions declare nothing in the routine they stand in. -/
theorem declared_walkExpr (c : Context) (env : Env) : (e : Expr) → (walkExpr c env e).declared = []
  | .literal .. => rfl
  | .name pos word => by
    unfold walkExpr
    split <;> rfl
  | .field _ operand _ | .unary _ _ operand | .step _ _ _ operand | .instanceOf _ operand _
  | .cast _ _ operand | .methodRef _ operand _ => declared_walkExpr c env operand
  | .index _ first second | .binary _ _ first second | .assign _ _ first second =>
    List.append_eq_nil_iff.2 ⟨declared_walkExpr c env first, declared_walkExpr c env second⟩
  | .call _ callee args => by
    apply List.append_eq_nil_iff.2
    refine ⟨?_, declared_walkExprs c env args⟩
    split
    · rfl
    · exact declared_walkExpr c env callee
  | .newObject _ _ args | .newAnonymous _ _ args _ | .newArray _ _ args | .newArrayOf _ _ _ args
  | .arrayLit _ args => declared_walkExprs c env args
  | .conditional _ cond onTrue onFalse =>
    List.append_eq_nil_iff.2 ⟨declared_walkExpr c env cond,
      List.append_eq_nil_iff.2 ⟨declared_walkExpr c env onTrue, declared_walkExpr c env onFalse⟩⟩
  | .lambda .. => rfl
termination_by structural e => e

theorem declared_walkExprs (c : Context) (env : Env) :
    (es : List Expr) → (walkExprs c env es).declared = []
  | [] => rfl
  | e :: es => List.append_eq_nil_iff.2 ⟨declared_walkExpr c env e, declared_walkExprs c env es⟩
termination_by structural es => es

end

theorem runs_name (c : Context) (env : Env) (pos : Pos) (word : Text) :
    Runs (·.exprs [.name pos word]) c env (env, walkExpr c env (.name pos word)) := by
  apply Runs.step
  intro st p hw
  refine ⟨st.refer p pos word, .nil _, ?_⟩
  unfold refer walkExpr
  rw [hw.env]
  cases env.find? word with
  | none => exact ⟨.nothing rfl rfl rfl rfl, .refl st, hw.env⟩
  | some v =>
    have h : Grown p [] .nothing st st := .nothing rfl rfl rfl rfl
    have hkeeps : Keeps (some p.table) st st := .refl st
    exact ⟨⟨h.scope, h.routines, rfl, h.sites⟩,
      ⟨hkeeps.tables, hkeeps.routines, hkeeps.table⟩, hw.env⟩

/-- The body of a lambda stands at a place of its own. -/
theorem runs_lambda {inner : Context} {pos : Pos} {params : List Param} {body : LambdaBody}
    (hinner : inner = ⟨c.owner ++ "$lambda@" ++ pos.text, .closureBody⟩)
    (h : ∃ env', Visits (visitLambdaBody · · body) inner (declareParams inner env params).1
      (env', f)) :
    Runs (·.exprs [.lambda pos params body]) c env
      (env, closure c env pos inner.owner body (declareParams inner env params).2 f) := by
  subst hinner
  obtain ⟨env', h⟩ := h
  apply Runs.step
  intro st p hw
  have hinside := waits_enterLambda hw pos body
  have hparams := ran_declareParams hinside params
  obtain ⟨st', hdo, hran⟩ := h (hparams.waits hinside)
  have hall := hparams.trans hinside hran
  rw [List.append_nil] at hall
  exact ⟨st', hdo, ran_closure hw hall.grown hall.keeps⟩

theorem visits_lambdaBlock {stmts : List Stmt} (pos : Pos) (h : Runs (·.stmts stmts) c env r) :
    Visits (visitLambdaBody · · (.block ⟨pos, stmts⟩)) c env (env, r.2) := by
  intro st q hw
  have hinside := (nested_nest hw).waits (hw.later (keeps_nest st q) (by simp))
  obtain ⟨st', hdo, hran⟩ := h hinside
  exact ⟨st', hdo, ran_nest hw hran⟩

/-! ## Statements -/

theorem visits_localDecl {ds : List Declarator} (pos : Pos) (modifiers : List Modifier)
    (type : TypeRef) (multi : Bool)
    (h : Runs (·.exprs (ds.filterMap Declarator.init)) c
      (declareLocals c env (isFinal modifiers) multi ds).1
      ((declareLocals c env (isFinal modifiers) multi ds).1, f)) :
    Visits (fun st p => st.visitLocalDecl p multi ⟨pos, modifiers, type, ds⟩) c env
      ((declareLocals c env (isFinal modifiers) multi ds).1,
        (declareLocals c env (isFinal modifiers) multi ds).2 ++ f) := by
  intro st p hw
  have hlocals := ran_declareLocals hw (isFinal modifiers) multi ds
  obtain ⟨st', hdo, hran⟩ := h (hlocals.waits hw)
  exact ⟨st', hdo, hlocals.trans hw hran⟩

theorem visits_block {stmts : List Stmt} (pos : Pos)
    (h : Runs (·.stmts stmts) (c.inScope .generic) env r) :
    Visits (fun st p => st.visitStmt p (.block ⟨pos, stmts⟩)) c env
      (env, r.2.enclose .generic ⟨"JBlock", pos⟩) := by
  intro st p hw
  have hopen := opened_enter hw .generic ⟨"JBlock", pos⟩ []
  obtain ⟨st', hdo, hran⟩ := h hopen.inside
  exact ⟨st', hdo, (hopen.ranInside hran).ran⟩

/-- A scope is opened before what stands in front of it is visited. -/
theorem visits_headOf {head : Expr} {work : Place → Work} {kind : Scope.Kind} {inner : Env}
    (site : Site) (hhead : Runs (·.exprs [head]) c env (env, f))
    (hbody : Runs work (c.inScope kind) env (inner, g)) :
    Visits (fun st p =>
        let (q, st) := st.enter p kind site []
        (p.exprs [head] ++ work q, st))
      c env (env, (g.enclose kind site).headOf f) := by
  intro st p hw
  have hopen := opened_enter hw kind site []
  obtain ⟨st₁, hdo, hran⟩ := hhead hopen.outside
  have hopen₁ := hopen.ranOutside hran
  obtain ⟨st₂, hdo', hran'⟩ := hbody hopen₁.inside
  have hall := (hopen₁.ranInside hran').ran
  refine ⟨st₂, hdo.append hdo', hall.of_perm ?_ rfl rfl rfl (.refl _) rfl⟩
  exact List.append_nil f.vars

theorem visits_doLoop {cond : Expr} {body : Stmt} {inner : Env} (pos : Pos)
    (hbody : Runs (·.body body) (c.inScope .loopBody) env (inner, g))
    (hcond : Runs (·.exprs [cond]) c env (env, f)) :
    Visits (fun st p => st.visitStmt p (.doLoop pos body cond)) c env
      (env, g.enclose .loopBody ⟨body.className, body.pos⟩ ++ f) := by
  intro st p hw
  have hopen := opened_enter hw .loopBody ⟨body.className, body.pos⟩ []
  obtain ⟨st₁, hdo, hran⟩ := hbody hopen.inside
  have hopen₁ := hopen.ranInside hran
  obtain ⟨st₂, hdo', hran'⟩ := hcond hopen₁.outside
  exact ⟨st₂, hdo.append hdo', (hopen₁.ranOutside hran').ran⟩

theorem visits_forLoop {init : ForInit} {cond : Option Expr} {update : List Expr} {body : Stmt}
    {inner : Env} (pos : Pos)
    (hinit : Visits (fun st q => st.visitForInit q init) (c.inScope .loopBody) env r)
    (hhead : Runs (fun q => q.exprs cond.toList ++ q.exprs update) (c.inScope .loopBody) r.1
      (r.1, f))
    (hbody : Runs (·.body body) (c.inScope .loopBody) r.1 (inner, g)) :
    Visits (fun st p => st.visitStmt p (.forLoop pos init cond update body)) c env
      (env, (r.2 ++ (f ++ g)).enclose .loopBody ⟨"JFor", pos⟩) := by
  intro st p hw
  have hopen := opened_enter hw .loopBody ⟨"JFor", pos⟩ []
  have hnested := nested_nest hopen.inside
  obtain ⟨st₁, hdo, hran⟩ := hinit hopen.nest.inside
  obtain ⟨st₂, hdo', hran'⟩ := hhead (hran.waits hopen.nest.inside)
  have hboth := hran.trans hopen.nest.inside hran'
  have hopen₂ := hopen.nest.ranInside hboth
  have hnested₂ := hnested.later hboth.keeps hnested.ne
  obtain ⟨st₃, hdo'', hran''⟩ := hbody (hnested₂.waits hopen₂.inside)
  rw [← Found.append_assoc]
  exact ⟨st₃, hdo.append (hdo'.append hdo''), (hopen₂.ranNested hnested₂ hran'').ran⟩

/-- The parameter is declared before the iterable is visited, in a table that the iterable does not
see. -/
theorem visits_forEach {param : Param} {iterable : Expr} {body : Stmt} {inner : Env} (pos : Pos)
    (hiterable : Runs (·.exprs [iterable]) c env (env, f)) (hf : f.declared = [])
    (hbody : Runs (·.body body) (c.inScope .loopBody)
      (declareParam (c.inScope .loopBody) env .forEachParameter param).1 (inner, g)) :
    Visits (fun st p => st.visitStmt p (.forEach pos param iterable body)) c env
      (env, (((declareParam (c.inScope .loopBody) env .forEachParameter param).2 ++ g).enclose
        .loopBody ⟨"JForEach", pos⟩).headOf f) := by
  intro st p hw
  have hkind : Variable.Kind.forEachParameter ≠ .parameter := by simp
  have hopen := opened_enter hw .loopBody ⟨"JForEach", pos⟩ []
  have hnested := nested_nest hopen.inside
  have hparam := ran_declareParam hopen.nest.inside hkind param
  have hopen₁ := hopen.nest.ranInside hparam
  obtain ⟨st₁, hdo, hran⟩ := hiterable hopen₁.outside
  have hopen₂ := hopen₁.ranOutside hran
  have hnested₁ := hnested.later hparam.keeps hnested.ne
  have hnested₂ := hnested₁.later (hran.keeps_all hopen₁.outside) (by simp)
  obtain ⟨st₂, hdo', hran'⟩ := hbody (hnested₂.waits hopen₂.inside)
  have hall := (hopen₂.ranNested hnested₂ hran').ran
  let h := (declareParam (c.inScope .loopBody) env .forEachParameter param).2
  refine ⟨st₂, hdo.append hdo', hall.of_perm (List.append_nil f.vars) rfl ?_ rfl ?_ rfl⟩
  · change f.declared ++ (h.declared ++ g.declared) = h.declared ++ f.declared ++ g.declared
    rw [hf, List.append_nil]
    rfl
  · change (h.sites ++ f.sites ++ g.sites).Perm (f.sites ++ (h.sites ++ g.sites))
    rw [← List.append_assoc]
    exact List.perm_append_comm.append_right g.sites

/-! ## Handlers -/

/-- The handlers have opened their scopes, and their bodies wait for what is found between. -/
structure Handles (c : Context) (env : Env) (clauses : List CatchClause) (r : Found × Found)
    (p : Place) (st : Store) : Prop where
  outside : (st.visitClauses p clauses).2.Waits p c env
  keeps : Keeps none st (st.visitClauses p clauses).2
  later : ∀ g st', Grown p [] g (st.visitClauses p clauses).2 st' →
    Keeps none (st.visitClauses p clauses).2 st' →
    ∃ st'', Does (st.visitClauses p clauses).1 st' st'' ∧
      Ran p [] (env, r.1 ++ (g ++ r.2)) st st''

theorem handles_nil (hw : st.Waits p c env) : Handles c env [] (.nothing, .nothing) p st where
  outside := hw
  keeps := .refl st
  later g st' hg hk := by
    have hfound : Found.nothing ++ (g ++ .nothing) = g := Found.append_nothing g
    rw [hfound]
    exact ⟨st', .nil st', hg, hk.of_none, (hw.later hk (by simp)).env⟩

/-- The scope of one more handler is opened behind those of the others, and filled in first. -/
theorem handles_cons {clauses : List CatchClause} {opened walked : Found} {stmts : List Stmt}
    (pos : Pos) (param : Param) (types : List TypeRef) (blockPos : Pos)
    (h : Handles c env clauses (opened, walked) p st)
    (hbody : Runs (·.stmts stmts) (c.inScope .catchBlock)
      (declareParam (c.inScope .catchBlock) env .catchParameter param).1 r) :
    Handles c env (⟨pos, param, types, ⟨blockPos, stmts⟩⟩ :: clauses)
      (opened ++ { Found.nothing with
          children := (((declareParam (c.inScope .catchBlock) env .catchParameter param).2 ++
            r.2).enclose .catchBlock ⟨"JCatch", pos⟩).children
          declared := (declareParam (c.inScope .catchBlock) env .catchParameter param).2.declared
          sites := (declareParam (c.inScope .catchBlock) env .catchParameter param).2.sites },
        { r.2 with vars := [], children := [] } ++ walked) p st := by
  have hkind : Variable.Kind.catchParameter ≠ .parameter := by simp
  have hopen := opened_enter h.outside .catchBlock ⟨"JCatch", pos⟩ []
  have hnested := nested_nest hopen.inside
  have hparam := ran_declareParam hopen.nest.inside hkind param
  have hopen₁ := hopen.nest.ranInside hparam
  have hnested₁ := hnested.later hparam.keeps hnested.ne
  refine ⟨hopen₁.outside, h.keeps.trans hopen₁.keeps (by simp), fun g st' hg hk => ?_⟩
  have hopen₂ := hopen₁.outward hg hk
  obtain ⟨st₁, hdo, hran⟩ := hbody ((hnested₁.later hk (by simp)).waits hopen₂.inside)
  have hopen₃ := hopen₂.ranNested (hnested₁.later hk (by simp)) hran
  obtain ⟨st₂, hdo', hran'⟩ := h.later _ st₁ hopen₃.grown hopen₃.keeps
  have hassoc {α : Type} (as bs cs ds es : List α) :
      as ++ (bs ++ (cs ++ (ds ++ es))) = as ++ (((bs ++ cs) ++ ds) ++ es) := by
    simp only [List.append_assoc]
  rw [Found.append_assoc]
  exact ⟨st₂, hdo.append hdo', hran'.of_perm rfl rfl (hassoc ..) (hassoc ..)
    (.of_eq (hassoc ..).symm) (hassoc ..)⟩

/-- The body stands between the opened scopes of the handlers and their bodies. -/
theorem visits_tryCatch {body : Block} {clauses : List CatchClause} {cleanup : Option Block}
    {r : Found × Found} (pos : Pos) (hbody : Runs (·.stmts [.block body]) c env (env, f))
    (hclauses : ∀ ⦃st p⦄, st.Waits p c env → Handles c env clauses r p st)
    (hcleanup : Runs (·.block? cleanup) c env (env, g)) :
    Visits (fun st p => st.visitStmt p (.tryCatch pos body clauses cleanup)) c env
      (env, r.1 ++ (f ++ (r.2 ++ g))) := by
  intro st p hw
  have hopened := hclauses hw
  obtain ⟨st₁, hdo, hran⟩ := hbody hopened.outside
  obtain ⟨st₂, hdo', hran'⟩ := hopened.later f st₁ hran.grown (hran.keeps_all hopened.outside)
  obtain ⟨st₃, hdo'', hran''⟩ := hcleanup (hran'.waits hw)
  have hall := hran'.trans hw hran''
  rw [Found.append_assoc, Found.append_assoc] at hall
  exact ⟨st₃, hdo.append (hdo'.append hdo''), hall⟩

/-! ## All code -/

/-- A statement finds what its walk finds, alone and as the body of a loop. -/
structure RunsStmt (c : Context) (env : Env) (s : Stmt) : Prop where
  alone : Runs (·.stmts [s]) c env (walkStmt c env false s)
  body : ∃ env', Runs (·.body s) c env (env', (walkStmt c env true s).2)

theorem RunsStmt.of_visits {s : Stmt} (hbody : ∀ p : Place, p.body s = p.stmts [s])
    (hbare : walkStmt c env true s = walkStmt c env false s)
    (h : Visits (fun st p => st.visitStmt p s) c env (walkStmt c env false s)) :
    RunsStmt c env s := by
  have halone : Runs (·.stmts [s]) c env (walkStmt c env false s) := Runs.step h
  refine ⟨halone, (walkStmt c env true s).1, ?_⟩
  rw [hbare, funext hbody]
  exact halone

mutual

theorem runs_expr (c : Context) (env : Env) : (e : Expr) →
    Runs (·.exprs [e]) c env (env, walkExpr c env e)
  | .literal .. => .step Runs.nil
  | .name pos word => runs_name c env pos word
  | .field _ operand _ | .unary _ _ operand | .step _ _ _ operand | .instanceOf _ operand _
  | .cast _ _ operand | .methodRef _ operand _ => .step (runs_expr c env operand)
  | .index _ first second | .binary _ _ first second | .assign _ _ first second =>
    .step ((runs_expr c env first).append (runs_expr c env second))
  | .call _ callee args => by
    have hcallee := runs_expr c env callee
    have hargs := runs_exprs c env args
    apply Runs.step
    change Runs (·.exprs ((if callee.isName then [] else [callee]) ++ args)) c env
      (env, (if callee.isName then .nothing else walkExpr c env callee) ++ walkExprs c env args)
    cases callee.isName with
    | true => exact hargs
    | false => exact hcallee.append hargs
  | .newObject _ _ args | .newAnonymous _ _ args _ | .newArray _ _ args | .arrayLit _ args =>
    .step (runs_exprs c env args)
  | .newArrayOf _ _ _ elements => .step (Runs.step (runs_exprs c env elements))
  | .conditional _ cond onTrue onFalse =>
    .step ((runs_expr c env cond).append
      ((runs_expr c env onTrue).append (runs_expr c env onFalse)))
  | .lambda _ _ body => runs_lambda rfl (visits_lambdaBody _ _ body)
termination_by structural e => e

theorem runs_exprs (c : Context) (env : Env) : (es : List Expr) →
    Runs (·.exprs es) c env (env, walkExprs c env es)
  | [] => .nil
  | e :: es => (runs_expr c env e).append (runs_exprs c env es)
termination_by structural es => es

theorem visits_lambdaBody (c : Context) (env : Env) : (body : LambdaBody) →
    ∃ env', Visits (visitLambdaBody · · body) c env (env', walkLambdaBody c env body)
  | .expr body => ⟨_, runs_expr c env body⟩
  | .block ⟨pos, stmts⟩ => ⟨_, visits_lambdaBlock pos (runs_stmts c env stmts)⟩
termination_by structural body => body

theorem runs_option (c : Context) (env : Env) : (e : Option Expr) →
    Runs (·.exprs e.toList) c env (env, walkOption c env e)
  | none => .nil
  | some e => runs_expr c env e
termination_by structural e => e

/-- Expressions in the head of a loop are visited as statements. -/
theorem runs_statements (c : Context) (env : Env) : (es : List Expr) →
    Runs (·.stmts (es.map fun e => .expr e.pos e)) c env (env, walkExprs c env es)
  | [] => .nil
  | e :: es =>
    have hfirst : Runs (·.stmts [.expr e.pos e]) c env (env, walkExpr c env e) :=
      .step (runs_expr c env e)
    hfirst.append (runs_statements c env es)
termination_by structural es => es

theorem runs_inits (c : Context) (env : Env) : (ds : List Declarator) →
    Runs (·.exprs (ds.filterMap Declarator.init)) c env (env, walkInits c env ds)
  | [] => .nil
  | ⟨_, _, _, none⟩ :: ds => runs_inits c env ds
  | ⟨_, _, _, some e⟩ :: ds => (runs_expr c env e).append (runs_inits c env ds)
termination_by structural ds => ds

theorem visits_decl (c : Context) (env : Env) (multi : Bool) : (decl : LocalDecl) →
    Visits (fun st p => st.visitLocalDecl p multi decl) c env
      ((declareLocalDecl c env multi decl).1, (declareLocalDecl c env multi decl).2 ++
        walkLocalDecl c (declareLocalDecl c env multi decl).1 decl)
  | ⟨pos, modifiers, type, ds⟩ =>
    visits_localDecl pos modifiers type multi (runs_inits c _ ds)
termination_by structural decl => decl

theorem runs_stmts (c : Context) (env : Env) : (stmts : List Stmt) →
    Runs (·.stmts stmts) c env (walkStmts c env stmts)
  | [] => .nil
  | s :: ss => (runs_stmt c env s).alone.append (runs_stmts c _ ss)
termination_by structural stmts => stmts

theorem runs_stmt (c : Context) (env : Env) : (s : Stmt) → RunsStmt c env s
  | .block ⟨pos, stmts⟩ =>
    -- As the body of a loop a block has its scope already.
    ⟨.step (visits_block pos (runs_stmts (c.inScope .generic) env stmts)),
      ⟨_, runs_stmts c env stmts⟩⟩
  | .localDecl decl => .of_visits (fun _ => rfl) rfl (visits_decl c env false decl)
  | .expr _ value => .of_visits (fun _ => rfl) rfl (runs_expr c env value)
  | .ifElse _ cond onTrue onFalse =>
    .of_visits (fun _ => rfl) rfl ((runs_expr c env cond).append
      ((runs_stmt c env onTrue).alone.append (runs_branch c _ onFalse)))
  | .whileLoop _ cond body => by
    obtain ⟨env', hbody⟩ := (runs_stmt (c.inScope .loopBody) env body).body
    exact .of_visits (fun _ => rfl) rfl (visits_headOf ⟨body.className, body.pos⟩
      (runs_expr c env cond) hbody)
  | .doLoop pos body cond => by
    obtain ⟨env', hbody⟩ := (runs_stmt (c.inScope .loopBody) env body).body
    exact .of_visits (fun _ => rfl) rfl (visits_doLoop pos hbody (runs_expr c env cond))
  | .forLoop pos init cond update body => by
    have hinit := visits_forInit (c.inScope .loopBody) env init
    have hhead := (runs_option (c.inScope .loopBody)
      (walkForInit (c.inScope .loopBody) env init).1 cond).append (runs_exprs _ _ update)
    obtain ⟨env', hbody⟩ := (runs_stmt (c.inScope .loopBody)
      (walkForInit (c.inScope .loopBody) env init).1 body).body
    exact .of_visits (fun _ => rfl) rfl (visits_forLoop pos hinit hhead hbody)
  | .forEach pos param iterable body => by
    obtain ⟨env', hbody⟩ := (runs_stmt (c.inScope .loopBody)
      (declareParam (c.inScope .loopBody) env .forEachParameter param).1 body).body
    exact .of_visits (fun _ => rfl) rfl (visits_forEach pos (runs_expr c env iterable)
      (declared_walkExpr c env iterable) hbody)
  | .switch pos selector groups =>
    .of_visits (fun _ => rfl) rfl (visits_headOf ⟨"JSwitch", pos⟩ (runs_expr c env selector)
      (runs_groups (c.inScope .switchBlock) env groups))
  | .tryCatch pos body clauses cleanup =>
    .of_visits (fun _ => rfl) rfl (visits_tryCatch pos (runs_block c env body)
      (handles c env clauses) (runs_cleanup c env cleanup))
  | .returnValue _ value => .of_visits (fun _ => rfl) rfl (runs_option c env value)
  | .throwValue _ value => .of_visits (fun _ => rfl) rfl (runs_expr c env value)
  | .labeled _ _ body => .of_visits (fun _ => rfl) rfl (runs_stmt c env body).alone
  | .breakTo .. | .continueTo .. | .empty .. | .localClass .. =>
    .of_visits (fun _ => rfl) rfl Runs.nil
termination_by structural s => s

theorem runs_branch (c : Context) (env : Env) : (s : Option Stmt) →
    Runs (·.stmts s.toList) c env (walkBranch c env s)
  | none => .nil
  | some s => (runs_stmt c env s).alone
termination_by structural s => s

theorem visits_forInit (c : Context) (env : Env) : (init : ForInit) →
    Visits (fun st p => st.visitForInit p init) c env (walkForInit c env init)
  | .decl decl => visits_decl c env _ decl
  | .exprs values => runs_statements c env values
termination_by structural init => init

theorem runs_groups (c : Context) (env : Env) : (groups : List SwitchGroup) →
    Runs (fun q => groups.flatMap fun g => q.exprs g.labels ++ q.stmts g.body) c env
      (walkGroups c env groups)
  | [] => .nil
  | ⟨_, labels, _, body⟩ :: gs => by
    have hgroup := (runs_exprs c env labels).append (runs_stmts c env body)
    have hall := hgroup.append (runs_groups c _ gs)
    rw [Found.append_assoc] at hall
    exact hall
termination_by structural groups => groups

theorem runs_block (c : Context) (env : Env) : (b : Block) →
    Runs (·.stmts [.block b]) c env (env, walkBlock c env b)
  | ⟨pos, stmts⟩ => .step (visits_block pos (runs_stmts (c.inScope .generic) env stmts))
termination_by structural b => b

theorem runs_cleanup (c : Context) (env : Env) : (b : Option Block) →
    Runs (·.block? b) c env (env, walkCleanup c env b)
  | none => .nil
  | some b => runs_block c env b
termination_by structural b => b

theorem handles (c : Context) (env : Env) : (clauses : List CatchClause) → ∀ ⦃st p⦄,
    st.Waits p c env → Handles c env clauses (walkClauses c env clauses) p st
  | [], _, _, hw => handles_nil hw
  | ⟨pos, param, types, ⟨blockPos, stmts⟩⟩ :: cs, _, _, hw =>
    handles_cons pos param types blockPos (handles c env cs hw)
      (runs_stmts (c.inScope .catchBlock) _ stmts)
termination_by structural clauses => clauses

end

/-! ## Bodies -/

/-- The store has what the collection has. -/
structure Store.Holds (st : Store) (c : Collection) : Prop where
  scope : st.scope = c.scope
  routines : st.routines = c.routines
  refs : st.refs = c.refs
  sites : st.sites.Perm c.sites

/-- The collector ends after finitely many steps, with the collection of the body. -/
theorem collector_ends (label : Text) (kind : Scope.Kind) (site : Site) (params : List Param)
    (body : Block) :
    ∃ st, EndsIn step? (start label kind site params body) ([], st) ∧
      st.Holds (ofBody label kind site params body) := by
  let p : Place := ⟨⟨label, kind⟩, 0, [], [], 0⟩
  let st₀ : Store :=
    ⟨[[]], ⟨kind, site, [], [], []⟩, [⟨label, none, site, .block body, [], []⟩], [], []⟩
  have hw : st₀.Waits p ⟨label, kind⟩ [] := by
    refine ⟨rfl, ?_, ?_, ?_, rfl⟩
    · exact Nat.zero_lt_one
    · exact List.forall_mem_nil _
    · exact Nat.zero_lt_one
  have hparams := ran_declareParams hw params
  have hw₁ := hparams.waits hw
  have hinside := (nested_nest hw₁).waits (hw₁.later (keeps_nest _ p) (by simp))
  obtain ⟨st, hdo, hran⟩ := runs_stmts ⟨label, kind⟩ _ body.stmts hinside
  have hend : StepsTo step? (start label kind site params body) ([], st) := by
    have h := hdo []
    rw [List.append_nil] at h
    exact h
  have hgrown := (hparams.trans hw (ran_nest hw₁ hran)).grown
  rw [List.append_nil] at hgrown
  exact ⟨st, hend.ends rfl, hgrown.scope, hgrown.routines, hgrown.refs, hgrown.sites⟩

end Collection

end WriteOnce
