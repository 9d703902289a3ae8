import WriteOnce.Scope.Collection
import WriteOnce.Verdict

/-!
# What a routine declares

The walk over a body marks variables: parameters by their kind and the scope of the
lambda, and the declarators in the head of a `for` loop if there are several. The
marks say what stands in the syntax.
-/

namespace WriteOnce

/-! ## Heads of `for` loops -/

def ForInit.heads : ForInit → List LocalDecl
  | .decl d => [d]
  | .exprs _ => []

mutual

/-- The declarations in the heads of `for` loops. Lambdas are routines of their own. -/
def Stmt.heads : Stmt → List LocalDecl
  | .block body => body.heads
  | .ifElse _ _ onTrue onFalse => onTrue.heads ++ headsOption onFalse
  | .whileLoop _ _ body => body.heads
  | .doLoop _ body _ => body.heads
  | .forLoop _ init _ _ body => init.heads ++ body.heads
  | .forEach _ _ _ body => body.heads
  | .switch _ _ groups => headsGroups groups
  | .tryCatch _ body clauses cleanup =>
    body.heads ++ (headsClauses clauses ++ headsCleanup cleanup)
  | .labeled _ _ body => body.heads
  | .localDecl .. | .expr .. | .returnValue .. | .throwValue .. | .breakTo .. | .continueTo ..
  | .empty .. | .localClass .. => []

def Block.heads : Block → List LocalDecl
  | ⟨_, stmts⟩ => headsAll stmts

def headsAll : List Stmt → List LocalDecl
  | [] => []
  | s :: ss => s.heads ++ headsAll ss

def headsOption : Option Stmt → List LocalDecl
  | none => []
  | some s => s.heads

def headsGroups : List SwitchGroup → List LocalDecl
  | [] => []
  | ⟨_, _, _, body⟩ :: gs => headsAll body ++ headsGroups gs

def headsCleanup : Option Block → List LocalDecl
  | none => []
  | some b => b.heads

def headsClauses : List CatchClause → List LocalDecl
  | [] => []
  | ⟨_, _, _, body⟩ :: cs => body.heads ++ headsClauses cs

end

def LambdaBody.heads : LambdaBody → List LocalDecl
  | .expr _ => []
  | .block body => body.heads

/-- The variable that a declarator in the head of a loop makes. -/
def LocalDecl.headVariable (owner : Text) (decl : LocalDecl) (d : Declarator) : Variable :=
  ⟨d.name, .localVariable, d.pos.line, d.pos.col, owner, isFinal decl.modifiers,
    1 < decl.declarators.length⟩

/-- One of several declarators in one of the heads makes the variable. -/
def SharesHead (owner : Text) (heads : List LocalDecl) (v : Variable) : Prop :=
  ∃ decl ∈ heads, 1 < decl.declarators.length ∧
    ∃ d ∈ decl.declarators, v = decl.headVariable owner d

theorem SharesHead.mono {owner : Text} {heads heads' : List LocalDecl} {v : Variable}
    (h : SharesHead owner heads v) (hsub : heads ⊆ heads') : SharesHead owner heads' v := by
  obtain ⟨decl, hdecl, h⟩ := h
  exact ⟨decl, hsub hdecl, h⟩

theorem SharesHead.multi {owner : Text} {heads : List LocalDecl} {v : Variable}
    (h : SharesHead owner heads v) : v.multi = true := by
  obtain ⟨decl, _, hlength, d, _, rfl⟩ := h
  exact decide_eq_true hlength

/-! ## What the walk finds -/

/-- The marks of all variables of a routine say what stands in its syntax. -/
structure Routine.Marked (r : Routine) : Prop where
  lambdaParameter : ∀ d ∈ r.declarations,
    d.isLambdaParameter = true ↔ r.isClosure = true ∧ d.var ∈ r.params
  multi : ∀ d ∈ r.declarations, d.var.multi = true ↔ SharesHead r.label r.body.heads d.var

namespace Collection

/-- What is found in a part of the body of a routine, the parameters apart. -/
structure Finds (owner : Text) (heads : List LocalDecl) (f : Found) : Prop where
  kind : ∀ d ∈ f.declared, d.var.kind ≠ .parameter
  multi : ∀ d ∈ f.declared, d.var.multi = true → SharesHead owner heads d.var
  routines : ∀ r ∈ f.routines, r.Marked

namespace Finds

variable {owner : Text} {heads heads' : List LocalDecl} {f f' : Found}

theorem nothing : Finds owner heads .nothing :=
  ⟨fun _ hd => (by cases hd), fun _ hd => (by cases hd), fun _ hr => (by cases hr)⟩

theorem mono (h : Finds owner heads f) (hsub : heads ⊆ heads') : Finds owner heads' f :=
  ⟨h.kind, fun d hd hm => (h.multi d hd hm).mono hsub, h.routines⟩

/-- Only the declarations and the routines count. -/
theorem of_eq (h : Finds owner heads f) (hdeclared : f'.declared = f.declared)
    (hroutines : f'.routines = f.routines) : Finds owner heads f' :=
  ⟨hdeclared ▸ h.kind, hdeclared ▸ h.multi, hroutines ▸ h.routines⟩

theorem both (h : Finds owner heads f) (h' : Finds owner heads f') :
    Finds owner heads (f ++ f') :=
  ⟨List.forall_mem_append.2 ⟨h.kind, h'.kind⟩, List.forall_mem_append.2 ⟨h.multi, h'.multi⟩,
    List.forall_mem_append.2 ⟨h.routines, h'.routines⟩⟩

theorem append (h : Finds owner heads f) (h' : Finds owner heads' f') :
    Finds owner (heads ++ heads') (f ++ f') :=
  (h.mono (List.subset_append_left _ _)).both (h'.mono (List.subset_append_right _ _))

theorem silent (h : Finds owner [] f) (h' : Finds owner heads f') : Finds owner heads (f ++ f') :=
  h.append h'

theorem enclose (h : Finds owner heads f) (kind : Scope.Kind) (site : Site) :
    Finds owner heads (f.enclose kind site) :=
  h.of_eq rfl rfl

theorem headOf (h : Finds owner [] f) (h' : Finds owner heads f') :
    Finds owner heads (f'.headOf f) :=
  (h.silent h').of_eq rfl rfl

end Finds

variable {c : Context} {env : Env}

theorem finds_declareParam (c : Context) (env : Env) {kind : Variable.Kind}
    (hkind : kind ≠ .parameter) (p : Param) (heads : List LocalDecl) :
    Finds c.owner heads (declareParam c env kind p).2 := by
  refine ⟨fun d hd => ?_, fun d hd hm => ?_, fun _ hr => by cases hr⟩
  · obtain rfl := List.mem_singleton.1 hd
    exact hkind
  · obtain rfl := List.mem_singleton.1 hd
    cases hm

theorem finds_declareLocals {isFinal multi : Bool} (heads : List LocalDecl)
    (ds : List Declarator)
    (hmulti : multi = true → ∀ d ∈ ds, SharesHead c.owner heads
      (c.variable d.pos d.name .localVariable isFinal true)) :
    Finds c.owner heads (declareLocals c env isFinal multi ds).2 := by
  induction ds generalizing env with
  | nil => exact .nothing
  | cons d ds ih =>
    refine .both ⟨fun e he => ?_, fun e he hm => ?_, fun _ hr => by cases hr⟩
      (ih fun hm e he => hmulti hm e (.tail _ he))
    · obtain rfl := List.mem_singleton.1 he
      exact fun h => by cases h
    · obtain rfl := List.mem_singleton.1 he
      cases hm
      exact hmulti rfl d (.head _)

theorem finds_declareLocalDecl (decl : LocalDecl) (heads : List LocalDecl) :
    Finds c.owner heads (declareLocalDecl c env false decl).2 := by
  obtain ⟨pos, modifiers, type, declarators⟩ := decl
  exact finds_declareLocals heads declarators fun h => by cases h

theorem finds_declareHead (decl : LocalDecl) : Finds c.owner [decl]
    (declareLocalDecl c env (1 < decl.declarators.length) decl).2 := by
  obtain ⟨pos, modifiers, type, declarators⟩ := decl
  apply finds_declareLocals
  intro hm d hd
  have hlength : 1 < declarators.length := of_decide_eq_true hm
  refine ⟨_, .head _, hlength, d, hd, ?_⟩
  simp only [Context.variable, LocalDecl.headVariable, hlength, decide_true]

/-- Parameters of the open scope, all of one kind. -/
theorem declareParams_spec (c : Context) (env : Env) (ps : List Param) :
    (declareParams c env ps).2.routines = [] ∧
    (declareParams c env ps).2.vars = (declareParams c env ps).2.declared.map Declaration.var ∧
    ∀ d ∈ (declareParams c env ps).2.declared,
      d.var.kind = .parameter ∧ d.var.multi = false ∧ d.scope = some c.scope := by
  induction ps generalizing env with
  | nil => exact ⟨rfl, rfl, fun _ hd => by cases hd⟩
  | cons p ps ih =>
    obtain ⟨hroutines, hvars, hall⟩ := ih (declareParam c env .parameter p).1
    refine ⟨hroutines, congrArg (_ :: ·) hvars, fun d hd => ?_⟩
    rcases List.mem_cons.1 hd with rfl | hd
    · exact ⟨rfl, rfl, rfl⟩
    · exact hall d hd

/-- A routine is marked if its body is, behind its parameters. -/
theorem marked_of_finds {label : Text} {parent : Option Text} {site : Site} {body : LambdaBody}
    {kind : Scope.Kind} {ps : List Param} {found : Found}
    (hkind : kind = .closureBody ↔ parent.isSome = true) (h : Finds label body.heads found) :
    Routine.Marked ⟨label, parent, site, body, (declareParams ⟨label, kind⟩ env ps).2.vars,
      (declareParams ⟨label, kind⟩ env ps).2.declared ++ found.declared⟩ := by
  obtain ⟨-, hvars, hparams⟩ := declareParams_spec ⟨label, kind⟩ env ps
  constructor
  · intro d hd
    simp only [Declaration.isLambdaParameter, Bool.and_eq_true, decide_eq_true_eq, hvars,
      Routine.isClosure]
    rcases List.mem_append.1 hd with hd | hd
    · obtain ⟨hparameter, -, hscope⟩ := hparams d hd
      have hmem := List.mem_map_of_mem (f := Declaration.var) hd
      simp only [hparameter, hscope, hmem, true_and, and_true, Option.some.injEq, hkind]
    · have hparameter := h.kind d hd
      have hmem : d.var ∉ (declareParams ⟨label, kind⟩ env ps).2.declared.map Declaration.var := by
        intro hmem
        obtain ⟨e, he, heq⟩ := List.mem_map.1 hmem
        exact hparameter (heq ▸ (hparams e he).1)
      simp only [hparameter, hmem, false_and, and_false]
  · intro d hd
    refine ⟨fun hm => ?_, SharesHead.multi⟩
    rcases List.mem_append.1 hd with hd | hd
    · rw [(hparams d hd).2.1] at hm
      cases hm
    · exact h.multi d hd hm

theorem finds_closure {pos : Pos} {label : Text} {body : LambdaBody} {ps : List Param}
    {found : Found} (h : Finds label body.heads found) : Finds c.owner []
      (closure c env pos label body (declareParams ⟨label, .closureBody⟩ env ps).2 found) := by
  refine ⟨fun _ hd => (by cases hd), fun _ hd => (by cases hd), fun r hr => ?_⟩
  rcases List.mem_cons.1 hr with rfl | hr
  · exact marked_of_finds (by simp) h
  · have hr : r ∈ (declareParams ⟨label, .closureBody⟩ env ps).2.routines ++ found.routines := hr
    rw [(declareParams_spec _ _ _).1] at hr
    exact h.routines r hr

mutual

theorem finds_walkExpr (c : Context) (env : Env) : (e : Expr) →
    Finds c.owner [] (walkExpr c env e)
  | .literal .. => .nothing
  | .name pos name => by
    unfold walkExpr
    split
    · exact ⟨fun _ hd => (by cases hd), fun _ hd => (by cases hd), fun _ hr => (by cases hr)⟩
    · exact .nothing
  | .field _ operand _ | .unary _ _ operand | .step _ _ _ operand | .instanceOf _ operand _
  | .cast _ _ operand | .methodRef _ operand _ => finds_walkExpr c env operand
  | .index _ first second | .binary _ _ first second | .assign _ _ first second =>
    (finds_walkExpr c env first).both (finds_walkExpr c env second)
  | .call _ callee args => by
    refine .both ?_ (finds_walkExprs c env args)
    split
    · exact .nothing
    · exact finds_walkExpr c env callee
  | .newObject _ _ args | .newAnonymous _ _ args _ | .newArray _ _ args | .newArrayOf _ _ _ args
  | .arrayLit _ args => finds_walkExprs c env args
  | .conditional _ cond onTrue onFalse =>
    (finds_walkExpr c env cond).both
      ((finds_walkExpr c env onTrue).both (finds_walkExpr c env onFalse))
  | .lambda pos params body =>
    finds_closure (finds_walkLambdaBody ⟨c.owner ++ "$lambda@" ++ pos.text, .closureBody⟩ _ body)

theorem finds_walkExprs (c : Context) (env : Env) : (es : List Expr) →
    Finds c.owner [] (walkExprs c env es)
  | [] => .nothing
  | e :: es => (finds_walkExpr c env e).both (finds_walkExprs c env es)

theorem finds_walkLambdaBody (c : Context) (env : Env) : (body : LambdaBody) →
    Finds c.owner body.heads (walkLambdaBody c env body)
  | .expr body => finds_walkExpr c env body
  | .block ⟨_, stmts⟩ => finds_walkStmts c env stmts

theorem finds_walkOption (c : Context) (env : Env) : (e : Option Expr) →
    Finds c.owner [] (walkOption c env e)
  | none => .nothing
  | some e => finds_walkExpr c env e

theorem finds_walkInits (c : Context) (env : Env) : (ds : List Declarator) →
    Finds c.owner [] (walkInits c env ds)
  | [] => .nothing
  | ⟨_, _, _, init⟩ :: ds => (finds_walkOption c env init).both (finds_walkInits c env ds)

theorem finds_walkLocalDecl (c : Context) (env : Env) : (decl : LocalDecl) →
    Finds c.owner [] (walkLocalDecl c env decl)
  | ⟨_, _, _, declarators⟩ => finds_walkInits c env declarators

theorem finds_walkStmts (c : Context) (env : Env) : (stmts : List Stmt) →
    Finds c.owner (headsAll stmts) (walkStmts c env stmts).2
  | [] => .nothing
  | s :: ss => (finds_walkStmt c env false s).append (finds_walkStmts c _ ss)

/-- The walk over a statement finds what the statement declares. -/
theorem finds_walkStmt (c : Context) (env : Env) (bare : Bool) : (s : Stmt) →
    Finds c.owner s.heads (walkStmt c env bare s).2
  | .block ⟨pos, stmts⟩ => by
    cases bare with
    | true => exact finds_walkStmts c env stmts
    | false => exact (finds_walkStmts (c.inScope .generic) env stmts).enclose _ _
  | .localDecl decl => (finds_declareLocalDecl decl []).both (finds_walkLocalDecl c _ decl)
  | .expr _ value => finds_walkExpr c env value
  | .ifElse _ cond onTrue onFalse =>
    (finds_walkExpr c env cond).silent
      ((finds_walkStmt c env false onTrue).append (finds_walkBranch c _ onFalse))
  | .whileLoop _ cond body =>
    .headOf (finds_walkExpr c env cond)
      ((finds_walkStmt (c.inScope .loopBody) env true body).enclose _ _)
  | .doLoop _ body cond => by
    have hbody := (finds_walkStmt (c.inScope .loopBody) env true body).enclose .loopBody
      ⟨body.className, body.pos⟩
    exact hbody.both ((finds_walkExpr c env cond).mono (List.nil_subset _))
  | .forLoop pos init cond update body => by
    have hinit := finds_walkForInit (c.inScope .loopBody) env init
    have hhead := (finds_walkOption (c.inScope .loopBody)
      (walkForInit (c.inScope .loopBody) env init).1 cond).both
      (finds_walkExprs (c.inScope .loopBody) (walkForInit (c.inScope .loopBody) env init).1 update)
    have hbody := finds_walkStmt (c.inScope .loopBody)
      (walkForInit (c.inScope .loopBody) env init).1 true body
    exact (hinit.append (hhead.silent hbody)).enclose _ _
  | .forEach pos param iterable body => by
    have hkind : Variable.Kind.forEachParameter ≠ .parameter := by decide
    have hparam := finds_declareParam (c.inScope .loopBody) env hkind param []
    have hbody := finds_walkStmt (c.inScope .loopBody)
      (declareParam (c.inScope .loopBody) env .forEachParameter param).1 true body
    exact .headOf (finds_walkExpr c env iterable) ((hparam.silent hbody).enclose _ _)
  | .switch pos selector groups =>
    .headOf (finds_walkExpr c env selector)
      ((finds_walkGroups (c.inScope .switchBlock) env groups).enclose _ _)
  | .tryCatch _ body clauses cleanup => by
    obtain ⟨hopened, hwalked⟩ := finds_walkClauses c env clauses
    exact hopened.silent ((finds_walkBlock c env body).append
      (hwalked.append (finds_walkCleanup c env cleanup)))
  | .returnValue _ value => finds_walkOption c env value
  | .throwValue _ value => finds_walkExpr c env value
  | .labeled _ _ body => finds_walkStmt c env false body
  | .breakTo .. | .continueTo .. | .empty .. | .localClass .. => .nothing

theorem finds_walkBranch (c : Context) (env : Env) : (s : Option Stmt) →
    Finds c.owner (headsOption s) (walkBranch c env s).2
  | none => .nothing
  | some s => finds_walkStmt c env false s

theorem finds_walkForInit (c : Context) (env : Env) : (init : ForInit) →
    Finds c.owner init.heads (walkForInit c env init).2
  | .decl d => (finds_declareHead d).both ((finds_walkLocalDecl c _ d).mono (List.nil_subset _))
  | .exprs values => finds_walkExprs c env values

theorem finds_walkGroups (c : Context) (env : Env) : (groups : List SwitchGroup) →
    Finds c.owner (headsGroups groups) (walkGroups c env groups).2
  | [] => .nothing
  | ⟨_, labels, _, body⟩ :: gs =>
    (finds_walkExprs c env labels).silent
      ((finds_walkStmts c env body).append (finds_walkGroups c _ gs))

theorem finds_walkBlock (c : Context) (env : Env) : (b : Block) →
    Finds c.owner b.heads (walkBlock c env b)
  | ⟨_, stmts⟩ => (finds_walkStmts (c.inScope .generic) env stmts).enclose _ _

theorem finds_walkCleanup (c : Context) (env : Env) : (b : Option Block) →
    Finds c.owner (headsCleanup b) (walkCleanup c env b)
  | none => .nothing
  | some b => finds_walkBlock c env b

theorem finds_walkClauses (c : Context) (env : Env) : (clauses : List CatchClause) →
    Finds c.owner [] (walkClauses c env clauses).1 ∧
      Finds c.owner (headsClauses clauses) (walkClauses c env clauses).2
  | [] => ⟨.nothing, .nothing⟩
  | ⟨_, param, _, ⟨_, stmts⟩⟩ :: cs => by
    obtain ⟨hopened, hwalked⟩ := finds_walkClauses c env cs
    have hkind : Variable.Kind.catchParameter ≠ .parameter := by decide
    have hparam := finds_declareParam (c.inScope .catchBlock) env hkind param []
    have hbody := finds_walkStmts (c.inScope .catchBlock)
      (declareParam (c.inScope .catchBlock) env .catchParameter param).1 stmts
    refine ⟨hopened.both (hparam.of_eq rfl rfl), Finds.append ?_ hwalked⟩
    exact hbody.of_eq rfl rfl

end

/-- All routines of a body are marked by their syntax. -/
theorem marked_ofBody {label : Text} {kind : Scope.Kind} {site : Site} {params : List Param}
    {body : Block} (hkind : kind ≠ .closureBody) :
    ∀ r ∈ (ofBody label kind site params body).routines, r.Marked := by
  obtain ⟨pos, stmts⟩ := body
  have hbody := finds_walkStmts ⟨label, kind⟩ (declareParams ⟨label, kind⟩ [] params).1 stmts
  intro r hr
  rcases List.mem_cons.1 hr with rfl | hr
  · have hroot : kind = .closureBody ↔ (none : Option Text).isSome = true := by simp [hkind]
    exact marked_of_finds hroot hbody
  · have hr : r ∈ (declareParams ⟨label, kind⟩ [] params).2.routines ++ _ := hr
    rw [(declareParams_spec _ _ _).1] at hr
    exact hbody.routines r hr

theorem marked_ofFragment {label : Text} {f : Fragment} {c : Collection}
    (h : ofFragment label f = .ok c) : ∀ r ∈ c.routines, r.Marked := by
  cases f with
  | block b =>
    cases h
    exact marked_ofBody (by decide)
  | program p => cases h
  | member m =>
    cases m with
    | method _ _ _ _ _ body =>
      cases body with
      | none => cases h
      | some body =>
        cases h
        exact marked_ofBody (by decide)
    | «initializer» =>
      cases h
      exact marked_ofBody (by decide)
    | field => cases h
    | classDecl => cases h

end Collection

end WriteOnce
