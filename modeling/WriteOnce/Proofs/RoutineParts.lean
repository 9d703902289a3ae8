import WriteOnce.Proofs.Declared

/-!
# What belongs to a routine

A body declares variables at places of its own, and has lambdas in it, which are bodies of
their own. The walk over a body gives every place a variable of the routine that declares it, and
makes every lambda a routine.
-/

namespace WriteOnce

/-! ## Places and lambdas of a body -/

def ForInit.places : ForInit → List Pos
  | .decl ⟨_, _, _, declarators⟩ => declarators.map Declarator.pos
  | .exprs _ => []

mutual

/-- The places at which a statement declares variables, apart from those in lambdas and classes. -/
def Stmt.places : Stmt → List Pos
  | .block body => body.places
  | .localDecl ⟨_, _, _, declarators⟩ => declarators.map Declarator.pos
  | .ifElse _ _ onTrue onFalse => onTrue.places ++ placesOption onFalse
  | .whileLoop _ _ body => body.places
  | .doLoop _ body _ => body.places
  | .forLoop _ init _ _ body => init.places ++ body.places
  | .forEach _ param _ body => param.pos :: body.places
  | .switch _ _ groups => placesGroups groups
  | .tryCatch _ body clauses cleanup =>
    (clauses.map fun clause => clause.param.pos) ++
      (body.places ++ (placesClauses clauses ++ placesCleanup cleanup))
  | .labeled _ _ body => body.places
  | .expr .. | .returnValue .. | .throwValue .. | .breakTo .. | .continueTo .. | .empty ..
  | .localClass .. => []

def Block.places : Block → List Pos
  | ⟨_, stmts⟩ => placesAll stmts

def placesAll : List Stmt → List Pos
  | [] => []
  | s :: ss => s.places ++ placesAll ss

def placesOption : Option Stmt → List Pos
  | none => []
  | some s => s.places

def placesGroups : List SwitchGroup → List Pos
  | [] => []
  | ⟨_, _, _, body⟩ :: gs => placesAll body ++ placesGroups gs

def placesCleanup : Option Block → List Pos
  | none => []
  | some b => b.places

/-- The places in the bodies of handlers; their parameters are declared before all bodies. -/
def placesClauses : List CatchClause → List Pos
  | [] => []
  | ⟨_, _, _, body⟩ :: cs => body.places ++ placesClauses cs

end

def LambdaBody.places : LambdaBody → List Pos
  | .expr _ => []
  | .block body => body.places

/-- The body of a lambda and where the lambda stands. -/
abbrev PlacedBody := Pos × LambdaBody

mutual

/-- The lambdas in an expression, apart from those in classes. -/
def Expr.lambdas : Expr → List PlacedBody
  | .literal .. | .name .. => []
  | .field _ object _ => object.lambdas
  | .index _ object position => object.lambdas ++ position.lambdas
  | .call _ callee args => callee.lambdas ++ Expr.lambdasAll args
  | .newObject _ _ args => Expr.lambdasAll args
  | .newAnonymous _ _ args _ => Expr.lambdasAll args
  | .newArray _ _ sizes => Expr.lambdasAll sizes
  | .newArrayOf _ _ _ elements => Expr.lambdasAll elements
  | .arrayLit _ elements => Expr.lambdasAll elements
  | .unary _ _ operand => operand.lambdas
  | .step _ _ _ target => target.lambdas
  | .binary _ _ left right => left.lambdas ++ right.lambdas
  | .instanceOf _ operand _ => operand.lambdas
  | .cast _ _ operand => operand.lambdas
  | .conditional _ cond onTrue onFalse => cond.lambdas ++ (onTrue.lambdas ++ onFalse.lambdas)
  | .assign _ _ target value => target.lambdas ++ value.lambdas
  | .lambda pos _ body => (pos, body) :: body.lambdas
  | .methodRef _ object _ => object.lambdas

def Expr.lambdasAll : List Expr → List PlacedBody
  | [] => []
  | e :: es => e.lambdas ++ Expr.lambdasAll es

def Expr.lambdasOption : Option Expr → List PlacedBody
  | none => []
  | some e => e.lambdas

def LambdaBody.lambdas : LambdaBody → List PlacedBody
  | .expr body => body.lambdas
  | .block body => body.lambdas

def Declarator.lambdasAll : List Declarator → List PlacedBody
  | [] => []
  | ⟨_, _, _, init⟩ :: ds => Expr.lambdasOption init ++ Declarator.lambdasAll ds

def Stmt.lambdas : Stmt → List PlacedBody
  | .block body => body.lambdas
  | .localDecl ⟨_, _, _, declarators⟩ => Declarator.lambdasAll declarators
  | .expr _ value => value.lambdas
  | .ifElse _ cond onTrue onFalse =>
    cond.lambdas ++ (onTrue.lambdas ++ Stmt.lambdasOption onFalse)
  | .whileLoop _ cond body => cond.lambdas ++ body.lambdas
  | .doLoop _ body cond => body.lambdas ++ cond.lambdas
  | .forLoop _ init cond update body =>
    init.lambdas ++ ((Expr.lambdasOption cond ++ Expr.lambdasAll update) ++ body.lambdas)
  | .forEach _ _ iterable body => iterable.lambdas ++ body.lambdas
  | .switch _ selector groups => selector.lambdas ++ SwitchGroup.lambdasAll groups
  | .tryCatch _ body clauses cleanup =>
    body.lambdas ++ (CatchClause.lambdasAll clauses ++ Block.lambdasOption cleanup)
  | .returnValue _ value => Expr.lambdasOption value
  | .throwValue _ value => value.lambdas
  | .labeled _ _ body => body.lambdas
  | .breakTo .. | .continueTo .. | .empty .. | .localClass .. => []

def Stmt.lambdasAll : List Stmt → List PlacedBody
  | [] => []
  | s :: ss => s.lambdas ++ Stmt.lambdasAll ss

def Stmt.lambdasOption : Option Stmt → List PlacedBody
  | none => []
  | some s => s.lambdas

def ForInit.lambdas : ForInit → List PlacedBody
  | .decl ⟨_, _, _, declarators⟩ => Declarator.lambdasAll declarators
  | .exprs values => Expr.lambdasAll values

def Block.lambdas : Block → List PlacedBody
  | ⟨_, stmts⟩ => Stmt.lambdasAll stmts

def Block.lambdasOption : Option Block → List PlacedBody
  | none => []
  | some b => b.lambdas

def SwitchGroup.lambdasAll : List SwitchGroup → List PlacedBody
  | [] => []
  | ⟨_, labels, _, body⟩ :: gs =>
    Expr.lambdasAll labels ++ (Stmt.lambdasAll body ++ SwitchGroup.lambdasAll gs)

def CatchClause.lambdasAll : List CatchClause → List PlacedBody
  | [] => []
  | ⟨_, _, _, body⟩ :: cs => body.lambdas ++ CatchClause.lambdasAll cs

end

/-- A name has no lambdas in it. -/
theorem Expr.lambdas_of_isName {e : Expr} (h : e.isName = true) : e.lambdas = [] := by
  cases e with
  | name => rfl
  | _ => cases h

/-! ## Where the walk puts them -/

/-- The code of a routine, known by where it stands. -/
def Routine.code (r : Routine) : Site × LambdaBody := (r.site, r.body)

def PlacedBody.code (l : PlacedBody) : Site × LambdaBody := (⟨"JLambda", l.1⟩, l.2)

/-- The parameters are variables of the routine, and every place of its body has one. -/
structure Routine.Housed (sites : List (Pos × Variable)) (r : Routine) : Prop where
  params : r.params ⊆ r.vars
  places : ∀ pos ∈ r.body.places, ∃ v ∈ r.vars, (pos, v) ∈ sites

theorem Routine.Housed.mono {sites sites' : List (Pos × Variable)} {r : Routine}
    (h : r.Housed sites) (hsub : sites ⊆ sites') : r.Housed sites' := by
  refine ⟨h.params, fun pos hpos => ?_⟩
  obtain ⟨v, hv, hsite⟩ := h.places pos hpos
  exact ⟨v, hv, hsub hsite⟩

namespace Collection

/-- What is found in code with these places and lambdas. -/
structure Houses (places : List Pos) (lambdas : List PlacedBody) (f : Found) : Prop where
  own : ∀ pos ∈ places, ∃ v ∈ f.declared.map Declaration.var, (pos, v) ∈ f.sites
  lambdas : f.routines.map Routine.code = lambdas.map PlacedBody.code
  routines : ∀ r ∈ f.routines, r.isClosure = true ∧ r.Housed f.sites

namespace Houses

variable {places places' : List Pos} {lambdas lambdas' : List PlacedBody} {f f' : Found}

theorem nothing : Houses [] [] .nothing :=
  ⟨fun _ h => (by cases h), rfl, fun _ h => (by cases h)⟩

/-- Only the declarations, the sites and the routines count. -/
theorem of_eq (h : Houses places lambdas f) (hdeclared : f'.declared = f.declared)
    (hsites : f'.sites = f.sites) (hroutines : f'.routines = f.routines) :
    Houses places lambdas f' := by
  constructor
  · rw [hdeclared, hsites]
    exact h.own
  · rw [hroutines]
    exact h.lambdas
  · rw [hroutines, hsites]
    exact h.routines

theorem subset (h : Houses places lambdas f) (hsub : places' ⊆ places) :
    Houses places' lambdas f :=
  ⟨fun pos hpos => h.own pos (hsub hpos), h.lambdas, h.routines⟩

theorem append (h : Houses places lambdas f) (h' : Houses places' lambdas' f') :
    Houses (places ++ places') (lambdas ++ lambdas') (f ++ f') := by
  have hleft : f.sites ⊆ (f ++ f').sites := List.subset_append_left f.sites f'.sites
  have hright : f'.sites ⊆ (f ++ f').sites := List.subset_append_right f.sites f'.sites
  have hdeclared : (f ++ f').declared.map Declaration.var =
      f.declared.map Declaration.var ++ f'.declared.map Declaration.var := List.map_append
  refine ⟨fun pos hpos => ?_, ?_, fun r hr => ?_⟩
  · rw [hdeclared]
    rcases List.mem_append.1 hpos with hpos | hpos
    · obtain ⟨v, hv, hsite⟩ := h.own pos hpos
      exact ⟨v, List.mem_append_left _ hv, hleft hsite⟩
    · obtain ⟨v, hv, hsite⟩ := h'.own pos hpos
      exact ⟨v, List.mem_append_right _ hv, hright hsite⟩
  · change List.map _ (f.routines ++ f'.routines) = _
    rw [List.map_append, h.lambdas, h'.lambdas, List.map_append]
  · rcases List.mem_append.1 hr with hr | hr
    · exact ⟨(h.routines r hr).1, (h.routines r hr).2.mono hleft⟩
    · exact ⟨(h'.routines r hr).1, (h'.routines r hr).2.mono hright⟩

/-- Code behind an expression, which declares nothing. -/
theorem behind (h : Houses [] lambdas f) (h' : Houses places lambdas' f') :
    Houses places (lambdas ++ lambdas') (f ++ f') :=
  h.append h'

/-- Code in front of an expression. -/
theorem ahead (h : Houses places lambdas f) (h' : Houses [] lambdas' f') :
    Houses places (lambdas ++ lambdas') (f ++ f') := by
  have happend := h.append h'
  rwa [List.append_nil] at happend

theorem enclose (h : Houses places lambdas f) (kind : Scope.Kind) (site : Site) :
    Houses places lambdas (f.enclose kind site) :=
  h.of_eq rfl rfl rfl

theorem headOf (h : Houses [] lambdas f) (h' : Houses places lambdas' f') :
    Houses places (lambdas ++ lambdas') (f'.headOf f) :=
  (h.behind h').of_eq rfl rfl rfl

end Houses

variable {c : Context} {env : Env}

theorem houses_declare (c : Context) (env : Env) (pos : Pos) (v : Variable) :
    Houses [pos] [] (declare c env pos v).2 := by
  refine ⟨fun place hplace => ?_, rfl, fun _ h => (by cases h)⟩
  rw [List.mem_singleton.1 hplace]
  exact ⟨_, List.mem_singleton_self _, List.mem_singleton_self _⟩

theorem houses_declareParam (c : Context) (env : Env) (kind : Variable.Kind) (p : Param) :
    Houses [p.pos] [] (declareParam c env kind p).2 :=
  houses_declare c env p.pos _

theorem houses_declareLocals (c : Context) (env : Env) (isFinal multi : Bool)
    (ds : List Declarator) :
    Houses (ds.map Declarator.pos) [] (declareLocals c env isFinal multi ds).2 := by
  induction ds generalizing env with
  | nil => exact .nothing
  | cons d ds ih =>
    have hfirst := houses_declare c env d.pos (c.variable d.pos d.name .localVariable isFinal multi)
    exact hfirst.append (ih _)

/-- A routine houses the places of its body if the walk over the body does. -/
theorem housed_of_houses {label : Text} {parent : Option Text} {site : Site} {body : LambdaBody}
    {lambdas : List PlacedBody} {ps : List Param} {found : Found}
    (h : Houses body.places lambdas found) :
    Routine.Housed ((declareParams c env ps).2 ++ found).sites
      ⟨label, parent, site, body, (declareParams c env ps).2.vars,
        ((declareParams c env ps).2 ++ found).declared⟩ := by
  have hvars : Routine.vars ⟨label, parent, site, body, (declareParams c env ps).2.vars,
        ((declareParams c env ps).2 ++ found).declared⟩ =
      (declareParams c env ps).2.declared.map Declaration.var ++
        found.declared.map Declaration.var := List.map_append
  constructor
  · rw [hvars]
    dsimp only
    rw [(declareParams_spec c env ps).2.1]
    exact List.subset_append_left _ _
  · intro pos hpos
    obtain ⟨v, hv, hsite⟩ := h.own pos hpos
    rw [hvars]
    exact ⟨v, List.mem_append_right _ hv, List.mem_append_right _ hsite⟩

theorem houses_closure {pos : Pos} {label : Text} {body : LambdaBody} {inner : Context}
    {lambdas : List PlacedBody} {ps : List Param} {found : Found}
    (h : Houses body.places lambdas found) :
    Houses [] ((pos, body) :: lambdas)
      (closure c env pos label body (declareParams inner env ps).2 found) := by
  have hroutines : ((declareParams inner env ps).2 ++ found).routines = found.routines := by
    change (declareParams inner env ps).2.routines ++ found.routines = _
    rw [(declareParams_spec inner env ps).1]
    rfl
  refine ⟨fun _ h => (by cases h), ?_, fun r hr => ?_⟩
  · change PlacedBody.code (pos, body) ::
      List.map _ ((declareParams inner env ps).2 ++ found).routines = _
    rw [hroutines, h.lambdas]
    rfl
  · have hr : r ∈ _ :: ((declareParams inner env ps).2 ++ found).routines := hr
    rw [hroutines] at hr
    rcases List.mem_cons.1 hr with rfl | hr
    · exact ⟨rfl, housed_of_houses h⟩
    · exact ⟨(h.routines r hr).1, (h.routines r hr).2.mono (List.subset_append_right _ _)⟩

mutual

theorem houses_walkExpr (c : Context) (env : Env) : (e : Expr) →
    Houses [] e.lambdas (walkExpr c env e)
  | .literal .. => .nothing
  | .name pos name => by
    unfold walkExpr
    split
    · exact ⟨fun _ h => (by cases h), rfl, fun _ h => (by cases h)⟩
    · exact .nothing
  | .field _ operand _ | .unary _ _ operand | .step _ _ _ operand | .instanceOf _ operand _
  | .cast _ _ operand | .methodRef _ operand _ => houses_walkExpr c env operand
  | .index _ first second | .binary _ _ first second | .assign _ _ first second =>
    (houses_walkExpr c env first).append (houses_walkExpr c env second)
  | .call _ callee args => by
    have hcallee : Houses [] callee.lambdas
        (if callee.isName then .nothing else walkExpr c env callee) := by
      split
      · rename_i hname
        rw [Expr.lambdas_of_isName hname]
        exact .nothing
      · exact houses_walkExpr c env callee
    exact hcallee.append (houses_walkExprs c env args)
  | .newObject _ _ args | .newAnonymous _ _ args _ | .newArray _ _ args | .newArrayOf _ _ _ args
  | .arrayLit _ args => houses_walkExprs c env args
  | .conditional _ cond onTrue onFalse =>
    (houses_walkExpr c env cond).append
      ((houses_walkExpr c env onTrue).append (houses_walkExpr c env onFalse))
  | .lambda _ _ body => houses_closure (houses_walkLambdaBody _ _ body)
termination_by structural e => e

theorem houses_walkExprs (c : Context) (env : Env) : (es : List Expr) →
    Houses [] (Expr.lambdasAll es) (walkExprs c env es)
  | [] => .nothing
  | e :: es => (houses_walkExpr c env e).append (houses_walkExprs c env es)
termination_by structural es => es

theorem houses_walkLambdaBody (c : Context) (env : Env) : (body : LambdaBody) →
    Houses body.places body.lambdas (walkLambdaBody c env body)
  | .expr body => houses_walkExpr c env body
  | .block ⟨_, stmts⟩ => houses_walkStmts c env stmts
termination_by structural body => body

theorem houses_walkOption (c : Context) (env : Env) : (e : Option Expr) →
    Houses [] (Expr.lambdasOption e) (walkOption c env e)
  | none => .nothing
  | some e => houses_walkExpr c env e
termination_by structural e => e

theorem houses_walkInits (c : Context) (env : Env) : (ds : List Declarator) →
    Houses [] (Declarator.lambdasAll ds) (walkInits c env ds)
  | [] => .nothing
  | ⟨_, _, _, init⟩ :: ds => (houses_walkOption c env init).append (houses_walkInits c env ds)
termination_by structural ds => ds

theorem houses_walkStmts (c : Context) (env : Env) : (stmts : List Stmt) →
    Houses (placesAll stmts) (Stmt.lambdasAll stmts) (walkStmts c env stmts).2
  | [] => .nothing
  | s :: ss => (houses_walkStmt c env false s).append (houses_walkStmts c _ ss)
termination_by structural stmts => stmts

/-- The walk over a statement houses its places, and makes its lambdas routines. -/
theorem houses_walkStmt (c : Context) (env : Env) (bare : Bool) : (s : Stmt) →
    Houses s.places s.lambdas (walkStmt c env bare s).2
  | .block ⟨pos, stmts⟩ => by
    cases bare with
    | true => exact houses_walkStmts c env stmts
    | false => exact (houses_walkStmts (c.inScope .generic) env stmts).enclose _ _
  | .localDecl ⟨pos, modifiers, type, declarators⟩ => by
    have hdeclared := houses_declareLocals c env (isFinal modifiers) false declarators
    exact hdeclared.ahead (houses_walkInits c _ declarators)
  | .expr _ value => houses_walkExpr c env value
  | .ifElse _ cond onTrue onFalse =>
    (houses_walkExpr c env cond).behind
      ((houses_walkStmt c env false onTrue).append (houses_walkBranch c _ onFalse))
  | .whileLoop _ cond body =>
    .headOf (houses_walkExpr c env cond)
      ((houses_walkStmt (c.inScope .loopBody) env true body).enclose _ _)
  | .doLoop _ body cond => by
    have hbody := (houses_walkStmt (c.inScope .loopBody) env true body).enclose .loopBody
      ⟨body.className, body.pos⟩
    exact hbody.ahead (houses_walkExpr c env cond)
  | .forLoop pos init cond update body => by
    have hinit := houses_walkForInit (c.inScope .loopBody) env init
    have hhead := fun env => (houses_walkOption (c.inScope .loopBody) env cond).append
      (houses_walkExprs (c.inScope .loopBody) env update)
    have hbody := fun env => houses_walkStmt (c.inScope .loopBody) env true body
    exact (hinit.append ((hhead _).behind (hbody _))).enclose _ _
  | .forEach pos param iterable body => by
    have hparam := houses_declareParam (c.inScope .loopBody) env .forEachParameter param
    have hbody := fun env => houses_walkStmt (c.inScope .loopBody) env true body
    exact .headOf (houses_walkExpr c env iterable) ((hparam.append (hbody _)).enclose _ _)
  | .switch pos selector groups =>
    .headOf (houses_walkExpr c env selector)
      ((houses_walkGroups (c.inScope .switchBlock) env groups).enclose _ _)
  | .tryCatch _ body clauses cleanup => by
    obtain ⟨hopened, hwalked⟩ := houses_walkClauses c env clauses
    exact hopened.append ((houses_walkBlock c env body).append
      (hwalked.append (houses_walkCleanup c env cleanup)))
  | .returnValue _ value => houses_walkOption c env value
  | .throwValue _ value => houses_walkExpr c env value
  | .labeled _ _ body => houses_walkStmt c env false body
  | .breakTo .. | .continueTo .. | .empty .. | .localClass .. => .nothing
termination_by structural s => s

theorem houses_walkBranch (c : Context) (env : Env) : (s : Option Stmt) →
    Houses (placesOption s) (Stmt.lambdasOption s) (walkBranch c env s).2
  | none => .nothing
  | some s => houses_walkStmt c env false s
termination_by structural s => s

theorem houses_walkForInit (c : Context) (env : Env) : (init : ForInit) →
    Houses init.places init.lambdas (walkForInit c env init).2
  | .decl ⟨pos, modifiers, type, declarators⟩ => by
    have hdeclared := houses_declareLocals c env (isFinal modifiers) (1 < declarators.length)
      declarators
    exact hdeclared.ahead (houses_walkInits c _ declarators)
  | .exprs values => houses_walkExprs c env values
termination_by structural init => init

theorem houses_walkGroups (c : Context) (env : Env) : (groups : List SwitchGroup) →
    Houses (placesGroups groups) (SwitchGroup.lambdasAll groups) (walkGroups c env groups).2
  | [] => .nothing
  | ⟨_, labels, _, body⟩ :: gs =>
    (houses_walkExprs c env labels).behind
      ((houses_walkStmts c env body).append (houses_walkGroups c _ gs))
termination_by structural groups => groups

theorem houses_walkBlock (c : Context) (env : Env) : (b : Block) →
    Houses b.places b.lambdas (walkBlock c env b)
  | ⟨_, stmts⟩ => (houses_walkStmts (c.inScope .generic) env stmts).enclose _ _
termination_by structural b => b

theorem houses_walkCleanup (c : Context) (env : Env) : (b : Option Block) →
    Houses (placesCleanup b) (Block.lambdasOption b) (walkCleanup c env b)
  | none => .nothing
  | some b => houses_walkBlock c env b
termination_by structural b => b

theorem houses_walkClauses (c : Context) (env : Env) : (clauses : List CatchClause) →
    Houses (clauses.map fun clause => clause.param.pos) [] (walkClauses c env clauses).1 ∧
      Houses (placesClauses clauses) (CatchClause.lambdasAll clauses) (walkClauses c env clauses).2
  | [] => ⟨.nothing, .nothing⟩
  | ⟨pos, param, types, ⟨inner, stmts⟩⟩ :: cs => by
    obtain ⟨hopened, hwalked⟩ := houses_walkClauses c env cs
    have hparam := houses_declareParam (c.inScope .catchBlock) env .catchParameter param
    have hbody := houses_walkStmts (c.inScope .catchBlock)
      (declareParam (c.inScope .catchBlock) env .catchParameter param).1 stmts
    constructor
    · -- The last handler is opened first.
      have hlast : Houses _ ([] ++ [])
          (walkClauses c env (⟨pos, param, types, ⟨inner, stmts⟩⟩ :: cs)).1 :=
        hopened.append (hparam.of_eq rfl rfl rfl)
      refine hlast.subset fun place hplace => ?_
      rw [List.map_cons, List.mem_cons] at hplace
      rw [List.mem_append, List.mem_singleton]
      exact hplace.symm
    · exact Houses.append (hbody.of_eq rfl rfl rfl) hwalked
termination_by structural clauses => clauses

end

/-- The lambdas in a body become its closures. -/
theorem closures_ofBody (label : Text) (kind : Scope.Kind) (site : Site) (params : List Param)
    (body : Block) :
    (ofBody label kind site params body).closures.map Routine.code =
        body.lambdas.map PlacedBody.code ∧
      ∀ r ∈ (ofBody label kind site params body).closures,
        r.isClosure = true ∧ r.Housed (ofBody label kind site params body).sites := by
  obtain ⟨pos, stmts⟩ := body
  have hbody := houses_walkStmts ⟨label, kind⟩ (declareParams ⟨label, kind⟩ [] params).1 stmts
  have hroutines : (ofBody label kind site params ⟨pos, stmts⟩).closures =
      (walkStmts ⟨label, kind⟩ (declareParams ⟨label, kind⟩ [] params).1 stmts).2.routines := by
    change (declareParams ⟨label, kind⟩ [] params).2.routines ++ _ = _
    rw [(declareParams_spec ⟨label, kind⟩ [] params).1]
    rfl
  rw [hroutines]
  refine ⟨hbody.lambdas, fun r hr => ⟨(hbody.routines r hr).1, ?_⟩⟩
  exact (hbody.routines r hr).2.mono (List.subset_append_right _ _)

/-- All routines of a body are housed; they are the body and the lambdas in it. -/
theorem housed_ofBody (label : Text) (kind : Scope.Kind) (site : Site) (params : List Param)
    (body : Block) :
    (ofBody label kind site params body).routines.map Routine.code =
        (site, .block body) :: body.lambdas.map PlacedBody.code ∧
      ∀ r ∈ (ofBody label kind site params body).routines,
        r.Housed (ofBody label kind site params body).sites := by
  obtain ⟨hcode, hclosures⟩ := closures_ofBody label kind site params body
  have hroot : (ofBody label kind site params body).root.Housed
      (ofBody label kind site params body).sites := by
    obtain ⟨pos, stmts⟩ := body
    exact housed_of_houses
      (houses_walkStmts ⟨label, kind⟩ (declareParams ⟨label, kind⟩ [] params).1 stmts)
  constructor
  · rw [routines, List.map_cons, hcode]
    rfl
  · intro r hr
    rcases List.mem_cons.1 hr with rfl | hr
    · exact hroot
    · exact (hclosures r hr).2

end Collection

end WriteOnce
