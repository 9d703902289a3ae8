import WriteOnce.Proofs.TreeReading
import WriteOnce.Scope.Collection
import WriteOnce.Syntax.Owned

/-!
# Where variables are declared

The tree of a piece of syntax shows all places at which variables are declared. Each of them
belongs to one member: the sites of different members, or of one member and of the classes
inside it, are different places of the tree.
-/

namespace WriteOnce

namespace Tree

/-- The place in the first of some fields, with the name in a later one. -/
def ownName : List (Text × Tree) → List (Pos × Text)
  | (_, place pos) :: fields =>
    match fields.lookup ("name" : Text) with
    | some (text name) => [(pos, name)]
    | _ => []
  | _ => []

mutual

/-- All parameters and declarators, by place and name. -/
def declared : Tree → List (Pos × Text)
  | node label fields =>
    (if label = "JParam" ∨ label = "JDeclarator" then ownName fields else [])
      ++ declaredFields fields
  | list items => declaredItems items
  | _ => []

def declaredFields : List (Text × Tree) → List (Pos × Text)
  | [] => []
  | (_, t) :: fields => declared t ++ declaredFields fields

def declaredItems : List Tree → List (Pos × Text)
  | [] => []
  | t :: items => declared t ++ declaredItems items

end

end Tree

def Param.named (p : Param) : Pos × Text := (p.pos, p.name)

def Declarator.named (d : Declarator) : Pos × Text := (d.pos, d.name)

/-- A site with the name that is declared there. -/
def nameAt (e : Pos × Variable) : Pos × Text := (e.1, e.2.name)

/-- The names that a walk declares, with their places. -/
def Found.names (f : Found) : List (Pos × Text) := f.sites.map nameAt

/-- The names that a member declares, the classes inside it apart, with their places. -/
def OwnedMember.names (m : OwnedMember) : List (Pos × Text) :=
  match Collection.ofMember m.owner m.member with
  | .ok c => c.sites.map nameAt
  | .error _ => []

namespace Collection

variable {p : Pos × Text}

@[simp] theorem names_nothing : Found.nothing.names = [] := rfl

@[simp] theorem names_append (f g : Found) : (f ++ g).names = f.names ++ g.names :=
  List.map_append

@[simp] theorem names_enclose (kind : Scope.Kind) (site : Site) (f : Found) :
    (f.enclose kind site).names = f.names := rfl

@[simp] theorem names_headOf (body head : Found) :
    (body.headOf head).names = head.names ++ body.names := names_append head body

@[simp] theorem names_closure (c : Context) (env : Env) (pos : Pos) (label : Text)
    (body : LambdaBody) (params inner : Found) :
    (closure c env pos label body params inner).names = params.names ++ inner.names :=
  names_append params inner

@[simp] theorem names_declareParam (c : Context) (env : Env) (kind : Variable.Kind) (q : Param) :
    (declareParam c env kind q).2.names = [q.named] := rfl

@[simp] theorem names_declareParams (c : Context) (env : Env) (ps : List Param) :
    (declareParams c env ps).2.names = ps.map Param.named := by
  induction ps generalizing env with
  | nil => rfl
  | cons q ps ih => exact congrArg (q.named :: ·) (ih _)

@[simp] theorem names_declareLocals (c : Context) (env : Env) (isFinal multi : Bool)
    (ds : List Declarator) :
    (declareLocals c env isFinal multi ds).2.names = ds.map Declarator.named := by
  induction ds generalizing env with
  | nil => rfl
  | cons d ds ih => exact congrArg (d.named :: ·) (ih _)

theorem declared_param (q : Param) : ∃ rest, q.tree.declared = q.named :: rest := by
  rw [Param.tree, Tree.declared, if_pos (.inl rfl)]
  exact ⟨_, rfl⟩

theorem count_params (ps : List Param) :
    (ps.map Param.named).count p ≤ (Tree.declaredItems (ps.map Param.tree)).count p := by
  induction ps with
  | nil => exact Nat.le_refl _
  | cons q ps ih =>
    obtain ⟨rest, hparam⟩ := declared_param q
    rw [List.map_cons, List.map_cons, Tree.declaredItems, hparam]
    simp only [List.count_append, List.count_cons]
    omega

/-- How often some members declare a name at a place. -/
def ownedCount (p : Pos × Text) (ms : List OwnedMember) : Nat :=
  (ms.flatMap OwnedMember.names).count p

@[simp] theorem ownedCount_nil : ownedCount p [] = 0 := rfl

@[simp] theorem ownedCount_cons (m : OwnedMember) (ms : List OwnedMember) :
    ownedCount p (m :: ms) = m.names.count p + ownedCount p ms := by
  simp [ownedCount]

@[simp] theorem ownedCount_append (ms ns : List OwnedMember) :
    ownedCount p (ms ++ ns) = ownedCount p ms + ownedCount p ns := by
  simp [ownedCount]

theorem names_ofBody (label : Text) (kind : Scope.Kind) (site : Site) (params : List Param)
    (body : Block) : ∃ c env, (ofBody label kind site params body).sites.map nameAt =
      params.map Param.named ++ (walkStmts c env body.stmts).2.names := by
  refine ⟨⟨label, kind⟩, (declareParams ⟨label, kind⟩ [] params).1, ?_⟩
  rw [← names_declareParams ⟨label, kind⟩ [] params, ← names_append]
  rfl

mutual

theorem count_walkExpr (p : Pos × Text) (c : Context) (env : Env) (owner : Text) : (e : Expr) →
    (walkExpr c env e).names.count p + ownedCount p (e.owned owner) ≤ e.tree.declared.count p
  | .literal .. => Nat.zero_le _
  | .name pos name => by
    have hnames : (walkExpr c env (.name pos name)).names = [] := by
      unfold walkExpr
      split <;> rfl
    rw [hnames]
    exact Nat.zero_le _
  | .field _ operand _ | .unary _ _ operand | .step _ _ _ operand | .instanceOf _ operand _
  | .cast _ _ operand | .methodRef _ operand _ => by
    have h := count_walkExpr p c env owner operand
    simp [walkExpr, Expr.owned, Expr.tree, Tree.declared, Tree.declaredFields]
    omega
  | .index _ first second | .binary _ _ first second | .assign _ _ first second => by
    have h := count_walkExpr p c env owner first
    have h' := count_walkExpr p c env owner second
    simp [walkExpr, Expr.owned, Expr.tree, Tree.declared, Tree.declaredFields]
    omega
  | .call _ callee args => by
    have h := count_walkExpr p c env owner callee
    have h' := count_walkExprs p c env owner args
    simp [walkExpr, Expr.owned, Expr.tree, Tree.declared, Tree.declaredFields]
    split
    · simp
      omega
    · omega
  | .newObject _ _ args | .newArray _ _ args | .newArrayOf _ _ _ args | .arrayLit _ args => by
    have h := count_walkExprs p c env owner args
    simp [walkExpr, Expr.owned, Expr.tree, Tree.declared, Tree.declaredFields, Tree.declaredItems]
    omega
  | .newAnonymous pos type args members => by
    have h := count_walkExprs p c env owner args
    have h' := count_members p (Member.anonymousLabel owner pos) 0 members
    simp [walkExpr, Expr.owned, Expr.tree, Tree.declared, Tree.declaredFields, Tree.declaredItems]
    omega
  | .conditional _ cond onTrue onFalse => by
    have h := count_walkExpr p c env owner cond
    have h' := count_walkExpr p c env owner onTrue
    have h'' := count_walkExpr p c env owner onFalse
    simp [walkExpr, Expr.owned, Expr.tree, Tree.declared, Tree.declaredFields]
    omega
  | .lambda pos params body => by
    have h := count_walkLambdaBody p ⟨c.owner ++ "$lambda@" ++ pos.text, .closureBody⟩
      (declareParams ⟨c.owner ++ "$lambda@" ++ pos.text, .closureBody⟩ env params).1 owner body
    have h' := @count_params p params
    simp [walkExpr, Expr.owned, Expr.tree, Tree.declared, Tree.declaredFields]
    omega
termination_by structural e => e

theorem count_walkExprs (p : Pos × Text) (c : Context) (env : Env) (owner : Text) :
    (es : List Expr) →
    (walkExprs c env es).names.count p + ownedCount p (Expr.ownedAll owner es) ≤
      (Tree.declaredItems (Expr.trees es)).count p
  | [] => Nat.zero_le _
  | e :: es => by
    have h := count_walkExpr p c env owner e
    have h' := count_walkExprs p c env owner es
    simp [walkExprs, Expr.ownedAll, Expr.trees, Tree.declaredItems]
    omega
termination_by structural es => es

theorem count_walkLambdaBody (p : Pos × Text) (c : Context) (env : Env) (owner : Text) :
    (body : LambdaBody) →
    (walkLambdaBody c env body).names.count p + ownedCount p (body.owned owner) ≤
      body.tree.declared.count p
  | .expr body => count_walkExpr p c env owner body
  | .block ⟨_, stmts⟩ => by
    have h := count_walkStmts p c env owner stmts
    simp [walkLambdaBody, LambdaBody.owned, Block.owned, LambdaBody.tree, Block.tree, Tree.declared,
      Tree.declaredFields]
    omega
termination_by structural body => body

theorem count_walkOption (p : Pos × Text) (c : Context) (env : Env) (owner : Text) :
    (e : Option Expr) →
    (walkOption c env e).names.count p + ownedCount p (Expr.ownedOption owner e) ≤
      (Expr.treeOption e).declared.count p
  | none => Nat.zero_le _
  | some e => count_walkExpr p c env owner e
termination_by structural e => e

/-- Declarators are declared at their own places, and more inside them. -/
theorem count_walkInits (p : Pos × Text) (c : Context) (env : Env) (owner : Text) :
    (ds : List Declarator) →
    (ds.map Declarator.named).count p + (walkInits c env ds).names.count p +
        ownedCount p (Declarator.ownedAll owner ds) ≤
      (Tree.declaredItems (Declarator.trees ds)).count p
  | [] => Nat.zero_le _
  | ⟨_, _, _, init⟩ :: ds => by
    have h := count_walkOption p c env owner init
    have h' := count_walkInits p c env owner ds
    simp [walkInits, Declarator.ownedAll, Declarator.trees, Declarator.tree, Tree.declared,
      Tree.declaredFields, Tree.declaredItems, Tree.ownName, Declarator.named, List.count_cons]
    omega
termination_by structural ds => ds

theorem count_localDecl (p : Pos × Text) (c : Context) (env env' : Env) (owner : Text)
    (multi : Bool) : (decl : LocalDecl) →
    (declareLocalDecl c env multi decl).2.names.count p +
        (walkLocalDecl c env' decl).names.count p +
        ownedCount p (Declarator.ownedAll owner decl.declarators) ≤
      decl.tree.declared.count p
  | ⟨_, _, type, declarators⟩ => by
    have h := count_walkInits p c env' owner declarators
    simp [declareLocalDecl, walkLocalDecl, LocalDecl.tree, Tree.declared, Tree.declaredFields]
    omega
termination_by structural decl => decl

theorem count_walkStmts (p : Pos × Text) (c : Context) (env : Env) (owner : Text) :
    (stmts : List Stmt) →
    (walkStmts c env stmts).2.names.count p + ownedCount p (Stmt.ownedAll owner stmts) ≤
      (Tree.declaredItems (Stmt.trees stmts)).count p
  | [] => Nat.zero_le _
  | s :: ss => by
    have h := count_walkStmt p c env owner false s
    have h' := count_walkStmts p c (walkStmt c env false s).1 owner ss
    simp [walkStmts, Stmt.ownedAll, Stmt.trees, Tree.declaredItems]
    omega
termination_by structural stmts => stmts

theorem count_walkStmt (p : Pos × Text) (c : Context) (env : Env) (owner : Text) (bare : Bool) :
    (s : Stmt) →
    (walkStmt c env bare s).2.names.count p + ownedCount p (s.owned owner) ≤
      s.tree.declared.count p
  | .block ⟨_, stmts⟩ => by
    have h := count_walkStmts p c env owner stmts
    have h' := count_walkStmts p (c.inScope .generic) env owner stmts
    cases bare <;>
      simp [walkStmt, Stmt.owned, Block.owned, Stmt.tree, Block.tree, Tree.declared,
        Tree.declaredFields] <;> omega
  | .localDecl ⟨pos, modifiers, type, declarators⟩ => by
    have h := fun env' =>
      count_localDecl p c env env' owner false ⟨pos, modifiers, type, declarators⟩
    simp [walkStmt, Stmt.owned, Stmt.tree]
    exact h _
  | .expr _ value | .throwValue _ value => by
    have h := count_walkExpr p c env owner value
    simp [walkStmt, Stmt.owned, Stmt.tree, Tree.declared, Tree.declaredFields]
    omega
  | .ifElse _ cond onTrue onFalse => by
    have h := count_walkExpr p c env owner cond
    have h' := count_walkStmt p c env owner false onTrue
    have h'' := count_walkBranch p c (walkStmt c env false onTrue).1 owner onFalse
    simp [walkStmt, Stmt.owned, Stmt.tree, Tree.declared, Tree.declaredFields]
    omega
  | .whileLoop _ cond body | .doLoop _ body cond => by
    have h := count_walkExpr p c env owner cond
    have h' := count_walkStmt p (c.inScope .loopBody) env owner true body
    simp [walkStmt, Stmt.owned, Stmt.tree, Tree.declared, Tree.declaredFields]
    omega
  | .forLoop _ init cond update body => by
    have h := count_walkForInit p (c.inScope .loopBody) env owner init
    have h' := count_walkOption p (c.inScope .loopBody)
      (walkForInit (c.inScope .loopBody) env init).1 owner cond
    have h'' := count_walkExprs p (c.inScope .loopBody)
      (walkForInit (c.inScope .loopBody) env init).1 owner update
    have hbody := count_walkStmt p (c.inScope .loopBody)
      (walkForInit (c.inScope .loopBody) env init).1 owner true body
    simp [walkStmt, Stmt.owned, Stmt.tree, Tree.declared, Tree.declaredFields]
    omega
  | .forEach _ param iterable body => by
    have h := count_walkExpr p c env owner iterable
    have h' := count_walkStmt p (c.inScope .loopBody)
      (declareParam (c.inScope .loopBody) env .forEachParameter param).1 owner true body
    obtain ⟨rest, hparam⟩ := declared_param param
    simp [walkStmt, Stmt.owned, Stmt.tree, Tree.declared, Tree.declaredFields, hparam,
      List.count_cons]
    omega
  | .switch _ selector groups => by
    have h := count_walkExpr p c env owner selector
    have h' := count_walkGroups p (c.inScope .switchBlock) env owner groups
    simp [walkStmt, Stmt.owned, Stmt.tree, Tree.declared, Tree.declaredFields]
    omega
  | .tryCatch _ body clauses cleanup => by
    have h := count_walkBlock p c env owner body
    have h' := count_walkClauses p c env owner clauses
    have h'' := count_walkCleanup p c env owner cleanup
    simp [walkStmt, Stmt.owned, Stmt.tree, Tree.declared, Tree.declaredFields]
    omega
  | .returnValue _ value => by
    have h := count_walkOption p c env owner value
    simp [walkStmt, Stmt.owned, Stmt.tree, Tree.declared, Tree.declaredFields]
    omega
  | .labeled _ _ body => by
    have h := count_walkStmt p c env owner false body
    simp [walkStmt, Stmt.owned, Stmt.tree, Tree.declared, Tree.declaredFields]
    omega
  | .localClass _ ⟨_, _, name, members⟩ => by
    have h := count_members p (owner ++ "$" ++ name) 0 members
    simp [walkStmt, Stmt.owned, Stmt.tree, ClassDecl.tree, Tree.declared, Tree.declaredFields]
    omega
  | .breakTo .. | .continueTo .. | .empty .. => Nat.zero_le _
termination_by structural s => s

theorem count_walkBranch (p : Pos × Text) (c : Context) (env : Env) (owner : Text) :
    (s : Option Stmt) →
    (walkBranch c env s).2.names.count p + ownedCount p (Stmt.ownedOption owner s) ≤
      (Stmt.treeOption s).declared.count p
  | none => Nat.zero_le _
  | some s => count_walkStmt p c env owner false s
termination_by structural s => s

theorem count_walkForInit (p : Pos × Text) (c : Context) (env : Env) (owner : Text) :
    (init : ForInit) →
    (walkForInit c env init).2.names.count p + ownedCount p (init.owned owner) ≤
      init.tree.declared.count p
  | .decl ⟨pos, modifiers, type, declarators⟩ => by
    have h := fun env' multi =>
      count_localDecl p c env env' owner multi ⟨pos, modifiers, type, declarators⟩
    simp [walkForInit, ForInit.owned, ForInit.tree, Tree.declared, Tree.declaredItems]
    exact h _ _
  | .exprs values => by
    have h := count_statements p c env owner values
    simp [walkForInit, ForInit.owned, ForInit.tree, Tree.declared]
    omega
termination_by structural init => init

theorem count_statements (p : Pos × Text) (c : Context) (env : Env) (owner : Text) :
    (es : List Expr) →
    (walkExprs c env es).names.count p + ownedCount p (Expr.ownedAll owner es) ≤
      (Tree.declaredItems (Expr.statementTrees es)).count p
  | [] => Nat.zero_le _
  | e :: es => by
    have h := count_walkExpr p c env owner e
    have h' := count_statements p c env owner es
    simp [walkExprs, Expr.ownedAll, Expr.statementTrees, Tree.declared, Tree.declaredItems,
      Tree.declaredFields]
    omega
termination_by structural es => es

theorem count_walkGroups (p : Pos × Text) (c : Context) (env : Env) (owner : Text) :
    (groups : List SwitchGroup) →
    (walkGroups c env groups).2.names.count p + ownedCount p (SwitchGroup.ownedAll owner groups) ≤
      (Tree.declaredItems (SwitchGroup.trees groups)).count p
  | [] => Nat.zero_le _
  | ⟨_, labels, _, body⟩ :: gs => by
    have h := count_walkExprs p c env owner labels
    have h' := count_walkStmts p c env owner body
    have h'' := count_walkGroups p c (walkStmts c env body).1 owner gs
    simp [walkGroups, SwitchGroup.ownedAll, SwitchGroup.trees, SwitchGroup.tree, Tree.declared,
      Tree.declaredItems, Tree.declaredFields]
    omega
termination_by structural groups => groups

theorem count_walkBlock (p : Pos × Text) (c : Context) (env : Env) (owner : Text) : (b : Block) →
    (walkBlock c env b).names.count p + ownedCount p (b.owned owner) ≤ b.tree.declared.count p
  | ⟨_, stmts⟩ => by
    have h := count_walkStmts p (c.inScope .generic) env owner stmts
    simp [walkBlock, Block.owned, Block.tree, Tree.declared, Tree.declaredFields]
    omega
termination_by structural b => b

theorem count_walkCleanup (p : Pos × Text) (c : Context) (env : Env) (owner : Text) :
    (b : Option Block) →
    (walkCleanup c env b).names.count p + ownedCount p (Block.ownedOption owner b) ≤
      (Block.treeOption b).declared.count p
  | none => Nat.zero_le _
  | some b => count_walkBlock p c env owner b
termination_by structural b => b

theorem count_walkClauses (p : Pos × Text) (c : Context) (env : Env) (owner : Text) :
    (clauses : List CatchClause) →
    (walkClauses c env clauses).1.names.count p + (walkClauses c env clauses).2.names.count p +
        ownedCount p (CatchClause.ownedAll owner clauses) ≤
      (Tree.declaredItems (CatchClause.trees clauses)).count p
  | [] => Nat.zero_le _
  | ⟨pos, param, types, ⟨inner, stmts⟩⟩ :: cs => by
    have h := count_walkStmts p (c.inScope .catchBlock)
      (declareParam (c.inScope .catchBlock) env .catchParameter param).1 owner stmts
    have h' := count_walkClauses p c env owner cs
    have hopened : (walkClauses c env (⟨pos, param, types, ⟨inner, stmts⟩⟩ :: cs)).1.names =
        (walkClauses c env cs).1.names ++ [param.named] := names_append _ _
    have hwalked : (walkClauses c env (⟨pos, param, types, ⟨inner, stmts⟩⟩ :: cs)).2.names =
        (walkStmts (c.inScope .catchBlock)
          (declareParam (c.inScope .catchBlock) env .catchParameter param).1 stmts).2.names ++
        (walkClauses c env cs).2.names := names_append _ _
    obtain ⟨rest, hparam⟩ := declared_param param
    rw [hopened, hwalked]
    simp [CatchClause.ownedAll, Block.owned, CatchClause.trees, CatchClause.tree, Block.tree,
      Tree.declared, Tree.declaredItems, Tree.declaredFields, hparam, List.count_cons]
    omega
termination_by structural clauses => clauses

theorem count_members (p : Pos × Text) (label : Text) (number : Nat) : (ms : List Member) →
    ownedCount p (Member.owned label number ms) +
        ownedCount p (Member.ownedInside label number ms) ≤
      (Tree.declaredItems (Member.trees ms)).count p
  | [] => Nat.zero_le _
  | .field _ _ type declarators :: ms => by
    have h := count_walkInits p ⟨.empty, .generic⟩ [] label declarators
    have h' := count_members p label number ms
    simp [Member.owned, Member.ownedInside, Member.trees, Member.tree, Tree.declared,
      Tree.declaredItems, Tree.declaredFields]
    omega
  | .method pos _ result name params none :: ms => by
    have h := count_members p label number ms
    simp [Member.owned, Member.ownedInside, Block.ownedOption, Member.trees, Member.tree,
      Tree.declared, Tree.declaredItems, Tree.declaredFields]
    omega
  | .method pos modifiers result name params (some ⟨inner, stmts⟩) :: ms => by
    obtain ⟨c, env, hnames⟩ := names_ofBody (Member.methodLabel label name pos) .methodBody
      ⟨"JMethodDecl", pos⟩ params ⟨inner, stmts⟩
    have hnames : OwnedMember.names ⟨Member.methodLabel label name pos,
        .method pos modifiers result name params (some ⟨inner, stmts⟩)⟩ = _ := hnames
    have h := count_walkStmts p c env (Member.methodLabel label name pos) stmts
    have h' := count_members p label number ms
    have h'' := @count_params p params
    simp [Member.owned, Member.ownedInside, Block.ownedOption, Block.owned, Member.trees,
      Member.tree, Block.treeOption, Block.tree, Tree.declared, Tree.declaredItems,
      Tree.declaredFields, hnames]
    omega
  | .initializer pos isStatic ⟨inner, stmts⟩ :: ms => by
    obtain ⟨c, env, hnames⟩ := names_ofBody (Member.initializerLabel label isStatic number)
      .initializer ⟨"JInitializer", pos⟩ [] ⟨inner, stmts⟩
    have hnames : OwnedMember.names ⟨Member.initializerLabel label isStatic number,
        .initializer pos isStatic ⟨inner, stmts⟩⟩ = _ := hnames
    have h := count_walkStmts p c env (Member.initializerLabel label isStatic number) stmts
    have h' := count_members p label (number + 1) ms
    simp [Member.owned, Member.ownedInside, Block.owned, Member.trees, Member.tree, Block.tree,
      Tree.declared, Tree.declaredItems, Tree.declaredFields, hnames]
    omega
  | .classDecl ⟨_, _, name, members⟩ :: ms => by
    have h := count_members p (label ++ "." ++ name) 0 members
    have h' := count_members p label number ms
    simp [Member.owned, Member.ownedInside, Member.trees, Member.tree, ClassDecl.tree,
      Tree.declared, Tree.declaredItems, Tree.declaredFields]
    omega
termination_by structural ms => ms

end

end Collection

/-- All members of a program together declare variables at different places of its tree. -/
theorem Program.count_ownedMembers (p : Program) (e : Pos × Text) :
    (p.ownedMembers.flatMap OwnedMember.names).count e ≤ p.tree.declared.count e := by
  obtain ⟨classes⟩ := p
  change Collection.ownedCount e _ ≤ _
  simp only [Program.ownedMembers, Program.tree]
  induction classes with
  | nil => exact Nat.zero_le _
  | cons c classes ih =>
    obtain ⟨_, _, name, members⟩ := c
    have h := Collection.count_members e name 0 members
    simp [ClassDecl.tree, Tree.declared, Tree.declaredItems, Tree.declaredFields] at ih ⊢
    omega

end WriteOnce
