import WriteOnce.Proofs.MemberTrees
import WriteOnce.Proofs.ProgramVariables
import WriteOnce.Proofs.RoutineParts

/-!
# A census of the code in a program

The tree of a program shows every body of code: of a method, of an initializer or of a lambda. Each
stands within an innermost member. Those that stand within methods and initializers are the bodies
of the routines of the program, one for one; lambdas within fields have no routine.
-/

namespace WriteOnce

namespace Tree

/-- A body of code: the innermost member around it, where the node stands that has it, and the
body itself. -/
structure Code where
  member : Tree
  site : Site
  body : Tree

def isMember (label : Text) : Bool :=
  label = "JFieldDecl" || label = "JMethodDecl" || label = "JInitializer"

/-- The place and the body in the fields of a node, unless the body is absent. -/
def placedBody? : List (Text × Tree) → Option (Pos × Tree)
  | (_, place pos) :: fields =>
    match fields.lookup ("body" : Text) with
    | some absent | none => none
    | some body => some (pos, body)
  | _ => none

/-- The code of a member or a lambda. -/
def ownCode (member : Tree) (label : Text) (fields : List (Text × Tree)) : List Code :=
  (placedBody? fields).toList.map fun (pos, body) => ⟨member, ⟨label, pos⟩, body⟩

mutual

/-- All code in a tree, given the innermost member around the tree. -/
def code : Tree → Tree → List Code
  | node label fields, around =>
    let member := if isMember label then node label fields else around
    (if isMember label ∨ label = "JLambda" then ownCode member label fields else [])
      ++ codeFields fields member
  | list items, around => codeItems items around
  | _, _ => []

def codeFields : List (Text × Tree) → Tree → List Code
  | [], _ => []
  | (_, t) :: fields, around => code t around ++ codeFields fields around

def codeItems : List Tree → Tree → List Code
  | [], _ => []
  | t :: items, around => code t around ++ codeItems items around

end

end Tree

namespace Tree.Code

/-- Whether code stands within a field. -/
def inField (c : Code) : Bool := c.member.label = "JFieldDecl"

/-- Whether code is the body of a method or an initializer. -/
def isOwn (c : Code) : Bool :=
  c.site.className = "JMethodDecl" || c.site.className = "JInitializer"

def isLambda (c : Code) : Bool := c.site.className = "JLambda"

theorem isMember_of_isOwn {c : Code} (h : c.isOwn = true) : isMember c.site.className = true := by
  rw [isOwn, Bool.or_eq_true] at h
  rw [isMember, Bool.or_assoc, Bool.or_eq_true, Bool.or_eq_true]
  exact .inr h

/-- The body of a lambda as code within a member. -/
def ofLambda (member : Tree) (l : PlacedBody) : Code := ⟨member, ⟨"JLambda", l.1⟩, l.2.tree⟩

def ofRoutine (member : Tree) (r : Routine) : Code := ⟨member, r.site, r.body.tree⟩

end Tree.Code

/-- The code of the routines of a member. -/
def OwnedMember.code (m : OwnedMember) : List Tree.Code :=
  m.routines.map (Tree.Code.ofRoutine m.member.tree)

open WriteOnce.Tree (Code)

theorem Tree.code_member {label : Text} (fields : List (Text × Tree)) {around : Tree}
    (h : isMember label = true) : (node label fields).code around =
      ownCode (node label fields) label fields ++ codeFields fields (node label fields) := by
  rw [code, if_pos (.inl h), if_pos h]

mutual

/-- The code of a member stands within that member. -/
theorem Tree.label_of_mem_code {c : Code} : (t around : Tree) → c ∈ t.code around →
    isMember c.site.className = true → c.member.label = c.site.className
  | .node label fields, around, hc, hmember => by
    rw [code, List.mem_append] at hc
    rcases hc with hown | hinner
    · split at hown
      · obtain ⟨⟨pos, body⟩, -, rfl⟩ := List.mem_map.1 hown
        rw [if_pos hmember]
        rfl
      · cases hown
    · exact label_of_mem_codeFields fields _ hinner hmember
  | .list items, around, hc, hmember => label_of_mem_codeItems items around hc hmember
  | .place _, _, hc, _ => by cases hc
  | .text _, _, hc, _ => by cases hc
  | .number _, _, hc, _ => by cases hc
  | .flag _, _, hc, _ => by cases hc
  | .absent, _, hc, _ => by cases hc

theorem Tree.label_of_mem_codeFields {c : Code} : (fields : List (Text × Tree)) → (around : Tree) →
    c ∈ codeFields fields around → isMember c.site.className = true →
      c.member.label = c.site.className
  | [], _, hc, _ => by cases hc
  | (_, t) :: fields, around, hc, hmember => by
    rw [codeFields, List.mem_append] at hc
    rcases hc with hc | hc
    · exact label_of_mem_code t around hc hmember
    · exact label_of_mem_codeFields fields around hc hmember

theorem Tree.label_of_mem_codeItems {c : Code} : (items : List Tree) → (around : Tree) →
    c ∈ codeItems items around → isMember c.site.className = true →
      c.member.label = c.site.className
  | [], _, hc, _ => by cases hc
  | t :: items, around, hc, hmember => by
    rw [codeItems, List.mem_append] at hc
    rcases hc with hc | hc
    · exact label_of_mem_code t around hc hmember
    · exact label_of_mem_codeItems items around hc hmember

end

section Silent

variable {around : Tree}

mutual

@[simp] theorem TypeRef.code_tree : (t : TypeRef) → t.tree.code around = []
  | ⟨_, _, args, _⟩ => by
    have h := TypeRef.code_trees args
    simp [TypeRef.tree, Tree.code, Tree.codeFields, Tree.isMember, h]

@[simp] theorem TypeRef.code_trees : (ts : List TypeRef) →
    Tree.codeItems (TypeRef.trees ts) around = []
  | [] => rfl
  | t :: ts => by
    rw [TypeRef.trees, Tree.codeItems, t.code_tree, TypeRef.code_trees ts]
    rfl

end

@[simp] theorem Modifier.code_trees (modifiers : List Modifier) :
    (Modifier.trees modifiers).code around = [] := by
  rw [Modifier.trees, Tree.texts, Tree.code]
  induction modifiers with
  | nil => rfl
  | cons m ms ih => exact ih

@[simp] theorem Tree.code_label (label : Option Text) :
    (Tree.option .text label).code around = [] := by
  cases label <;> rfl

@[simp] theorem Tree.code_optionType (t : Option TypeRef) :
    (Tree.option TypeRef.tree t).code around = [] := by
  cases t with
  | none => rfl
  | some t => exact t.code_tree

@[simp] theorem Param.code_tree (p : Param) : p.tree.code around = [] := by
  simp [Param.tree, Tree.code, Tree.codeFields, Tree.isMember]

@[simp] theorem Param.code_trees (ps : List Param) :
    Tree.codeItems (ps.map Param.tree) around = [] := by
  induction ps with
  | nil => rfl
  | cons p ps ih => rw [List.map_cons, Tree.codeItems, p.code_tree, ih]; rfl

@[simp] theorem TypeRef.code_map_tree (ts : List TypeRef) :
    Tree.codeItems (ts.map TypeRef.tree) around = [] := by
  induction ts with
  | nil => rfl
  | cons t ts ih => rw [List.map_cons, Tree.codeItems, t.code_tree, ih]; rfl

end Silent

namespace Census

variable {q : Code → Bool}

/-- How much of some code is in the lambdas. -/
def countLambdas (q : Code → Bool) (around : Tree) (ls : List PlacedBody) : Nat :=
  (ls.map (Code.ofLambda around)).countP q

@[simp] theorem countLambdas_nil (around : Tree) : countLambdas q around [] = 0 := rfl

theorem countLambdas_cons (around : Tree) (l : PlacedBody) (ls : List PlacedBody) :
    countLambdas q around (l :: ls) =
      [Code.ofLambda around l].countP q + countLambdas q around ls := by
  rw [countLambdas, List.map_cons, ← List.singleton_append, List.countP_append]
  rfl

@[simp] theorem countLambdas_append (around : Tree) (ls ls' : List PlacedBody) :
    countLambdas q around (ls ++ ls') = countLambdas q around ls + countLambdas q around ls' := by
  rw [countLambdas, List.map_append, List.countP_append]
  rfl

/-- How much of some code is in the routines of members. -/
def countOwned (q : Code → Bool) (ms : List OwnedMember) : Nat :=
  (ms.flatMap OwnedMember.code).countP q

@[simp] theorem countOwned_nil : countOwned q [] = 0 := rfl

@[simp] theorem countOwned_cons (m : OwnedMember) (ms : List OwnedMember) :
    countOwned q (m :: ms) = m.code.countP q + countOwned q ms := by
  rw [countOwned, List.flatMap_cons, List.countP_append]
  rfl

@[simp] theorem countOwned_append (ms ns : List OwnedMember) :
    countOwned q (ms ++ ns) = countOwned q ms + countOwned q ns := by
  rw [countOwned, List.flatMap_append, List.countP_append]
  rfl

variable {around : Tree}

/-- Code within a field is not counted. -/
def SkipsFields (q : Code → Bool) : Prop := ∀ c, q c = true → c.inField = false

theorem countLambdas_field (hq : SkipsFields q) (around : Tree)
    (h : around.label = "JFieldDecl") (ls : List PlacedBody) : countLambdas q around ls = 0 := by
  rw [countLambdas, List.countP_eq_zero]
  intro c hc hcounted
  obtain ⟨l, -, rfl⟩ := List.mem_map.1 hc
  have hfield := hq _ hcounted
  rw [Code.inField, Code.ofLambda, h] at hfield
  cases hfield

/-- The code of a member is its body and the lambdas in it. -/
theorem code_ofBody {m : OwnedMember} {kind : Scope.Kind} {site : Site} {params : List Param}
    {body : Block}
    (h : Collection.ofMember m.owner m.member =
      .ok (Collection.ofBody m.owner kind site params body)) :
    m.code = ⟨m.member.tree, site, body.tree⟩ ::
      body.lambdas.map (Code.ofLambda m.member.tree) := by
  have hview := congrArg
    (List.map fun part : Site × LambdaBody => Code.mk m.member.tree part.1 part.2.tree)
    (Collection.housed_ofBody m.owner kind site params body).1
  rw [List.map_map, List.map_cons, List.map_map] at hview
  unfold OwnedMember.code OwnedMember.routines
  rw [h]
  exact hview

theorem count_ofBody {m : OwnedMember} {kind : Scope.Kind} {site : Site} {params : List Param}
    {body : Block}
    (h : Collection.ofMember m.owner m.member =
      .ok (Collection.ofBody m.owner kind site params body)) :
    m.code.countP q = [(⟨m.member.tree, site, body.tree⟩ : Code)].countP q +
      countLambdas q m.member.tree body.lambdas := by
  rw [code_ofBody h, ← List.singleton_append, List.countP_append]
  rfl

/-- The body of a member comes first in its code; the others are lambdas. -/
theorem exists_code {m : OwnedMember} (hbody : m.member.body?.isSome = true) :
    ∃ (own : Code) (ls : List PlacedBody), own.isOwn = true ∧ own.member = m.member.tree ∧
      m.code = own :: ls.map (Code.ofLambda m.member.tree) := by
  obtain ⟨owner, member⟩ := m
  cases member with
  | method pos modifiers result name params body =>
    cases body with
    | none => cases hbody
    | some body => exact ⟨_, body.lambdas, rfl, rfl, code_ofBody rfl⟩
  | «initializer» pos isStatic body =>
    exact ⟨_, body.lambdas, rfl, rfl, code_ofBody rfl⟩
  | field => cases hbody
  | classDecl => cases hbody

@[simp] theorem placedBody?_lambda (pos : Pos) (params : Tree) (body : LambdaBody) :
    Tree.placedBody? [("pos", .place pos), ("params", params), ("body", body.tree)] =
      some (pos, body.tree) := by
  cases body with
  | expr body => cases body <;> rfl
  | block body =>
    cases body
    rfl

theorem code_field (pos : Pos) (modifiers : List Modifier) (type : TypeRef)
    (ds : List Declarator) : (Member.field pos modifiers type ds).tree.code around =
      Tree.codeItems (Declarator.trees ds) (Member.field pos modifiers type ds).tree := by
  rw [Member.tree, Tree.code_member _ rfl]
  change [] ++ _ = _
  simp [Tree.codeFields, Tree.code]

theorem code_method (pos : Pos) (modifiers : List Modifier) (result : Option TypeRef) (name : Text)
    (params : List Param) (body : Option Block) :
    (Member.method pos modifiers result name params body).tree.code around =
      (body.toList.map fun b =>
        ⟨(Member.method pos modifiers result name params body).tree, ⟨"JMethodDecl", pos⟩,
          b.tree⟩) ++
      (Block.treeOption body).code (Member.method pos modifiers result name params body).tree := by
  rw [Member.tree, Tree.code_member _ rfl]
  have hown : Tree.ownCode (Member.method pos modifiers result name params body).tree "JMethodDecl"
      [("pos", .place pos), ("modifiers", Modifier.trees modifiers),
        ("ret", Tree.option TypeRef.tree result), ("name", .text name),
        ("params", .list (params.map Param.tree)), ("body", Block.treeOption body)] =
      body.toList.map fun b =>
        ⟨(Member.method pos modifiers result name params body).tree, ⟨"JMethodDecl", pos⟩,
          b.tree⟩ := by
    rcases body with _ | ⟨inner, stmts⟩ <;> rfl
  rw [Member.tree] at hown
  rw [hown]
  simp [Tree.codeFields, Tree.code]

theorem code_initializer (pos : Pos) (isStatic : Bool) (body : Block) :
    (Member.initializer pos isStatic body).tree.code around =
      ⟨(Member.initializer pos isStatic body).tree, ⟨"JInitializer", pos⟩, body.tree⟩ ::
        body.tree.code (Member.initializer pos isStatic body).tree := by
  obtain ⟨inner, stmts⟩ := body
  rw [Member.tree, Tree.code_member _ rfl]
  change _ :: ([] ++ _) = _
  simp [Tree.codeFields, Tree.code, Tree.isMember, Block.tree]

mutual

theorem count_expr (hq : SkipsFields q) (around : Tree) (owner : Text) : (e : Expr) →
    (e.tree.code around).countP q =
      countLambdas q around e.lambdas + countOwned q (e.owned owner)
  | .literal .. => rfl
  | .name .. => rfl
  | .field _ operand _ | .unary _ _ operand | .step _ _ _ operand | .instanceOf _ operand _
  | .cast _ _ operand | .methodRef _ operand _ => by
    have h := count_expr hq around owner operand
    simp [Expr.tree, Expr.lambdas, Expr.owned, Tree.code, Tree.codeFields, Tree.isMember]
    omega
  | .index _ first second | .binary _ _ first second | .assign _ _ first second => by
    have h := count_expr hq around owner first
    have h' := count_expr hq around owner second
    simp [Expr.tree, Expr.lambdas, Expr.owned, Tree.code, Tree.codeFields, Tree.isMember]
    omega
  | .call _ callee args => by
    have h := count_expr hq around owner callee
    have h' := count_exprs hq around owner args
    simp [Expr.tree, Expr.lambdas, Expr.owned, Tree.code, Tree.codeFields, Tree.isMember]
    omega
  | .newObject _ _ args | .newArray _ _ args | .newArrayOf _ _ _ args | .arrayLit _ args => by
    have h := count_exprs hq around owner args
    simp [Expr.tree, Expr.lambdas, Expr.owned, Tree.code, Tree.codeFields, Tree.isMember,
      Tree.codeItems]
    omega
  | .newAnonymous pos type args members => by
    have h := count_exprs hq around owner args
    have h' := count_members hq around (Member.anonymousLabel owner pos) 0 members
    simp [Expr.tree, Expr.lambdas, Expr.owned, Tree.code, Tree.codeFields, Tree.isMember,
      Tree.codeItems]
    omega
  | .conditional _ cond onTrue onFalse => by
    have h := count_expr hq around owner cond
    have h' := count_expr hq around owner onTrue
    have h'' := count_expr hq around owner onFalse
    simp [Expr.tree, Expr.lambdas, Expr.owned, Tree.code, Tree.codeFields, Tree.isMember]
    omega
  | .lambda pos params body => by
    have h := count_lambdaBody hq around owner body
    simp [Expr.tree, Expr.lambdas, Expr.owned, Tree.code, Tree.codeFields, Tree.isMember,
      Tree.ownCode, countLambdas_cons, Code.ofLambda, List.countP_cons]
    omega

theorem count_exprs (hq : SkipsFields q) (around : Tree) (owner : Text) : (es : List Expr) →
    (Tree.codeItems (Expr.trees es) around).countP q =
      countLambdas q around (Expr.lambdasAll es) + countOwned q (Expr.ownedAll owner es)
  | [] => rfl
  | e :: es => by
    have h := count_expr hq around owner e
    have h' := count_exprs hq around owner es
    simp [Expr.trees, Expr.lambdasAll, Expr.ownedAll, Tree.codeItems]
    omega

theorem count_exprOption (hq : SkipsFields q) (around : Tree) (owner : Text) : (e : Option Expr) →
    ((Expr.treeOption e).code around).countP q =
      countLambdas q around (Expr.lambdasOption e) + countOwned q (Expr.ownedOption owner e)
  | none => rfl
  | some e => count_expr hq around owner e

theorem count_lambdaBody (hq : SkipsFields q) (around : Tree) (owner : Text) : (body : LambdaBody) →
    (body.tree.code around).countP q =
      countLambdas q around body.lambdas + countOwned q (body.owned owner)
  | .expr body => count_expr hq around owner body
  | .block body => count_block hq around owner body

theorem count_declarators (hq : SkipsFields q) (around : Tree) (owner : Text) :
    (ds : List Declarator) →
    (Tree.codeItems (Declarator.trees ds) around).countP q =
      countLambdas q around (Declarator.lambdasAll ds) + countOwned q (Declarator.ownedAll owner ds)
  | [] => rfl
  | ⟨_, _, _, init⟩ :: ds => by
    have h := count_exprOption hq around owner init
    have h' := count_declarators hq around owner ds
    simp [Declarator.trees, Declarator.tree, Declarator.lambdasAll, Declarator.ownedAll,
      Tree.codeItems, Tree.code, Tree.codeFields, Tree.isMember]
    omega

theorem count_stmt (hq : SkipsFields q) (around : Tree) (owner : Text) : (s : Stmt) →
    (s.tree.code around).countP q =
      countLambdas q around s.lambdas + countOwned q (s.owned owner)
  | .block body => count_block hq around owner body
  | .localDecl ⟨_, _, type, declarators⟩ => by
    have h := count_declarators hq around owner declarators
    simp [Stmt.tree, LocalDecl.tree, Stmt.lambdas, Stmt.owned, Tree.code, Tree.codeFields,
      Tree.isMember]
    omega
  | .expr _ value | .throwValue _ value => by
    have h := count_expr hq around owner value
    simp [Stmt.tree, Stmt.lambdas, Stmt.owned, Tree.code, Tree.codeFields, Tree.isMember]
    omega
  | .ifElse _ cond onTrue onFalse => by
    have h := count_expr hq around owner cond
    have h' := count_stmt hq around owner onTrue
    have h'' := count_stmtOption hq around owner onFalse
    simp [Stmt.tree, Stmt.lambdas, Stmt.owned, Tree.code, Tree.codeFields, Tree.isMember]
    omega
  | .whileLoop _ cond body | .doLoop _ body cond => by
    have h := count_expr hq around owner cond
    have h' := count_stmt hq around owner body
    simp [Stmt.tree, Stmt.lambdas, Stmt.owned, Tree.code, Tree.codeFields, Tree.isMember]
    omega
  | .forLoop _ init cond update body => by
    have h := count_forInit hq around owner init
    have h' := count_exprOption hq around owner cond
    have h'' := count_exprs hq around owner update
    have hlast := count_stmt hq around owner body
    simp [Stmt.tree, Stmt.lambdas, Stmt.owned, Tree.code, Tree.codeFields, Tree.isMember]
    omega
  | .forEach _ param iterable body => by
    have h := count_expr hq around owner iterable
    have h' := count_stmt hq around owner body
    simp [Stmt.tree, Stmt.lambdas, Stmt.owned, Tree.code, Tree.codeFields, Tree.isMember]
    omega
  | .switch _ selector groups => by
    have h := count_expr hq around owner selector
    have h' := count_groups hq around owner groups
    simp [Stmt.tree, Stmt.lambdas, Stmt.owned, Tree.code, Tree.codeFields, Tree.isMember]
    omega
  | .tryCatch _ body clauses cleanup => by
    have h := count_block hq around owner body
    have h' := count_clauses hq around owner clauses
    have h'' := count_blockOption hq around owner cleanup
    simp [Stmt.tree, Stmt.lambdas, Stmt.owned, Tree.code, Tree.codeFields, Tree.isMember]
    omega
  | .returnValue _ value => by
    have h := count_exprOption hq around owner value
    simp [Stmt.tree, Stmt.lambdas, Stmt.owned, Tree.code, Tree.codeFields, Tree.isMember]
    omega
  | .labeled _ _ body => by
    have h := count_stmt hq around owner body
    simp [Stmt.tree, Stmt.lambdas, Stmt.owned, Tree.code, Tree.codeFields, Tree.isMember]
    omega
  | .localClass _ ⟨_, _, name, members⟩ => by
    have h := count_members hq around (owner ++ "$" ++ name) 0 members
    simp [Stmt.tree, ClassDecl.tree, Stmt.lambdas, Stmt.owned, Tree.code, Tree.codeFields,
      Tree.isMember]
    omega
  | .breakTo .. | .continueTo .. => by
    simp [Stmt.tree, Stmt.lambdas, Stmt.owned, Tree.code, Tree.codeFields, Tree.isMember,
      Tree.code_label]
  | .empty .. => rfl

theorem count_stmts (hq : SkipsFields q) (around : Tree) (owner : Text) : (ss : List Stmt) →
    (Tree.codeItems (Stmt.trees ss) around).countP q =
      countLambdas q around (Stmt.lambdasAll ss) + countOwned q (Stmt.ownedAll owner ss)
  | [] => rfl
  | s :: ss => by
    have h := count_stmt hq around owner s
    have h' := count_stmts hq around owner ss
    simp [Stmt.trees, Stmt.lambdasAll, Stmt.ownedAll, Tree.codeItems]
    omega

theorem count_stmtOption (hq : SkipsFields q) (around : Tree) (owner : Text) : (s : Option Stmt) →
    ((Stmt.treeOption s).code around).countP q =
      countLambdas q around (Stmt.lambdasOption s) + countOwned q (Stmt.ownedOption owner s)
  | none => rfl
  | some s => count_stmt hq around owner s

theorem count_forInit (hq : SkipsFields q) (around : Tree) (owner : Text) : (init : ForInit) →
    (init.tree.code around).countP q =
      countLambdas q around init.lambdas + countOwned q (init.owned owner)
  | .decl ⟨_, _, type, declarators⟩ => by
    have h := count_declarators hq around owner declarators
    simp [ForInit.tree, LocalDecl.tree, ForInit.lambdas, ForInit.owned, Tree.code, Tree.codeFields,
      Tree.codeItems, Tree.isMember]
    omega
  | .exprs values => count_statements hq around owner values

theorem count_statements (hq : SkipsFields q) (around : Tree) (owner : Text) : (es : List Expr) →
    (Tree.codeItems (Expr.statementTrees es) around).countP q =
      countLambdas q around (Expr.lambdasAll es) + countOwned q (Expr.ownedAll owner es)
  | [] => rfl
  | e :: es => by
    have h := count_expr hq around owner e
    have h' := count_statements hq around owner es
    simp [Expr.statementTrees, Expr.lambdasAll, Expr.ownedAll, Tree.code, Tree.codeItems,
      Tree.codeFields, Tree.isMember]
    omega

theorem count_block (hq : SkipsFields q) (around : Tree) (owner : Text) : (b : Block) →
    (b.tree.code around).countP q =
      countLambdas q around b.lambdas + countOwned q (b.owned owner)
  | ⟨_, stmts⟩ => by
    have h := count_stmts hq around owner stmts
    simp [Block.tree, Block.lambdas, Block.owned, Tree.code, Tree.codeFields, Tree.isMember]
    omega

theorem count_blockOption (hq : SkipsFields q) (around : Tree) (owner : Text) : (b : Option Block) →
    ((Block.treeOption b).code around).countP q =
      countLambdas q around (Block.lambdasOption b) + countOwned q (Block.ownedOption owner b)
  | none => rfl
  | some b => count_block hq around owner b

theorem count_groups (hq : SkipsFields q) (around : Tree) (owner : Text) : (gs : List SwitchGroup) →
    (Tree.codeItems (SwitchGroup.trees gs) around).countP q =
      countLambdas q around (SwitchGroup.lambdasAll gs) +
        countOwned q (SwitchGroup.ownedAll owner gs)
  | [] => rfl
  | ⟨_, labels, _, body⟩ :: gs => by
    have h := count_exprs hq around owner labels
    have h' := count_stmts hq around owner body
    have h'' := count_groups hq around owner gs
    simp [SwitchGroup.trees, SwitchGroup.tree, SwitchGroup.lambdasAll, SwitchGroup.ownedAll,
      Tree.code, Tree.codeItems, Tree.codeFields, Tree.isMember]
    omega

theorem count_clauses (hq : SkipsFields q) (around : Tree) (owner : Text) :
    (cs : List CatchClause) →
    (Tree.codeItems (CatchClause.trees cs) around).countP q =
      countLambdas q around (CatchClause.lambdasAll cs) +
        countOwned q (CatchClause.ownedAll owner cs)
  | [] => rfl
  | ⟨_, param, types, body⟩ :: cs => by
    have h := count_block hq around owner body
    have h' := count_clauses hq around owner cs
    simp [CatchClause.trees, CatchClause.tree, CatchClause.lambdasAll, CatchClause.ownedAll,
      Tree.code, Tree.codeItems, Tree.codeFields, Tree.isMember]
    omega

/-- Members have the code of their routines, except for that within fields. -/
theorem count_members (hq : SkipsFields q) (around : Tree) (label : Text) (number : Nat) :
    (ms : List Member) →
    (Tree.codeItems (Member.trees ms) around).countP q =
      countOwned q (Member.owned label number ms) +
        countOwned q (Member.ownedInside label number ms)
  | [] => rfl
  | .field pos modifiers type declarators :: ms => by
    have hown := count_declarators hq (Member.field pos modifiers type declarators).tree label
      declarators
    have hnone := countLambdas_field hq (Member.field pos modifiers type declarators).tree rfl
      (Declarator.lambdasAll declarators)
    have h := count_members hq around label number ms
    simp [Member.trees, Member.owned, Member.ownedInside, Tree.codeItems, code_field]
    omega
  | .method pos modifiers result name params none :: ms => by
    have h := count_members hq around label number ms
    simp [Member.trees, Member.owned, Member.ownedInside, Block.ownedOption, Tree.codeItems,
      code_method, Block.treeOption, Tree.code]
    omega
  | .method pos modifiers result name params (some body) :: ms => by
    have hbody := count_block hq (Member.method pos modifiers result name params (some body)).tree
      (Member.methodLabel label name pos) body
    have h := count_members hq around label number ms
    simp [Member.trees, Member.owned, Member.ownedInside, Block.ownedOption, Tree.codeItems,
      code_method, Block.treeOption, List.countP_cons,
      count_ofBody (m := ⟨_, .method pos modifiers result name params (some body)⟩) rfl]
    omega
  | .initializer pos isStatic body :: ms => by
    have hbody := count_block hq (Member.initializer pos isStatic body).tree
      (Member.initializerLabel label isStatic number) body
    have h := count_members hq around label (number + 1) ms
    simp [Member.trees, Member.owned, Member.ownedInside, Tree.codeItems, code_initializer,
      List.countP_cons, count_ofBody (m := ⟨_, .initializer pos isStatic body⟩) rfl]
    omega
  | .classDecl ⟨_, _, name, members⟩ :: ms => by
    have h := count_members hq around (label ++ "." ++ name) 0 members
    have h' := count_members hq around label number ms
    simp [Member.tree, ClassDecl.tree, Member.trees, Member.owned, Member.ownedInside, Tree.code,
      Tree.codeFields, Tree.codeItems, Tree.isMember]
    omega

end

/-- Code in the routines of a member that has a body does not stand within a field. -/
theorem inField_of_mem_code {m : OwnedMember} (hbody : m.member.body?.isSome = true) {c : Code}
    (hc : c ∈ m.code) : c.inField = false := by
  obtain ⟨r, -, rfl⟩ := List.mem_map.1 hc
  obtain ⟨owner, member⟩ := m
  cases member with
  | method => rfl
  | «initializer» => rfl
  | field => cases hbody
  | classDecl => cases hbody

end Census

namespace Program

/-- All code in a program. -/
def code (p : Program) : List Code := p.tree.code .absent

theorem count_code {q : Code → Bool} (hq : Census.SkipsFields q) (p : Program) :
    p.code.countP q = (p.ownedMembers.flatMap OwnedMember.code).countP q := by
  have hclasses : (Tree.codeItems (p.classes.map ClassDecl.tree) .absent).countP q =
      Census.countOwned q p.ownedMembers := by
    unfold ownedMembers
    induction p.classes with
    | nil => rfl
    | cons decl classes ih =>
      obtain ⟨pos, modifiers, name, members⟩ := decl
      have h := Census.count_members hq .absent name 0 members
      simp [ClassDecl.tree, Tree.code, Tree.codeItems, Tree.codeFields, Tree.isMember, ih]
      omega
  have hcode : p.code = Tree.codeItems (p.classes.map ClassDecl.tree) .absent := by
    simp [code, Program.tree, Tree.code, Tree.codeFields, Tree.isMember]
  rw [hcode]
  exact hclasses

/-- The code that does not stand within a field is that of the routines of the program, one
for one. -/
theorem perm_code (p : Program) :
    (p.code.filter fun c => !c.inField).Perm (p.ownedMembers.flatMap OwnedMember.code) := by
  classical
  have howned : ∀ c ∈ p.ownedMembers.flatMap OwnedMember.code, c.inField = false := by
    intro c hc
    obtain ⟨m, hm, hc⟩ := List.mem_flatMap.1 hc
    exact Census.inField_of_mem_code (body_ownedMembers hm) hc
  rw [List.perm_iff_count]
  intro c
  by_cases hfield : c.inField = true
  · rw [List.count_eq_zero_of_not_mem fun hc => ?_, List.count_eq_zero_of_not_mem fun hc => ?_]
    · rw [howned c hc] at hfield
      cases hfield
    · have hkept := (List.mem_filter.1 hc).2
      rw [hfield] at hkept
      cases hkept
  · rw [List.count_filter (by simpa using hfield)]
    refine count_code (fun c' heq => ?_) p
    rw [beq_iff_eq.1 heq]
    exact Bool.eq_false_iff.2 hfield

/-- The methods with a body and the initializers of a program, at any depth of classes, are the
members that can be analyzed. -/
theorem perm_members (p : Program) :
    ((p.code.filter Code.isOwn).map Code.member).Perm
      (p.ownedMembers.map fun m => m.member.tree) := by
  have hfilter : p.code.filter Code.isOwn =
      (p.code.filter fun c => !c.inField).filter Code.isOwn := by
    rw [List.filter_filter]
    refine List.filter_congr fun c hc => ?_
    cases hown : c.isOwn with
    | false => rfl
    | true =>
      have hlabel := Tree.label_of_mem_code _ _ hc (Code.isMember_of_isOwn hown)
      have hfield : c.inField = false := by
        rw [Code.inField, hlabel]
        rw [Code.isOwn, Bool.or_eq_true, decide_eq_true_eq, decide_eq_true_eq] at hown
        rcases hown with h | h <;> rw [h] <;> rfl
      rw [hfield]
      rfl
  have hmembers : ∀ ms ⊆ p.ownedMembers,
      ((ms.flatMap OwnedMember.code).filter Code.isOwn).map Code.member =
        ms.map fun m => m.member.tree := by
    intro ms hms
    induction ms with
    | nil => rfl
    | cons m ms ih =>
      obtain ⟨hm, hms⟩ := List.cons_subset.1 hms
      obtain ⟨own, ls, hown, hmember, hcode⟩ := Census.exists_code (body_ownedMembers hm)
      have hlambdas : (ls.map (Code.ofLambda m.member.tree)).filter Code.isOwn = [] := by
        rw [List.filter_eq_nil_iff]
        intro c hc
        obtain ⟨l, -, rfl⟩ := List.mem_map.1 hc
        exact Bool.eq_false_iff.1 rfl
      rw [List.flatMap_cons, List.filter_append, List.map_append, ih hms, hcode,
        List.filter_cons_of_pos hown, hlambdas, List.map_cons, hmember]
      rfl
  rw [hfilter, ← hmembers _ (List.Subset.refl _)]
  exact ((perm_code p).filter _).map _

end Program

end WriteOnce
