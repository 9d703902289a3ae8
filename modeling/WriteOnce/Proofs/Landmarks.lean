import WriteOnce.Proofs.RoutineParts

/-!
# Loops and lambdas of a body

The graph of a body is that of its own code: the loops in it, and the lambdas in it as far as they
are created there. What stands in those lambdas, or in classes, belongs to other graphs.
-/

namespace WriteOnce

/-- A loop, or a lambda that is created. -/
inductive Landmark
  | loop (pos : Pos)
  | lambda (l : PlacedBody)

mutual

/-- The loops and lambdas of an expression, apart from those in its lambdas and classes. -/
def Expr.landmarks : Expr → List Landmark
  | .literal .. | .name .. => []
  | .field _ object _ => object.landmarks
  | .index _ object position => object.landmarks ++ position.landmarks
  | .call _ callee args => callee.landmarks ++ Expr.landmarksAll args
  | .newObject _ _ args => Expr.landmarksAll args
  | .newAnonymous _ _ args _ => Expr.landmarksAll args
  | .newArray _ _ sizes => Expr.landmarksAll sizes
  | .newArrayOf _ _ _ elements => Expr.landmarksAll elements
  | .arrayLit _ elements => Expr.landmarksAll elements
  | .unary _ _ operand => operand.landmarks
  | .step _ _ _ target => target.landmarks
  | .binary _ _ left right => left.landmarks ++ right.landmarks
  | .instanceOf _ operand _ => operand.landmarks
  | .cast _ _ operand => operand.landmarks
  | .conditional _ cond onTrue onFalse => cond.landmarks ++ (onTrue.landmarks ++ onFalse.landmarks)
  | .assign _ _ target value => target.landmarks ++ value.landmarks
  | .lambda pos _ body => [.lambda (pos, body)]
  | .methodRef _ object _ => object.landmarks

def Expr.landmarksAll : List Expr → List Landmark
  | [] => []
  | e :: es => e.landmarks ++ Expr.landmarksAll es

end

def Expr.landmarksOption : Option Expr → List Landmark
  | none => []
  | some e => e.landmarks

def Declarator.landmarksAll : List Declarator → List Landmark
  | [] => []
  | ⟨_, _, _, init⟩ :: ds => Expr.landmarksOption init ++ Declarator.landmarksAll ds

def ForInit.landmarks : ForInit → List Landmark
  | .decl ⟨_, _, _, declarators⟩ => Declarator.landmarksAll declarators
  | .exprs values => Expr.landmarksAll values

mutual

/-- The loops and lambdas of a statement, apart from those in its lambdas and classes. -/
def Stmt.landmarks : Stmt → List Landmark
  | .block body => body.landmarks
  | .localDecl ⟨_, _, _, declarators⟩ => Declarator.landmarksAll declarators
  | .expr _ value => value.landmarks
  | .ifElse _ cond onTrue onFalse =>
    cond.landmarks ++ (onTrue.landmarks ++ Stmt.landmarksOption onFalse)
  | .whileLoop pos cond body => .loop pos :: (cond.landmarks ++ body.landmarks)
  | .doLoop pos body cond => .loop pos :: (body.landmarks ++ cond.landmarks)
  | .forLoop pos init cond update body =>
    .loop pos :: (init.landmarks ++
      ((Expr.landmarksOption cond ++ Expr.landmarksAll update) ++ body.landmarks))
  | .forEach pos _ iterable body => .loop pos :: (iterable.landmarks ++ body.landmarks)
  | .switch _ selector groups => selector.landmarks ++ SwitchGroup.landmarksAll groups
  | .tryCatch _ body clauses cleanup =>
    body.landmarks ++ (CatchClause.landmarksAll clauses ++ Block.landmarksOption cleanup)
  | .returnValue _ value => Expr.landmarksOption value
  | .throwValue _ value => value.landmarks
  | .labeled _ _ body => body.landmarks
  | .breakTo .. | .continueTo .. | .empty .. | .localClass .. => []

def Stmt.landmarksAll : List Stmt → List Landmark
  | [] => []
  | s :: ss => s.landmarks ++ Stmt.landmarksAll ss

def Stmt.landmarksOption : Option Stmt → List Landmark
  | none => []
  | some s => s.landmarks

def Block.landmarks : Block → List Landmark
  | ⟨_, stmts⟩ => Stmt.landmarksAll stmts

def Block.landmarksOption : Option Block → List Landmark
  | none => []
  | some b => b.landmarks

/-- Lambdas in the labels of a group belong to the body, although nothing evaluates them. -/
def SwitchGroup.landmarksAll : List SwitchGroup → List Landmark
  | [] => []
  | ⟨_, labels, _, body⟩ :: gs =>
    Expr.landmarksAll labels ++ (Stmt.landmarksAll body ++ SwitchGroup.landmarksAll gs)

def CatchClause.landmarksAll : List CatchClause → List Landmark
  | [] => []
  | ⟨_, _, _, body⟩ :: cs => body.landmarks ++ CatchClause.landmarksAll cs

end

def LambdaBody.landmarks : LambdaBody → List Landmark
  | .expr body => body.landmarks
  | .block body => body.landmarks

def Landmark.isLoop : Landmark → Bool
  | .loop _ => true
  | .lambda _ => false

/-- Whether the body itself has a loop. -/
def LambdaBody.hasLoop (body : LambdaBody) : Bool := body.landmarks.any Landmark.isLoop

/-! ## Lambdas in lambdas -/

/-- The lambda of a mark, with those inside it. -/
def Landmark.lambdas : Landmark → List PlacedBody
  | .loop _ => []
  | .lambda l => l :: l.2.lambdas

mutual

/-- All lambdas are those that are created by the code itself, each followed by those inside it. -/
theorem Expr.lambdas_eq : (e : Expr) → e.lambdas = e.landmarks.flatMap Landmark.lambdas
  | .literal .. | .name .. => rfl
  | .field _ object _ | .methodRef _ object _ => object.lambdas_eq
  | .unary _ _ operand | .instanceOf _ operand _ | .cast _ _ operand => operand.lambdas_eq
  | .step _ _ _ target => target.lambdas_eq
  | .newObject _ _ es | .newAnonymous _ _ es _ | .newArray _ _ es | .newArrayOf _ _ _ es
  | .arrayLit _ es => Expr.lambdasAll_eq es
  | .index _ left right | .binary _ _ left right | .assign _ _ left right => by
    rw [Expr.landmarks, List.flatMap_append, ← left.lambdas_eq, ← right.lambdas_eq]
    rfl
  | .call _ callee args => by
    rw [Expr.landmarks, List.flatMap_append, ← callee.lambdas_eq, ← Expr.lambdasAll_eq args]
    rfl
  | .conditional _ cond onTrue onFalse => by
    rw [Expr.landmarks, List.flatMap_append, List.flatMap_append, ← cond.lambdas_eq,
      ← onTrue.lambdas_eq, ← onFalse.lambdas_eq]
    rfl
  | .lambda .. => (List.append_nil _).symm
termination_by structural e => e

theorem Expr.lambdasAll_eq : (es : List Expr) →
    Expr.lambdasAll es = (Expr.landmarksAll es).flatMap Landmark.lambdas
  | [] => rfl
  | e :: es => by
    rw [Expr.landmarksAll, List.flatMap_append, ← e.lambdas_eq, ← Expr.lambdasAll_eq es]
    rfl
termination_by structural es => es

end

theorem Expr.lambdasOption_eq (e : Option Expr) :
    Expr.lambdasOption e = (Expr.landmarksOption e).flatMap Landmark.lambdas := by
  cases e with
  | none => rfl
  | some e => exact e.lambdas_eq

theorem Declarator.lambdasAll_eq (ds : List Declarator) :
    Declarator.lambdasAll ds = (Declarator.landmarksAll ds).flatMap Landmark.lambdas := by
  induction ds with
  | nil => rfl
  | cons d ds ih =>
    obtain ⟨pos, name, dims, init⟩ := d
    rw [Declarator.lambdasAll, Declarator.landmarksAll, List.flatMap_append, ih,
      Expr.lambdasOption_eq]

theorem ForInit.lambdas_eq (init : ForInit) :
    init.lambdas = init.landmarks.flatMap Landmark.lambdas := by
  cases init with
  | decl d =>
    obtain ⟨pos, modifiers, type, declarators⟩ := d
    exact Declarator.lambdasAll_eq declarators
  | exprs values => exact Expr.lambdasAll_eq values

mutual

theorem Stmt.lambdas_eq : (s : Stmt) → s.lambdas = s.landmarks.flatMap Landmark.lambdas
  | .block body => body.lambdas_eq
  | .localDecl ⟨_, _, _, declarators⟩ => Declarator.lambdasAll_eq declarators
  | .expr _ value | .throwValue _ value => value.lambdas_eq
  | .ifElse _ cond onTrue onFalse => by
    rw [Stmt.landmarks, List.flatMap_append, List.flatMap_append, ← cond.lambdas_eq,
      ← onTrue.lambdas_eq, ← Stmt.lambdasOption_eq onFalse]
    rfl
  | .whileLoop _ cond body => by
    rw [Stmt.landmarks, List.flatMap_cons, List.flatMap_append, ← cond.lambdas_eq,
      ← body.lambdas_eq]
    rfl
  | .doLoop _ body cond => by
    rw [Stmt.landmarks, List.flatMap_cons, List.flatMap_append, ← cond.lambdas_eq,
      ← body.lambdas_eq]
    rfl
  | .forLoop _ init cond update body => by
    rw [Stmt.landmarks, List.flatMap_cons, List.flatMap_append, List.flatMap_append,
      List.flatMap_append, ← init.lambdas_eq, ← Expr.lambdasOption_eq cond,
      ← Expr.lambdasAll_eq update, ← body.lambdas_eq]
    rfl
  | .forEach _ _ iterable body => by
    rw [Stmt.landmarks, List.flatMap_cons, List.flatMap_append, ← iterable.lambdas_eq,
      ← body.lambdas_eq]
    rfl
  | .switch _ selector groups => by
    rw [Stmt.landmarks, List.flatMap_append, ← selector.lambdas_eq,
      ← SwitchGroup.lambdasAll_eq groups]
    rfl
  | .tryCatch _ body clauses cleanup => by
    rw [Stmt.landmarks, List.flatMap_append, List.flatMap_append, ← body.lambdas_eq,
      ← CatchClause.lambdasAll_eq clauses, ← Block.lambdasOption_eq cleanup]
    rfl
  | .returnValue _ value => Expr.lambdasOption_eq value
  | .labeled _ _ body => body.lambdas_eq
  | .breakTo .. | .continueTo .. | .empty .. | .localClass .. => rfl
termination_by structural s => s

theorem Stmt.lambdasAll_eq : (ss : List Stmt) →
    Stmt.lambdasAll ss = (Stmt.landmarksAll ss).flatMap Landmark.lambdas
  | [] => rfl
  | s :: ss => by
    rw [Stmt.landmarksAll, List.flatMap_append, ← s.lambdas_eq, ← Stmt.lambdasAll_eq ss]
    rfl
termination_by structural ss => ss

theorem Stmt.lambdasOption_eq : (s : Option Stmt) →
    Stmt.lambdasOption s = (Stmt.landmarksOption s).flatMap Landmark.lambdas
  | none => rfl
  | some s => s.lambdas_eq
termination_by structural s => s

theorem Block.lambdas_eq : (b : Block) → b.lambdas = b.landmarks.flatMap Landmark.lambdas
  | ⟨_, stmts⟩ => Stmt.lambdasAll_eq stmts
termination_by structural b => b

theorem Block.lambdasOption_eq : (b : Option Block) →
    Block.lambdasOption b = (Block.landmarksOption b).flatMap Landmark.lambdas
  | none => rfl
  | some b => b.lambdas_eq
termination_by structural b => b

theorem SwitchGroup.lambdasAll_eq : (gs : List SwitchGroup) →
    SwitchGroup.lambdasAll gs = (SwitchGroup.landmarksAll gs).flatMap Landmark.lambdas
  | [] => rfl
  | ⟨_, labels, _, body⟩ :: gs => by
    rw [SwitchGroup.landmarksAll, List.flatMap_append, List.flatMap_append,
      ← Expr.lambdasAll_eq labels, ← Stmt.lambdasAll_eq body, ← SwitchGroup.lambdasAll_eq gs]
    rfl
termination_by structural gs => gs

theorem CatchClause.lambdasAll_eq : (cs : List CatchClause) →
    CatchClause.lambdasAll cs = (CatchClause.landmarksAll cs).flatMap Landmark.lambdas
  | [] => rfl
  | ⟨_, _, _, body⟩ :: cs => by
    rw [CatchClause.landmarksAll, List.flatMap_append, ← body.lambdas_eq,
      ← CatchClause.lambdasAll_eq cs]
    rfl
termination_by structural cs => cs

end

theorem LambdaBody.lambdas_eq (body : LambdaBody) :
    body.lambdas = body.landmarks.flatMap Landmark.lambdas := by
  cases body with
  | expr body => exact body.lambdas_eq
  | block body => exact body.lambdas_eq

end WriteOnce
