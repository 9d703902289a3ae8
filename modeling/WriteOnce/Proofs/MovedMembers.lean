import Mathlib.Data.List.Forall2
import WriteOnce.Proofs.Cores
import WriteOnce.Syntax.Owned

/-!
# The members of the core of a program

The core of a program has the cores of the program's members, in the same order. Their labels
tell where members and classes stand, and differ in that.
-/

namespace WriteOnce

/-- Labels that stay related as they are extended, where positions are moved. -/
structure Labelling (φ : Pos → Pos) (owners : Text → Text → Prop) : Prop where
  method : ∀ {o o'}, owners o o' → ∀ name pos,
    owners (Member.methodLabel o name pos) (Member.methodLabel o' name (φ pos))
  init : ∀ {o o'}, owners o o' → ∀ isStatic number,
    owners (Member.initializerLabel o isStatic number) (Member.initializerLabel o' isStatic number)
  anonymous : ∀ {o o'}, owners o o' → ∀ pos,
    owners (Member.anonymousLabel o pos) (Member.anonymousLabel o' (φ pos))
  localClass : ∀ {o o'}, owners o o' → ∀ name, owners (o ++ "$" ++ name) (o' ++ "$" ++ name)
  memberClass : ∀ {o o'}, owners o o' → ∀ name, owners (o ++ "." ++ name) (o' ++ "." ++ name)
  lambda : ∀ {o o'}, owners o o' → ∀ pos : Pos,
    owners (o ++ "$lambda@" ++ pos.text) (o' ++ "$lambda@" ++ (φ pos).text)

/-- Where no position is moved, labels stay the same. -/
theorem labelling_eq : Labelling id Eq := by
  constructor <;> rintro o _ rfl <;> intros <;> rfl

theorem labelling_true (φ : Pos → Pos) : Labelling φ fun _ _ => True := by
  constructor <;> intros <;> trivial

/-- The core of a member, under a related label. -/
structure OwnedMember.Moves (φ : Pos → Pos) (owners : Text → Text → Prop)
    (m m' : OwnedMember) : Prop where
  member : m'.member = m.member.core φ
  owner : owners m.owner m'.owner

variable {φ : Pos → Pos} {owners : Text → Text → Prop} {o o' : Text}

/-- The cores of some members, in order. -/
abbrev MovedMembers (φ : Pos → Pos) (owners : Text → Text → Prop) :
    List OwnedMember → List OwnedMember → Prop :=
  List.Forall₂ (OwnedMember.Moves φ owners)

theorem MovedMembers.append {ms ms' ns ns' : List OwnedMember} (h : MovedMembers φ owners ms ms')
    (h' : MovedMembers φ owners ns ns') : MovedMembers φ owners (ms ++ ns) (ms' ++ ns') :=
  List.rel_append h h'

theorem moved_owned (L : Labelling φ owners) (h : owners o o') (number : Nat) (ms : List Member) :
    MovedMembers φ owners (Member.owned o number ms)
      (Member.owned o' number (Member.cores φ ms)) := by
  induction ms generalizing number with
  | nil => exact .nil
  | cons m ms ih =>
    cases m with
    | method pos modifiers result name params body =>
      cases body with
      | none => exact ih number
      | some body => exact .cons ⟨rfl, L.method h name pos⟩ (ih number)
    | «initializer» pos isStatic body => exact .cons ⟨rfl, L.init h isStatic number⟩ (ih _)
    | field => exact ih number
    | classDecl => exact ih number

mutual

theorem moved_expr (L : Labelling φ owners) {o o' : Text} (h : owners o o') : (e : Expr) →
    MovedMembers φ owners (e.owned o) ((e.core φ).owned o')
  | .literal .. | .name .. => .nil
  | .field _ operand _ | .unary _ _ operand | .step _ _ _ operand | .instanceOf _ operand _
  | .cast _ _ operand | .methodRef _ operand _ => moved_expr L h operand
  | .index _ first second | .binary _ _ first second | .assign _ _ first second =>
    (moved_expr L h first).append (moved_expr L h second)
  | .call _ callee args => (moved_expr L h callee).append (moved_exprs L h args)
  | .newObject _ _ args | .newArray _ _ args | .newArrayOf _ _ _ args | .arrayLit _ args =>
    moved_exprs L h args
  | .newAnonymous pos _ args members =>
    .append (.append (moved_owned L (L.anonymous h pos) 0 members)
      (moved_inside L (L.anonymous h pos) 0 members)) (moved_exprs L h args)
  | .conditional _ cond onTrue onFalse =>
    (moved_expr L h cond).append ((moved_expr L h onTrue).append (moved_expr L h onFalse))
  | .lambda _ _ body => moved_lambdaBody L h body
termination_by structural e => e

theorem moved_exprs (L : Labelling φ owners) {o o' : Text} (h : owners o o') : (es : List Expr) →
    MovedMembers φ owners (Expr.ownedAll o es) (Expr.ownedAll o' (Expr.cores φ es))
  | [] => .nil
  | e :: es => (moved_expr L h e).append (moved_exprs L h es)
termination_by structural es => es

theorem moved_exprOption (L : Labelling φ owners) {o o' : Text} (h : owners o o') :
    (e : Option Expr) →
    MovedMembers φ owners (Expr.ownedOption o e) (Expr.ownedOption o' (Expr.coreOption φ e))
  | none => .nil
  | some e => moved_expr L h e
termination_by structural e => e

theorem moved_lambdaBody (L : Labelling φ owners) {o o' : Text} (h : owners o o') :
    (body : LambdaBody) → MovedMembers φ owners (body.owned o) ((body.core φ).owned o')
  | .expr body => moved_expr L h body
  | .block body => moved_block L h body
termination_by structural body => body

theorem moved_stmt (L : Labelling φ owners) {o o' : Text} (h : owners o o') : (s : Stmt) →
    MovedMembers φ owners (s.owned o) ((s.core φ).owned o')
  | .block body => moved_block L h body
  | .localDecl ⟨_, _, _, declarators⟩ => moved_declarators L h declarators
  | .expr _ value => moved_expr L h value
  | .ifElse _ cond onTrue onFalse =>
    (moved_expr L h cond).append ((moved_stmt L h onTrue).append (moved_stmtOption L h onFalse))
  | .whileLoop _ cond body => (moved_expr L h cond).append (moved_stmt L h body)
  | .doLoop _ body cond => (moved_stmt L h body).append (moved_expr L h cond)
  | .forLoop _ init cond update body =>
    (moved_forInit L h init).append ((moved_exprOption L h cond).append
      ((moved_exprs L h update).append (moved_stmt L h body)))
  | .forEach _ _ iterable body => (moved_expr L h iterable).append (moved_stmt L h body)
  | .switch _ selector groups => (moved_expr L h selector).append (moved_groups L h groups)
  | .tryCatch _ body clauses cleanup =>
    (moved_block L h body).append ((moved_clauses L h clauses).append
      (moved_blockOption L h cleanup))
  | .returnValue _ value => moved_exprOption L h value
  | .throwValue _ value => moved_expr L h value
  | .breakTo .. | .continueTo .. | .empty .. => .nil
  | .labeled _ _ body => moved_stmt L h body
  | .localClass _ ⟨_, _, name, members⟩ =>
    (moved_owned L (L.localClass h name) 0 members).append
      (moved_inside L (L.localClass h name) 0 members)
termination_by structural s => s

theorem moved_stmts (L : Labelling φ owners) {o o' : Text} (h : owners o o') :
    (ss : List Stmt) →
    MovedMembers φ owners (Stmt.ownedAll o ss) (Stmt.ownedAll o' (Stmt.cores φ ss))
  | [] => .nil
  | s :: ss => (moved_stmt L h s).append (moved_stmts L h ss)
termination_by structural ss => ss

theorem moved_stmtOption (L : Labelling φ owners) {o o' : Text} (h : owners o o') :
    (s : Option Stmt) →
    MovedMembers φ owners (Stmt.ownedOption o s) (Stmt.ownedOption o' (Stmt.coreOption φ s))
  | none => .nil
  | some s => moved_stmt L h s
termination_by structural s => s

theorem moved_forInit (L : Labelling φ owners) {o o' : Text} (h : owners o o') :
    (init : ForInit) → MovedMembers φ owners (init.owned o) ((init.core φ).owned o')
  | .decl ⟨_, _, _, declarators⟩ => moved_declarators L h declarators
  | .exprs values => moved_exprs L h values
termination_by structural init => init

theorem moved_block (L : Labelling φ owners) {o o' : Text} (h : owners o o') : (b : Block) →
    MovedMembers φ owners (b.owned o) ((b.core φ).owned o')
  | ⟨_, stmts⟩ => moved_stmts L h stmts
termination_by structural b => b

theorem moved_blockOption (L : Labelling φ owners) {o o' : Text} (h : owners o o') :
    (b : Option Block) →
    MovedMembers φ owners (Block.ownedOption o b) (Block.ownedOption o' (Block.coreOption φ b))
  | none => .nil
  | some b => moved_block L h b
termination_by structural b => b

theorem moved_declarators (L : Labelling φ owners) {o o' : Text} (h : owners o o') :
    (ds : List Declarator) →
    MovedMembers φ owners (Declarator.ownedAll o ds)
      (Declarator.ownedAll o' (Declarator.cores φ ds))
  | [] => .nil
  | ⟨_, _, _, init⟩ :: ds => (moved_exprOption L h init).append (moved_declarators L h ds)
termination_by structural ds => ds

theorem moved_groups (L : Labelling φ owners) {o o' : Text} (h : owners o o') :
    (gs : List SwitchGroup) →
    MovedMembers φ owners (SwitchGroup.ownedAll o gs)
      (SwitchGroup.ownedAll o' (SwitchGroup.cores φ gs))
  | [] => .nil
  | ⟨_, labels, _, body⟩ :: gs =>
    (moved_exprs L h labels).append ((moved_stmts L h body).append (moved_groups L h gs))
termination_by structural gs => gs

theorem moved_clauses (L : Labelling φ owners) {o o' : Text} (h : owners o o') :
    (cs : List CatchClause) →
    MovedMembers φ owners (CatchClause.ownedAll o cs)
      (CatchClause.ownedAll o' (CatchClause.cores φ cs))
  | [] => .nil
  | ⟨_, _, _, body⟩ :: cs => (moved_block L h body).append (moved_clauses L h cs)
termination_by structural cs => cs

theorem moved_inside (L : Labelling φ owners) {o o' : Text} (h : owners o o') (number : Nat) :
    (ms : List Member) →
    MovedMembers φ owners (Member.ownedInside o number ms)
      (Member.ownedInside o' number (Member.cores φ ms))
  | [] => .nil
  | .field _ _ _ declarators :: ms =>
    (moved_declarators L h declarators).append (moved_inside L h number ms)
  | .method pos _ _ name _ body :: ms =>
    (moved_blockOption L (L.method h name pos) body).append (moved_inside L h number ms)
  | .initializer _ isStatic body :: ms =>
    (moved_block L (L.init h isStatic number) body).append (moved_inside L h (number + 1) ms)
  | .classDecl ⟨_, _, name, members⟩ :: ms =>
    .append ((moved_owned L (L.memberClass h name) 0 members).append
      (moved_inside L (L.memberClass h name) 0 members)) (moved_inside L h number ms)
termination_by structural ms => ms

end

/-- The core of a program has the cores of its members. -/
theorem moved_ownedMembers (L : Labelling φ owners) (hname : ∀ name, owners name name)
    (p : Program) : MovedMembers φ owners p.ownedMembers (p.core φ).ownedMembers := by
  obtain ⟨classes⟩ := p
  simp only [Program.ownedMembers, Program.core]
  induction classes with
  | nil => exact .nil
  | cons c classes ih =>
    obtain ⟨pos, modifiers, name, members⟩ := c
    exact .append ((moved_owned L (hname name) 0 members).append
      (moved_inside L (hname name) 0 members)) ih

end WriteOnce
