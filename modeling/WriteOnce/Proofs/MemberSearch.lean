import WriteOnce.Proofs.Runs
import WriteOnce.Syntax.Owned

/-!
# Searching for members

The members of a program are found by two nested loops. The outer one takes one
class after the other from a stack and lists its members. The inner one searches
the code of a member for classes, also with a stack. It stops at a class: what
stands in there is found when the class comes from the outer stack, with its own
label.
-/

namespace WriteOnce

namespace Search

/-- Code in which a class can stand. -/
inductive Code
  | expr (e : Expr)
  | stmt (s : Stmt)
  | declarator (d : Declarator)
  | group (g : SwitchGroup)
  | clause (c : CatchClause)

def exprs (es : List Expr) : List Code := es.map .expr

def stmts (ss : List Stmt) : List Code := ss.map .stmt

def ofLambda : LambdaBody → Code
  | .expr e => .expr e
  | .block b => .stmt (.block b)

def ofInit : ForInit → List Code
  | .decl decl => [.stmt (.localDecl decl)]
  | .exprs values => stmts (values.map fun e => .expr e.pos e)

/-- What an expression is made of, without what is in the body of a class. -/
def exprParts : Expr → List Code
  | .literal .. | .name .. => []
  | .field _ e _ | .unary _ _ e | .step _ _ _ e | .instanceOf _ e _ | .cast _ _ e
  | .methodRef _ e _ => exprs [e]
  | .index _ e e' | .binary _ _ e e' | .assign _ _ e e' => exprs [e, e']
  | .call _ callee args => exprs (callee :: args)
  | .newObject _ _ es | .newAnonymous _ _ es _ | .newArray _ _ es | .arrayLit _ es => exprs es
  | .newArrayOf _ _ pos es => exprs [.arrayLit pos es]
  | .conditional _ cond onTrue onFalse => exprs [cond, onTrue, onFalse]
  | .lambda _ _ body => [ofLambda body]

/-- What a statement is made of, without what is in the body of a class. -/
def stmtParts : Stmt → List Code
  | .block b => stmts b.stmts
  | .localDecl decl => decl.declarators.map .declarator
  | .expr _ e | .throwValue _ e => exprs [e]
  | .ifElse _ cond onTrue onFalse => exprs [cond] ++ (stmts [onTrue] ++ stmts onFalse.toList)
  | .whileLoop _ cond body => exprs [cond] ++ stmts [body]
  | .doLoop _ body cond => stmts [body] ++ exprs [cond]
  | .forLoop _ init cond update body =>
    ofInit init ++ (exprs cond.toList ++ (exprs update ++ stmts [body]))
  | .forEach _ _ iterable body => exprs [iterable] ++ stmts [body]
  | .switch _ selector groups => exprs [selector] ++ groups.map .group
  | .tryCatch _ body clauses cleanup =>
    stmts [.block body] ++ (clauses.map .clause ++ stmts (cleanup.toList.map .block))
  | .returnValue _ e => exprs e.toList
  | .labeled _ _ body => stmts [body]
  | .breakTo .. | .continueTo .. | .empty .. | .localClass .. => []

def Code.parts : Code → List Code
  | expr e => exprParts e
  | stmt s => stmtParts s
  | declarator d => exprs d.init.toList
  | group g => exprs g.labels ++ stmts g.body
  | clause c => stmts [.block c.body]

/-- The class that a piece of code is, with its label. -/
def Code.class? (owner : Text) : Code → Option (Text × List Member)
  | expr (.newAnonymous pos _ _ members) => some (Member.anonymousLabel owner pos, members)
  | stmt (.localClass _ decl) => some (owner ++ "$" ++ decl.name, decl.members)
  | _ => none

end Search

/-- A search on its way. -/
structure Search where
  /-- The classes that are left, with their labels. -/
  classes : List (Text × List Member)
  /-- The label of the class whose members are listed, and those of them that are left. -/
  owner : Text
  members : List Member
  /-- How many initializers the class has in front of these. -/
  number : Nat
  /-- The label for classes in the code that is searched, and what is left of this code. -/
  label : Text
  code : List Search.Code
  /-- The classes found inside the class. -/
  nested : List (Text × List Member)
  found : List OwnedMember

namespace Search

def list (s : Search) (label : Text) (m : Member) : Search :=
  { s with found := s.found ++ [⟨label, m⟩] }

def enter (s : Search) (label : Text) (code : List Code) : Search :=
  { s with label := label, code := code }

def nest (s : Search) (classes : List (Text × List Member)) : Search :=
  { s with nested := s.nested ++ classes }

def member (s : Search) (m : Member) : Search :=
  match m with
  | .method pos _ _ name _ (some body) =>
    let label := Member.methodLabel s.owner name pos
    (s.list label m).enter label [.stmt (.block body)]
  | .method _ _ _ _ _ none => s
  | .initializer _ isStatic body =>
    let label := Member.initializerLabel s.owner isStatic s.number
    { (s.list label m).enter label [.stmt (.block body)] with number := s.number + 1 }
  | .field _ _ _ declarators => s.enter s.owner (declarators.map .declarator)
  | .classDecl decl => s.nest [(s.owner ++ "." ++ decl.name, decl.members)]

/-- One step: on in the code of a member, else to the next member, else to the next class. -/
def step? (s : Search) : Option Search :=
  match s.code with
  | c :: code => some ({ s with code := c.parts ++ code }.nest (c.class? s.label).toList)
  | [] =>
    match s.members with
    | m :: members => some ({ s with members := members }.member m)
    | [] =>
      match s.nested ++ s.classes with
      | (label, members) :: classes =>
        some { s with
          classes := classes, owner := label, members := members, number := 0, nested := [] }
      | [] => none

/-- The search in front of a program. -/
def start (p : Program) : Search :=
  ⟨p.classes.map fun decl => (decl.name, decl.members), "", [], 0, "", [], [], []⟩

/-! ## Steps -/

section Steps

variable {s : Search} {c : Code} {code : List Code} {m : Member} {members : List Member}
  {label : Text} {classes : List (Text × List Member)}

theorem step?_code (h : s.code = c :: code) :
    s.step? = some ({ s with code := c.parts ++ code }.nest (c.class? s.label).toList) := by
  cases s
  cases h
  rfl

theorem step?_members (hcode : s.code = []) (h : s.members = m :: members) :
    s.step? = some ({ s with members := members }.member m) := by
  cases s
  cases hcode
  cases h
  rfl

theorem step?_classes (hcode : s.code = []) (hmembers : s.members = [])
    (h : s.nested ++ s.classes = (label, members) :: classes) :
    s.step? = some { s with
      classes := classes, owner := label, members := members, number := 0, nested := [] } := by
  cases s
  cases hcode
  cases hmembers
  unfold step?
  simp only [h]

theorem step?_none (hcode : s.code = []) (hmembers : s.members = [])
    (h : s.nested ++ s.classes = []) : s.step? = none := by
  cases s
  cases hcode
  cases hmembers
  unfold step?
  simp only [h]

end Steps

/-! ## Classes that are left -/

/-- The members of some classes and of all classes inside them. -/
def listed (classes : List (Text × List Member)) : List OwnedMember :=
  classes.flatMap fun (label, members) =>
    Member.owned label 0 members ++ Member.ownedInside label 0 members

theorem listed_singleton (label : Text) (members : List Member) :
    listed [(label, members)] =
      Member.owned label 0 members ++ Member.ownedInside label 0 members :=
  List.append_nil _

/-- The search is between two classes. -/
structure Between (s : Search) (classes : List (Text × List Member)) (found : List OwnedMember) :
    Prop where
  code : s.code = []
  members : s.members = []
  classes : s.nested ++ s.classes = classes
  found : s.found = found

/-- The search comes through these classes, whatever is left behind them. -/
def Passes (classes : List (Text × List Member)) : Prop :=
  ∀ ⦃s rest found⦄, Between s (classes ++ rest) found →
    ∃ s', StepsTo step? s s' ∧ s'.Between rest (found ++ listed classes)

variable {classes classes' : List (Text × List Member)} {label owner : Text} {number : Nat}
  {code code' : List Code} {ms ns : List OwnedMember} {c : Code} {m : Member}
  {members : List Member}

namespace Passes

theorem nil : Passes [] := by
  intro s rest found h
  refine ⟨s, .refl, h.code, h.members, h.classes, ?_⟩
  exact h.found.trans (List.append_nil found).symm

theorem append (h : Passes classes) (h' : Passes classes') : Passes (classes ++ classes') := by
  intro s rest found hs
  rw [List.append_assoc] at hs
  obtain ⟨s₁, hlead, hs₁⟩ := h hs
  obtain ⟨s₂, hlead', hs₂⟩ := h' hs₁
  refine ⟨s₂, hlead.trans hlead', ?_⟩
  unfold listed at hs₂ ⊢
  rwa [List.flatMap_append, ← List.append_assoc]

end Passes

/-! ## Code and members -/

/-- The search finds classes in some code, and these members when it passes them. -/
def Yields (label : Text) (code : List Code) (ms : List OwnedMember) : Prop :=
  ∃ classes, Passes classes ∧ listed classes = ms ∧
    ∀ ⦃s rest⦄, s.label = label → s.code = code ++ rest →
      StepsTo step? s ({ s with code := rest }.nest classes)

namespace Yields

theorem nil : Yields label [] [] := by
  refine ⟨[], .nil, rfl, ?_⟩
  rintro s rest - rfl
  unfold nest
  rw [List.append_nil]

theorem append (h : Yields label code ms) (h' : Yields label code' ns) :
    Yields label (code ++ code') (ms ++ ns) := by
  obtain ⟨classes, hpass, rfl, hlead⟩ := h
  obtain ⟨classes', hpass', rfl, hlead'⟩ := h'
  refine ⟨classes ++ classes', hpass.append hpass', List.flatMap_append, ?_⟩
  intro s rest hlabel hcode
  rw [List.append_assoc] at hcode
  have hboth := (hlead hlabel hcode).trans (hlead' hlabel rfl)
  unfold nest at hboth ⊢
  rwa [List.append_assoc] at hboth

/-- A piece of code is taken apart. If it is a class, the class comes first. -/
theorem step (hpass : Passes (c.class? label).toList) (h : Yields label c.parts ms) :
    Yields label [c] (listed (c.class? label).toList ++ ms) := by
  obtain ⟨classes, hpass', rfl, hlead⟩ := h
  refine ⟨_, hpass.append hpass', List.flatMap_append, ?_⟩
  intro s rest hlabel hcode
  subst hlabel
  let s₁ := { s with code := c.parts ++ rest }.nest (c.class? s.label).toList
  have hstep : s.step? = some s₁ := step?_code hcode
  have hparts : StepsTo step? s₁ ({ s₁ with code := rest }.nest classes) := hlead rfl rfl
  have hall : StepsTo step? s ({ s₁ with code := rest }.nest classes) := .head hstep hparts
  unfold s₁ nest at hall
  unfold nest
  rwa [List.append_assoc] at hall

/-- A piece of code that is no class. -/
theorem plain (hclass : c.class? label = none) (h : Yields label c.parts ms) :
    Yields label [c] ms := by
  have hstep := step (hclass ▸ Passes.nil) h
  rw [hclass] at hstep
  exact hstep

end Yields

/-- The search comes through the members of a class. It lists those that can be analyzed, and it
finds the classes for the others. -/
def Lists (owner : Text) (number : Nat) (members : List Member) : Prop :=
  ∃ classes, Passes classes ∧ listed classes = Member.ownedInside owner number members ∧
    ∀ ⦃s⦄, s.code = [] → s.members = members → s.owner = owner → s.number = number →
      ∃ s', StepsTo step? s s' ∧ s'.code = [] ∧ s'.members = [] ∧ s'.classes = s.classes ∧
        s'.nested = s.nested ++ classes ∧ s'.found = s.found ++ Member.owned owner number members

namespace Lists

theorem nil : Lists owner number [] := by
  refine ⟨[], .nil, rfl, fun s hcode hmembers _ _ => ⟨s, .refl, hcode, hmembers, rfl, ?_, ?_⟩⟩
  · exact (List.append_nil s.nested).symm
  · exact (List.append_nil s.found).symm

theorem passes (h : Lists label 0 members) : Passes [(label, members)] := by
  obtain ⟨classes, hpass, hlisted, hlead⟩ := h
  intro s rest found hs
  let s₁ : Search := { s with
    classes := rest, owner := label, members := members, number := 0, nested := [] }
  have hstep : s.step? = some s₁ := step?_classes hs.code hs.members hs.classes
  have hcode₁ : s₁.code = [] := hs.code
  obtain ⟨s₂, hlead₂, hcode, hmembers, hclasses, hnested, hfound⟩ := hlead hcode₁ rfl rfl rfl
  have hs₂ : s₂.Between (classes ++ rest) (found ++ Member.owned label 0 members) := by
    refine ⟨hcode, hmembers, ?_, ?_⟩
    · rw [hnested, hclasses]
      rfl
    · rw [hfound, ← hs.found]
  obtain ⟨s₃, hlead₃, hs₃⟩ := hpass hs₂
  refine ⟨s₃, .head hstep (hlead₂.trans hlead₃), hs₃.code, hs₃.members, hs₃.classes, ?_⟩
  rw [hs₃.found, hlisted, listed_singleton, List.append_assoc]

/-- The search comes through a member: it lists what the member has of its own, and it finds the
classes inside. -/
theorem cons {number' : Nat} (own : List OwnedMember) (hpass : Passes classes)
    (h : Lists owner number' members)
    (hmember : ∀ ⦃s : Search⦄, s.code = [] → s.owner = owner → s.number = number →
      ∃ label, StepsTo step? (s.member m) { s with
        found := s.found ++ own, nested := s.nested ++ classes, label := label,
        number := number' })
    (hown : Member.owned owner number (m :: members) = own ++ Member.owned owner number' members)
    (hinside : Member.ownedInside owner number (m :: members) =
      listed classes ++ Member.ownedInside owner number' members) :
    Lists owner number (m :: members) := by
  obtain ⟨classes', hpass', hlisted', hlead'⟩ := h
  refine ⟨classes ++ classes', hpass.append hpass', ?_, ?_⟩
  · rw [hinside, ← hlisted']
    exact List.flatMap_append
  · intro s hempty hmembers howner hnumber
    have hstep : s.step? = some ({ s with members := members }.member m) :=
      step?_members hempty hmembers
    obtain ⟨label, hlead⟩ := hmember (s := { s with members := members }) hempty howner hnumber
    let s₁ : Search := { s with
      members := members, found := s.found ++ own, nested := s.nested ++ classes,
      label := label, number := number' }
    obtain ⟨s₂, hlead₂, hend, hnone, hclasses, hnested, hfound⟩ :=
      hlead' (s := s₁) hempty rfl howner rfl
    refine ⟨s₂, .head hstep (hlead.trans hlead₂), hend, hnone, hclasses, ?_, ?_⟩
    · rw [hnested]
      exact List.append_assoc ..
    · rw [hfound, hown]
      exact List.append_assoc ..

/-- A member with code in which classes can stand. -/
theorem enter {number' : Nat} {inside : List OwnedMember} (own : List OwnedMember)
    (hcode : Yields label code inside) (h : Lists owner number' members)
    (hmember : ∀ s : Search, s.owner = owner → s.number = number →
      s.member m = { s with
        found := s.found ++ own, label := label, code := code, number := number' })
    (hown : Member.owned owner number (m :: members) = own ++ Member.owned owner number' members)
    (hinside : Member.ownedInside owner number (m :: members) =
      inside ++ Member.ownedInside owner number' members) :
    Lists owner number (m :: members) := by
  obtain ⟨classes, hpass, rfl, hlead⟩ := hcode
  refine cons own hpass h (fun s hempty howner hnumber => ⟨label, ?_⟩) hown hinside
  rw [hmember s howner hnumber]
  have hcode : code = code ++ [] := (List.append_nil code).symm
  have hsearched := hlead (s := { s with
    found := s.found ++ own, label := label, code := code, number := number' }) rfl hcode
  rw [← hempty] at hsearched
  exact hsearched

/-- A member without code. It may be a class itself. -/
theorem aside (hpass : Passes classes) (h : Lists owner number members)
    (hmember : ∀ s : Search, s.owner = owner → s.member m = s.nest classes)
    (hown : Member.owned owner number (m :: members) = Member.owned owner number members)
    (hinside : Member.ownedInside owner number (m :: members) =
      listed classes ++ Member.ownedInside owner number members) :
    Lists owner number (m :: members) := by
  refine cons [] hpass h (fun s _ howner hnumber => ⟨s.label, ?_⟩) hown hinside
  subst hnumber
  rw [hmember s howner, List.append_nil]
  exact .refl

end Lists

theorem Yields.ofClass (hclass : c.class? label = some (owner, members))
    (hlists : Lists owner 0 members) (h : Yields label c.parts ms) :
    Yields label [c]
      (Member.owned owner 0 members ++ Member.ownedInside owner 0 members ++ ms) := by
  have hstep := step (hclass ▸ hlists.passes) h
  rw [hclass] at hstep
  rw [← listed_singleton]
  exact hstep

/-! ## All code -/

mutual

theorem yields_expr (label : Text) : (e : Expr) → Yields label [.expr e] (e.owned label)
  | .literal .. | .name .. => .plain rfl .nil
  | .field _ operand _ | .unary _ _ operand | .step _ _ _ operand | .instanceOf _ operand _
  | .cast _ _ operand | .methodRef _ operand _ => .plain rfl (yields_expr label operand)
  | .index _ first second | .binary _ _ first second | .assign _ _ first second =>
    .plain rfl ((yields_expr label first).append (yields_expr label second))
  | .call _ callee args =>
    .plain rfl ((yields_expr label callee).append (yields_exprs label args))
  | .newObject _ _ args | .newArray _ _ args | .arrayLit _ args =>
    .plain rfl (yields_exprs label args)
  | .newAnonymous _ _ args members =>
    .ofClass rfl (lists_members _ 0 members) (yields_exprs label args)
  | .newArrayOf _ _ _ elements => .plain rfl (Yields.plain rfl (yields_exprs label elements))
  | .conditional _ cond onTrue onFalse =>
    .plain rfl ((yields_expr label cond).append
      ((yields_expr label onTrue).append (yields_expr label onFalse)))
  | .lambda _ _ body => .plain rfl (yields_lambdaBody label body)
termination_by structural e => e

theorem yields_exprs (label : Text) : (es : List Expr) →
    Yields label (exprs es) (Expr.ownedAll label es)
  | [] => .nil
  | e :: es => (yields_expr label e).append (yields_exprs label es)
termination_by structural es => es

theorem yields_option (label : Text) : (e : Option Expr) →
    Yields label (exprs e.toList) (Expr.ownedOption label e)
  | none => .nil
  | some e => yields_expr label e
termination_by structural e => e

theorem yields_lambdaBody (label : Text) : (body : LambdaBody) →
    Yields label [ofLambda body] (body.owned label)
  | .expr body => yields_expr label body
  | .block body => yields_block label body
termination_by structural body => body

theorem yields_stmt (label : Text) : (s : Stmt) → Yields label [.stmt s] (s.owned label)
  | .block body => yields_block label body
  | .localDecl ⟨_, _, _, declarators⟩ => .plain rfl (yields_declarators label declarators)
  | .expr _ value | .throwValue _ value => .plain rfl (yields_expr label value)
  | .ifElse _ cond onTrue onFalse =>
    .plain rfl ((yields_expr label cond).append
      ((yields_stmt label onTrue).append (yields_branch label onFalse)))
  | .whileLoop _ cond body =>
    .plain rfl ((yields_expr label cond).append (yields_stmt label body))
  | .doLoop _ body cond =>
    .plain rfl ((yields_stmt label body).append (yields_expr label cond))
  | .forLoop _ init cond update body =>
    .plain rfl ((yields_forInit label init).append ((yields_option label cond).append
      ((yields_exprs label update).append (yields_stmt label body))))
  | .forEach _ _ iterable body =>
    .plain rfl ((yields_expr label iterable).append (yields_stmt label body))
  | .switch _ selector groups =>
    .plain rfl ((yields_expr label selector).append (yields_groups label groups))
  | .tryCatch _ body clauses cleanup =>
    .plain rfl ((yields_block label body).append
      ((yields_clauses label clauses).append (yields_cleanup label cleanup)))
  | .returnValue _ value => .plain rfl (yields_option label value)
  | .labeled _ _ body => .plain rfl (yields_stmt label body)
  | .breakTo .. | .continueTo .. | .empty .. => .plain rfl .nil
  | .localClass pos ⟨classPos, modifiers, name, members⟩ => by
    have hclass : Yields label [.stmt (.localClass pos ⟨classPos, modifiers, name, members⟩)] _ :=
      .ofClass rfl (lists_members (label ++ "$" ++ name) 0 members) .nil
    rw [List.append_nil] at hclass
    exact hclass
termination_by structural s => s

theorem yields_stmts (label : Text) : (ss : List Stmt) →
    Yields label (stmts ss) (Stmt.ownedAll label ss)
  | [] => .nil
  | s :: ss => (yields_stmt label s).append (yields_stmts label ss)
termination_by structural ss => ss

theorem yields_branch (label : Text) : (s : Option Stmt) →
    Yields label (stmts s.toList) (Stmt.ownedOption label s)
  | none => .nil
  | some s => yields_stmt label s
termination_by structural s => s

theorem yields_forInit (label : Text) : (init : ForInit) →
    Yields label (ofInit init) (init.owned label)
  | .decl ⟨_, _, _, declarators⟩ => .plain rfl (yields_declarators label declarators)
  | .exprs values => yields_statements label values
termination_by structural init => init

theorem yields_statements (label : Text) : (es : List Expr) →
    Yields label (stmts (es.map fun e => .expr e.pos e)) (Expr.ownedAll label es)
  | [] => .nil
  | e :: es =>
    have hfirst : Yields label [.stmt (.expr e.pos e)] (e.owned label) :=
      .plain rfl (yields_expr label e)
    hfirst.append (yields_statements label es)
termination_by structural es => es

theorem yields_block (label : Text) : (b : Block) → Yields label [.stmt (.block b)] (b.owned label)
  | ⟨_, stmts⟩ => .plain rfl (yields_stmts label stmts)
termination_by structural b => b

theorem yields_cleanup (label : Text) : (b : Option Block) →
    Yields label (stmts (b.toList.map .block)) (Block.ownedOption label b)
  | none => .nil
  | some b => yields_block label b
termination_by structural b => b

theorem yields_declarators (label : Text) : (ds : List Declarator) →
    Yields label (ds.map .declarator) (Declarator.ownedAll label ds)
  | [] => .nil
  | ⟨pos, name, dims, init⟩ :: ds =>
    have hfirst : Yields label [.declarator ⟨pos, name, dims, init⟩]
        (Expr.ownedOption label init) := .plain rfl (yields_option label init)
    hfirst.append (yields_declarators label ds)
termination_by structural ds => ds

theorem yields_groups (label : Text) : (gs : List SwitchGroup) →
    Yields label (gs.map .group) (SwitchGroup.ownedAll label gs)
  | [] => .nil
  | ⟨pos, labels, isDefault, body⟩ :: gs => by
    have hparts := (yields_exprs label labels).append (yields_stmts label body)
    have hfirst : Yields label [.group ⟨pos, labels, isDefault, body⟩]
        (Expr.ownedAll label labels ++ Stmt.ownedAll label body) := .plain rfl hparts
    have hall := hfirst.append (yields_groups label gs)
    rw [List.append_assoc] at hall
    exact hall
termination_by structural gs => gs

theorem yields_clauses (label : Text) : (cs : List CatchClause) →
    Yields label (cs.map .clause) (CatchClause.ownedAll label cs)
  | [] => .nil
  | ⟨pos, param, types, body⟩ :: cs =>
    have hfirst : Yields label [.clause ⟨pos, param, types, body⟩] (body.owned label) :=
      .plain rfl (yields_block label body)
    hfirst.append (yields_clauses label cs)
termination_by structural cs => cs

theorem lists_members (owner : Text) (number : Nat) : (members : List Member) →
    Lists owner number members
  | [] => .nil
  | .field pos modifiers type declarators :: ms => by
    apply Lists.enter [] (yields_declarators owner declarators) (lists_members owner number ms)
    · rintro s rfl rfl
      rw [List.append_nil]
      rfl
    · rfl
    · rfl
  | .method pos modifiers result name params none :: ms => by
    apply Lists.aside .nil (lists_members owner number ms)
    · rintro s rfl
      unfold nest
      rw [List.append_nil]
      rfl
    · rfl
    · rfl
  | .method pos modifiers result name params (some body) :: ms => by
    let label := Member.methodLabel owner name pos
    apply Lists.enter [⟨label, .method pos modifiers result name params (some body)⟩]
      (yields_block label body) (lists_members owner number ms)
    · rintro s rfl rfl
      rfl
    · rfl
    · rfl
  | .initializer pos isStatic body :: ms => by
    let label := Member.initializerLabel owner isStatic number
    apply Lists.enter [⟨label, .initializer pos isStatic body⟩] (yields_block label body)
      (lists_members owner (number + 1) ms)
    · rintro s rfl rfl
      rfl
    · rfl
    · rfl
  | .classDecl ⟨pos, modifiers, name, inner⟩ :: ms => by
    apply Lists.aside (lists_members (owner ++ "." ++ name) 0 inner).passes
      (lists_members owner number ms)
    · rintro s rfl
      rfl
    · rfl
    · rw [listed_singleton]
      rfl
termination_by structural members => members

end

theorem passes_all (classes : List (Text × List Member)) : Passes classes := by
  induction classes with
  | nil => exact .nil
  | cons decl classes ih => exact (lists_members decl.1 0 decl.2).passes.append ih

/-- The search ends after finitely many steps. It has found the members that can be analyzed, with
their labels and in their order. -/
theorem search_ends (p : Program) :
    ∃ s, EndsIn step? (start p) s ∧ s.found = p.ownedMembers := by
  have hstart : (start p).Between ((start p).classes ++ []) [] :=
    ⟨rfl, rfl, (List.append_nil _).symm, rfl⟩
  obtain ⟨s, hlead, hs⟩ := passes_all _ hstart
  refine ⟨s, hlead.ends (step?_none hs.code hs.members hs.classes), hs.found.trans ?_⟩
  exact List.flatMap_map ..

end Search

end WriteOnce
