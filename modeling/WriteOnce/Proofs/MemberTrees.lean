import WriteOnce.Proofs.ParallelParsing
import WriteOnce.Syntax.Owned

/-!
# Members within a tree

The members of a program that can be analyzed are parts of its tree, whichever classes they
stand in.
-/

namespace WriteOnce

/-- The body of a method or an initializer. -/
def Member.body? : Member → Option Block
  | .method _ _ _ _ _ body => body
  | .initializer _ _ body => some body
  | .field .. | .classDecl .. => none

namespace Tree

variable {t u : Tree}

/-- A tree is a part of another one. -/
inductive Within (t : Tree) : Tree → Prop
  | refl : Within t t
  | field {label name : Text} {u : Tree} {fields : List (Text × Tree)} (hu : (name, u) ∈ fields)
    (h : Within t u) : Within t (.node label fields)
  | item {u : Tree} {items : List Tree} (hu : u ∈ items) (h : Within t u) : Within t (.list items)

theorem CodedFields.of_mem {name : Text} {fields : List (Text × Tree)} (h : CodedFields fields)
    (hu : (name, u) ∈ fields) : u.Coded := by
  induction fields with
  | nil => cases hu
  | cons field fields ih =>
    obtain rfl | hu := List.mem_cons.1 hu
    · exact h.1
    · exact ih h.2 hu

theorem CodedItems.of_mem {items : List Tree} (h : CodedItems items) (hu : u ∈ items) :
    u.Coded := by
  induction items with
  | nil => cases hu
  | cons item items ih =>
    obtain rfl | hu := List.mem_cons.1 hu
    · exact h.1
    · exact ih h.2 hu

theorem Within.coded (h : t.Within u) (hu : u.Coded) : t.Coded := by
  induction h with
  | refl => exact hu
  | field hmem _ ih => exact ih (CodedFields.of_mem hu hmem)
  | item hmem _ ih => exact ih (CodedItems.of_mem hu hmem)

/-- All members have bodies and are parts of some of the trees. -/
def Hold (us : List Tree) (ms : List OwnedMember) : Prop :=
  ∀ m ∈ ms, m.member.body?.isSome = true ∧ ∃ u ∈ us, m.member.tree.Within u

namespace Hold

variable {us vs : List Tree} {ms ns : List OwnedMember}

theorem nothing : Hold us [] := fun _ hm => nomatch hm

theorem mono (h : Hold us ms) (hsub : us ⊆ vs) : Hold vs ms := fun m hm =>
  let ⟨hbody, u, hu, hwithin⟩ := h m hm
  ⟨hbody, u, hsub hu, hwithin⟩

theorem both (h : Hold us ms) (h' : Hold us ns) : Hold us (ms ++ ns) :=
  List.forall_mem_append.2 ⟨h, h'⟩

theorem append (h : Hold us ms) (h' : Hold vs ns) : Hold (us ++ vs) (ms ++ ns) :=
  (h.mono (List.subset_append_left us vs)).both (h'.mono (List.subset_append_right us vs))

theorem list (h : Hold us ms) : Hold [.list us] ms := fun m hm =>
  let ⟨hbody, _, hu, hwithin⟩ := h m hm
  ⟨hbody, _, .head _, .item hu hwithin⟩

theorem node {label : Text} {fields : List (Text × Tree)} (h : Hold us ms)
    (hsub : us ⊆ fields.map Prod.snd) : Hold [.node label fields] ms := by
  intro m hm
  obtain ⟨hbody, u, hu, hwithin⟩ := h m hm
  obtain ⟨⟨name, _⟩, hfield, rfl⟩ := List.mem_map.1 (hsub hu)
  exact ⟨hbody, _, .head _, .field hfield hwithin⟩

end Hold

end Tree

open WriteOnce.Tree (Hold)

theorem Member.held_owned (owner : Text) (number : Nat) (ms : List Member) :
    Hold (Member.trees ms) (Member.owned owner number ms) := by
  induction ms generalizing number with
  | nil => exact .nothing
  | cons m ms ih =>
    have hself : m.body?.isSome = true → ∀ label, Hold [m.tree] [⟨label, m⟩] := by
      intro hbody label n hn
      rw [List.mem_singleton.1 hn]
      exact ⟨hbody, m.tree, .head _, .refl⟩
    have hothers := fun number => (ih number).mono (List.subset_cons_self m.tree _)
    cases m with
    | method pos modifiers result name params body =>
      cases body with
      | none => exact hothers number
      | some body => exact (hself rfl _).append (ih number)
    | «initializer» pos isStatic body => exact (hself rfl _).append (ih (number + 1))
    | field => exact hothers number
    | classDecl => exact hothers number

mutual

theorem Expr.held (owner : Text) : (e : Expr) → Hold [e.tree] (e.owned owner)
  | .literal .. => .nothing
  | .name .. => .nothing
  | .field _ operand _ | .unary _ _ operand | .step _ _ _ operand | .instanceOf _ operand _
  | .cast _ _ operand | .methodRef _ operand _ => (operand.held owner).node (by simp)
  | .index _ first second | .binary _ _ first second | .assign _ _ first second =>
    ((first.held owner).append (second.held owner)).node (by simp)
  | .call _ callee args =>
    ((callee.held owner).append (Expr.held_all owner args).list).node (by simp)
  | .newObject _ _ args | .newArray _ _ args | .arrayLit _ args =>
    (Expr.held_all owner args).list.node (by simp)
  | .newAnonymous pos _ args members =>
    (((Member.held_owned _ 0 members).both (Member.held_inside _ 0 members)).list.append
      ((Expr.held_all owner args).list)).node (by simp)
  | .newArrayOf _ _ elementsPos elements => by
    have helements : Hold
        [.node "JArrayLit" [("pos", .place elementsPos), ("elements", .list (Expr.trees elements))]]
        (Expr.ownedAll owner elements) := (Expr.held_all owner elements).list.node (by simp)
    exact helements.node (by simp)
  | .conditional _ cond onTrue onFalse =>
    ((cond.held owner).append ((onTrue.held owner).append (onFalse.held owner))).node (by simp)
  | .lambda _ _ body => (body.held owner).node (by simp)

theorem Expr.held_all (owner : Text) : (es : List Expr) →
    Hold (Expr.trees es) (Expr.ownedAll owner es)
  | [] => .nothing
  | e :: es => (e.held owner).append (Expr.held_all owner es)

theorem Expr.held_option (owner : Text) : (e : Option Expr) →
    Hold [Expr.treeOption e] (Expr.ownedOption owner e)
  | none => .nothing
  | some e => e.held owner

theorem LambdaBody.held (owner : Text) : (b : LambdaBody) → Hold [b.tree] (b.owned owner)
  | .expr body => body.held owner
  | .block body => body.held owner

theorem Stmt.held (owner : Text) : (s : Stmt) → Hold [s.tree] (s.owned owner)
  | .block body => body.held owner
  | .localDecl ⟨_, _, _, declarators⟩ =>
    ((Declarator.held_all owner declarators).list).node (by simp)
  | .expr _ value => (value.held owner).node (by simp)
  | .ifElse _ cond onTrue onFalse =>
    ((cond.held owner).append ((onTrue.held owner).append
      (Stmt.held_option owner onFalse))).node (by simp)
  | .whileLoop _ cond body => ((cond.held owner).append (body.held owner)).node (by simp)
  | .doLoop _ body cond => ((body.held owner).append (cond.held owner)).node (by simp)
  | .forLoop _ init cond update body =>
    ((init.held owner).append ((Expr.held_option owner cond).append
      ((Expr.held_all owner update).list.append (body.held owner)))).node (by simp)
  | .forEach _ _ iterable body => ((iterable.held owner).append (body.held owner)).node (by simp)
  | .switch _ selector groups =>
    ((selector.held owner).append ((SwitchGroup.held_all owner groups).list)).node (by simp)
  | .tryCatch _ body clauses cleanup =>
    ((body.held owner).append
      ((CatchClause.held_all owner clauses).list.append
      (Block.held_option owner cleanup))).node (by simp)
  | .returnValue _ value => (Expr.held_option owner value).node (by simp)
  | .throwValue _ value => (value.held owner).node (by simp)
  | .breakTo .. => .nothing
  | .continueTo .. => .nothing
  | .labeled _ _ body => (body.held owner).node (by simp)
  | .empty .. => .nothing
  | .localClass _ ⟨pos, modifiers, name, members⟩ =>
    (ClassDecl.held _ ⟨pos, modifiers, name, members⟩).node (by simp)

theorem Stmt.held_all (owner : Text) : (ss : List Stmt) →
    Hold (Stmt.trees ss) (Stmt.ownedAll owner ss)
  | [] => .nothing
  | s :: ss => (s.held owner).append (Stmt.held_all owner ss)

theorem Stmt.held_option (owner : Text) : (s : Option Stmt) →
    Hold [Stmt.treeOption s] (Stmt.ownedOption owner s)
  | none => .nothing
  | some s => s.held owner

theorem ForInit.held (owner : Text) : (i : ForInit) → Hold [i.tree] (i.owned owner)
  | .decl ⟨_, _, _, declarators⟩ =>
    ((Declarator.held_all owner declarators).list.node (by simp)).list
  | .exprs values => (Expr.held_statements owner values).list

theorem Expr.held_statements (owner : Text) : (es : List Expr) →
    Hold (Expr.statementTrees es) (Expr.ownedAll owner es)
  | [] => .nothing
  | e :: es => ((e.held owner).node (by simp)).append (Expr.held_statements owner es)

theorem Block.held (owner : Text) : (b : Block) → Hold [b.tree] (b.owned owner)
  | ⟨_, stmts⟩ => (Stmt.held_all owner stmts).list.node (by simp)

theorem Block.held_option (owner : Text) : (b : Option Block) →
    Hold [Block.treeOption b] (Block.ownedOption owner b)
  | none => .nothing
  | some b => b.held owner

theorem Declarator.held_all (owner : Text) : (ds : List Declarator) →
    Hold (Declarator.trees ds) (Declarator.ownedAll owner ds)
  | [] => .nothing
  | ⟨_, _, _, init⟩ :: ds =>
    ((Expr.held_option owner init).node (by simp)).append (Declarator.held_all owner ds)

theorem SwitchGroup.held_all (owner : Text) : (gs : List SwitchGroup) →
    Hold (SwitchGroup.trees gs) (SwitchGroup.ownedAll owner gs)
  | [] => .nothing
  | ⟨_, labels, _, body⟩ :: gs => by
    have hgroup := (Expr.held_all owner labels).list.append (Stmt.held_all owner body).list
    rw [SwitchGroup.ownedAll, ← List.append_assoc]
    exact (hgroup.node (by simp)).append (SwitchGroup.held_all owner gs)

theorem CatchClause.held_all (owner : Text) : (cs : List CatchClause) →
    Hold (CatchClause.trees cs) (CatchClause.ownedAll owner cs)
  | [] => .nothing
  | ⟨_, _, _, body⟩ :: cs =>
    ((body.held owner).node (by simp)).append (CatchClause.held_all owner cs)

theorem Member.held_inside (owner : Text) (number : Nat) : (ms : List Member) →
    Hold (Member.trees ms) (Member.ownedInside owner number ms)
  | [] => .nothing
  | .field _ _ _ declarators :: ms =>
    ((Declarator.held_all owner declarators).list.node (by simp)).append
      (Member.held_inside owner number ms)
  | .method _ _ _ _ _ body :: ms =>
    ((Block.held_option _ body).node (by simp)).append (Member.held_inside owner number ms)
  | .initializer _ _ body :: ms =>
    ((body.held _).node (by simp)).append (Member.held_inside owner (number + 1) ms)
  | .classDecl ⟨pos, modifiers, name, members⟩ :: ms =>
    (ClassDecl.held (owner ++ "." ++ name) ⟨pos, modifiers, name, members⟩).append
      (Member.held_inside owner number ms)

theorem ClassDecl.held (label : Text) : (d : ClassDecl) →
    Hold [d.tree] (Member.owned label 0 d.members ++ Member.ownedInside label 0 d.members)
  | ⟨_, _, _, members⟩ =>
    ((Member.held_owned label 0 members).both (Member.held_inside label 0 members)).list.node
      (by simp)

end

theorem Program.body_ownedMembers {p : Program} {m : OwnedMember} (hm : m ∈ p.ownedMembers) :
    m.member.body?.isSome = true := by
  obtain ⟨decl, -, hm⟩ := List.mem_flatMap.1 hm
  exact (decl.held decl.name m hm).1

/-- Every member of a program that can be analyzed is a part of the program. -/
theorem Program.within_ownedMembers {p : Program} {m : OwnedMember} (hm : m ∈ p.ownedMembers) :
    m.member.tree.Within p.tree := by
  obtain ⟨decl, hdecl, hm⟩ := List.mem_flatMap.1 hm
  obtain ⟨-, u, hu, hwithin⟩ := decl.held decl.name m hm
  rw [List.mem_singleton.1 hu] at hwithin
  exact .field (.head _) (.item (List.mem_map_of_mem hdecl) hwithin)

end WriteOnce
