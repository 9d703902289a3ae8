import WriteOnce.Proofs.Census

/-!
# The labels of members

The members of a program that can be analyzed are all methods with a body and all initializers of
its tree. Each is labelled by the class that declares it. A class within a class adds to the label
of that class, and so does one within a field; a class within the body of a member adds to the label
of the innermost such member.
-/

namespace WriteOnce

open WriteOnce.Tree (Code)

/-! ## Members of a tree -/

namespace Tree

/-- Whether a node is a method with a body or an initializer. -/
def isBodied (label : Text) (fields : List (Text × Tree)) : Bool :=
  (label = "JMethodDecl" || label = "JInitializer") && (placedBody? fields).isSome

mutual

/-- All methods with a body and all initializers in a tree, whichever classes they stand in. -/
def bodied : Tree → List Tree
  | node label fields =>
    (if isBodied label fields then [node label fields] else []) ++ bodiedFields fields
  | list items => bodiedItems items
  | _ => []

def bodiedFields : List (Text × Tree) → List Tree
  | [] => []
  | (_, t) :: fields => bodied t ++ bodiedFields fields

def bodiedItems : List Tree → List Tree
  | [] => []
  | t :: items => bodied t ++ bodiedItems items

end

theorem bodied_ownCode (label : Text) (fields : List (Text × Tree)) (around : Tree) :
    (if isBodied label fields then [node label fields] else []) =
      ((if isMember label ∨ label = "JLambda" then
        ownCode (if isMember label then node label fields else around) label fields
      else []).filter Code.isOwn).map Code.member := by
  cases hown : (label = "JMethodDecl" || label = "JInitializer") with
  | true =>
    have hmember : isMember label = true := by
      rw [isMember, Bool.or_assoc, hown, Bool.or_true]
    rw [hmember, if_pos (Or.inl rfl), if_pos rfl, isBodied, hown, Bool.true_and, ownCode]
    cases placedBody? fields with
    | none => rfl
    | some placed =>
      have hown : (Code.isOwn ⟨node label fields, ⟨label, placed.1⟩, placed.2⟩) = true := hown
      simp [hown]
  | false =>
    have hnone : ∀ member, (ownCode member label fields).filter Code.isOwn = [] := by
      refine fun member => List.filter_eq_nil_iff.2 fun c hc => ?_
      obtain ⟨placed, -, rfl⟩ := List.mem_map.1 hc
      exact Bool.eq_false_iff.1 hown
    rw [isBodied, hown, Bool.false_and, if_neg Bool.false_ne_true]
    split
    · rw [hnone]
      rfl
    · rfl

mutual

/-- They are those of which there is code. -/
theorem bodied_eq : (t around : Tree) →
    t.bodied = ((t.code around).filter Code.isOwn).map Code.member
  | node label fields, around => by
    rw [bodied, code, List.filter_append, List.map_append, bodied_ownCode label fields around,
      bodiedFields_eq fields (if isMember label then node label fields else around)]
  | list items, around => bodiedItems_eq items around
  | place _, _ | text _, _ | number _, _ | flag _, _ | absent, _ => rfl

theorem bodiedFields_eq : (fields : List (Text × Tree)) → (around : Tree) →
    bodiedFields fields = ((codeFields fields around).filter Code.isOwn).map Code.member
  | [], _ => rfl
  | (_, t) :: fields, around => by
    rw [bodiedFields, codeFields, List.filter_append, List.map_append, bodied_eq t around,
      bodiedFields_eq fields around]

theorem bodiedItems_eq : (items : List Tree) → (around : Tree) →
    bodiedItems items = ((codeItems items around).filter Code.isOwn).map Code.member
  | [], _ => rfl
  | t :: items, around => by
    rw [bodiedItems, codeItems, List.filter_append, List.map_append, bodied_eq t around,
      bodiedItems_eq items around]

end

/-! ## Classes within a tree -/

/-- Whether what stands in this field of a node stands in no other class than the node. -/
def Opens (label field : Text) : Prop :=
  label ≠ "JClassDecl" ∧ ¬(label = "JNew" ∧ field = "body")

/-- A local or anonymous class with these members stands in a tree, and in no other class there.
The suffix tells its label from that of what is around it. -/
inductive Hosts (suffix : Text) (members : List Member) : Tree → Prop
  | localClass {pos : Pos} {decl : ClassDecl} (hsuffix : suffix = "$" ++ decl.name)
    (hmembers : members = decl.members) : Hosts suffix members (Stmt.localClass pos decl).tree
  | anonymous {pos : Pos} {type : TypeRef} {args : List Expr}
    (hsuffix : suffix = "$anon@" ++ pos.text) :
    Hosts suffix members (Expr.newAnonymous pos type args members).tree
  | field {label name : Text} {u : Tree} {fields : List (Text × Tree)} (hu : (name, u) ∈ fields)
    (hopen : Opens label name) (h : Hosts suffix members u) :
    Hosts suffix members (.node label fields)
  | item {u : Tree} {items : List Tree} (hu : u ∈ items) (h : Hosts suffix members u) :
    Hosts suffix members (.list items)

end Tree

/-- The members of a class of the program, and the label of the class. A class within another one
adds to the label of that class, and so does one within a field of it. A class within a member that
was found adds to the label of the innermost such member. -/
inductive Program.Home (p : Program) : Text → List Member → Prop
  | top {c : ClassDecl} (hc : c ∈ p.classes) : Home p c.name c.members
  | inClass {label : Text} {members : List Member} {c : ClassDecl} (h : Home p label members)
    (hc : .classDecl c ∈ members) : Home p (label ++ "." ++ c.name) c.members
  | inMember {suffix : Text} {inner : List Member} {m : OwnedMember} (hm : m ∈ p.ownedMembers)
    (hinner : m.member.tree.Hosts suffix inner) : Home p (m.owner ++ suffix) inner
  | inField {label suffix : Text} {members inner : List Member} {pos : Pos}
    {modifiers : List Modifier} {type : TypeRef} {declarators : List Declarator}
    (h : Home p label members) (hm : .field pos modifiers type declarators ∈ members)
    (hinner : (Member.field pos modifiers type declarators).tree.Hosts suffix inner) :
    Home p (label ++ suffix) inner

namespace Program

/-- Members that are declared in classes of the program, and are labelled by them. -/
def Labels (p : Program) (ms : List OwnedMember) : Prop :=
  ∀ m ∈ ms, ∃ label members, p.Home label members ∧ m ∈ Member.owned label 0 members

/-- Members of the classes within some trees, if these stand in what has the label `owner`. -/
def LabelsWithin (p : Program) (owner : Text) (us : List Tree) (ms : List OwnedMember) : Prop :=
  (∀ u ∈ us, ∀ suffix members, u.Hosts suffix members → p.Home (owner ++ suffix) members) →
    ms ⊆ p.ownedMembers → p.Labels ms

variable {p : Program} {owner : Text} {us vs : List Tree} {ms ns : List OwnedMember}

theorem Home.labels {members : List Member} (h : p.Home owner members) :
    p.Labels (Member.owned owner 0 members) := fun _ hm => ⟨owner, members, h, hm⟩

theorem Labels.append (h : p.Labels ms) (h' : p.Labels ns) : p.Labels (ms ++ ns) :=
  List.forall_mem_append.2 ⟨h, h'⟩

namespace LabelsWithin

theorem nothing : p.LabelsWithin owner us [] := fun _ _ _ hm => nomatch hm

theorem append (h : p.LabelsWithin owner us ms) (h' : p.LabelsWithin owner vs ns) :
    p.LabelsWithin owner (us ++ vs) (ms ++ ns) := by
  intro hhost hfound
  obtain ⟨hleft, hright⟩ := List.forall_mem_append.1 hhost
  obtain ⟨hms, hns⟩ := List.append_subset.1 hfound
  exact (h hleft hms).append (h' hright hns)

theorem list (h : p.LabelsWithin owner us ms) : p.LabelsWithin owner [.list us] ms := fun hhost =>
  h fun _ hu _ _ hinner => hhost _ (.head _) _ _ (.item hu hinner)

theorem node {label : Text} {fields : List (Text × Tree)} (h : p.LabelsWithin owner us ms)
    (hlabel : label ≠ "JClassDecl" ∧ label ≠ "JNew") (hsub : us ⊆ fields.map Prod.snd) :
    p.LabelsWithin owner [.node label fields] ms := by
  intro hhost
  refine h fun u hu suffix members hinner => hhost _ (.head _) suffix members ?_
  obtain ⟨⟨name, _⟩, hfield, rfl⟩ := List.mem_map.1 (hsub hu)
  exact .field hfield ⟨hlabel.1, fun hnew => hlabel.2 hnew.1⟩ hinner

/-- Arguments, sizes and elements of a new object stand outside of the class that it may have. -/
theorem new {fields : List (Text × Tree)} (h : p.LabelsWithin owner us ms)
    (hsub : us ⊆ (fields.filter fun field => field.1 ≠ ("body" : Text)).map Prod.snd) :
    p.LabelsWithin owner [.node "JNew" fields] ms := by
  intro hhost
  refine h fun u hu suffix members hinner => hhost _ (.head _) suffix members ?_
  obtain ⟨⟨name, _⟩, hfield, rfl⟩ := List.mem_map.1 (hsub hu)
  obtain ⟨hfield, hname⟩ := List.mem_filter.1 hfield
  exact .field hfield ⟨by simp, fun hbody => of_decide_eq_true hname hbody.2⟩ hinner

theorem of_tree {u : Tree} (h : p.LabelsWithin owner [u] ms)
    (hfound : ms ⊆ p.ownedMembers)
    (hhost : ∀ suffix members, u.Hosts suffix members → p.Home (owner ++ suffix) members) :
    p.Labels ms :=
  h (List.forall_mem_singleton.2 hhost) hfound

end LabelsWithin

end Program

/-- A member of a class extends the label of the class. -/
theorem Member.label_of_mem_owned {label : Text} {number : Nat} {ms : List Member} {m : OwnedMember}
    (hm : m ∈ Member.owned label number ms) : ∃ own, m.owner = label ++ own := by
  fun_induction Member.owned label number ms with
  | case1 => cases hm
  | case2 _ _ pos _ _ name _ _ ih =>
    obtain rfl | hm := List.mem_cons.1 hm
    · exact ⟨_, by rw [Member.methodLabel, Text.append_assoc, Text.append_assoc, Text.append_assoc]⟩
    · exact ih hm
  | case3 _ _ _ isStatic _ ih =>
    obtain rfl | hm := List.mem_cons.1 hm
    · exact ⟨_, by rw [Member.initializerLabel, Text.append_assoc]⟩
    · exact ih hm
  | case4 _ _ _ _ _ ih => exact ih hm

section Labels

variable (p : Program)

mutual

theorem Expr.labels (owner : Text) : (e : Expr) → p.LabelsWithin owner [e.tree] (e.owned owner)
  | .literal .. | .name .. => .nothing
  | .field _ operand _ | .unary _ _ operand | .step _ _ _ operand | .instanceOf _ operand _
  | .cast _ _ operand | .methodRef _ operand _ => (operand.labels owner).node (by simp) (by simp)
  | .index _ first second | .binary _ _ first second | .assign _ _ first second =>
    ((first.labels owner).append (second.labels owner)).node (by simp) (by simp)
  | .call _ callee args =>
    ((callee.labels owner).append (Expr.labels_all owner args).list).node (by simp) (by simp)
  | .newObject _ _ args | .newArray _ _ args => (Expr.labels_all owner args).list.new (by simp)
  | .newAnonymous pos type args members => by
    intro hhost hfound
    obtain ⟨hmembers, hargs⟩ := List.append_subset.1 hfound
    obtain ⟨hown, hinside⟩ := List.append_subset.1 hmembers
    have hhome : p.Home (Member.anonymousLabel owner pos) members := by
      rw [Member.anonymousLabel, Text.append_assoc]
      exact hhost _ (.head _) _ _ (.anonymous rfl)
    exact (hhome.labels.append (Member.labels_inside hhome 0 members (List.Subset.refl _) hown
      hinside)).append (((Expr.labels_all owner args).list.new (by simp)) hhost hargs)
  | .newArrayOf _ _ elementsPos elements => by
    have helements : p.LabelsWithin owner
        [.node "JArrayLit" [("pos", .place elementsPos), ("elements", .list (Expr.trees elements))]]
        (Expr.ownedAll owner elements) :=
      (Expr.labels_all owner elements).list.node (by simp) (by simp)
    exact helements.new (by simp)
  | .arrayLit _ elements => (Expr.labels_all owner elements).list.node (by simp) (by simp)
  | .conditional _ cond onTrue onFalse =>
    ((cond.labels owner).append ((onTrue.labels owner).append (onFalse.labels owner))).node
      (by simp) (by simp)
  | .lambda _ _ body => (body.labels owner).node (by simp) (by simp)

theorem Expr.labels_all (owner : Text) : (es : List Expr) →
    p.LabelsWithin owner (Expr.trees es) (Expr.ownedAll owner es)
  | [] => .nothing
  | e :: es => (e.labels owner).append (Expr.labels_all owner es)

theorem Expr.labels_option (owner : Text) : (e : Option Expr) →
    p.LabelsWithin owner [Expr.treeOption e] (Expr.ownedOption owner e)
  | none => .nothing
  | some e => e.labels owner

theorem LambdaBody.labels (owner : Text) : (b : LambdaBody) →
    p.LabelsWithin owner [b.tree] (b.owned owner)
  | .expr body => body.labels owner
  | .block body => body.labels owner

theorem Stmt.labels (owner : Text) : (s : Stmt) → p.LabelsWithin owner [s.tree] (s.owned owner)
  | .block body => body.labels owner
  | .localDecl ⟨_, _, _, declarators⟩ =>
    (Declarator.labels_all owner declarators).list.node (by simp) (by simp)
  | .expr _ value => (value.labels owner).node (by simp) (by simp)
  | .ifElse _ cond onTrue onFalse =>
    ((cond.labels owner).append ((onTrue.labels owner).append
      (Stmt.labels_option owner onFalse))).node (by simp) (by simp)
  | .whileLoop _ cond body =>
    ((cond.labels owner).append (body.labels owner)).node (by simp) (by simp)
  | .doLoop _ body cond => ((body.labels owner).append (cond.labels owner)).node (by simp) (by simp)
  | .forLoop _ init cond update body =>
    ((init.labels owner).append ((Expr.labels_option owner cond).append
      ((Expr.labels_all owner update).list.append (body.labels owner)))).node (by simp) (by simp)
  | .forEach _ _ iterable body =>
    ((iterable.labels owner).append (body.labels owner)).node (by simp) (by simp)
  | .switch _ selector groups =>
    ((selector.labels owner).append (SwitchGroup.labels_all owner groups).list).node
      (by simp) (by simp)
  | .tryCatch _ body clauses cleanup =>
    ((body.labels owner).append ((CatchClause.labels_all owner clauses).list.append
      (Block.labels_option owner cleanup))).node (by simp) (by simp)
  | .returnValue _ value => (Expr.labels_option owner value).node (by simp) (by simp)
  | .throwValue _ value => (value.labels owner).node (by simp) (by simp)
  | .breakTo .. | .continueTo .. | .empty .. => .nothing
  | .labeled _ _ body => (body.labels owner).node (by simp) (by simp)
  | .localClass pos ⟨inner, modifiers, name, members⟩ => by
    intro hhost hfound
    obtain ⟨hown, hinside⟩ := List.append_subset.1 hfound
    have hhome : p.Home (owner ++ "$" ++ name) members := by
      rw [Text.append_assoc]
      exact hhost _ (.head _) _ _ (.localClass rfl rfl)
    exact hhome.labels.append (Member.labels_inside hhome 0 members (List.Subset.refl _) hown
      hinside)

theorem Stmt.labels_all (owner : Text) : (ss : List Stmt) →
    p.LabelsWithin owner (Stmt.trees ss) (Stmt.ownedAll owner ss)
  | [] => .nothing
  | s :: ss => (s.labels owner).append (Stmt.labels_all owner ss)

theorem Stmt.labels_option (owner : Text) : (s : Option Stmt) →
    p.LabelsWithin owner [Stmt.treeOption s] (Stmt.ownedOption owner s)
  | none => .nothing
  | some s => s.labels owner

theorem ForInit.labels (owner : Text) : (i : ForInit) →
    p.LabelsWithin owner [i.tree] (i.owned owner)
  | .decl ⟨_, _, _, declarators⟩ =>
    ((Declarator.labels_all owner declarators).list.node (by simp) (by simp)).list
  | .exprs values => (Expr.labels_statements owner values).list

theorem Expr.labels_statements (owner : Text) : (es : List Expr) →
    p.LabelsWithin owner (Expr.statementTrees es) (Expr.ownedAll owner es)
  | [] => .nothing
  | e :: es => ((e.labels owner).node (by simp) (by simp)).append (Expr.labels_statements owner es)

theorem Block.labels (owner : Text) : (b : Block) → p.LabelsWithin owner [b.tree] (b.owned owner)
  | ⟨_, stmts⟩ => (Stmt.labels_all owner stmts).list.node (by simp) (by simp)

theorem Block.labels_option (owner : Text) : (b : Option Block) →
    p.LabelsWithin owner [Block.treeOption b] (Block.ownedOption owner b)
  | none => .nothing
  | some b => b.labels owner

theorem Declarator.labels_all (owner : Text) : (ds : List Declarator) →
    p.LabelsWithin owner (Declarator.trees ds) (Declarator.ownedAll owner ds)
  | [] => .nothing
  | ⟨_, _, _, init⟩ :: ds =>
    ((Expr.labels_option owner init).node (by simp) (by simp)).append
      (Declarator.labels_all owner ds)

theorem SwitchGroup.labels_all (owner : Text) : (gs : List SwitchGroup) →
    p.LabelsWithin owner (SwitchGroup.trees gs) (SwitchGroup.ownedAll owner gs)
  | [] => .nothing
  | ⟨_, labels, _, body⟩ :: gs => by
    have hgroup := (Expr.labels_all owner labels).list.append (Stmt.labels_all owner body).list
    rw [SwitchGroup.ownedAll, ← List.append_assoc]
    exact (hgroup.node (by simp) (by simp)).append (SwitchGroup.labels_all owner gs)

theorem CatchClause.labels_all (owner : Text) : (cs : List CatchClause) →
    p.LabelsWithin owner (CatchClause.trees cs) (CatchClause.ownedAll owner cs)
  | [] => .nothing
  | ⟨_, _, _, body⟩ :: cs =>
    ((body.labels owner).node (by simp) (by simp)).append (CatchClause.labels_all owner cs)

/-- The members of classes within the last ones of the members of a class. -/
theorem Member.labels_inside {label : Text} {members : List Member} (hhome : p.Home label members)
    (number : Nat) : (ms : List Member) → ms ⊆ members →
    Member.owned label number ms ⊆ p.ownedMembers →
    Member.ownedInside label number ms ⊆ p.ownedMembers →
    p.Labels (Member.ownedInside label number ms)
  | [], _, _, _ => fun _ hm => nomatch hm
  | .field pos modifiers type declarators :: ms, hms, hown, hfound => by
    obtain ⟨hm, hms⟩ := List.cons_subset.1 hms
    obtain ⟨hinner, hfound⟩ := List.append_subset.1 hfound
    have hfield : p.LabelsWithin label [(Member.field pos modifiers type declarators).tree]
        (Declarator.ownedAll label declarators) :=
      (Declarator.labels_all label declarators).list.node (by simp) (by simp)
    exact (hfield.of_tree hinner fun _ _ hhosts => hhome.inField hm hhosts).append
      (Member.labels_inside hhome number ms hms hown hfound)
  | .method _ _ _ _ _ none :: ms, hms, hown, hfound =>
    Member.labels_inside hhome number ms (List.cons_subset.1 hms).2 hown hfound
  | .method pos modifiers result name params (some body) :: ms, hms, hown, hfound => by
    obtain ⟨hm, hown⟩ := List.cons_subset.1 hown
    obtain ⟨hinner, hfound⟩ := List.append_subset.1 hfound
    have hmethod : p.LabelsWithin (Member.methodLabel label name pos)
        [(Member.method pos modifiers result name params (some body)).tree]
        (body.owned (Member.methodLabel label name pos)) :=
      (Block.labels _ body).node (by simp) (by simp [Block.treeOption])
    exact (hmethod.of_tree hinner fun _ _ hhosts => .inMember hm hhosts).append
      (Member.labels_inside hhome number ms (List.cons_subset.1 hms).2 hown hfound)
  | .initializer pos isStatic body :: ms, hms, hown, hfound => by
    obtain ⟨hm, hown⟩ := List.cons_subset.1 hown
    obtain ⟨hinner, hfound⟩ := List.append_subset.1 hfound
    have hinitializer : p.LabelsWithin (Member.initializerLabel label isStatic number)
        [(Member.initializer pos isStatic body).tree]
        (body.owned (Member.initializerLabel label isStatic number)) :=
      (Block.labels _ body).node (by simp) (by simp)
    exact (hinitializer.of_tree hinner fun _ _ hhosts => .inMember hm hhosts).append
      (Member.labels_inside hhome (number + 1) ms (List.cons_subset.1 hms).2 hown hfound)
  | .classDecl ⟨_, _, _, inner⟩ :: ms, hms, hown, hfound => by
    obtain ⟨hm, hms⟩ := List.cons_subset.1 hms
    obtain ⟨hclass, hfound⟩ := List.append_subset.1 hfound
    obtain ⟨hinner, hinside⟩ := List.append_subset.1 hclass
    have hclass := hhome.inClass hm
    exact (hclass.labels.append (Member.labels_inside hclass 0 inner (List.Subset.refl _) hinner
      hinside)).append (Member.labels_inside hhome number ms hms hown hfound)

end

end Labels

/-- Every method with a body and every initializer of a program is found once, and nothing else. Its
label extends that of the class which declares it, which in turn extends the label of the innermost
member around the class, if there is one. -/
theorem Program.ownedMembers_labelled (p : Program) :
    (p.ownedMembers.map fun m => m.member.tree).Perm p.tree.bodied ∧
      ∀ m ∈ p.ownedMembers, ∃ label members, p.Home label members ∧
        m ∈ Member.owned label 0 members ∧ ∃ own, m.owner = label ++ own := by
  constructor
  · rw [Tree.bodied_eq p.tree .absent]
    exact p.perm_members.symm
  · intro m hm
    obtain ⟨c, hc, hm⟩ := List.mem_flatMap.1 hm
    have hhome : p.Home c.name c.members := .top hc
    have hclass : Member.owned c.name 0 c.members ++ Member.ownedInside c.name 0 c.members ⊆
        p.ownedMembers := fun m hm => List.mem_flatMap.2 ⟨c, hc, hm⟩
    obtain ⟨hown, hinside⟩ := List.append_subset.1 hclass
    obtain ⟨label, members, hhome, hm⟩ := hhome.labels.append (Member.labels_inside p hhome 0
      c.members (List.Subset.refl _) hown hinside) m hm
    exact ⟨label, members, hhome, hm, Member.label_of_mem_owned hm⟩

end WriteOnce
