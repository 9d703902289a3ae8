import WriteOnce.Proofs.BuilderFrames
import WriteOnce.Proofs.KeptEdges

/-!
# The builder ends

Wherever the builder is, it performs the draft of every statement: it comes in
finitely many steps to what the draft leaves behind, or to the error for which there
is no draft. The induction is on the statement. The cleanup blocks that a jump builds
again need no measure of their own, since what is around a statement holds only
blocks that the builder is known to perform.
-/

namespace WriteOnce

namespace FlowGraph

variable {r : Resolution} {H : List (List Nat)} {F : List JumpFrame} {G : List Frame}
  {tasks : List Task} {o : Split} {ends : Frontier} {d : Draft}

/-! ## Statements -/

theorem follows_while {pos : Pos} {cond : Expr} {body : Stmt} (labels : List Text)
    (hbody : Follows r [] (.stmt body) fun s => draftStmt r s [] body) :
    Follows r labels (.stmt (.whileLoop pos cond body))
      fun s => draftStmt r s labels (.whileLoop pos cond body) := by
  intro H F G hm tasks o ends d
  simp only [draftStmt, Surroundings.depth, hm.length_eq]
  refine .step rfl (.bind fun head d₁ _ => .done ?_)
  refine (performs_cond cond _ _).bind fun split b d₂ _ hb => ?_
  obtain ⟨f, rfl⟩ := hb
  refine .move rfl ?_
  refine (hbody (hm.opened (.loop labels)) _ _ _ _).bind fun flow b d₃ _ hb => ?_
  obtain ⟨⟨o, rfl⟩, hflow⟩ := hb
  rw [parkAll_opened]
  refine .step rfl (.bind fun _ d₄ _ => .done ?_)
  exact .step rfl (.bind fun _ d₅ _ => .done (.done (.closed hflow)))

theorem follows_do {pos : Pos} {cond : Expr} {body : Stmt} (labels : List Text)
    (hbody : Follows r [] (.stmt body) fun s => draftStmt r s [] body) :
    Follows r labels (.stmt (.doLoop pos body cond))
      fun s => draftStmt r s labels (.doLoop pos body cond) := by
  intro H F G hm tasks o ends d
  simp only [draftStmt, Surroundings.depth, hm.length_eq]
  refine .step rfl (.bind fun head d₁ _ => .done ?_)
  refine (hbody (hm.opened (.loop labels)) _ _ _ _).bind fun flow b d₂ _ hb => ?_
  obtain ⟨⟨o, rfl⟩, hflow⟩ := hb
  rw [parkAll_opened]
  refine .move rfl ?_
  refine (performs_cond cond _ _).bind fun split b d₃ _ hb => ?_
  obtain ⟨f, rfl⟩ := hb
  refine .move rfl ?_
  exact .step rfl (.bind fun _ d₄ _ => .done (.done (.closed hflow)))

theorem follows_for {pos : Pos} {init : ForInit} {cond : Option Expr} {update : List Expr}
    {body : Stmt} (labels : List Text)
    (hbody : Follows r [] (.stmt body) fun s => draftStmt r s [] body) :
    Follows r labels (.stmt (.forLoop pos init cond update body))
      fun s => draftStmt r s labels (.forLoop pos init cond update body) := by
  intro H F G hm tasks o ends d
  simp only [draftStmt, Surroundings.depth, hm.length_eq]
  refine .move rfl ?_
  simp only [Builder.push, List.append_assoc]
  refine (performs_forInit init ends d).bind fun ends b d₁ _ hb => ?_
  subst hb
  refine .step rfl (.bind fun head d₂ _ => .done ?_)
  refine (performs_condition cond _ _).bind fun split b d₃ _ hb => ?_
  obtain ⟨f, rfl⟩ := hb
  refine .move rfl ?_
  refine (hbody (hm.opened (.loop labels)) _ _ _ _).bind fun flow b d₄ _ hb => ?_
  obtain ⟨⟨o, rfl⟩, hflow⟩ := hb
  rw [parkAll_opened]
  refine .move rfl ?_
  simp only [Builder.push, Builder.reach, List.append_assoc]
  refine (performs_exprs update _ _).bind fun ends b d₅ _ hb => ?_
  subst hb
  exact .step rfl (.bind fun _ d₆ _ => .done (.done (.closed hflow)))

theorem follows_forEach {pos : Pos} {param : Param} {iterable : Expr} {body : Stmt}
    (labels : List Text) (hbody : Follows r [] (.stmt body) fun s => draftStmt r s [] body) :
    Follows r labels (.stmt (.forEach pos param iterable body))
      fun s => draftStmt r s labels (.forEach pos param iterable body) := by
  intro H F G hm tasks o ends d
  simp only [draftStmt, Surroundings.depth, hm.length_eq]
  refine .move rfl ?_
  refine (performs_expr iterable _ _).bind fun split b d₁ _ hb => ?_
  subst hb
  refine .step rfl (.bind fun head d₂ _ => .bind fun test d₃ _ => .bind fun ends d₄ _ => .done ?_)
  refine (hbody (hm.opened (.loop labels)) _ _ _ _).bind fun flow b d₅ _ hb => ?_
  obtain ⟨⟨o, rfl⟩, hflow⟩ := hb
  rw [parkAll_opened]
  refine .step rfl (.bind fun _ d₆ _ => .done ?_)
  exact .step rfl (.bind fun _ d₇ _ => .done (.done (.closed hflow)))

theorem follows_switch {pos : Pos} {selector : Expr} {groups : List SwitchGroup}
    (labels : List Text) (hgroups : ∀ test, Follows r [] (.groups test groups)
      fun s => draftGroups r s test groups) :
    Follows r labels (.stmt (.switch pos selector groups))
      fun s => draftStmt r s labels (.switch pos selector groups) := by
  intro H F G hm tasks o ends d
  simp only [draftStmt, Surroundings.depth, hm.length_eq]
  refine .move rfl ?_
  refine (performs_expr selector _ _).bind fun split b d₁ _ hb => ?_
  subst hb
  refine .step rfl (.bind fun test d₂ _ => .done ?_)
  refine (hgroups test (hm.opened (.switch labels)) _ _ _ _).bind
    fun flow b d₃ _ hb => ?_
  obtain ⟨⟨o, rfl⟩, hflow⟩ := hb
  rw [parkAll_opened]
  refine .move rfl (.done ?_)
  simp only [Builder.reach, List.append_assoc]
  exact .closed hflow

theorem performs_branch {onFalse : Option Stmt}
    (hfalse : ∀ stmt ∈ onFalse, Follows r [] (.stmt stmt) fun s => draftStmt r s [] stmt)
    (hm : Mirrors r H F G) (ends : Frontier) (d : Draft) : (Builder.next r).Performs
      ⟨onFalse.toList.map .stmt ++ tasks, o, ends, H, F, []⟩ d
      (draftBranch r ⟨H.head?, G⟩ onFalse ends) fun flow b _ => Leaves tasks H F flow b := by
  cases onFalse with
  | none => exact .done .through
  | some stmt => exact hfalse stmt rfl hm tasks o ends d

theorem follows_ifElse {pos : Pos} {cond : Expr} {onTrue : Stmt} {onFalse : Option Stmt}
    (htrue : Follows r [] (.stmt onTrue) fun s => draftStmt r s [] onTrue)
    (hfalse : ∀ stmt ∈ onFalse, Follows r [] (.stmt stmt) fun s => draftStmt r s [] stmt) :
    Follows r [] (.stmt (.ifElse pos cond onTrue onFalse))
      fun s => draftStmt r s [] (.ifElse pos cond onTrue onFalse) := by
  intro H F G hm tasks o ends d
  simp only [draftStmt]
  refine .move rfl ((performs_cond cond _ _).bind fun split b d₁ _ hb => ?_)
  obtain ⟨f, rfl⟩ := hb
  refine .move rfl ((htrue hm _ _ _ _).bind fun first b d₂ _ hb => ?_)
  obtain ⟨⟨o, rfl⟩, hfirst⟩ := hb
  refine .move rfl ?_
  simp only [Builder.push, Builder.reach, List.append_assoc]
  refine (performs_branch hfalse (hm.parked first.jumps) _ _).bind fun second b d₃ _ hb => ?_
  obtain ⟨⟨o, rfl⟩, hsecond⟩ := hb
  refine .step rfl
    (.ite (fun _ => .done (.done ?_)) fun _ => .bind fun ends d₄ _ => .done (.done ?_))
  · exact .joined hfirst hsecond
  · exact .joined hfirst hsecond

theorem follows_cons {stmt : Stmt} {stmts : List Stmt}
    (hstmt : Follows r [] (.stmt stmt) fun s => draftStmt r s [] stmt)
    (hstmts : Follows r [] (.stmts stmts) fun s => draftStmts r s stmts) :
    Follows r [] (.stmts (stmt :: stmts)) fun s => draftStmts r s (stmt :: stmts) := by
  intro H F G hm tasks o ends d
  simp only [draftStmts]
  refine .move rfl ((hstmt hm _ _ _ _).bind fun first b d₁ _ hb => ?_)
  obtain ⟨⟨o, rfl⟩, hfirst⟩ := hb
  exact (hstmts (hm.parked first.jumps) _ _ _ _).bind fun others b d₂ _ hothers =>
    .done (hothers.behind hfirst)

theorem follows_group {test : Nat} {group : SwitchGroup} {groups : List SwitchGroup}
    (hgroup : Follows r [] (.stmts group.body) fun s => draftStmts r s group.body)
    (hgroups : Follows r [] (.groups test groups) fun s => draftGroups r s test groups) :
    Follows r [] (.groups test (group :: groups))
      fun s => draftGroups r s test (group :: groups) := by
  intro H F G hm tasks o ends d
  obtain ⟨pos, _, _, body⟩ := group
  simp only [draftGroups]
  refine .step rfl (.bind fun ends d₁ _ => .done ?_)
  refine (hgroup hm _ _ _ _).bind fun first b d₂ _ hb => ?_
  obtain ⟨⟨o, rfl⟩, hfirst⟩ := hb
  exact (hgroups (hm.parked first.jumps) _ _ _ _).bind fun others b d₃ _ hothers =>
    .done (hothers.behind hfirst)

/-! ## Regions with handlers -/

/-- The ends of the clauses are added to those that the region in front of them has left. -/
theorem performs_clauses {clauses : List CatchClause}
    (hclauses : ∀ clause ∈ clauses,
      Follows r [] (.stmts clause.body.stmts) fun s => draftBlock r s clause.body)
    (hm : Mirrors r H F G) (nodes : List Nat) (tails ends : Frontier) (o : Split) (d : Draft) :
    (Builder.next r).Performs ⟨.clauses clauses nodes tails :: tasks, o, ends, H, F, []⟩ d
      (draftClauses r ⟨H.head?, G⟩ clauses nodes) fun flow b _ =>
        Leaves tasks H F ⟨tails ++ ends ++ flow.next, flow.jumps⟩ b := by
  induction clauses generalizing nodes tails ends F o d with
  | nil => exact .move rfl (.done .stopped)
  | cons clause clauses ih =>
    simp only [List.mem_cons, forall_eq_or_imp] at hclauses
    obtain ⟨pos, param, types, body⟩ := clause
    cases nodes with
    | nil => exact .move rfl (.done .stopped)
    | cons node nodes =>
      simp only [draftClauses]
      refine .move rfl ((hclauses.1 hm _ _ _ _).bind fun first b d₁ _ hb => ?_)
      obtain ⟨⟨o, rfl⟩, hfirst⟩ := hb
      refine (ih hclauses.2 (hm.parked first.jumps) _ _ _ _ _).bind fun others b d₂ _ hothers => ?_
      rw [List.append_assoc] at hothers
      exact .done (hothers.behind hfirst)

theorem follows_handled {pos : Pos} {body : Block} {clauses : List CatchClause}
    (hbody : Follows r [] (.stmts body.stmts) fun s => draftBlock r s body)
    (hclauses : ∀ clause ∈ clauses,
      Follows r [] (.stmts clause.body.stmts) fun s => draftBlock r s clause.body) :
    Follows r [] (.stmt (.tryCatch pos body clauses none))
      fun s => draftStmt r s [] (.tryCatch pos body clauses none) := by
  intro H F G hm tasks o ends d
  simp only [draftStmt]
  refine .step rfl (.bind fun nodes d₁ _ => .bind fun ends d₂ _ => .done ?_)
  refine (hbody (hm.guarded (nodes ++ Surroundings.escapes ⟨H.head?, G⟩)) _ _ _ _).bind
    fun first b d₃ _ hb => ?_
  obtain ⟨⟨o, rfl⟩, hfirst⟩ := hb
  refine .move rfl ?_
  exact (performs_clauses hclauses (hm.parked first.jumps) nodes [] _ _ _).bind
    fun others b d₄ _ hothers => .done (hothers.behind hfirst)

/-- An edge from the node in front of a region goes to each of its handlers. -/
theorem exists_edge_of_step {kind : NodeKind} (hkind : kind.isSilent = false)
    {handlers : List Nat} {pos : Option Pos} {binds : List Binding} {writes : List Variable}
    {ends' : Frontier} {d' : Draft} {handler : Nat} (hhandler : handler ∈ handlers)
    (h : step ⟨some handlers, []⟩ kind pos binds writes ends d = .ok (ends', d')) :
    ∃ e ∈ d'.edges, e.target = handler := by
  obtain ⟨id, d₁, hemit, h⟩ := bind_eq_ok.1 h
  cases pure_eq_ok.1 h
  rw [emit_eq] at hemit
  cases hemit
  refine ⟨⟨d.size, handler, .exception⟩, ?_, rfl⟩
  simp [Draft.emitted, Draft.link, raiseTargets, hkind, hhandler]

/-- The copy of a cleanup block for exceptions, behind which they go on. -/
theorem performs_escaped {cleanup : Block} {flow after : Flow} {escape : Nat}
    (hcleanup : Follows r [] (.stmts cleanup.stmts) fun s => draftBlock r s cleanup)
    (hm : Mirrors r H F G) (hflow : ∀ p ∈ flow.jumps, Lands F p.depth)
    (hafter : ∀ p ∈ after.jumps, Lands (parkAll flow.jumps F) p.depth)
    (hedge : ∃ e ∈ d.edges, e.target = escape) : (Builder.next r).Performs
      ⟨.escaped escape cleanup :: tasks, o, after.next, H,
        parkAll after.jumps (parkAll flow.jumps F), []⟩ d
      (do
        let escaped ← draftBlock r ⟨H.head?, G⟩ cleanup [⟨escape, .normal⟩]
        draftRethrow ⟨H.head?, G⟩ escaped.next
        return ⟨after.next, flow.jumps ++ (after.jumps ++ escaped.jumps)⟩)
      fun flow b _ => Leaves tasks H F flow b := by
  have hany : d.edges.any (·.target = escape) = true := by simpa using hedge
  refine .step rfl (.read ?_)
  simp only [hany, if_true]
  refine .done ((hcleanup ((hm.parked flow.jumps).parked after.jumps) _ _ _ _).bind
    fun escaped b d₁ _ hb => ?_)
  obtain ⟨⟨o, rfl⟩, hescaped⟩ := hb
  refine .step rfl (.bind fun _ d₂ _ => .done (.done ?_))
  exact (Leaves.joined hafter hescaped).behind hflow

theorem follows_cleanup {pos : Pos} {body cleanup : Block} {clauses : List CatchClause}
    (hbody : Follows r [] (.stmts body.stmts) fun s => draftBlock r s body)
    (hclauses : ∀ clause ∈ clauses,
      Follows r [] (.stmts clause.body.stmts) fun s => draftBlock r s clause.body)
    (hcleanup : Follows r [] (.stmts cleanup.stmts) fun s => draftBlock r s cleanup) :
    Follows r [] (.stmt (.tryCatch pos body clauses (some cleanup)))
      fun s => draftStmt r s [] (.tryCatch pos body clauses (some cleanup)) := by
  intro H F G hm tasks o ends d
  simp only [draftStmt]
  refine .step rfl (.bind fun escape d₁ _ => .bind fun nodes d₂ _ =>
    .bind fun ends d₃ hregion => .done ?_)
  have hedge₃ : ∃ e ∈ d₃.edges, e.target = escape :=
    exists_edge_of_step rfl (List.mem_append_right nodes List.mem_cons_self) hregion
  -- The jumps out of the region build the block with what is around the whole `try`.
  have hframe : Mirrors r H (.cleanup cleanup H.length F.length :: F)
      (.cleanup (draftBlock r ⟨H.head?, G⟩ cleanup) :: G) :=
    .cleanup (List.suffix_refl H) (fun jumps => hcleanup (hm.parked jumps)) hm
  refine (hbody (hframe.guarded (nodes ++ [escape])) _ _ _ _).bind fun first b d₄ hreach₄ hb => ?_
  obtain ⟨⟨o, rfl⟩, hfirst⟩ := hb
  refine .move rfl ?_
  refine (performs_clauses hclauses ((hframe.parked first.jumps).guarded [escape]) nodes [] _ _
    _).bind fun others b d₅ hreach₅ hb => ?_
  obtain ⟨⟨o, rfl⟩, hothers⟩ := hb
  have hflow : ∀ p ∈ (first ++ others).jumps, Lands F p.depth :=
    lands_append hfirst hothers
  have hedge₅ : ∃ e ∈ d₅.edges, e.target = escape := by
    obtain ⟨e, he, htarget⟩ := hedge₃
    exact ⟨e, edges_of_reaches r hreach₅ e (edges_of_reaches r hreach₄ e he), htarget⟩
  refine .move rfl (.ite (fun hempty => ?_) fun _ => ?_)
  -- Where nothing falls through, the block is built for exceptions only.
  · change (Builder.next r).Performs ⟨.escaped escape cleanup :: tasks, o,
      first.next ++ others.next, H, parkAll others.jumps (parkAll first.jumps F), []⟩ d₅ _ _
    have hnil : first.next ++ others.next = [] := List.isEmpty_iff.1 hempty
    have hstopped : parkAll (first.jumps ++ others.jumps) F =
        parkAll Flow.stopped.jumps (parkAll (first.jumps ++ others.jumps) F) := parkAll_nil.symm
    rw [hnil, ← parkAll_append, pure_bind, hstopped]
    exact performs_escaped hcleanup hm hflow (fun _ hp => by cases hp) hedge₅
  · change (Builder.next r).Performs ⟨.stmts cleanup.stmts :: .escaped escape cleanup :: tasks, o,
      first.next ++ others.next, H, parkAll others.jumps (parkAll first.jumps F), []⟩ d₅ _ _
    rw [← parkAll_append]
    refine (hcleanup (hm.parked _) _ _ _ _).bind fun after b d₆ hreach₆ hb => ?_
    obtain ⟨⟨o, rfl⟩, hafter⟩ := hb
    obtain ⟨e, he, htarget⟩ := hedge₅
    exact performs_escaped hcleanup hm hflow hafter
      ⟨e, edges_of_reaches r hreach₆ e he, htarget⟩

/-! ## All statements -/

/-- What the builder is to do at a statement behind labels. -/
def entryTask (labels : List Text) : Stmt → Task
  | .labeled _ label body => .labels (labels ++ [label]) body
  | stmt => .stmt stmt

/-- The labels that wait for the statement to take them over. -/
def entryLabels (labels : List Text) : Stmt → List Text
  | .labeled .. => []
  | _ => labels

def FollowsBehind (r : Resolution) (labels : List Text) (stmt : Stmt) : Prop :=
  Follows r (entryLabels labels stmt) (entryTask labels stmt) fun s => draftStmt r s labels stmt

theorem FollowsBehind.follows {stmt : Stmt} (h : FollowsBehind r [] stmt) :
    Follows r [] (.stmt stmt) fun s => draftStmt r s [] stmt := by
  cases stmt with
  | labeled pos label body => exact fun _ _ _ hm tasks o ends d => .move rfl (h hm tasks o ends d)
  | _ => exact h

theorem followsBehind_labeled {pos : Pos} {label : Text} {body : Stmt} (labels : List Text)
    (hbody : ∀ labels, labels = [] ∨ takesLabels body = true → FollowsBehind r labels body) :
    FollowsBehind r labels (.labeled pos label body) := by
  intro H F G hm tasks o ends d
  simp only [draftStmt]
  by_cases htakes : takesLabels body = true
  · have hnext : Builder.next r ⟨.labels (labels ++ [label]) body :: tasks, o, ends, H, F, []⟩ =
        some (pure ⟨entryTask (labels ++ [label]) body :: tasks, o, ends, H, F,
          entryLabels (labels ++ [label]) body⟩) := by
      cases body <;> first | rfl | cases htakes
    simp only [htakes, if_true]
    exact .move hnext (hbody _ (.inr htakes) hm tasks o ends d)
  · have hnext : Builder.next r ⟨.labels (labels ++ [label]) body :: tasks, o, ends, H, F, []⟩ =
        some (pure ⟨.stmt body :: .closeBlock :: tasks, o, ends, H,
          .opened (.block (labels ++ [label])) :: F, []⟩) := by
      cases body <;> first | rfl | exact absurd rfl htakes
    simp only [htakes, Surroundings.depth, hm.length_eq]
    refine .move hnext (((hbody [] (.inl rfl)).follows (hm.opened _) _ _ _ _).bind
      fun flow b d₁ _ hb => ?_)
    obtain ⟨⟨o, rfl⟩, hflow⟩ := hb
    exact .move rfl (.done (.closed hflow))

theorem follows_throw {pos : Pos} {value : Expr} : Follows r [] (.stmt (.throwValue pos value))
    fun s => draftStmt r s [] (.throwValue pos value) := by
  intro H F G hm tasks o ends d
  simp only [draftStmt]
  refine .move rfl ((performs_expr value _ _).bind fun split b d₁ _ hb => ?_)
  subst hb
  exact .step rfl (.bind fun _ d₂ _ => .done (.done .through))

mutual

theorem follows_block : ∀ body : Block,
    Follows r [] (.stmts body.stmts) fun s => draftBlock r s body
  | ⟨_, stmts⟩ => follows_stmts stmts

theorem follows_stmts : ∀ stmts : List Stmt,
    Follows r [] (.stmts stmts) fun s => draftStmts r s stmts
  | [] => fun _ _ _ _ _ _ _ _ => .move rfl (.done .through)
  | stmt :: stmts => follows_cons (followsBehind stmt [] (.inl rfl)).follows (follows_stmts stmts)

theorem followsBehind : ∀ (stmt : Stmt) (labels : List Text),
    labels = [] ∨ takesLabels stmt = true → FollowsBehind r labels stmt
  | .block body, _, .inl rfl => fun _ _ _ hm tasks o ends d =>
    .move rfl (follows_block body hm tasks o ends d)
  | .localDecl decl, _, .inl rfl => fun _ _ _ hm tasks o ends d => by
    simp only [draftStmt]
    refine .move rfl ((performs_declarators decl.declarators _ _).bind fun ends b d₁ _ hb => ?_)
    subst hb
    exact .done .through
  | .expr pos value, _, .inl rfl => fun _ _ _ hm tasks o ends d => by
    simp only [draftStmt]
    refine .move rfl ((performs_expr value _ _).bind fun ends b d₁ _ hb => ?_)
    subst hb
    exact .done .through
  | .ifElse pos cond onTrue onFalse, _, .inl rfl =>
    follows_ifElse (followsBehind onTrue [] (.inl rfl)).follows (follows_option onFalse)
  | .whileLoop pos cond body, labels, _ =>
    follows_while labels (followsBehind body [] (.inl rfl)).follows
  | .doLoop pos body cond, labels, _ =>
    follows_do labels (followsBehind body [] (.inl rfl)).follows
  | .forLoop pos init cond update body, labels, _ =>
    follows_for labels (followsBehind body [] (.inl rfl)).follows
  | .forEach pos param iterable body, labels, _ =>
    follows_forEach labels (followsBehind body [] (.inl rfl)).follows
  | .switch pos selector groups, labels, _ =>
    follows_switch labels fun test => follows_groups test groups
  | .tryCatch pos body clauses none, _, .inl rfl =>
    follows_handled (follows_block body) (follows_clauses clauses)
  | .tryCatch pos body clauses (some cleanup), _, .inl rfl =>
    follows_cleanup (follows_block body) (follows_clauses clauses) (follows_block cleanup)
  | .returnValue pos value, _, .inl rfl => follows_return pos value
  | .throwValue pos value, _, .inl rfl => follows_throw
  | .breakTo pos label, _, .inl rfl => follows_jump pos .breakWord label fun _ => rfl
  | .continueTo pos label, _, .inl rfl => follows_jump pos .continueWord label fun _ => rfl
  | .labeled pos label body, labels, _ => followsBehind_labeled labels (followsBehind body)
  | .empty _, _, .inl rfl => fun _ _ _ _ _ _ _ _ => .move rfl (.done .through)
  | .localClass .., _, .inl rfl => fun _ _ _ _ _ _ _ _ => .move rfl (.done .through)

theorem follows_option : ∀ stmt : Option Stmt, ∀ s ∈ stmt,
    Follows r [] (.stmt s) fun surroundings => draftStmt r surroundings [] s
  | none, _, h => by cases h
  | some stmt, s, h => by
    cases h
    exact (followsBehind stmt [] (.inl rfl)).follows

theorem follows_groups (test : Nat) : ∀ groups : List SwitchGroup,
    Follows r [] (.groups test groups) fun s => draftGroups r s test groups
  | [] => fun _ _ _ _ _ _ _ _ => .move rfl (.done .through)
  | ⟨_, _, _, body⟩ :: groups =>
    follows_group (follows_stmts body) (follows_groups test groups)

theorem follows_clauses : ∀ clauses : List CatchClause, ∀ clause ∈ clauses,
    Follows r [] (.stmts clause.body.stmts) fun s => draftBlock r s clause.body
  | [], _, h => by cases h
  | ⟨pos, param, types, body⟩ :: clauses, clause, h => by
    rcases List.mem_cons.1 h with hclause | h
    · exact hclause ▸ follows_block body
    · exact follows_clauses clauses clause h

end

/-! ## Routines -/

theorem performs_body (body : LambdaBody) (ends : Frontier) (d : Draft) :
    (Builder.next r).Performs ⟨Builder.bodyTask body :: tasks, o, ends, [], [], []⟩ d
      (draftBody r body ends) fun flow b _ => Leaves tasks [] [] flow b := by
  cases body with
  | block body => exact follows_block body .nil tasks o ends d
  | expr body =>
    refine (performs_expr body _ _).bind fun split b d₁ _ hb => ?_
    subst hb
    exact .done .through

/-- The builder ends after finitely many steps, with the graph of the routine or with the error for
which there is none: a jump builds cleanup blocks again that are around it, but each of them with
what is around its `try`. -/
theorem Builder.build_ends (r : Resolution) (routine : Routine) :
    ∃ n, ∀ k, n ≤ k → Builder.build r routine k = some (ofRoutine r routine) := by
  obtain ⟨b, d, hstart⟩ : ∃ b d, Builder.start routine ⟨0, [], []⟩ = .ok (b, d) := ⟨_, _, rfl⟩
  let rest : Drafting Unit := do
    let flow ← draftBody r routine.body [⟨entryId, .normal⟩]
    tie flow.next exitId
  have hdraft : draftRoutine r routine ⟨0, [], []⟩ = rest d := by
    cases hstart
    rfl
  have hrest : (Builder.next r).Performs b d rest fun _ b _ => b.tasks.isEmpty = true := by
    cases hstart
    refine (performs_body routine.body _ _).bind fun flow b d₁ _ hb => ?_
    obtain ⟨⟨o, rfl⟩, -⟩ := hb
    exact .step rfl (.last fun _ _ => rfl)
  have hended (b : Builder) (hb : b.tasks.isEmpty = true) : Builder.next r b = none := by
    unfold Builder.next
    rw [List.isEmpty_iff.1 hb]
  obtain ⟨n, hn⟩ := Machine.exists_run hended hrest
  refine ⟨n, fun k hk => ?_⟩
  unfold Builder.build ofRoutine
  rw [hstart, hdraft]
  simp only [hn k hk]
  cases rest d <;> rfl

end FlowGraph

end WriteOnce
