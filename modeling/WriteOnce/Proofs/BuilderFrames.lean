import WriteOnce.Proofs.BuilderSteps

/-!
# The builder inside constructs

What surrounds the builder mirrors the surroundings in which code is drafted: the
same handlers, and for every frame the same construct, or a cleanup block that the
builder can build as it is drafted. A jump waits at the construct at which it aims,
and the draft of the code that jumps says how deep that is.

A jump or a `return` builds cleanup blocks that are no parts of it. Each of them is
built with what is outside of its `try`, and that it can be built there is known
since the `try` was opened.
-/

namespace WriteOnce

open Execution (Target)

namespace FlowGraph

variable {r : Resolution} {H H' : List (List Nat)} {F : List JumpFrame} {G : List Frame}
  {tasks : List Task} {o : Split} {ends : Frontier} {labels : List Text} {d : Draft}
  {jumps others : List Parked} {depth : Nat}

/-! ## Parked jumps -/

theorem JumpFrame.park_append (frame : JumpFrame) :
    frame.park (jumps ++ others) depth = (frame.park jumps depth).park others depth := by
  cases frame <;> simp [park, Flow.breaks, Flow.continues, Flow.arriving]

theorem JumpFrame.park_of_lt (frame : JumpFrame) (h : ∀ p ∈ jumps, p.depth < depth) :
    frame.park jumps depth = frame := by
  have hnone (word : JumpWord) : Flow.arriving ⟨[], jumps⟩ depth word = [] := by
    simp only [Flow.arriving, List.map_eq_nil_iff, List.filter_eq_nil_iff]
    intro p hp
    simp [(h p hp).ne]
  cases frame <;> simp [park, Flow.breaks, Flow.continues, hnone]

@[simp] theorem length_parkAll : (parkAll jumps F).length = F.length := by
  induction F with
  | nil => rfl
  | cons frame F ih => simp [parkAll, ih]

@[simp] theorem parkAll_nil : parkAll [] F = F := by
  induction F with
  | nil => rfl
  | cons frame F ih => cases frame <;> simp [parkAll, ih, JumpFrame.park, Flow.breaks,
      Flow.continues, Flow.arriving]

/-- The jumps that a construct takes while its parts are built. -/
theorem parkAll_opened (flow : Flow) (target : Target) :
    parkAll flow.jumps (.opened target :: F) =
      .construct target (flow.breaks F.length) (flow.continues F.length) ::
        parkAll flow.jumps F :=
  rfl

theorem parkAll_append :
    parkAll (jumps ++ others) F = parkAll others (parkAll jumps F) := by
  induction F with
  | nil => rfl
  | cons frame F ih => simp [parkAll, ih, JumpFrame.park_append]

/-- The depth is that of a construct at which jumps can aim. -/
def Lands : List JumpFrame → Nat → Prop
  | [], _ => False
  | .construct .. :: F, depth => depth = F.length ∨ Lands F depth
  | .cleanup .. :: F, depth => Lands F depth

theorem Lands.lt (h : Lands F depth) : depth < F.length := by
  induction F with
  | nil => cases h
  | cons frame F ih =>
    cases frame with
    | construct target breaks continues =>
      rcases h with rfl | h
      · exact Nat.lt_succ_self _
      · exact Nat.lt_succ_of_lt (ih h)
    | cleanup body handlerDepth jumpDepth => exact Nat.lt_succ_of_lt (ih h)

@[simp] theorem lands_parkAll : Lands (parkAll jumps F) depth ↔ Lands F depth := by
  induction F with
  | nil => rfl
  | cons frame F ih => cases frame <;> simp [parkAll, JumpFrame.park, Lands, ih]

theorem lands_append (hjumps : ∀ p ∈ jumps, Lands F p.depth)
    (hothers : ∀ p ∈ others, Lands (parkAll jumps F) p.depth) :
    ∀ p ∈ jumps ++ others, Lands F p.depth := by
  simpa [or_imp, forall_and] using ⟨hjumps, by simpa using hothers⟩

/-- To the constructs that are further out it makes no difference which jumps a construct takes. -/
theorem parkAll_passing (flow : Flow) (h : F.length ≤ depth) :
    parkAll (flow.passing depth) F = parkAll flow.jumps F := by
  induction F with
  | nil => rfl
  | cons frame F ih =>
    have hlt : F.length < depth := h
    have harriving (word : JumpWord) : Flow.arriving ⟨[], flow.passing depth⟩ F.length word =
        Flow.arriving ⟨[], flow.jumps⟩ F.length word := by
      simp only [Flow.arriving, Flow.passing, List.filter_filter]
      congr 1
      refine List.filter_congr fun p _ => ?_
      by_cases hp : p.depth = F.length <;> simp [hp, hlt.ne]
    have hpark : frame.park (flow.passing depth) F.length = frame.park flow.jumps F.length := by
      cases frame <;> simp [JumpFrame.park, Flow.breaks, Flow.continues, harriving]
    simp only [parkAll, hpark, ih hlt.le]

/-! ## Expressions -/

/-- Of what is around an expression only the handlers matter. -/
theorem Bench.next_bare (s : Surroundings) : Bench.next r ⟨s.handlers, []⟩ = Bench.next r s := by
  have hemit : emit ⟨s.handlers, []⟩ = emit s := rfl
  funext ⟨work, splits, ends⟩
  cases work with
  | nil => rfl
  | cons item work =>
    simp only [Bench.next]
    cases item <;> simp only [Work.perform, step, hemit]

theorem performs_run {test : Bool} {bench : Bench} {α : Type} {m : Drafting α}
    {K : α → Bench → Draft → Prop} (h : (Bench.next r ⟨H.head?, G⟩).Performs bench d m K) :
    (Builder.next r).Performs
      ⟨.run test bench.work bench.splits :: tasks, o, bench.frontier, H, F, labels⟩ d m
      fun x b d => ∃ bench : Bench,
        b = ⟨.run test bench.work bench.splits :: tasks, o, bench.frontier, H, F, labels⟩ ∧
          K x bench d := by
  rw [← Bench.next_bare] at h
  let wrap (bench : Bench) : Builder :=
    ⟨.run test bench.work bench.splits :: tasks, o, bench.frontier, H, F, labels⟩
  refine h.inside wrap ?_
  rintro ⟨work, splits, ends⟩ rest hrest
  cases work with
  | nil => cases hrest
  | cons item work =>
    have hitem : item.perform r ⟨H.head?, []⟩ ⟨work, splits, ends⟩ = some rest := hrest
    change (item.perform r ⟨H.head?, []⟩ ⟨work, splits, ends⟩).map _ = _
    rw [hitem]
    rfl

/-- An expression that is built for its value. -/
theorem performs_expr (e : Expr) (ends : Frontier) (d : Draft) : (Builder.next r).Performs
    ⟨.expr e :: tasks, o, ends, H, F, labels⟩ d (draftExpr r ⟨H.head?, G⟩ false e ends)
    fun split b _ => b = ⟨tasks, o, split.all, H, F, labels⟩ := by
  rw [← bind_pure (draftExpr _ _ _ _ _)]
  refine (performs_run ((evaluates e).eval [] [] ends d)).bind fun split b d' _ hb => ?_
  obtain ⟨_, rfl, rfl⟩ := hb
  exact .move rfl (.done rfl)

/-- A condition that is built, and its outcome. -/
theorem performs_cond (e : Expr) (ends : Frontier) (d : Draft) : (Builder.next r).Performs
    ⟨.cond e :: tasks, o, ends, H, F, labels⟩ d (draftExpr r ⟨H.head?, G⟩ true e ends)
    fun split b _ => ∃ ends, b = ⟨tasks, split, ends, H, F, labels⟩ := by
  rw [← bind_pure (draftExpr _ _ _ _ _)]
  refine (performs_run ((evaluates e).cond [] [] ends d)).bind fun split b d' _ hb => ?_
  obtain ⟨_, rfl, f, rfl⟩ := hb
  exact .move rfl (.done ⟨f, rfl⟩)

theorem performs_exprs (es : List Expr) (ends : Frontier) (d : Draft) : (Builder.next r).Performs
    ⟨es.map .expr ++ tasks, o, ends, H, F, labels⟩ d (draftExprs r ⟨H.head?, G⟩ es ends)
    fun ends b _ => b = ⟨tasks, o, ends, H, F, labels⟩ := by
  induction es generalizing ends d with
  | nil => exact .done rfl
  | cons e es ih =>
    rw [draftExprs]
    refine (performs_expr e ends d).bind fun split b d' _ hb => ?_
    subst hb
    exact ih _ _

theorem performs_option (e : Option Expr) (ends : Frontier) (d : Draft) :
    (Builder.next r).Performs ⟨e.toList.map .expr ++ tasks, o, ends, H, F, labels⟩ d
      (draftOption r ⟨H.head?, G⟩ e ends) fun ends b _ => b = ⟨tasks, o, ends, H, F, labels⟩ := by
  cases e with
  | none => exact .done rfl
  | some e =>
    refine (performs_expr e ends d).bind fun split b d' _ hb => ?_
    subst hb
    exact .done rfl

theorem performs_condition (cond : Option Expr) (ends : Frontier) (d : Draft) :
    (Builder.next r).Performs ⟨.condition cond :: tasks, o, ends, H, F, labels⟩ d
      (draftCondition r ⟨H.head?, G⟩ cond ends)
      fun split b _ => ∃ ends, b = ⟨tasks, split, ends, H, F, labels⟩ := by
  cases cond with
  | none => exact .move rfl (.done ⟨ends, rfl⟩)
  | some cond => exact .move rfl (performs_cond cond ends d)

theorem performs_declarators (ds : List Declarator) (ends : Frontier) (d : Draft) :
    (Builder.next r).Performs ⟨.declarators ds :: tasks, o, ends, H, F, labels⟩ d
      (draftDeclarators r ⟨H.head?, G⟩ ds ends)
      fun ends b _ => b = ⟨tasks, o, ends, H, F, labels⟩ := by
  induction ds generalizing ends d with
  | nil => exact .move rfl (.done rfl)
  | cons declarator ds ih =>
    rw [draftDeclarators]
    refine .step rfl (.bind fun _ d₁ _ => .done ?_)
    simp only [Builder.push, List.append_assoc]
    refine (performs_option declarator.init ends d₁).bind fun ends b d₂ _ hb => ?_
    subst hb
    exact .step rfl (.bind fun ends d₃ _ => .done (ih ends d₃))

theorem performs_forInit (init : ForInit) (ends : Frontier) (d : Draft) :
    (Builder.next r).Performs ⟨ForInit.tasks init ++ tasks, o, ends, H, F, labels⟩ d
      (draftForInit r ⟨H.head?, G⟩ init ends)
      fun ends b _ => b = ⟨tasks, o, ends, H, F, labels⟩ := by
  cases init with
  | decl decl => exact .move rfl (performs_declarators decl.declarators ends d)
  | exprs values => exact performs_exprs values ends d

/-! ## What is around a statement -/

/-- What a stretch of code leaves: the ends that fall through, and the jumps, which wait at the
constructs that they aim at. -/
structure Leaves (tasks : List Task) (H : List (List Nat)) (F : List JumpFrame) (flow : Flow)
    (b : Builder) : Prop where
  state : ∃ o, b = ⟨tasks, o, flow.next, H, parkAll flow.jumps F, []⟩
  lands : ∀ p ∈ flow.jumps, Lands F p.depth

/-- From any frontier a task performs a draft. -/
def Builds (r : Resolution) (H : List (List Nat)) (F : List JumpFrame) (labels : List Text)
    (task : Task) (draft : Frontier → Drafting Flow) : Prop :=
  ∀ tasks o ends d, (Builder.next r).Performs ⟨task :: tasks, o, ends, H, F, labels⟩ d
    (draft ends) fun flow b _ => Leaves tasks H F flow b

/-- The handlers and frames of the builder are those that a draft is made in. A cleanup frame can
be built with what was around it when it was opened, whatever jumps wait there by now. -/
inductive Mirrors (r : Resolution) :
    List (List Nat) → List JumpFrame → List Frame → Prop
  | nil {H : List (List Nat)} : Mirrors r H [] []
  | construct {H : List (List Nat)} {F : List JumpFrame} {G : List Frame} (target : Target)
    (breaks continues : Frontier) : Mirrors r H F G →
    Mirrors r H (.construct target breaks continues :: F) (target.frame :: G)
  | cleanup {H H' : List (List Nat)} {F : List JumpFrame} {G : List Frame} {body : Block}
    {draft : Frontier → Drafting Flow} : H' <:+ H →
    (∀ jumps, Builds r H' (parkAll jumps F) [] (.stmts body.stmts) draft) → Mirrors r H' F G →
    Mirrors r H (.cleanup body H'.length F.length :: F) (.cleanup draft :: G)

namespace Mirrors

theorem length_eq (h : Mirrors r H F G) : G.length = F.length := by
  induction h with
  | nil => rfl
  | construct _ _ _ _ ih => simp [ih]
  | cleanup _ _ _ ih => simp [ih]

theorem opened (h : Mirrors r H F G) (target : Target) :
    Mirrors r H (.opened target :: F) (target.frame :: G) :=
  h.construct target [] []

theorem guarded (h : Mirrors r H F G) (handlers : List Nat) : Mirrors r (handlers :: H) F G := by
  induction h with
  | nil => exact .nil
  | construct target breaks continues _ ih => exact ih.construct target breaks continues
  | cleanup hsuffix hbody h _ =>
    exact .cleanup (hsuffix.trans (List.suffix_cons _ _)) hbody h

theorem parked (h : Mirrors r H F G) (jumps : List Parked) :
    Mirrors r H (parkAll jumps F) G := by
  induction h with
  | nil => exact .nil
  | construct target breaks continues _ ih => exact ih.construct target _ _
  | @cleanup H H' F G body draft hsuffix hbody _ ih =>
    have hbody' (others : List Parked) : Builds r H' (parkAll others (parkAll jumps F)) []
        (.stmts body.stmts) draft := by
      rw [← parkAll_append]
      exact hbody _
    simpa [parkAll, JumpFrame.park] using Mirrors.cleanup hsuffix hbody' ih

end Mirrors

namespace Leaves

variable {first second : Flow}

theorem through : Leaves tasks H F (.through ends) ⟨tasks, o, ends, H, F, []⟩ :=
  ⟨⟨o, by simp [Flow.through]⟩, by simp [Flow.through]⟩

theorem stopped : Leaves tasks H F ⟨ends ++ Flow.stopped.next, Flow.stopped.jumps⟩
    ⟨tasks, o, ends, H, F, []⟩ :=
  ⟨⟨o, by simp [Flow.stopped]⟩, by simp [Flow.stopped]⟩

/-- What is left behind one stretch of code and then behind another. -/
theorem behind {b : Builder} (h : Leaves tasks H (parkAll first.jumps F) second b)
    (hfirst : ∀ p ∈ first.jumps, Lands F p.depth) :
    Leaves tasks H F ⟨second.next, first.jumps ++ second.jumps⟩ b where
  state := by simpa only [parkAll_append] using h.state
  lands := lands_append hfirst h.lands

/-- The jumps of both stretches wait, whatever falls through by now. -/
theorem joined (hfirst : ∀ p ∈ first.jumps, Lands F p.depth)
    (hsecond : ∀ p ∈ second.jumps, Lands (parkAll first.jumps F) p.depth) :
    Leaves tasks H F ⟨ends, first.jumps ++ second.jumps⟩
      ⟨tasks, o, ends, H, parkAll second.jumps (parkAll first.jumps F), []⟩ :=
  have h : Leaves tasks H (parkAll first.jumps F) ⟨ends, second.jumps⟩
      ⟨tasks, o, ends, H, parkAll second.jumps (parkAll first.jumps F), []⟩ :=
    ⟨⟨o, rfl⟩, hsecond⟩
  h.behind hfirst

/-- Behind a construct, the jumps that it has not taken go on. -/
theorem closed {flow : Flow} {target : Target}
    (hflow : ∀ p ∈ flow.jumps, Lands (.opened target :: F) p.depth) :
    Leaves tasks H F ⟨ends, flow.passing F.length⟩
      ⟨tasks, o, ends, H, parkAll flow.jumps F, []⟩ where
  state := ⟨o, by rw [parkAll_passing flow le_rfl]⟩
  lands p hp := by
    obtain ⟨hp, hne⟩ := List.mem_filter.1 hp
    exact (hflow p hp).resolve_left (by simpa using hne)

end Leaves

/-! ## Jumps and returns -/

theorem outermost_append {α : Type} (inner outer : List α) :
    outermost outer.length (inner ++ outer) = outer := by
  simp [outermost]

theorem innermost_append {α : Type} (inner outer : List α) :
    innermost outer.length (inner ++ outer) = inner := by
  simp [innermost]

/-- The builder, wherever it is inside these frames, unwinds some of them as the drafts of their
cleanup blocks do one behind the other. -/
def Unwinds (r : Resolution) (H : List (List Nat)) (F crossed : List JumpFrame)
    (drafts : List (Frontier → Drafting Flow)) : Prop :=
  ∀ inner jumps H₁, H <:+ H₁ → ∀ tasks o ends d, (Builder.next r).Performs
    ⟨.unwind crossed :: tasks, o, ends, H₁, inner ++ parkAll jumps F, []⟩ d (draftAll drafts ends)
    fun flow b _ => (∃ o, b = ⟨tasks, o, flow.next, H₁,
      inner ++ parkAll flow.jumps (parkAll jumps F), []⟩) ∧ ∀ p ∈ flow.jumps, Lands F p.depth

namespace Unwinds

variable {crossed : List JumpFrame} {drafts : List (Frontier → Drafting Flow)}

theorem nil : Unwinds r H F [] [] := fun inner jumps H₁ _ tasks o ends d =>
  .move rfl (.done ⟨⟨o, by simp [Flow.through]⟩, by simp [Flow.through]⟩)

theorem construct (h : Unwinds r H F crossed drafts) (target : Target)
    (breaks continues : Frontier) :
    Unwinds r H (.construct target breaks continues :: F) crossed drafts := by
  intro inner jumps H₁ hH tasks o ends d
  let frame := (JumpFrame.construct target breaks continues).park jumps F.length
  have hinner := h (inner ++ [frame]) jumps H₁ hH tasks o ends d
  simp only [List.append_assoc, List.singleton_append] at hinner
  refine hinner.mono fun flow b d' hb => ?_
  obtain ⟨⟨o, rfl⟩, hlands⟩ := hb
  have hframe : frame.park flow.jumps F.length = frame :=
    frame.park_of_lt fun p hp => (hlands p hp).lt
  exact ⟨⟨o, by simp [parkAll, hframe, frame]⟩, fun p hp => .inr (hlands p hp)⟩

/-- A copy of a cleanup block is built with what was around it, and then everything else is around
the builder again. -/
theorem cleanup {body : Block} {draft : Frontier → Drafting Flow}
    (h : Unwinds r H' F crossed drafts) (hsuffix : H' <:+ H)
    (hbody : ∀ jumps, Builds r H' (parkAll jumps F) [] (.stmts body.stmts) draft) :
    Unwinds r H (.cleanup body H'.length F.length :: F)
      (.cleanup body H'.length F.length :: crossed) (draft :: drafts) := by
  intro inner jumps H₁ hH tasks o ends d
  let frame := JumpFrame.cleanup body H'.length F.length
  have hinner : inner ++ parkAll jumps (frame :: F) = (inner ++ [frame]) ++ parkAll jumps F := by
    simp [parkAll, frame, JumpFrame.park]
  have hlength : (parkAll jumps F).length = F.length := length_parkAll
  have hframes : outermost F.length ((inner ++ [frame]) ++ parkAll jumps F) = parkAll jumps F := by
    rw [← hlength, outermost_append]
  have hrest : innermost F.length ((inner ++ [frame]) ++ parkAll jumps F) = inner ++ [frame] := by
    rw [← hlength, innermost_append]
  have hhandlers : outermost H'.length H₁ = H' := by
    obtain ⟨before, rfl⟩ := hsuffix.trans hH
    exact outermost_append before H'
  rw [draftAll, hinner]
  refine .move rfl (.move rfl ?_)
  simp only [Builder.push, hhandlers, hframes, hrest]
  refine (hbody jumps _ _ _ _).bind fun first b d₁ _ hb => ?_
  obtain ⟨⟨o, rfl⟩, hfirst⟩ := hb
  refine .move rfl ?_
  rw [← parkAll_append]
  refine (h (inner ++ [frame]) (jumps ++ first.jumps) H₁ (hsuffix.trans hH) _ _ _ _).bind
    fun others b d₂ _ hb => ?_
  obtain ⟨⟨o, rfl⟩, hothers⟩ := hb
  refine .done ⟨⟨o, by simp [parkAll, parkAll_append, frame, JumpFrame.park]⟩, ?_⟩
  simpa [or_imp, forall_and, Lands] using ⟨by simpa using hfirst, hothers⟩

theorem performs (h : Unwinds r H F crossed drafts) (tasks : List Task) (o : Split)
    (ends : Frontier) (d : Draft) : (Builder.next r).Performs
      ⟨.unwind crossed :: tasks, o, ends, H, F, []⟩ d (draftAll drafts ends)
      fun flow b _ => Leaves tasks H F flow b := by
  have here := h [] [] H (List.suffix_refl H) tasks o ends d
  simp only [List.nil_append, parkAll_nil] at here
  exact here.mono fun flow b _ hb => ⟨hb.1, hb.2⟩

end Unwinds

/-- The way out of the routine. -/
theorem Mirrors.unwinds (h : Mirrors r H F G) :
    Unwinds r H F (F.filter (·.isCleanup)) (cleanups G) := by
  induction h with
  | nil => exact .nil
  | construct target breaks continues _ ih =>
    cases target <;> exact ih.construct _ breaks continues
  | cleanup hsuffix hbody _ ih => exact ih.cleanup hsuffix hbody

/-- A jump goes the way that it is drafted on. -/
theorem Mirrors.course (h : Mirrors r H F G) (word : JumpWord) (label : Option Text) :
    (route? word label G = none ∧ course? word label F = none) ∨
    ∃ route crossed, route? word label G = some route ∧
      course? word label F = some ⟨route.depth, route.isLoop, crossed⟩ ∧
      Lands F route.depth ∧ Unwinds r H F crossed route.passed := by
  induction h with
  | nil => exact .inl ⟨rfl, rfl⟩
  | @construct H F G target breaks continues h ih =>
    rw [route?_target, course?]
    split
    · exact .inr ⟨_, [], rfl, by rw [h.length_eq], .inl h.length_eq,
        .construct .nil target breaks continues⟩
    · refine ih.imp_right ?_
      rintro ⟨route, crossed, hroute, hcourse, hlands, hunwinds⟩
      exact ⟨route, crossed, hroute, hcourse, .inr hlands, hunwinds.construct _ _ _⟩
  | @cleanup H H' F G body draft hsuffix hbody _ ih =>
    rw [route?, course?]
    rcases ih with ⟨hroute, hcourse⟩ | ⟨route, crossed, hroute, hcourse, hlands, hunwinds⟩
    · exact .inl ⟨by rw [hroute]; rfl, by rw [hcourse]; rfl⟩
    · exact .inr ⟨{ route with passed := draft :: route.passed }, _, by rw [hroute]; rfl,
        by rw [hcourse]; rfl, hlands, hunwinds.cleanup hsuffix hbody⟩

/-- Wherever the builder is, a task performs a draft. -/
def Follows (r : Resolution) (labels : List Text) (task : Task)
    (draft : Surroundings → Frontier → Drafting Flow) : Prop :=
  ∀ ⦃H F G⦄, Mirrors r H F G → Builds r H F labels task (draft ⟨H.head?, G⟩)

theorem follows_jump (pos : Pos) (word : JumpWord) (label : Option Text)
    {task : Task} (htask : ∀ b, performTask r task b = some (buildJump pos word label b)) :
    Follows r [] task fun s => draftJump s pos word label := by
  intro H F G hm tasks o ends d
  refine .step (htask _) ?_
  unfold buildJump draftJump
  rcases hm.course word label with
    ⟨hroute, hcourse⟩ | ⟨route, crossed, hroute, hcourse, hlands, hunwinds⟩
  · simp only [hroute, hcourse]
    exact .throw
  · simp only [hroute, hcourse]
    by_cases hloop : (word = .continueWord && !route.isLoop) = true
    · simp only [hloop, if_true]
      exact .throw
    · simp only [hloop]
      refine .bind fun ends d₁ _ => .done ?_
      refine (hunwinds.performs (.park route.depth word :: tasks) o ends d₁).bind
        fun flow b d₂ _ hb => ?_
      obtain ⟨⟨o, rfl⟩, hflow⟩ := hb
      refine .move rfl (.done ⟨⟨o, ?_⟩, ?_⟩)
      · simp [parkAll_append]
      · simpa [or_imp, forall_and] using ⟨hflow, fun _ _ => hlands⟩

theorem follows_return (pos : Pos) (value : Option Expr) :
    Follows r [] (.stmt (.returnValue pos value))
      fun s => draftStmt r s [] (.returnValue pos value) := by
  intro H F G hm tasks o ends d
  simp only [draftStmt]
  refine .move rfl ?_
  simp only [Builder.push, List.append_assoc]
  refine (performs_option value ends d).bind fun ends b d₁ _ hb => ?_
  subst hb
  refine .step rfl (.bind fun ends d₂ _ => .done ?_)
  refine (hm.unwinds.performs (.leave :: tasks) o ends d₂).bind fun flow b d₃ _ hb => ?_
  obtain ⟨⟨o, rfl⟩, hflow⟩ := hb
  exact .step rfl (.bind fun _ d₄ _ => .done (.done ⟨⟨o, rfl⟩, hflow⟩))

end FlowGraph

end WriteOnce
