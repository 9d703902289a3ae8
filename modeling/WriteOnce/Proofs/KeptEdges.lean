import WriteOnce.Proofs.BuilderSteps

/-!
# Edges stay

No step of the builder takes an edge back. So the node at which an exception enters
a cleanup block is still tied to the code that can raise it when the rest of the
`try` has been built.
-/

namespace WriteOnce

namespace FlowGraph

/-- No edge is taken back. -/
structure KeepsEdges (m : Drafting α) : Prop where
  edges : ∀ d x d', m d = .ok (x, d') → ∀ e ∈ d.edges, e ∈ d'.edges

namespace KeepsEdges
variable {α β : Type} {m : Drafting α}

theorem done (x : α) : KeepsEdges (pure x) := by
  refine ⟨fun d y d' h => ?_⟩
  cases pure_eq_ok.1 h
  exact fun _ he => he

theorem bind {f : α → Drafting β} (hm : KeepsEdges m) (hf : ∀ x, KeepsEdges (f x)) :
    KeepsEdges (m >>= f) := by
  refine ⟨fun d y d' h e he => ?_⟩
  obtain ⟨x, d₁, hx, h⟩ := bind_eq_ok.1 h
  exact (hf x).edges d₁ y d' h e (hm.edges d x d₁ hx e he)

theorem discard (hm : KeepsEdges m) : KeepsEdges (Functor.discard m) :=
  hm.bind fun _ => .done _

theorem ite {p : Prop} [Decidable p] {m' : Drafting α} (h : KeepsEdges m) (h' : KeepsEdges m') :
    KeepsEdges (if p then m else m') := by
  split
  · exact h
  · exact h'

theorem forM {f : β → Drafting Unit} (h : ∀ x, KeepsEdges (f x)) (xs : List β) :
    KeepsEdges (xs.forM f) := by
  induction xs with
  | nil => exact .done ()
  | cons x xs ih => exact (h x).bind fun _ => ih

end KeepsEdges

section

variable {α : Type}

theorem keepsEdges_throw (e : AnalysisError) : KeepsEdges (throw e : Drafting α) :=
  ⟨fun _ _ _ h => by cases h⟩

theorem keepsEdges_get : KeepsEdges (get : Drafting Draft) := by
  constructor
  rintro d x d' ⟨⟩
  exact fun _ he => he

theorem keepsEdges_connect (source target : Nat) (kind : EdgeKind) :
    KeepsEdges (connect source target kind) := by
  constructor
  rintro d x d' ⟨⟩
  exact fun _ he => List.mem_cons_of_mem _ he

theorem keepsEdges_addNode (kind : NodeKind) (pos : Option Pos) (binds : List Binding)
    (writes : List Variable) : KeepsEdges (addNode kind pos binds writes) := by
  constructor
  rintro d x d' ⟨⟩
  exact fun _ he => he

theorem keepsEdges_tie (ends : Frontier) (target : Nat) : KeepsEdges (tie ends target) :=
  .forM (fun _ => keepsEdges_connect ..) ends

theorem keepsEdges_tieAs (kind : EdgeKind) (ends : Frontier) (target : Nat) :
    KeepsEdges (tieAs kind ends target) :=
  .forM (fun _ => keepsEdges_connect ..) ends

theorem keepsEdges_emit (s : Surroundings) (kind : NodeKind) (pos : Option Pos)
    (binds : List Binding) (writes : List Variable) (ends : Frontier) :
    KeepsEdges (emit s kind pos binds writes ends) :=
  (keepsEdges_addNode ..).bind fun _ => (keepsEdges_tie ..).bind fun _ =>
    (KeepsEdges.forM (fun _ => keepsEdges_connect ..) _).bind fun _ => .done _

theorem keepsEdges_step (s : Surroundings) (kind : NodeKind) (pos : Option Pos)
    (binds : List Binding) (writes : List Variable) (ends : Frontier) :
    KeepsEdges (step s kind pos binds writes ends) :=
  (keepsEdges_emit ..).bind fun _ => .done _

theorem keepsEdges_addHandlers (r : Resolution) (clauses : List CatchClause) :
    KeepsEdges (addHandlers r clauses) := by
  unfold FlowGraph.addHandlers
  induction clauses with
  | nil => exact .done _
  | cons clause clauses ih =>
    rw [List.mapM_cons]
    exact (keepsEdges_addNode ..).bind fun _ => ih.bind fun _ => .done _

end

variable (r : Resolution) (s : Surroundings)

theorem keepsEdges_perform (item : Work) (b : Bench) : ∀ m ∈ item.perform r s b, KeepsEdges m := by
  have hpop (b : Bench) (use : Split → Bench → Bench) : ∀ m ∈ b.pop use, KeepsEdges m := by
    unfold Bench.pop
    split <;> simp [KeepsEdges.done]
  cases item with
  | eval e =>
    cases e with
    | lambda =>
      rintro m ⟨⟩
      exact (keepsEdges_step ..).bind fun _ => .done _
    | _ =>
      rintro m ⟨⟩
      exact .done _
  | cond e =>
    simp only [Work.perform]
    split <;> simp [KeepsEdges.done]
  | emit | write =>
    rintro m ⟨⟩
    exact (keepsEdges_step ..).bind fun _ => .done _
  | branch =>
    rintro m ⟨⟩
    exact (keepsEdges_emit ..).bind fun _ => .done _
  | elseArm | join =>
    rintro m ⟨⟩
    exact .done _
  | _ =>
    simp only [Work.perform]
    exact hpop _ _

theorem Builder.keepsEdges_emit (b : Builder) (kind : NodeKind) (pos : Option Pos) :
    KeepsEdges (b.emit kind pos) :=
  FlowGraph.keepsEdges_emit ..

theorem Builder.keepsEdges_step (b : Builder) (kind : NodeKind) (pos : Option Pos)
    (binds : List Binding) : KeepsEdges (b.step kind pos binds) :=
  FlowGraph.keepsEdges_step ..

theorem keepsEdges_buildJump (pos : Pos) (word : JumpWord) (label : Option Text) (b : Builder) :
    KeepsEdges (buildJump pos word label b) := by
  unfold buildJump
  split
  · exact keepsEdges_throw _
  · exact .ite (keepsEdges_throw _) ((b.keepsEdges_step ..).bind fun _ => .done _)

theorem keepsEdges_buildStmt (stmt : Stmt) (b : Builder) : KeepsEdges (buildStmt r b stmt) := by
  cases stmt with
  | whileLoop | doLoop => exact (b.keepsEdges_emit ..).bind fun _ => .done _
  | tryCatch pos body clauses cleanup =>
    cases cleanup with
    | none =>
      exact (keepsEdges_addHandlers r clauses).bind fun _ =>
        (Builder.keepsEdges_step ..).bind fun _ => .done _
    | some cleanup =>
      exact (keepsEdges_addNode ..).bind fun _ => (keepsEdges_addHandlers r clauses).bind fun _ =>
        (Builder.keepsEdges_step ..).bind fun _ => .done _
  | breakTo | continueTo => exact keepsEdges_buildJump ..
  | _ => exact .done _

theorem Builder.keepsEdges_close (b : Builder)
    {use : Frontier → Frontier → Builder → Drafting Builder}
    (huse : ∀ breaks continues b, KeepsEdges (use breaks continues b)) :
    ∀ m ∈ b.close use, KeepsEdges m := by
  unfold close
  split <;> simp [huse]

theorem Builder.keepsEdges_unguard (b : Builder) {use : Builder → Drafting Builder}
    (huse : ∀ b, KeepsEdges (use b)) : ∀ m ∈ b.unguard use, KeepsEdges m := by
  unfold unguard
  split <;> simp [huse]

theorem keepsEdges_performTask (task : Task) (b : Builder) :
    ∀ m ∈ performTask r task b, KeepsEdges m := by
  cases task with
  | run test work splits =>
    cases work with
    | nil => cases test <;> cases splits <;> simp [performTask, KeepsEdges.done]
    | cons item work =>
      intro m hm
      obtain ⟨rest, hrest, rfl⟩ := Option.map_eq_some_iff.1 hm
      exact (keepsEdges_perform r _ item _ rest hrest).bind fun _ => .done _
  | stmt stmt => simpa [performTask] using keepsEdges_buildStmt r stmt b
  | closeBlock | doCond | forUpdate | closeSwitch =>
    simp only [performTask]
    exact b.keepsEdges_close fun _ _ _ => .done _
  | closeRound =>
    simp only [performTask]
    exact b.keepsEdges_close fun _ _ _ => (keepsEdges_tieAs ..).bind fun _ => .done _
  | declarators ds =>
    cases ds with
    | nil => simp [performTask, KeepsEdges.done]
    | cons d ds =>
      rintro m ⟨⟩
      exact (KeepsEdges.ite (.done _) (keepsEdges_throw _)).bind fun _ => .done _
  | joinBranches =>
    rintro m ⟨⟩
    exact .ite (.done _) ((Builder.keepsEdges_step ..).bind fun _ => .done _)
  | declare | returnAt =>
    rintro m ⟨⟩
    exact (b.keepsEdges_step ..).bind fun _ => .done _
  | forHead | switchHead =>
    rintro m ⟨⟩
    exact (b.keepsEdges_emit ..).bind fun _ => .done _
  | eachHead =>
    rintro m ⟨⟩
    exact (b.keepsEdges_emit ..).bind fun _ => (Builder.keepsEdges_emit ..).bind fun _ =>
      (Builder.keepsEdges_step ..).bind fun _ => .done _
  | closeLoop =>
    rintro m ⟨⟩
    exact (keepsEdges_tieAs ..).bind fun _ => .done _
  | leave =>
    rintro m ⟨⟩
    exact (keepsEdges_tie ..).bind fun _ => .done _
  | groups test groups =>
    cases groups with
    | nil => simp [performTask, KeepsEdges.done]
    | cons group groups =>
      rintro m ⟨⟩
      exact (Builder.keepsEdges_step ..).bind fun _ => .done _
  | endRegion clauses nodes cleanup =>
    cases cleanup <;>
    · simp only [performTask]
      exact b.keepsEdges_unguard fun _ => .done _
  | cleanup escape body =>
    simp only [performTask]
    split
    · simp
    · exact Builder.keepsEdges_unguard _ fun _ => .done _
  | escaped escape body =>
    rintro m ⟨⟩
    exact keepsEdges_get.bind fun _ => .ite (.done _) (.done _)
  | rethrow after =>
    rintro m ⟨⟩
    exact (KeepsEdges.ite (.done _) (keepsEdges_emit ..).discard).bind fun _ => .done _
  | throwAt =>
    rintro m ⟨⟩
    exact (b.keepsEdges_emit ..).discard.bind fun _ => .done _
  | _ =>
    unfold performTask
    split <;> simp_all [KeepsEdges.done]

theorem edges_of_reaches {c c' : Builder × Draft} (h : (Builder.next r).Reaches c c') :
    ∀ e ∈ c.2.edges, e ∈ c'.2.edges := by
  induction h with
  | refl => exact fun _ he => he
  | @tail c₁ c₂ _ hstep ih =>
    obtain ⟨m, hm, hd⟩ := hstep
    have hkeeps : KeepsEdges m := by
      unfold Builder.next at hm
      split at hm
      · cases hm
      · exact keepsEdges_performTask r _ _ m hm
    exact fun e he => hkeeps.edges _ _ _ hd e (ih e he)

end FlowGraph

end WriteOnce
