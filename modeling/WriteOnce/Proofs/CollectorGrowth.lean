import WriteOnce.Proofs.CollectorSteps

/-!
# How the collector's store grows

What is found at a place is added to the scope and the routine of this place, and
to the table of this place alone. So whoever waits at another place still sees what
was there, and a scope that was opened before its turn is filled in later, wherever
its siblings have come to stand.
-/

namespace WriteOnce

/-! ## Changes inside a list -/

theorem modify_append_cons {α : Type} (f : α → α) (as bs : List α) (a : α) :
    (as ++ a :: bs).modify as.length f = as ++ f a :: bs := by
  induction as with
  | nil => rfl
  | cons b as ih => exact congrArg (b :: ·) ih

theorem modify_append {α : Type} {as : List α} {i : Nat} (f : α → α) (bs : List α)
    (hi : i < as.length) : (as ++ bs).modify i f = as.modify i f ++ bs := by
  induction as generalizing i with
  | nil => cases hi
  | cons a as ih =>
    cases i with
    | zero => rfl
    | succ i => exact congrArg (a :: ·) (ih (Nat.lt_of_succ_lt_succ hi))

theorem Found.append_assoc (f g h : Found) : f ++ g ++ h = f ++ (g ++ h) := by
  change Found.mk .. = Found.mk ..
  congr 1 <;> exact List.append_assoc ..

theorem Found.append_nothing (f : Found) : f ++ .nothing = f := by
  change Found.mk .. = Found.mk ..
  congr 1 <;> exact List.append_nil _

/-! ## Scopes at the end of a path -/

namespace Scope

variable {f g : Scope → Scope} {path : List Nat} {s : Scope}

/-- The scope with what else is found in it. -/
def add (found : Found) (s : Scope) : Scope :=
  { s with vars := s.vars ++ found.vars, children := s.children ++ found.children }

theorem add_add (f g : Found) (s : Scope) : (s.add f).add g = s.add (f ++ g) := by
  unfold add
  simp only [List.append_assoc]
  rfl

theorem add_nothing (s : Scope) : s.add .nothing = s := by
  cases s
  unfold add Found.nothing
  rw [List.append_nil, List.append_nil]

theorem modifyAt_modifyAt (f g : Scope → Scope) (path : List Nat) (s : Scope) :
    modifyAt g path (modifyAt f path s) = modifyAt (g ∘ f) path s := by
  induction path generalizing s with
  | nil => rfl
  | cons i path ih =>
    have hcomp : modifyAt g path ∘ modifyAt f path = modifyAt (g ∘ f) path := funext ih
    simp only [modifyAt, List.modify_modify_eq, hcomp]

/-- Only the scope at the end of the path counts, and of it the number of its children is known. -/
theorem modifyAt_congr (h : ∀ t : Scope, t.children.length = sizeAt path s → f t = g t) :
    modifyAt f path s = modifyAt g path s := by
  induction path generalizing s with
  | nil => exact h s rfl
  | cons i path ih =>
    have hchildren : s.children.modify i (modifyAt f path) =
        s.children.modify i (modifyAt g path) := by
      by_cases hi : i < s.children.length
      · have hchild : modifyAt f path s.children[i] = modifyAt g path s.children[i] := by
          apply ih
          intro t ht
          apply h t
          rw [ht, sizeAt, List.getElem?_eq_getElem hi]
          rfl
        rw [List.modify_eq_take_cons_drop hi, List.modify_eq_take_cons_drop hi, hchild]
      · have hle : s.children.length ≤ i := by omega
        rw [List.modify_eq_self hle, List.modify_eq_self hle]
    simp only [modifyAt, hchildren]

theorem modifyAt_of_forall_eq (h : ∀ t, f t = t) (path : List Nat) (s : Scope) :
    modifyAt f path s = s := by
  induction path generalizing s with
  | nil => exact h s
  | cons i path ih =>
    have hid : modifyAt f path = id := funext ih
    cases s
    rw [modifyAt, hid, List.modify_id]

theorem modifyAt_child (f : Scope → Scope) (path : List Nat) (i : Nat) (s : Scope) :
    modifyAt f (path ++ [i]) s =
      modifyAt (fun t => { t with children := t.children.modify i f }) path s := by
  induction path generalizing s with
  | nil => rfl
  | cons j path ih =>
    have htail : modifyAt f (path ++ [i]) =
        modifyAt (fun t => { t with children := t.children.modify i f }) path := funext ih
    simp only [List.cons_append, modifyAt, htail]

/-- A child that was added first is changed where it stands. -/
theorem modifyAt_first (found : Found) (child : Scope) (rest : List Scope)
    (path : List Nat) (s : Scope) :
    modifyAt f (path ++ [sizeAt path s])
        (modifyAt (·.add { found with children := child :: rest }) path s) =
      modifyAt (·.add { found with children := f child :: rest }) path s := by
  rw [modifyAt_child, modifyAt_modifyAt]
  apply modifyAt_congr
  intro t ht
  unfold add
  simp only [Function.comp_apply, ← ht, modify_append_cons]

end Scope

namespace Routine

/-- The routine with what else it declares. -/
def declares (params : List Variable) (ds : List Declaration) (r : Routine) : Routine :=
  { r with params := r.params ++ params, declarations := r.declarations ++ ds }

theorem declares_declares (vs ws : List Variable) (ds es : List Declaration) (r : Routine) :
    (r.declares vs ds).declares ws es = r.declares (vs ++ ws) (ds ++ es) := by
  unfold declares
  simp only [List.append_assoc]

theorem declares_nil (r : Routine) : r.declares [] [] = r := by
  unfold declares
  simp only [List.append_nil]

end Routine

namespace Collection

namespace Store

variable {st st' st'' : Store} {p q r : Place} {c : Context} {env : Env}
  {params params' : List Variable} {f g : Found} {but : Option Nat}

/-! ## What is added -/

/-- What is found at a place has been added. In which order sites were found does not count. -/
structure Grown (p : Place) (params : List Variable) (f : Found) (st st' : Store) : Prop where
  scope : st'.scope = st.scope.modifyAt (·.add f) p.scope
  routines : st'.routines =
    st.routines.modify p.routine (·.declares params f.declared) ++ f.routines
  refs : st'.refs = st.refs ++ f.refs
  sites : st'.sites.Perm (st.sites ++ f.sites)

namespace Grown

theorem of_perm (h : Grown p params f st st') (hvars : g.vars = f.vars)
    (hchildren : g.children = f.children) (hdeclared : g.declared = f.declared)
    (hrefs : g.refs = f.refs) (hsites : f.sites.Perm g.sites)
    (hroutines : g.routines = f.routines) :
    Grown p params g st st' where
  scope := by
    have hadd : Scope.add g = Scope.add f := by
      funext s
      unfold Scope.add
      rw [hvars, hchildren]
    rw [h.scope, hadd]
  routines := by rw [h.routines, hdeclared, hroutines]
  refs := by rw [h.refs, hrefs]
  sites := h.sites.trans (hsites.append_left st.sites)

theorem nothing (hscope : st'.scope = st.scope) (hroutines : st'.routines = st.routines)
    (hrefs : st'.refs = st.refs) (hsites : st'.sites = st.sites) :
    Grown p [] .nothing st st' where
  scope := by rw [hscope, Scope.modifyAt_of_forall_eq Scope.add_nothing]
  routines := by
    have hid : Routine.declares [] Found.nothing.declared = id := funext Routine.declares_nil
    rw [hroutines, hid, List.modify_id]
    exact (List.append_nil _).symm
  refs := by rw [hrefs]; exact (List.append_nil _).symm
  sites := by rw [hsites]; exact .of_eq (List.append_nil _).symm

theorem trans (h : Grown p params f st st') (h' : Grown p params' g st' st'')
    (hp : p.routine < st.routines.length) :
    Grown p (params ++ params') (f ++ g) st st'' where
  scope := by
    rw [h'.scope, h.scope, Scope.modifyAt_modifyAt]
    congr 1
    funext s
    exact Scope.add_add f g s
  routines := by
    have hdeclares : Routine.declares params' g.declared ∘ Routine.declares params f.declared =
        Routine.declares (params ++ params') (f ++ g).declared :=
      funext (Routine.declares_declares params params' f.declared g.declared)
    rw [h'.routines, h.routines, modify_append _ _ (by rwa [List.length_modify]),
      List.modify_modify_eq, hdeclares, List.append_assoc]
    rfl
  refs := by
    rw [h'.refs, h.refs, List.append_assoc]
    rfl
  sites := by
    have hsites : (st.sites ++ f.sites ++ g.sites).Perm (st.sites ++ (f ++ g).sites) :=
      .of_eq (List.append_assoc ..)
    exact (h'.sites.trans (h.sites.append_right g.sites)).trans hsites

/-- What is found in a scope that has been opened at a place before other things were found
there. -/
theorem inside {child : Scope} (h : Grown p [] { f with children := child :: f.children } st st')
    (h' : Grown q params g st' st'') (hscope : q.scope = p.scope ++ [Scope.sizeAt p.scope st.scope])
    (hroutine : q.routine = p.routine) (hp : p.routine < st.routines.length) :
    Grown p params { f ++ g with vars := f.vars, children := child.add g :: f.children }
      st st'' := by
  have hat : Grown p params { g with vars := [], children := [] } st'
      { st'' with scope := st'.scope } := by
    refine ⟨?_, hroutine ▸ h'.routines, h'.refs, h'.sites⟩
    exact (Scope.modifyAt_of_forall_eq Scope.add_nothing p.scope st'.scope).symm
  have hall := h.trans hat hp
  refine ⟨?_, hall.routines, hall.refs, hall.sites⟩
  rw [h'.scope, hscope, h.scope]
  exact Scope.modifyAt_first f child f.children p.scope st.scope

end Grown

/-! ## What stays -/

/-- All tables are as they were, except one perhaps, and there may be more of them. -/
structure Keeps (but : Option Nat) (st st' : Store) : Prop where
  tables : st.tables.length ≤ st'.tables.length
  routines : st.routines.length ≤ st'.routines.length
  table : ∀ t < st.tables.length, but ≠ some t → st'.tables[t]? = st.tables[t]?

namespace Keeps

theorem refl (st : Store) : Keeps but st st := ⟨Nat.le_refl _, Nat.le_refl _, fun _ _ _ => rfl⟩

theorem trans {but' : Option Nat} (h : Keeps but st st') (h' : Keeps but' st' st'')
    (hbut : ∀ t < st.tables.length, but' = some t → but = some t) : Keeps but st st'' where
  tables := Nat.le_trans h.tables h'.tables
  routines := Nat.le_trans h.routines h'.routines
  table t ht hne := by
    have ht' : t < st'.tables.length := Nat.lt_of_lt_of_le ht h.tables
    rw [h'.table t ht' (fun heq => hne (hbut t ht heq)), h.table t ht hne]

theorem of_none (h : Keeps none st st') : Keeps but st st' :=
  ⟨h.tables, h.routines, fun t ht _ => h.table t ht (by simp)⟩

/-- Of the tables from before, none is one that is new since then. -/
theorem fresh {table : Nat} (h : Keeps none st st') (h' : Keeps (some table) st' st'')
    (hle : st.tables.length ≤ table) : Keeps none st st'' := by
  apply h.trans h'
  intro t ht heq
  rw [Option.some.injEq] at heq
  omega

end Keeps

/-- A piece of code may be visited at this place: the place lies in the store, its tables from the
inside to the outside, and names denote there what is in the environment. -/
structure Waits (st : Store) (p : Place) (c : Context) (env : Env) : Prop where
  context : p.context = c
  table : p.table < st.tables.length
  outer : ∀ t ∈ p.outer, t < p.table
  routine : p.routine < st.routines.length
  env : st.env p = env

theorem chain_congr {ts : List Nat} (h : ∀ t ∈ ts, st'.tables[t]? = st.tables[t]?) :
    st'.chain ts = st.chain ts := by
  unfold chain
  rw [List.flatMap_def, List.flatMap_def]
  congr 1
  apply List.map_congr_left
  intro t ht
  rw [h t ht]

theorem env_eq (st : Store) (p : Place) :
    st.env p = st.tables[p.table]?.getD [] ++ st.chain p.outer := by
  unfold Store.env chain Place.tables
  exact List.flatMap_cons

namespace Waits

theorem lt_of_mem_tables (h : st.Waits p c env) {t : Nat} (ht : t ∈ p.tables) :
    t < st.tables.length := by
  rcases List.mem_cons.1 ht with rfl | ht
  · exact h.table
  · exact Nat.lt_trans (h.outer t ht) h.table

theorem later (h : st.Waits p c env) (hk : Keeps but st st') (hbut : ∀ t ∈ p.tables, but ≠ some t) :
    st'.Waits p c env where
  context := h.context
  table := Nat.lt_of_lt_of_le h.table hk.tables
  outer := h.outer
  routine := Nat.lt_of_lt_of_le h.routine hk.routines
  env := by
    have hchain : st'.env p = st.env p :=
      chain_congr fun t ht => hk.table t (h.lt_of_mem_tables ht) (hbut t ht)
    rw [hchain, h.env]

/-- A table further inside is not seen. -/
theorem beside {table : Nat} (h : st.Waits p c env) (hk : Keeps (some table) st st')
    (hlt : ∀ t ∈ p.tables, t < table) : st'.Waits p c env := by
  apply h.later hk
  intro t ht heq
  have := hlt t ht
  rw [Option.some.injEq] at heq
  omega

end Waits

/-- A place inside another one that differs from it by an empty table. -/
structure Nested (st : Store) (q r : Place) : Prop where
  context : r.context = q.context
  outer : r.outer = q.tables
  scope : r.scope = q.scope
  routine : r.routine = q.routine
  table : st.tables[r.table]? = some []
  lt : ∀ t ∈ q.tables, t < r.table

namespace Nested

theorem later (h : st.Nested q r) (hk : Keeps but st st') (hbut : but ≠ some r.table) :
    st'.Nested q r := by
  have hr : r.table < st.tables.length := (List.getElem?_eq_some_iff.1 h.table).1
  exact ⟨h.context, h.outer, h.scope, h.routine, by rw [hk.table _ hr hbut, h.table], h.lt⟩

theorem ne (h : st.Nested q r) : some q.table ≠ some r.table := by
  have hlt := h.lt q.table List.mem_cons_self
  rw [ne_eq, Option.some.injEq]
  omega

theorem waits (h : st.Nested q r) (hw : st.Waits q c env) : st.Waits r c env where
  context := h.context.trans hw.context
  table := (List.getElem?_eq_some_iff.1 h.table).1
  outer t ht := h.lt t (h.outer ▸ ht)
  routine := h.routine ▸ hw.routine
  env := by
    rw [env_eq, h.table, h.outer]
    exact hw.env

end Nested

/-! ## Visits -/

/-- What has been found at a place, and what names denote there then. Of the tables from before,
only that of the place has changed. -/
structure Ran (p : Place) (params : List Variable) (r : Env × Found) (st st' : Store) : Prop where
  grown : Grown p params r.2 st st'
  keeps : Keeps (some p.table) st st'
  env : st'.env p = r.1

namespace Ran

variable {r r' : Env × Found}

theorem waits (hw : st.Waits p c env) (h : Ran p params r st st') : st'.Waits p c r.1 :=
  ⟨hw.context, Nat.lt_of_lt_of_le hw.table h.keeps.tables, hw.outer,
    Nat.lt_of_lt_of_le hw.routine h.keeps.routines, h.env⟩

theorem trans (hw : st.Waits p c env) (h : Ran p params r st st') (h' : Ran p params' r' st' st'') :
    Ran p (params ++ params') (r'.1, r.2 ++ r'.2) st st'' :=
  ⟨h.grown.trans h'.grown hw.routine, h.keeps.trans h'.keeps fun _ _ ht => ht, h'.env⟩

theorem of_perm (h : Ran p params (env, f) st st') (hvars : g.vars = f.vars)
    (hchildren : g.children = f.children) (hdeclared : g.declared = f.declared)
    (hrefs : g.refs = f.refs) (hsites : f.sites.Perm g.sites)
    (hroutines : g.routines = f.routines) :
    Ran p params (env, g) st st' :=
  ⟨h.grown.of_perm hvars hchildren hdeclared hrefs hsites hroutines, h.keeps, h.env⟩

/-- If names denote the same as before, no table has changed. -/
theorem keeps_all (hw : st.Waits p c env) (h : Ran p params (env, f) st st') :
    Keeps none st st' := by
  refine ⟨h.keeps.tables, h.keeps.routines, fun t ht _ => ?_⟩
  by_cases htable : p.table = t
  · subst htable
    have houter : st'.chain p.outer = st.chain p.outer := by
      apply chain_congr
      intro t ht
      have hlt := hw.outer t ht
      apply h.keeps.table t (Nat.lt_trans hlt hw.table)
      rw [ne_eq, Option.some.injEq]
      omega
    have henv : st'.env p = st.env p := h.env.trans hw.env.symm
    rw [env_eq, env_eq, houter, List.append_cancel_right_eq] at henv
    have ht' := Nat.lt_of_lt_of_le hw.table h.keeps.tables
    rw [List.getElem?_eq_getElem ht', List.getElem?_eq_getElem hw.table] at henv ⊢
    exact congrArg some henv
  · exact h.keeps.table t ht (by simpa using htable)

end Ran

/-! ## What the store offers -/

theorem keeps_nest (st : Store) (p : Place) : Keeps none st (st.nest p).2 where
  tables := by
    change st.tables.length ≤ (st.tables ++ [[]]).length
    rw [List.length_append]
    exact Nat.le_add_right _ _
  routines := Nat.le_refl _
  table t ht _ := List.getElem?_append_left ht

theorem nested_nest (hw : st.Waits q c env) : (st.nest q).2.Nested q (st.nest q).1 where
  context := rfl
  outer := rfl
  scope := rfl
  routine := rfl
  table := List.getElem?_concat_length
  lt _ ht := hw.lt_of_mem_tables ht

theorem grown_nest (st : Store) (p q : Place) : Grown q [] .nothing st (st.nest p).2 :=
  .nothing rfl rfl rfl rfl

/-- What is declared in a table of its own is not known outside. -/
theorem ran_nest {found : Env × Found} (hw : st.Waits q c env)
    (h : Ran (st.nest q).1 [] found (st.nest q).2 st') : Ran q [] (env, found.2) st st' := by
  have hkeeps : Keeps none st st' := (keeps_nest st q).fresh h.keeps (Nat.le_refl _)
  have hgrown := h.grown
  exact ⟨⟨hgrown.scope, hgrown.routines, hgrown.refs, hgrown.sites⟩, hkeeps.of_none,
    (hw.later hkeeps (by simp)).env⟩

theorem grown_declare (st : Store) (p : Place) (pos : Pos) (v : Variable) :
    Grown p (if v.kind = .parameter then [v] else []) (.declaration pos v p.context.scope) st
      (st.declare p pos v) where
  scope := by
    have hadd : Scope.addVar v = Scope.add (.declaration pos v p.context.scope) := by
      funext s
      unfold Scope.addVar Scope.add Found.declaration Found.nothing
      rw [List.append_nil]
    exact congrArg (Scope.modifyAt · p.scope st.scope) hadd
  routines := by
    have hadd : Routine.addVar v p.context.scope =
        Routine.declares (if v.kind = .parameter then [v] else [])
          [⟨v, some p.context.scope⟩] := by
      funext r
      unfold Routine.addVar Routine.declares
      split
      · rfl
      · rw [List.append_nil]
    change st.routines.modify p.routine (Routine.addVar v p.context.scope) = _
    rw [hadd]
    exact (List.append_nil _).symm
  refs := (List.append_nil _).symm
  sites := .refl _

theorem keeps_declare (st : Store) (p : Place) (pos : Pos) (v : Variable) :
    Keeps (some p.table) st (st.declare p pos v) where
  tables := Nat.le_of_eq (List.length_modify ..).symm
  routines := Nat.le_of_eq (List.length_modify ..).symm
  table t _ hne := List.getElem?_modify_ne _ _ (by simpa using hne)

theorem env_declare (hw : st.Waits p c env) (pos : Pos) (v : Variable) :
    (st.declare p pos v).env p = env.bind v := by
  have hchain : (st.declare p pos v).chain p.outer = st.chain p.outer := by
    apply chain_congr
    intro t ht
    have hlt := hw.outer t ht
    exact List.getElem?_modify_ne _ _ (by omega)
  rw [← hw.env, env_eq, hchain, env_eq]
  change (st.tables.modify p.table (·.bind v))[p.table]?.getD [] ++ _ = _
  rw [List.getElem?_modify_eq, List.getElem?_eq_getElem hw.table]
  rfl

theorem ran_declare (hw : st.Waits p c env) (pos : Pos) (v : Variable) :
    Ran p (if v.kind = .parameter then [v] else []) (Collection.declare c env pos v) st
      (st.declare p pos v) := by
  obtain rfl := hw.context
  exact ⟨grown_declare st p pos v, keeps_declare st p pos v, env_declare hw pos v⟩

theorem ran_declareParam (hw : st.Waits p c env) {kind : Variable.Kind} (hkind : kind ≠ .parameter)
    (param : Param) :
    Ran p [] (Collection.declareParam c env kind param) st (st.declareParam p kind param) := by
  obtain rfl := hw.context
  let v := p.context.variable param.pos param.name kind (isFinal param.modifiers) false
  have h := ran_declare hw param.pos v
  have hv : v.kind ≠ .parameter := hkind
  rw [if_neg hv] at h
  exact h

theorem ran_declareParams (hw : st.Waits p c env) (ps : List Param) :
    Ran p (Collection.declareParams c env ps).2.vars (Collection.declareParams c env ps) st
      (st.declareParams p ps) := by
  obtain rfl := hw.context
  induction ps generalizing st env with
  | nil => exact ⟨.nothing rfl rfl rfl rfl, .refl st, hw.env⟩
  | cons param ps ih =>
    have h := ran_declare hw param.pos
      (p.context.variable param.pos param.name .parameter (isFinal param.modifiers) false)
    exact h.trans hw (ih (h.waits hw))

theorem ran_declareLocals (hw : st.Waits p c env) (isFinal multi : Bool) (ds : List Declarator) :
    Ran p [] (Collection.declareLocals c env isFinal multi ds) st
      (st.declareLocals p isFinal multi ds) := by
  obtain rfl := hw.context
  induction ds generalizing st env with
  | nil => exact ⟨.nothing rfl rfl rfl rfl, .refl st, hw.env⟩
  | cons d ds ih =>
    have h := ran_declare hw d.pos
      (p.context.variable d.pos d.name .localVariable isFinal multi)
    exact h.trans hw (ih (h.waits hw))

/-! ## Scopes that are opened before their turn -/

/-- The place of a scope that is opened next inside that of another place. -/
structure Under (st : Store) (p q : Place) : Prop where
  routine_lt : p.routine < st.routines.length
  scope : q.scope = p.scope ++ [Scope.sizeAt p.scope st.scope]
  routine : q.routine = p.routine
  outer : q.outer = p.tables
  fresh : st.tables.length ≤ q.table

/-- A scope has been opened inside that of a place, and both places wait. `child` is what the scope
has become, and `f` is all else that was found since then at either place. -/
structure Opened (p q : Place) (c d : Context) (env inner : Env) (child : Scope) (f : Found)
    (st st' : Store) : Prop where
  under : st.Under p q
  outside : st'.Waits p c env
  inside : st'.Waits q d inner
  keeps : Keeps none st st'
  grown : Grown p [] { f with children := child :: f.children } st st'

theorem grown_enter (st : Store) (p : Place) (kind : Scope.Kind) (site : Site) (captured : Env) :
    Grown p [] { Found.nothing with children := [⟨kind, site, [], [], captured⟩] } st
      (st.enter p kind site captured).2 := by
  have h := grown_nest st p p
  refine ⟨?_, h.routines, h.refs, h.sites⟩
  have hadd : (Scope.addChild · ⟨kind, site, [], [], captured⟩) =
      Scope.add { Found.nothing with children := [⟨kind, site, [], [], captured⟩] } := by
    funext s
    unfold Scope.addChild Scope.add Found.nothing
    rw [List.append_nil]
  exact congrArg (Scope.modifyAt · p.scope st.scope) hadd

theorem opened_enter (hw : st.Waits p c env) (kind : Scope.Kind) (site : Site) (captured : Env) :
    Opened p (st.enter p kind site captured).1 c (c.inScope kind) env env
      ⟨kind, site, [], [], captured⟩ .nothing st (st.enter p kind site captured).2 := by
  obtain rfl := hw.context
  have hkeeps := keeps_nest st p
  have hinside := (nested_nest hw).waits (hw.later hkeeps (by simp))
  exact {
    under := ⟨hw.routine, rfl, rfl, rfl, Nat.le_refl _⟩
    outside := hw.later ⟨hkeeps.tables, hkeeps.routines, hkeeps.table⟩ (by simp)
    inside := ⟨rfl, hinside.table, hinside.outer, hinside.routine, hinside.env⟩
    keeps := ⟨hkeeps.tables, hkeeps.routines, hkeeps.table⟩
    grown := grown_enter st p kind site captured }

namespace Opened

variable {d : Context} {inner : Env} {child : Scope} {found : Env × Found}

theorem lt_of_mem_tables (h : Opened p q c d env inner child f st st') {t : Nat}
    (ht : t ∈ p.tables) : t < q.table :=
  h.inside.outer t (h.under.outer ▸ ht)

/-- A table inside that of the scope. -/
theorem nest (h : Opened p q c d env inner child f st st') :
    Opened p q c d env inner child f st (st'.nest q).2 where
  under := h.under
  outside := h.outside.later (keeps_nest st' q) (by simp)
  inside := h.inside.later (keeps_nest st' q) (by simp)
  keeps := h.keeps.trans (keeps_nest st' q) (by simp)
  grown := ⟨h.grown.scope, h.grown.routines, h.grown.refs, h.grown.sites⟩

/-- What is found outside comes behind the scope. -/
theorem outward (h : Opened p q c d env inner child f st st') (hg : Grown p [] g st' st'')
    (hk : Keeps none st' st'') : Opened p q c d env inner child (f ++ g) st st'' where
  under := h.under
  outside := h.outside.later hk (by simp)
  inside := h.inside.later hk (by simp)
  keeps := h.keeps.trans hk (by simp)
  grown := h.grown.trans hg h.under.routine_lt

theorem ranOutside (h : Opened p q c d env inner child f st st')
    (hr : Ran p [] (env, g) st' st'') : Opened p q c d env inner child (f ++ g) st st'' :=
  h.outward hr.grown (hr.keeps_all h.outside)

/-- What is found inside comes into the scope, also at a place that has more tables. -/
theorem inward {inner' : Env} (h : Opened p q c d env inner child f st st')
    (hr : Ran r [] found st' st'') (hscope : r.scope = q.scope) (hroutine : r.routine = q.routine)
    (hle : q.table ≤ r.table) (hw : st''.Waits q d inner') :
    Opened p q c d env inner' (child.add found.2)
      { f ++ found.2 with vars := f.vars, children := f.children } st st'' where
  under := h.under
  outside := h.outside.beside hr.keeps fun _ ht => Nat.lt_of_lt_of_le (h.lt_of_mem_tables ht) hle
  inside := hw
  keeps := h.keeps.fresh hr.keeps (Nat.le_trans h.under.fresh hle)
  grown := h.grown.inside hr.grown (hscope.trans h.under.scope) (hroutine.trans h.under.routine)
    h.under.routine_lt

theorem ranInside (h : Opened p q c d env inner child f st st') (hr : Ran q [] found st' st'') :
    Opened p q c d env found.1 (child.add found.2)
      { f ++ found.2 with vars := f.vars, children := f.children } st st'' :=
  h.inward hr rfl rfl (Nat.le_refl _) (hr.waits h.inside)

/-- What is declared in a table inside that of the scope is not known in the scope. -/
theorem ranNested (h : Opened p q c d env inner child f st st') (hn : st'.Nested q r)
    (hr : Ran r [] found st' st'') :
    Opened p q c d env inner (child.add found.2)
      { f ++ found.2 with vars := f.vars, children := f.children } st st'' := by
  have hlt := hn.lt q.table List.mem_cons_self
  exact h.inward hr hn.scope hn.routine (Nat.le_of_lt hlt) (h.inside.beside hr.keeps hn.lt)

/-- Seen from the place around it, the scope is one more child. -/
theorem ran (h : Opened p q c d env inner child f st st') :
    Ran p [] (env, { f with children := child :: f.children }) st st' :=
  ⟨h.grown, h.keeps.of_none, h.outside.env⟩

end Opened

/-! ## Lambdas -/

theorem keeps_enterLambda (st : Store) (p : Place) (pos : Pos) (body : LambdaBody) :
    Keeps none st (st.enterLambda p pos body).2 where
  tables := (keeps_nest st p).tables
  routines := by
    change st.routines.length ≤ (st.routines ++ [_]).length
    rw [List.length_append]
    exact Nat.le_add_right _ _
  table := (keeps_nest st p).table

/-- The place of a lambda's body. -/
theorem waits_enterLambda (hw : st.Waits p c env) (pos : Pos) (body : LambdaBody) :
    (st.enterLambda p pos body).2.Waits (st.enterLambda p pos body).1
      ⟨c.owner ++ "$lambda@" ++ pos.text, .closureBody⟩ env := by
  obtain rfl := hw.context
  have hinside := (opened_enter hw .closureBody ⟨"JLambda", pos⟩ (st.env p)).inside
  refine ⟨rfl, hinside.table, hinside.outer, ?_, hinside.env⟩
  change st.routines.length < (st.routines ++ [_]).length
  rw [List.length_append]
  exact Nat.lt_succ_self _

/-- What was found in the body of a lambda is in a scope and in a routine of its own. -/
theorem ran_closure (hw : st.Waits p c env) {pos : Pos} {body : LambdaBody}
    (hg : Grown (st.enterLambda p pos body).1 f.vars (f ++ g) (st.enterLambda p pos body).2 st')
    (hk : Keeps (some (st.enterLambda p pos body).1.table) (st.enterLambda p pos body).2 st') :
    Ran p [] (env, closure c env pos (c.owner ++ "$lambda@" ++ pos.text) body f g) st st' := by
  obtain rfl := hw.context
  have henv := hw.env
  subst henv
  have hkeeps : Keeps none st st' :=
    (keeps_enterLambda st p pos body).fresh hk (Nat.le_refl _)
  refine ⟨⟨?_, ?_, hg.refs, hg.sites⟩, hkeeps.of_none, (hw.later hkeeps (by simp)).env⟩
  · rw [hg.scope]
    have hchild := (grown_enter st p .closureBody ⟨"JLambda", pos⟩ (st.env p)).scope
    change Scope.modifyAt (·.add (f ++ g)) (p.scope ++ [Scope.sizeAt p.scope st.scope])
      (st.enter p .closureBody ⟨"JLambda", pos⟩ (st.env p)).2.scope = _
    rw [hchild]
    exact Scope.modifyAt_first .nothing _ [] p.scope st.scope
  · rw [hg.routines]
    have hdeclares : Routine.declares [] Found.nothing.declared = id :=
      funext Routine.declares_nil
    have hlast := modify_append_cons (Routine.declares f.vars (f ++ g).declared)
      st.routines [] ⟨p.context.owner ++ "$lambda@" ++ pos.text, some p.context.owner,
        ⟨"JLambda", pos⟩, body, [], []⟩
    change (st.routines ++ [_]).modify st.routines.length _ ++ _ =
      st.routines.modify p.routine (Routine.declares [] Found.nothing.declared) ++ _
    rw [hlast, hdeclares, List.modify_id, List.append_assoc]
    rfl

end Store

end Collection

end WriteOnce
