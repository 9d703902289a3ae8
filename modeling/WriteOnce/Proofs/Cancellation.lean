import Mathlib.Data.List.Forall2
import WriteOnce.Proofs.Outcomes

/-!
# Stopping an analysis

A session can be told to stop at any question. What it comes to beside a cache is written down
here without the session, as are the entries that it stores. Wherever the analysis of a program
is stopped, it reports nothing, and the cache has gained whole answers only: those that a run
which nothing stops stores for the members in front.
-/

namespace WriteOnce

/-- Verdicts by owner and fingerprint. -/
abbrev Entries := Table (Text × Text) Verdicts

namespace Session

/-- The same session, in which nothing will stop an analysis. -/
def untiring (s : Session) : Session := { s with patience := none, stopAtGraph := none }

/-- What is stored, if there is a cache. -/
def entries (s : Session) : Option Entries := s.cache.map Cache.entries

theorem entries_eq {s : Session} {cache : Option Cache} (h : s.cache = cache) :
    s.entries = cache.map Cache.entries :=
  congrArg (Option.map Cache.entries) h

end Session

/-! ## Answers beside a cache -/

namespace Fragment

variable (f : Fragment) (owner : Text)

/-- Where verdicts on the fragment are stored. -/
def key : Text × Text := (owner, f.tree.fingerprint)

/-- The verdicts that are stored for the fragment, or else those of its analysis. -/
def answer (stored : Option Entries) : Except AnalysisError Verdicts :=
  match stored.bind (·.lookup (f.key owner)) with
  | some vs => .ok vs
  | none => f.verdicts owner

/-- The entry that the fragment adds: its verdicts, if there are any and none are stored. -/
def added (old : Entries) : Entries :=
  match old.lookup (f.key owner), f.verdicts owner with
  | none, .ok vs => [(f.key owner, vs)]
  | _, _ => []

/-- What is stored behind the analysis of the fragment. -/
def remember (stored : Option Entries) : Option Entries :=
  stored.map fun old => old ++ f.added owner old

end Fragment

theorem Table.insert_of_lookup_eq_none {κ β : Type} [BEq κ] [EquivBEq κ] {t : Table κ β} {key : κ}
    (h : t.lookup key = none) (value : β) : t.insert key value = t ++ [(key, value)] := by
  refine Table.insert_eq_append fun k hk => ?_
  obtain ⟨entry, hentry, rfl⟩ := List.mem_map.1 hk
  have hne := List.lookup_eq_none_iff.1 h entry hentry
  rw [BEq.comm]
  simpa [bne] using hne

namespace Analysis

variable {s : Session} {cache : Cache} {owner key : Text}

/-- Asking the cache changes what is counted, and nothing that is stored. -/
theorem run_cached (owner key : Text) (hcache : s.cache = some cache) :
    ∃ s' cache', (cached? owner key).run s = (.ok (cache.entries.lookup (owner, key)), s') ∧
      (Undisturbed s → Undisturbed s') ∧ s'.cache = some cache' ∧
      cache'.entries = cache.entries := by
  unfold cached?
  rw [run_get_bind, hcache]
  dsimp only
  unfold Cache.get
  cases hlookup : cache.entries.lookup (owner, key) with
  | none =>
    exact ⟨_, { cache with misses := cache.misses + 1 }, rfl, fun hs => ⟨hs.1, hs.2⟩, rfl, rfl⟩
  | some vs =>
    exact ⟨_, { cache with hits := cache.hits + 1 }, rfl, fun hs => ⟨hs.1, hs.2⟩, rfl, rfl⟩

/-- What is stored under a new key comes last. -/
theorem run_store (hcache : s.cache = some cache)
    (hnew : cache.entries.lookup (owner, key) = none) (vs : Verdicts) :
    ∃ s', (store owner key vs).run s = (.ok vs, s') ∧ (Undisturbed s → Undisturbed s') ∧
      s'.entries = some (cache.entries ++ [((owner, key), vs)]) := by
  unfold store
  rw [run_get_bind, hcache]
  dsimp only
  unfold Cache.put
  rw [hnew, Table.insert_of_lookup_eq_none hnew]
  exact ⟨_, rfl, fun hs => ⟨hs.1, hs.2⟩, rfl⟩

/-- Verdicts that are not stored yet are found and remembered, or the analysis is stopped and leaves
what is stored. -/
theorem run_compute_store (f : Fragment) (owner : Text) (hcache : s.cache = some cache)
    (hnew : cache.entries.lookup (f.key owner) = none) :
    ∃ s', (compute f owner >>= store owner f.tree.fingerprint).run s =
          ((f.verdicts owner).mapError .failed, s') ∧
        s'.entries = some (cache.entries ++ f.added owner cache.entries) ∧
        (Undisturbed s → Undisturbed s') ∨
      (compute f owner >>= store owner f.tree.fingerprint).run s = (.error .cancelled, s') ∧
        s'.entries = some cache.entries ∧ ¬ Undisturbed s := by
  obtain ⟨s₁, hcache₁, ⟨hrun, hs₁⟩ | ⟨hrun, hnot⟩⟩ := settles_compute f owner s
  · unfold Fragment.added
    rw [hnew]
    cases hverdicts : f.verdicts owner with
    | error e =>
      rw [hverdicts] at hrun
      refine ⟨s₁, .inl ⟨run_bind_error hrun _, ?_, hs₁⟩⟩
      rw [Session.entries_eq (hcache₁.trans hcache), List.append_nil]
      rfl
    | ok vs =>
      rw [hverdicts] at hrun
      obtain ⟨s', hstored, hs', hentries⟩ := run_store (hcache₁.trans hcache) hnew vs
      exact ⟨s', .inl ⟨(run_bind_ok hrun _).trans hstored, hentries, hs' ∘ hs₁⟩⟩
  · exact ⟨s₁, .inr ⟨run_bind_error hrun _, Session.entries_eq (hcache₁.trans hcache), hnot⟩⟩

/-- The analysis of a fragment is stopped and leaves what is stored, or it comes to its answer
and remembers it. -/
theorem run_fragment (f : Fragment) (owner : Text) (s : Session) :
    ∃ s', (fragment f owner).run s = ((f.answer owner s.entries).mapError .failed, s') ∧
        s'.entries = f.remember owner s.entries ∧ (Undisturbed s → Undisturbed s') ∨
      (fragment f owner).run s = (.error .cancelled, s') ∧ s'.entries = s.entries ∧
        ¬ Undisturbed s := by
  obtain ⟨s₁, hcache₁, ⟨hcheck, hs₁⟩ | ⟨hcheck, hnot⟩⟩ := settles_checks 1 s
  swap
  · exact ⟨s₁, .inr ⟨run_bind_error hcheck _, Session.entries_eq hcache₁, hnot⟩⟩
  unfold fragment
  rw [check, run_bind_ok hcheck, run_get_bind, hcache₁]
  cases hcache : s.cache with
  | none =>
    rw [Session.entries_eq hcache]
    obtain ⟨s', hcache', hend⟩ := settles_compute f owner s₁
    have hentries' := Session.entries_eq (hcache'.trans (hcache₁.trans hcache))
    obtain ⟨hrun, hs'⟩ | ⟨hrun, hnot⟩ := hend
    · exact ⟨s', .inl ⟨hrun, hentries', hs' ∘ hs₁⟩⟩
    · exact ⟨s', .inr ⟨hrun, hentries', mt hs₁ hnot⟩⟩
  | some cache =>
    rw [Session.entries_eq hcache]
    obtain ⟨s₂, cache₂, hasked, hs₂, hcache₂, hentries₂⟩ :=
      run_cached owner f.tree.fingerprint (hcache₁.trans hcache)
    change _ = (Except.ok (cache.entries.lookup (f.key owner)), s₂) at hasked
    dsimp only [Option.isSome_some]
    rw [if_pos rfl, run_bind_ok hasked]
    unfold Fragment.answer Fragment.remember
    simp only [Option.bind_some, Option.map_some, ← hentries₂]
    cases hlookup : cache₂.entries.lookup (f.key owner) with
    | some vs =>
      have hnothing : f.added owner cache₂.entries = [] := by
        rw [Fragment.added, hlookup]
      refine ⟨s₂, .inl ⟨rfl, ?_, hs₂ ∘ hs₁⟩⟩
      rw [hnothing, List.append_nil, Session.entries_eq hcache₂, Option.map_some]
    | none =>
      obtain ⟨s', hend⟩ := run_compute_store f owner hcache₂ hlookup
      obtain ⟨hrun, hentries, hs'⟩ | ⟨hrun, hentries, hnot⟩ := hend
      · exact ⟨s', .inl ⟨hrun, hentries, hs' ∘ hs₂ ∘ hs₁⟩⟩
      · exact ⟨s', .inr ⟨hrun, hentries, mt (hs₂ ∘ hs₁) hnot⟩⟩

end Analysis

/-! ## Members beside a cache -/

namespace OwnedMember

variable (m : OwnedMember)

def key : Text × Text := (Fragment.member m.member).key m.owner

def answer (stored : Option Entries) : Except AnalysisError Verdicts :=
  (Fragment.member m.member).answer m.owner stored

def added (old : Entries) : Entries := (Fragment.member m.member).added m.owner old

def remember (stored : Option Entries) : Option Entries :=
  (Fragment.member m.member).remember m.owner stored

/-- The entries that members add one after the other. -/
def addedAll : List OwnedMember → Entries → Entries
  | [], _ => []
  | m :: ms, old => m.added old ++ addedAll ms (old ++ m.added old)

theorem addedAll_append (ms ms' : List OwnedMember) (old : Entries) :
    addedAll (ms ++ ms') old = addedAll ms old ++ addedAll ms' (old ++ addedAll ms old) := by
  induction ms generalizing old with
  | nil => simp [addedAll]
  | cons m ms ih => simp only [List.cons_append, addedAll, ih, List.append_assoc]

/-- The entry holds what the analysis of the member alone comes to. -/
def Owns (m : OwnedMember) (e : (Text × Text) × Verdicts) : Prop :=
  e.1 = m.key ∧ ((Analysis.fragment (.member m.member) m.owner).run (.fresh none)).1 = .ok e.2

theorem added_eq (m : OwnedMember) (old : Entries) :
    m.added old = [] ∨ ∃ e, m.added old = [e] ∧ m.Owns e := by
  unfold OwnedMember.added Fragment.added
  split
  · rename_i vs hnew hverdicts
    refine .inr ⟨_, rfl, rfl, ?_⟩
    obtain ⟨t, hrun, -⟩ := Analysis.answers_plain (.member m.member) m.owner (.fresh none)
      Analysis.plain_fresh
    rw [hrun, hverdicts]
    rfl
  · exact .inl rfl

/-- The entries belong to some of the members, in their order. -/
theorem owned_addedAll (ms : List OwnedMember) (old : Entries) :
    List.SublistForall₂ (fun e m => m.Owns e) (addedAll ms old) ms := by
  induction ms generalizing old with
  | nil => exact .nil
  | cons m ms ih =>
    rw [addedAll]
    obtain hnone | ⟨e, hone, he⟩ := m.added_eq old
    · rw [hnone]
      exact .cons_right (ih _)
    · rw [hone]
      exact .cons he (ih _)

/-- The verdicts of members, added to those of earlier ones, with the owners that failed. Every
member finds what the members in front of it have stored. -/
def gather : List OwnedMember → Option Entries → Verdicts → Verdicts × List Text
  | [], _, vs => (vs, [])
  | m :: ms, stored, vs =>
    match m.answer stored with
    | .ok found => gather ms (m.remember stored) (vs.insertAll found)
    | .error _ =>
      let (vs, failed) := gather ms (m.remember stored) vs
      (vs, m.owner :: failed)

end OwnedMember

namespace Analysis

open OwnedMember

/-- The members in front, up to the one at which the analysis is stopped, have been analyzed and
remembered. -/
theorem run_members_stored (ms : List OwnedMember) (vs : Verdicts) (s : Session) :
    ∃ s', (members ms vs).run s = (.ok (gather ms s.entries vs), s') ∧
        s'.entries = s.entries.map (fun old => old ++ addedAll ms old) ∧
        (Undisturbed s → Undisturbed s') ∨
      (members ms vs).run s = (.error .cancelled, s') ∧ ¬ Undisturbed s ∧
        ∃ done rest, ms = done ++ rest ∧
          s'.entries = s.entries.map fun old => old ++ addedAll done old := by
  induction ms generalizing vs s with
  | nil => exact ⟨s, .inl ⟨rfl, by simp [addedAll], id⟩⟩
  | cons m ms ih =>
    obtain ⟨s₁, ⟨hrun, hentries, hs₁⟩ | ⟨hrun, hentries, hnot⟩⟩ :=
      run_fragment (.member m.member) m.owner s
    · -- A member that is remembered comes in front of those of the induction hypothesis.
      have hfront : ∀ ms', (s₁.entries.map fun old => old ++ addedAll ms' old) =
          s.entries.map fun old => old ++ addedAll (m :: ms') old := fun ms' => by
        rw [hentries, Fragment.remember, Option.map_map]
        simp only [Function.comp_def, addedAll, OwnedMember.added, List.append_assoc]
      have hanswer : m.answer s.entries = (Fragment.member m.member).answer m.owner s.entries := rfl
      have hgather : gather (m :: ms) s.entries vs =
          match m.answer s.entries with
          | .ok found => gather ms s₁.entries (vs.insertAll found)
          | .error _ => ((gather ms s₁.entries vs).1, m.owner :: (gather ms s₁.entries vs).2) := by
        rw [gather, hentries]
        rfl
      rw [hgather, hanswer]
      cases hcase : (Fragment.member m.member).answer m.owner s.entries with
      | ok found =>
        rw [hcase] at hrun
        rw [run_members_ok ms vs hrun]
        obtain ⟨s', ⟨hrest, hentries', hs'⟩ | ⟨hrest, hnot, done, rest, rfl, hentries'⟩⟩ :=
          ih (vs.insertAll found) s₁
        · exact ⟨s', .inl ⟨hrest, hentries'.trans (hfront ms), hs' ∘ hs₁⟩⟩
        · exact ⟨s', .inr ⟨hrest, mt hs₁ hnot, m :: done, rest, rfl, hentries'.trans (hfront done)⟩⟩
      | error e =>
        rw [hcase] at hrun
        rw [run_members_failed ms vs hrun]
        have hlogged : Undisturbed s →
            Undisturbed { s₁ with log := .skipping m.owner e :: s₁.log } := fun hs =>
          ⟨(hs₁ hs).1, (hs₁ hs).2⟩
        obtain ⟨s', ⟨hrest, hentries', hs'⟩ | ⟨hrest, hnot, done, rest, rfl, hentries'⟩⟩ :=
          ih vs { s₁ with log := .skipping m.owner e :: s₁.log }
        · exact ⟨s', .inl ⟨run_bind_ok hrest _, hentries'.trans (hfront ms), hs' ∘ hlogged⟩⟩
        · exact ⟨s', .inr ⟨run_bind_error hrest _, mt hlogged hnot, m :: done, rest, rfl,
            hentries'.trans (hfront done)⟩⟩
    · exact ⟨s₁, .inr ⟨run_members_cancelled ms vs hrun, hnot, [], m :: ms, rfl, by
        simp [hentries, addedAll]⟩⟩

/-- The analysis of a program is stopped, or it gives the report that it gives where nothing stops
it. Some members in front have then been remembered: the cache has its old entries and behind them
those that the whole run stores for these members, each with all verdicts on its member. -/
theorem stopped_or_whole (p : Program) (options : Option Options) (s : Session) :
    ∃ r whole x t, (program p options).run s.untiring = (.ok r, whole) ∧
      (program p options).run s = (x, t) ∧
      ∃ done rest, p.ownedMembers = done ++ rest ∧
        (x = .ok r ∧ rest = [] ∨ x = .error .cancelled) ∧
        ∀ old, s.entries = some old → ∃ new later,
          t.entries = some (old ++ new) ∧ whole.entries = some (old ++ (new ++ later)) ∧
          List.SublistForall₂ (fun e m => m.Owns e) new done ∧
          List.SublistForall₂ (fun e m => m.Owns e) later rest := by
  have hentries : s.untiring.entries = s.entries := rfl
  obtain ⟨whole, ⟨hwhole, hstored, -⟩ | ⟨-, hnot, -⟩⟩ :=
    run_members_stored p.ownedMembers [] s.untiring
  swap
  · exact absurd ⟨rfl, rfl⟩ hnot
  rw [hentries] at hwhole hstored
  have hrun := run_bind_ok hwhole fun found : Verdicts × List Text =>
    (pure ⟨(found.1.hide options).sort, found.2⟩ : Analysis Report)
  obtain ⟨t, ⟨hend, hleft, -⟩ | ⟨hend, -, done, rest, hmembers, hleft⟩⟩ :=
    run_members_stored p.ownedMembers [] s
  · refine ⟨_, whole, _, t, hrun, run_bind_ok hend _, p.ownedMembers, [], by simp,
      .inl ⟨rfl, rfl⟩, fun old hold => ⟨addedAll p.ownedMembers old, [], ?_, ?_, ?_, .nil⟩⟩
    · rw [hleft, hold, Option.map_some]
    · rw [hstored, hold, Option.map_some, List.append_nil]
    · exact owned_addedAll _ _
  · refine ⟨_, whole, _, t, hrun, run_bind_error hend _, done, rest, hmembers, .inr rfl,
      fun old hold => ⟨addedAll done old, addedAll rest (old ++ addedAll done old), ?_, ?_, ?_, ?_⟩⟩
    · rw [hleft, hold, Option.map_some]
    · rw [hstored, hold, Option.map_some, hmembers, addedAll_append]
    · exact owned_addedAll _ _
    · exact owned_addedAll _ _

end Analysis

end WriteOnce
