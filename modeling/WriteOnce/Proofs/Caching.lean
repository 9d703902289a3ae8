import WriteOnce.Proofs.Cancellation
import WriteOnce.Proofs.CoreVerdicts
import WriteOnce.Proofs.MemberTrees
import WriteOnce.Proofs.Outcomes
import WriteOnce.Proofs.ParsedSources
import WriteOnce.Proofs.Spelling

/-!
# Sessions with a cache

A cache gives no other verdicts than an analysis without one. Whatever was asked of a session
before, an entry of its cache holds the verdicts of a fragment that was analyzed for the same
owner and has the same fingerprint; as far as SHA-256 tells apart what was given to it, this is
the same piece of syntax.
-/

namespace WriteOnce

namespace Fragment

/-- The fragment is a part of a source that was parsed, however deeply it may nest. -/
def Parsed (f : Fragment) : Prop :=
  ∃ source depth, (∃ p, Program.parse source depth = .ok p ∧ f.tree.Within p.tree) ∨
    ∃ b, Block.parse source depth = .ok b ∧ f.tree.Within b.tree

theorem Parsed.coded {f : Fragment} (h : f.Parsed) : f.tree.Coded := by
  obtain ⟨source, depth, ⟨p, hp, hwithin⟩ | ⟨b, hb, hwithin⟩⟩ := h
  · exact hwithin.coded (steady_program.coded hp)
  · exact hwithin.coded (steady_wholeBlock.coded hb)

/-- Verdicts depend on the owner and on what the tree shows. -/
theorem verdicts_eq_of_tree_eq {f f' : Fragment} (h : f'.tree = f.tree) (owner : Text) :
    f'.verdicts owner = f.verdicts owner :=
  verdicts_congr (core_eq (h.trans f.tree.move_id.symm)) owner

end Fragment

namespace Analysis

/-! ## Calls -/

/-- What can be asked of a session. -/
inductive Call
  | fragment (f : Fragment) (owner : Text)
  | program (p : Program) (options : Option Options)

/-- What a session answers. -/
inductive Answer
  | verdicts (vs : Verdicts)
  | report (r : Report)

namespace Call

def run : Call → Analysis Answer
  | fragment f owner => .verdicts <$> Analysis.fragment f owner
  | program p options => .report <$> Analysis.program p options

/-- The piece of syntax that the call is about. -/
def subject : Call → Fragment
  | fragment f _ => f
  | program p _ => .program p

/-- The pieces of syntax whose fingerprints are taken. -/
def fragments : Call → List Fragment
  | fragment f _ => [f]
  | program p _ => p.ownedMembers.map fun m => .member m.member

theorem coded_fragments (call : Call) (h : call.subject.Parsed) :
    ∀ f ∈ call.fragments, f.tree.Coded := by
  have hcoded := h.coded
  intro f hf
  cases call with
  | fragment g owner =>
    rw [List.mem_singleton.1 hf]
    exact hcoded
  | program p options =>
    obtain ⟨m, hm, rfl⟩ := List.mem_map.1 hf
    exact (Program.within_ownedMembers hm).coded hcoded

/-- What a call comes to without a cache. -/
def outcome : Call → Except AnalysisError Answer
  | fragment f owner => .verdicts <$> f.verdicts owner
  | program p options => .ok (.report (p.report options))

end Call

/-- What is answered to calls that are made one after the other in one session. -/
def answers : List Call → Session → List (Except Halt Answer)
  | [], _ => []
  | call :: calls, s => (call.run.run s).1 :: answers calls (call.run.run s).2

/-! ## What a cache holds -/

variable {known : Fragment → Prop} {s : Session}

/-- What is stored are verdicts of known fragments. -/
def Genuine (known : Fragment → Prop) (entries : Entries) : Prop :=
  ∀ owner key vs, entries.lookup (owner, key) = some vs →
    ∃ f, known f ∧ f.tree.fingerprint = key ∧ f.verdicts owner = .ok vs

theorem Genuine.remember {entries : Entries} (h : Genuine known entries) {f : Fragment}
    (hf : known f) (owner : Text) : Genuine known (entries ++ f.added owner entries) := by
  intro owner' key' vs' hlookup
  rw [List.lookup_append, Option.or_eq_some_iff] at hlookup
  obtain hold | ⟨-, hnew⟩ := hlookup
  · exact h owner' key' vs' hold
  · unfold Fragment.added at hnew
    split at hnew
    · rename_i vs _ hverdicts
      rw [List.lookup_cons] at hnew
      split at hnew
      · rename_i hkey
        cases eq_of_beq hkey
        cases hnew
        exact ⟨f, hf, rfl, hverdicts⟩
      · cases hnew
    · cases hnew

/-- Nothing will stop an analysis, and what is remembered is genuine. -/
structure Remembering (known : Fragment → Prop) (s : Session) : Prop extends Undisturbed s where
  cache : ∃ cache, s.cache = some cache ∧ Genuine known cache.entries

theorem remembering_fresh : Remembering known (.fresh (some .empty)) :=
  ⟨undisturbed_fresh _, .empty, rfl, fun _ _ _ h => nomatch h⟩

/-- Equal fingerprints stand for equal verdicts. -/
def Telling (known : Fragment → Prop) : Prop :=
  ∀ f g, known f → known g → f.tree.fingerprint = g.tree.fingerprint →
    ∀ owner, f.verdicts owner = g.verdicts owner

/-- What is stored for a known fragment is what its analysis comes to. -/
theorem Genuine.answer_eq (htelling : Telling known) {entries : Entries}
    (h : Genuine known entries) {f : Fragment} (hf : known f) (owner : Text) :
    f.answer owner (some entries) = f.verdicts owner := by
  unfold Fragment.answer Fragment.key
  rw [Option.bind_some]
  cases hlookup : entries.lookup (owner, f.tree.fingerprint) with
  | none => rfl
  | some vs =>
    obtain ⟨g, hg, hkey, hverdicts⟩ := h _ _ _ hlookup
    exact (htelling f g hf hg hkey.symm owner ▸ hverdicts).symm

/-- A known fragment is answered as without a cache, and what is stored stays genuine. -/
theorem answers_remembering (htelling : Telling known) {f : Fragment} (hf : known f)
    (owner : Text) : Answers (Remembering known) f owner := by
  rintro s ⟨hs, cache, hcache, hgenuine⟩
  have hentries : s.entries = some cache.entries := congrArg (Option.map Cache.entries) hcache
  obtain ⟨s', ⟨hrun, hstored, hs'⟩ | ⟨-, -, hnot⟩⟩ := run_fragment f owner s
  · rw [hentries, hgenuine.answer_eq htelling hf owner] at hrun
    rw [hentries] at hstored
    obtain ⟨cache', hcache', hentries'⟩ := Option.map_eq_some_iff.1 hstored
    exact ⟨s', hrun, hs' hs, cache', hcache', hentries' ▸ hgenuine.remember hf owner⟩
  · exact absurd hs hnot

/-! ## Sequences of calls -/

/-- If all fragments are answered in the sessions described, so is a call. -/
theorem run_call {Inv : Session → Prop} (call : Call)
    (hlog : ∀ s event, Inv s → Inv { s with log := event :: s.log })
    (hall : ∀ f ∈ call.fragments, ∀ owner, Answers Inv f owner) (hs : Inv s) :
    ∃ s', call.run.run s = (call.outcome.mapError .failed, s') ∧ Inv s' := by
  cases call with
  | fragment f owner =>
    obtain ⟨s', hrun, hs'⟩ := hall f (.head _) owner s hs
    refine ⟨s', ?_, hs'⟩
    rw [Call.run, Call.outcome, map_eq_pure_bind]
    cases hverdicts : f.verdicts owner with
    | ok vs =>
      rw [hverdicts] at hrun
      exact run_bind_ok hrun _
    | error e =>
      rw [hverdicts] at hrun
      exact run_bind_error hrun _
  | program p options =>
    obtain ⟨s', hrun, hs'⟩ := run_program hlog p
      (fun m hm => hall _ (List.mem_map_of_mem hm) m.owner) options hs
    refine ⟨s', ?_, hs'⟩
    rw [Call.run, map_eq_pure_bind]
    exact run_bind_ok hrun _

theorem run_call_plain (call : Call) :
    (call.run.run (.fresh none)).1 = call.outcome.mapError .failed := by
  obtain ⟨s', hrun, -⟩ := run_call call
    (fun s event (h : Plain s) => ⟨⟨h.patience, h.stopAtGraph⟩, h.cache⟩)
    (fun f _ owner => answers_plain f owner) plain_fresh
  exact congrArg Prod.fst hrun

theorem answers_of_remembering (htelling : Telling known) {calls : List Call}
    (hknown : ∀ call ∈ calls, ∀ f ∈ call.fragments, known f) (hs : Remembering known s) :
    answers calls s = calls.map fun call => call.outcome.mapError .failed := by
  induction calls generalizing s with
  | nil => rfl
  | cons call calls ih =>
    obtain ⟨s', hrun, hs'⟩ := run_call call
      (fun s event (h : Remembering known s) => ⟨⟨h.patience, h.stopAtGraph⟩, h.cache⟩)
      (fun f hf owner => answers_remembering htelling (hknown call (.head _) f hf) owner) hs
    rw [answers, hrun, ih (fun c hc => hknown c (.tail _ hc)) hs', List.map_cons]

/-- As far as SHA-256 tells apart the spellings that it is given, fingerprints do so for trees. -/
theorem telling_of_digest (hcoded : ∀ f, known f → f.tree.Coded)
    (hdigest : ∀ f g, known f → known g →
      Sha256.digest f.tree.spelling.utf8 = Sha256.digest g.tree.spelling.utf8 →
        f.tree.spelling.utf8 = g.tree.spelling.utf8) : Telling known := by
  intro f g hf hg hkey owner
  have hbytes := hdigest f g hf hg (Tree.digest_eq hkey)
  have htree := Tree.bytes_inj f.signed g.signed (hcoded f hf) (hcoded g hg) hbytes
  exact Fragment.verdicts_eq_of_tree_eq htree owner

/-- Calls on parsed syntax that share a cache, empty at first, are all answered as they are in a
session of their own that has no cache, provided SHA-256 has no collision on what is hashed. -/
theorem answers_cached (calls : List Call) (hparsed : ∀ call ∈ calls, call.subject.Parsed)
    (hdigest : ∀ f ∈ calls.flatMap Call.fragments, ∀ g ∈ calls.flatMap Call.fragments,
      Sha256.digest f.tree.spelling.utf8 = Sha256.digest g.tree.spelling.utf8 →
        f.tree.spelling.utf8 = g.tree.spelling.utf8) :
    answers calls (.fresh (some .empty)) =
      calls.map fun call => (call.run.run (.fresh none)).1 := by
  have hcoded : ∀ f ∈ calls.flatMap Call.fragments, f.tree.Coded := by
    intro f hf
    obtain ⟨call, hcall, hf⟩ := List.mem_flatMap.1 hf
    exact call.coded_fragments (hparsed call hcall) f hf
  have htelling : Telling (· ∈ calls.flatMap Call.fragments) :=
    telling_of_digest hcoded fun f g hf hg => hdigest f hf g hg
  rw [answers_of_remembering htelling
    (fun call hcall f hf => List.mem_flatMap.2 ⟨call, hcall, hf⟩) remembering_fresh]
  exact List.map_congr_left fun call _ => (run_call_plain call).symm

/-- `{ int x; x = 1; }` -/
def assigned : List Char := "\x7b int x; x = 1; \x7d".toList

/-- `class A { void f(int y) { } }` -/
def classOfMethod : List Char := "class A \x7b void f(int y) \x7b \x7d \x7d".toList

/-- A block is analyzed twice, and a program in between. -/
theorem answers_cached_again : ∃ b p, Block.parse assigned = .ok b ∧
    Program.parse classOfMethod = .ok p ∧
    answers [.fragment (.block b) "<block>", .program p none, .fragment (.block b) "<block>"]
        (.fresh (some .empty)) =
      [((Call.fragment (.block b) "<block>").run.run (.fresh none)).1,
        ((Call.program p none).run.run (.fresh none)).1,
        ((Call.fragment (.block b) "<block>").run.run (.fresh none)).1] := by
  obtain ⟨b, hb, hany⟩ := FlowGraph.exists_ok_of_any (x := Block.parse assigned)
    (p := fun b => (Program.parse classOfMethod).toOption.any fun p =>
      p.ownedMembers.all fun m =>
        Sha256.digest b.tree.spelling.utf8 ≠ Sha256.digest m.member.tree.spelling.utf8 ∧
          ∀ n ∈ p.ownedMembers, m.member.tree.spelling = n.member.tree.spelling)
    (by decide +kernel)
  obtain ⟨p, hp, hall⟩ := FlowGraph.exists_ok_of_any hany
  have hall := fun m hm => of_decide_eq_true (List.all_eq_true.1 hall m hm)
  have hblock : (Fragment.block b).Parsed := ⟨assigned, _, .inr ⟨b, hb, .refl⟩⟩
  have hprogram : (Fragment.program p).Parsed := ⟨classOfMethod, _, .inl ⟨p, hp, .refl⟩⟩
  refine ⟨b, p, hb, hp, answers_cached _ (by simp [Call.subject, hblock, hprogram]) ?_⟩
  intro f hf g hg h
  simp only [List.flatMap_cons, List.flatMap_nil, Call.fragments, List.mem_append, List.mem_map,
    List.mem_singleton, List.not_mem_nil, or_false] at hf hg
  obtain rfl | ⟨m, hm, rfl⟩ | rfl := hf <;> obtain rfl | ⟨n, hn, rfl⟩ | rfl := hg
  · rfl
  · exact absurd h (hall n hn).1
  · rfl
  · exact absurd h.symm (hall m hm).1
  · exact congrArg Text.utf8 ((hall m hm).2 n hn)
  · exact absurd h.symm (hall m hm).1
  · rfl
  · exact absurd h (hall n hn).1
  · rfl

end Analysis

end WriteOnce
