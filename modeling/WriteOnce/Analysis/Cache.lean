import WriteOnce.Verdict

/-!
# Verdicts kept for later

A cache keeps the verdicts of fragments before options, by owner and fingerprint.
It counts how often it was asked with and without success. What is stored once is
never replaced.
-/

namespace WriteOnce

structure Cache where
  entries : Table (Text × Text) Verdicts
  hits : Nat
  misses : Nat

namespace Cache

def empty : Cache := ⟨[], 0, 0⟩

def size (c : Cache) : Nat := c.entries.length

/-- What is stored for a key, and the cache that has counted the question. -/
def get (c : Cache) (owner key : Text) : Option Verdicts × Cache :=
  match c.entries.lookup (owner, key) with
  | some verdicts => (some verdicts, { c with hits := c.hits + 1 })
  | none => (none, { c with misses := c.misses + 1 })

/-- Stores verdicts unless there are some; gives what is stored then. -/
def put (c : Cache) (owner key : Text) (verdicts : Verdicts) : Verdicts × Cache :=
  match c.entries.lookup (owner, key) with
  | some stored => (stored, c)
  | none => (verdicts, { c with entries := c.entries.insert (owner, key) verdicts })

end Cache

end WriteOnce
