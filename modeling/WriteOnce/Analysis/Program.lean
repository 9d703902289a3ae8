import WriteOnce.Analysis.Fragment
import WriteOnce.Syntax.Owned

/-!
# Analyzing a whole program

Every member is analyzed on its own. A member whose analysis fails is left out of
the report and named in it.
-/

namespace WriteOnce

/-- The verdicts of a program by place, and the owners whose analysis failed. -/
structure Report where
  verdicts : Verdicts
  failed : List Text

namespace Analysis

/-- The verdicts of members, added to those of earlier ones, with the owners that failed. -/
def members : List OwnedMember → Verdicts → Analysis (Verdicts × List Text)
  | [], verdicts => return (verdicts, [])
  | m :: ms, verdicts => do
    let found ← tryCatch (some <$> fragment (.member m.member) m.owner) fun halt => do
      match halt with
      | .failed error =>
        log (.skipping m.owner error)
        return none
      | .cancelled => throw .cancelled
    match found with
    | some found => members ms (verdicts.insertAll found)
    | none =>
      let (verdicts, failed) ← members ms verdicts
      return (verdicts, m.owner :: failed)

def program (p : Program) (options : Option Options) : Analysis Report := do
  let (verdicts, failed) ← members p.ownedMembers []
  return ⟨(verdicts.hide options).sort, failed⟩

end Analysis

/-- Without options those of the source's own comments are taken. -/
def Options.forSource (source : List Char) (options : Option Options) : Options :=
  options.getD (.ofPragmas (.ofChars source) .default)

end WriteOnce
