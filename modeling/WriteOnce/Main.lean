import WriteOnce.CommandLine.Outcome

/-!
# The program

Reads the files that a command line names, and shows its outcome.
-/

namespace WriteOnce

/-- Surrogates are shown as escapes. -/
def Text.display (t : Text) : String :=
  let shown := t.codes.flatMap fun code =>
    if isSurrogate code then Quoted.numericEscape code else [code]
  String.ofList (shown.map Char.ofNat)

/-- The reason why a path cannot be read. Systems number their reasons with either sign. -/
def Entry.ofError (e : IO.Error) : Entry :=
  match e with
  | .noFileOrDirectory .. => .missing
  | .inappropriateType _ code _ =>
    if code = 21 || code = 0 - 21 then .directory else .notADirectory
  | .permissionDenied .. => .permissionDenied
  | .invalidArgument _ code reason =>
    if code = 36 || code = 0 - 36 then .nameTooLong else .refused code.toNat reason
  | e => .refused 5 (toString e)

def readEntry (path : String) : IO Entry := do
  try return .bytes (← IO.FS.readBinFile path)
  catch e => return .ofError e

/-- Everything that standard input holds. -/
def readInput : IO ByteArray := do (← IO.getStdin).readBinToEnd

def readEntries (paths : List Text) : IO (Table Text Entry) :=
  paths.mapM fun path => return (path, ← readEntry path.display)

def showOutcome (outcome : Outcome) : IO UInt32 := do
  IO.print outcome.out.display
  IO.eprint outcome.err.display
  return outcome.exit.toUInt32

end WriteOnce

open WriteOnce in
def main (args : List String) : IO UInt32 := do
  let args := args.map Text.ofString
  let paths := Command.pathsOf args
  let entries ← readEntries (paths.filter (· ≠ "-"))
  let input ← if paths.contains "-" then readInput else pure ByteArray.empty
  match Command.run (fun path => (entries.lookup path).getD .missing) input args with
  | .ok outcome => showOutcome outcome
  | .error fault =>
    IO.eprintln fault.message.display
    return 1
