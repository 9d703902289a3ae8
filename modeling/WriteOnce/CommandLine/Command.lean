import WriteOnce.Text.Numeral

/-!
# Command lines

A command line is read from left to right and refused at its first fault. Asking
for help ends the reading, whatever follows.
-/

namespace WriteOnce

/-- What is asked for: sources in order, and what to show of each. -/
structure Command where
  paths : List Text
  hideLocals : Bool
  hideParameters : Bool
  /-- Shows every verdict in place of the suggestions. -/
  showAll : Bool
  showGraphs : Bool
  /-- How many sources may be analyzed at a time. -/
  jobs : Nat
  verbose : Bool

inductive Request
  | help
  | analyze (command : Command)

inductive CommandFault
  | jobsMissing
  | jobsNotPositive
  | unknownFlag (flag : Text)
  | noPath
  /-- The number of jobs is all digits. -/
  | unreadableJobs (fault : NumeralFault)
  deriving DecidableEq

def CommandFault.message : CommandFault → Text
  | .jobsMissing => "--jobs requires an argument"
  | .jobsNotPositive => "--jobs expects a positive integer"
  | .unknownFlag flag => "unknown flag '" ++ flag ++ "'"
  | .noPath => "missing file argument"
  | .unreadableJobs fault => fault.message

namespace Command

def empty : Command := ⟨[], false, false, false, false, 1, false⟩

/-- The number of jobs: a positive integer. -/
def readJobs (value : Text) : Except CommandFault Nat :=
  if value.allDigits then
    match value.numeral with
    | .error fault => .error (.unreadableJobs fault)
    | .ok jobs => if jobs < 1 then .error .jobsNotPositive else .ok jobs
  else .error .jobsNotPositive

/-- What a flag sets that stands alone. -/
def flag? (c : Command) (arg : Text) : Option Command :=
  if arg = "--no-locals" then some { c with hideLocals := true }
  else if arg = "--no-parameters" then some { c with hideParameters := true }
  else if arg = "--all" then some { c with showAll := true }
  else if arg = "--dump-cfg" then some { c with showGraphs := true }
  else if arg = "--verbose" || arg = "-v" then some { c with verbose := true }
  else none

def addPath (c : Command) (path : Text) : Command := { c with paths := c.paths ++ [path] }

/-- Reads the rest of a command line. -/
def read (c : Command) : List Text → Except CommandFault Request
  | [] => if c.paths.isEmpty then .error .noPath else .ok (.analyze c)
  | arg :: args =>
    if arg = "--help" || arg = "-h" then .ok .help
    else
      match c.flag? arg with
      | some c => read c args
      | none =>
        if arg = "--jobs" then
          match args with
          | [] => .error .jobsMissing
          | value :: args =>
            match readJobs value with
            | .error fault => .error fault
            | .ok jobs => read { c with jobs := jobs } args
        else if arg.startsWith "-" && arg ≠ "-" then .error (.unknownFlag arg)
        else read (c.addPath arg) args

def ofArguments (args : List Text) : Except CommandFault Request := empty.read args

/-- The paths that a command line needs to be read. -/
def pathsOf (args : List Text) : List Text :=
  match ofArguments args with
  | .ok (.analyze c) => c.paths
  | _ => []

end Command

end WriteOnce
