import WriteOnce.Analysis.Program
import WriteOnce.CommandLine.Command
import WriteOnce.Suggestion
import WriteOnce.Syntax.Source

/-!
# What a command line brings about

Sources share a cache. They are analyzed one after the other, or by several jobs in
whatever order these take them up; what was found is joined in the order of the command
line all the same. What an analysis says about itself is shown first, then what was found
in each source.
-/

namespace WriteOnce

/-- What stands behind a path. -/
inductive Entry
  | bytes (contents : ByteArray)
  | missing
  /-- The system refuses to read it; it numbers its reasons. -/
  | refused (code : Nat) (reason : Text)

/-- An exit code, and the two texts that are shown. -/
structure Outcome where
  exit : Nat
  out : Text
  err : Text

/-- What one source contributes to the outcome. -/
structure Finding where
  out : List Text
  err : List Text
  exit : Nat

namespace Entry

def directory : Entry := .refused 21 "Is a directory"

/-- The path goes on behind something that is no directory. -/
def notADirectory : Entry := .refused 20 "Not a directory"

def permissionDenied : Entry := .refused 13 "Permission denied"

def nameTooLong : Entry := .refused 36 "File name too long"

/-- The source that is found, or why there is none. -/
def source? (path : Text) : Entry → Except Text (List Char)
  | .bytes contents =>
    match String.fromUTF8? contents with
    | some source => .ok source.toList
    | none => .error "invalid utf-8"
  | .missing => .error "No such file or directory"
  | .refused code reason =>
    .error ("[Errno " ++ Text.ofNat code ++ "] " ++ reason ++ ": " ++ path.quoted)

end Entry

namespace Command

def programName : Text := "finalist"

def usage : Text := Text.ofLines [
  "finalist [OPTIONS] FILE...",
  "",
  "Report local variables and parameters that could be declared final.",
  "",
  "Options:",
  "  --no-locals        Do not report local variables",
  "  --no-parameters    Do not report parameters",
  "  --all              Print every verdict, including the reason when negative",
  "  --dump-cfg         Print the control-flow graph of each analyzed body",
  "  --jobs N           Analyze up to N files in parallel",
  "  -v, --verbose      Log analysis details to stderr",
  "  -h, --help         Show this help message"]

/-- A message of the program about itself. -/
def complaint (message : Text) : Text := programName ++ ": " ++ message

/-- A finding that is only a message about a source. -/
def failure (path message : Text) : Finding :=
  ⟨[], [complaint (path ++ ": " ++ message)], 1⟩

variable (c : Command) (depth : Nat)

def finding (path : Text) (options : Options) (graphs : List FlowGraph) (report : Report) :
    Finding where
  out :=
    (if c.showGraphs then graphs.flatMap FlowGraph.dumpLines else [])
      ++ (if c.showAll then report.verdicts.verdictLines path
        else report.verdicts.suggestionLines options path)
  err := report.failed.map fun owner => complaint (path ++ ": skipped " ++ owner)
  exit := 0

/-- Analyzes what stands behind a path, if it nests no deeper than this. -/
def inspect (path : Text) (entry : Entry) (s : Session) : Finding × Session :=
  match entry.source? path with
  | .error message => (failure path message, s)
  | .ok source =>
    match Program.parse source depth with
    | .error e => (failure path ("parse error: " ++ e.message), s)
    | .ok program =>
      let options := (Options.ofPragmas (.ofChars source) .default).hide
        c.hideLocals c.hideParameters
      match (Analysis.program program options).run { s with graphs := [] } with
      | (.ok report, s) => (c.finding path options s.graphs.reverse report, s)
      | (.error halt, s) => (failure path halt.message, s)

/-- Analyzes sources in order. The path `-` stands for the input, which can be read once. -/
def inspectAll (entryAt : Text → Entry) (input : ByteArray) :
    List Text → Session → List Finding × Session
  | [], s => ([], s)
  | path :: paths, s =>
    let (entry, left) :=
      if path = "-" then (.bytes input, ByteArray.empty) else (entryAt path, input)
    let (finding, s) := c.inspect depth path entry s
    let (findings, s) := inspectAll entryAt left paths s
    (finding :: findings, s)

/-- Graphs are drawn only where nothing is taken from a cache. -/
def session : Session := .fresh (if c.showGraphs then none else some .empty)

def logLines (events : List LogEvent) : List Text :=
  (events.filter fun e => c.verbose || e.isWarning).map LogEvent.line

/-- How often the cache was asked. -/
def totals (s : Session) : List LogEvent :=
  s.cache.toList.map fun cache => .cacheTotals cache.hits cache.misses

/-- The places of the sources in the order in which they are analyzed. Several jobs take up several
sources in an order that is not theirs to choose. -/
def schedule (order : Nat → List Nat) : List Nat :=
  if 1 < c.jobs && 1 < c.paths.length then order c.paths.length else List.range c.paths.length

/-- What was found at the places of a schedule, in the order of the places. -/
def inPlace (places : List Nat) (findings : List Finding) : List Finding :=
  (List.range places.length).filterMap fun place => (places.zip findings).lookup place

def analyze (order : Nat → List Nat) (entryAt : Text → Entry) (input : ByteArray) : Outcome :=
  let places := c.schedule order
  let (made, s) := c.inspectAll depth entryAt input (places.filterMap (c.paths[·]?)) c.session
  let findings := inPlace places made
  { exit := (findings.map Finding.exit).foldl max 0
    out := Text.ofLines (findings.flatMap Finding.out)
    err := Text.ofLines (c.logLines s.log.reverse ++ findings.flatMap Finding.err
      ++ c.logLines (totals s)) }

/-- The outcome of a command line. There is none if the number of jobs is all digits and yet no
numeral that can be read: the program stops there. How deeply sources may nest and the order in
which jobs take up so many of them are for the system to say. -/
def run (entryAt : Text → Entry) (input : ByteArray) (args : List Text)
    (depth : Nat := Grammar.depthLimit) (order : Nat → List Nat := List.range) :
    Except NumeralFault Outcome :=
  match ofArguments args with
  | .error (.unreadableJobs fault) => .error fault
  | .error fault => .ok ⟨2, .empty, Text.ofLines [complaint fault.message]⟩
  | .ok .help => .ok ⟨0, usage, .empty⟩
  | .ok (.analyze c) => .ok (c.analyze depth order entryAt input)

end Command

end WriteOnce
