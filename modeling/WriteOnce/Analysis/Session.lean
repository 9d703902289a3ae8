import WriteOnce.Analysis.Cache
import WriteOnce.Analysis.Log
import WriteOnce.FlowGraph.Basic

/-!
# Sessions

Analyses run in a session, which may have a cache, keeps the log and the graphs
that were drawn, and can be told to stop. An analysis asks at fixed points whether
it is to stop; nothing of what it was doing is reported then.
-/

namespace WriteOnce

/-- How long an analysis may run: for ever, or for so many questions before it has to stop. -/
abbrev Patience := Option Nat

structure Session where
  cache : Option Cache
  patience : Patience
  /-- Stops the analysis with the graph that comes up at this number, counted from one. -/
  stopAtGraph : Option Nat
  /-- The graphs that were drawn, latest first. -/
  graphs : List FlowGraph
  /-- What was logged, latest first. -/
  log : List LogEvent

inductive Halt
  | failed (error : AnalysisError)
  | cancelled

def Halt.message : Halt → Text
  | .failed error => error.message
  | .cancelled => "analysis cancelled"

namespace Session

/-- A session that runs to its end. -/
def fresh (cache : Option Cache) : Session := ⟨cache, none, none, [], []⟩

def isCancelled (s : Session) : Bool := s.patience = some 0

def cancel (s : Session) : Session := { s with patience := some 0 }

end Session

abbrev Analysis := ExceptT Halt (StateM Session)

namespace Analysis

def fail (error : AnalysisError) : Analysis α := throw (.failed error)

def ofExcept : Except AnalysisError α → Analysis α
  | .ok a => return a
  | .error e => fail e

def log (event : LogEvent) : Analysis Unit := modify fun s => { s with log := event :: s.log }

/-- Asks so many times whether to stop. -/
def checks (times : Nat) : Analysis Unit := do
  match (← get).patience with
  | none => return ()
  | some left =>
    modify fun s => { s with patience := some (left - times) }
    if left < times then throw .cancelled else return ()

def check : Analysis Unit := checks 1

/-- Keeps a graph, and cancels the analysis if that was asked for. -/
def keep (g : FlowGraph) : Analysis Unit := modify fun s =>
  let s := { s with graphs := g :: s.graphs }
  match s.stopAtGraph with
  | none => s
  | some n => { (if n = 1 then s.cancel else s) with stopAtGraph := some (n - 1) }

/-- Asks the cache, if there is one. -/
def cached? (owner key : Text) : Analysis (Option Verdicts) := do
  match (← get).cache with
  | none => return none
  | some cache =>
    let (found, cache) := cache.get owner key
    modify fun s => { s with cache := some cache }
    log (if found.isSome then .cacheHit owner else .cacheMiss owner)
    return found

/-- Stores verdicts, if there is a cache, and gives what is stored. -/
def store (owner key : Text) (verdicts : Verdicts) : Analysis Verdicts := do
  match (← get).cache with
  | none => return verdicts
  | some cache =>
    let (stored, cache) := cache.put owner key verdicts
    modify fun s => { s with cache := some cache }
    return stored

end Analysis

end WriteOnce
