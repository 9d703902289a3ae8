import WriteOnce.Analysis.Error

/-!
# What an analysis reports about itself
-/

namespace WriteOnce

inductive LogEvent
  | cacheMiss (owner : Text)
  | cacheHit (owner : Text)
  | pruned (label : Text) (nodes : Nat)
  | graphSize (label : Text) (nodes edges : Nat)
  | fixedPoint (label : Text) (visits violating : Nat)
  | unreachable (label name : Text)
  | skipping (owner : Text) (error : AnalysisError)
  | cacheTotals (hits misses : Nat)

namespace LogEvent

/-- Warnings are shown always, everything else only on request. -/
def isWarning : LogEvent → Bool
  | skipping .. => true
  | _ => false

def source : LogEvent → Text
  | cacheMiss .. | cacheHit .. => "finalist.analysis.cache"
  | pruned .. | graphSize .. => "finalist.analysis.cfg"
  | fixedPoint .. => "finalist.analysis.writes"
  | unreachable .. | skipping .. => "finalist.analysis.verdicts"
  | cacheTotals .. => "finalist.cli"

def message : LogEvent → Text
  | cacheMiss owner => "cache miss for " ++ owner
  | cacheHit owner => "cache hit for " ++ owner
  | pruned label nodes => label ++ ": pruned " ++ Text.ofNat nodes ++ " unreachable nodes"
  | graphSize label nodes edges =>
    label ++ ": " ++ Text.ofNat nodes ++ " nodes, " ++ Text.ofNat edges ++ " edges"
  | fixedPoint label visits violating =>
    label ++ ": fixed point after " ++ Text.ofNat visits ++ " steps, " ++ Text.ofNat violating
      ++ " violating variables"
  | unreachable label name => label ++ ": " ++ name ++ " is unreachable, not reported"
  | skipping owner error => "skipping " ++ owner ++ ": " ++ error.message
  | cacheTotals hits misses =>
    "cache: " ++ Text.ofNat hits ++ " hits, " ++ Text.ofNat misses ++ " misses"

def line (e : LogEvent) : Text :=
  (if e.isWarning then "WARNING" else "DEBUG" : Text) ++ " " ++ e.source ++ ": " ++ e.message

end LogEvent

end WriteOnce
