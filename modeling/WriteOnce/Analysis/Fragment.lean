import WriteOnce.Analysis.Session
import WriteOnce.FlowGraph.OfRoutine
import WriteOnce.Syntax.Fingerprint

/-!
# Analyzing one fragment

Lambdas are analyzed before the routines they stand in, so that the graph of a
routine shows what its lambdas write.
-/

namespace WriteOnce

/-- How often lambdas write variables from outside, by the position of the lambda. -/
abbrev Summaries := List (Pos × List (Variable × Nat))

namespace Analysis

/-- The graph of a routine, without the nodes that cannot be reached. -/
def graphOf (c : Collection) (summaries : Summaries) (r : Routine) : Analysis FlowGraph := do
  check
  let whole ← ofExcept (FlowGraph.ofRoutine (c.resolution summaries) r)
  checks whole.reachable.size
  let g := whole.prune
  let dropped := whole.nodes.length - g.nodes.length
  if 0 < dropped then log (.pruned g.label dropped)
  log (.graphSize g.label g.nodes.length g.edges.length)
  return g

def countWrites (g : FlowGraph) : Analysis WriteCount := do
  let vars := g.vars
  let sweep := Sweep.finish g vars
  checks sweep.visits
  let w ← ofExcept (WriteCount.ofSweep g vars sweep)
  checks w.violating.length
  log (.fixedPoint g.label w.sweep.visits w.violating.length)
  return w

/-- The verdicts on the variables of a routine whose declaration can be reached, added to others. -/
def judgeAll (r : Routine) (w : WriteCount) (bound written : List Variable) :
    List Declaration → Verdicts → Analysis Verdicts
  | [], verdicts => return verdicts
  | d :: ds, verdicts => do
    if bound.contains d.var then
      let verdict := d.judge (written.contains d.var) (w.reason? d.var)
      judgeAll r w bound written ds (verdicts.insert d verdict)
    else
      log (.unreachable r.label d.var.name)
      judgeAll r w bound written ds verdicts

/-- What a lambda writes of the variables that it does not declare. -/
def summarize (r : Routine) (w : WriteCount) : Summaries :=
  if r.isClosure then
    [(r.site.pos, w.summary (w.graph.written.filter fun v => !r.vars.contains v))]
  else []

/-- Analyzes routines one after the other. -/
def analyzeAll (c : Collection) : List Routine → Summaries → Verdicts → Analysis Verdicts
  | [], _, verdicts => return verdicts
  | r :: rs, summaries, verdicts => do
    check
    let g ← graphOf c summaries r
    keep g
    let w ← countWrites g
    let verdicts ← judgeAll r w g.bound g.written r.declarations verdicts
    analyzeAll c rs (summarize r w ++ summaries) verdicts

/-- The verdicts on all variables of a fragment, computed anew. -/
def compute (f : Fragment) (owner : Text) : Analysis Verdicts := do
  let c ← ofExcept (Collection.ofFragment owner f)
  let verdicts ← analyzeAll c c.routines.reverse [] []
  return verdicts.sort

/-- The verdicts on all variables of a fragment, before options. -/
def fragment (f : Fragment) (owner : Text) : Analysis Verdicts := do
  check
  if (← get).cache.isSome then
    let key := f.tree.fingerprint
    match ← cached? owner key with
    | some verdicts => return verdicts
    | none => store owner key (← compute f owner)
  else
    compute f owner

end Analysis

end WriteOnce
