import WriteOnce.Verdict

/-!
# Suggestions

A variable that could be `final`, and that no option hides, is worth a line to the
reader. Verdicts of every kind have a line as well, for readers who ask for all.
-/

namespace WriteOnce

namespace Suggestion

/-- What this kind of suggestion is called. -/
def name : Text := "LocalCanBeFinal"

end Suggestion

namespace Variable

/-- What a reader calls the variable. -/
def noun (v : Variable) : Text :=
  match v.kind with
  | .parameter | .catchParameter => "Parameter"
  | .localVariable | .forEachParameter | .other _ => "Variable"

def suggestion (v : Variable) : Text :=
  v.noun ++ " '" ++ v.name ++ "' can have 'final' modifier"

/-- A line about the variable, behind the path of its source and its place. -/
def lineAbout (v : Variable) (path what : Text) : Text :=
  path ++ ":" ++ Text.ofInt v.line ++ ":" ++ Text.ofInt v.col ++ ": " ++ what

def suggestionLine (v : Variable) (path : Text) : Text := v.lineAbout path v.suggestion

def verdictLine (v : Variable) (path : Text) (verdict : Verdict) : Text :=
  v.lineAbout path (v.kind.name ++ " '" ++ v.name ++ "': " ++ verdict.text)

end Variable

namespace Verdicts

/-- The variables that could be `final` and are not hidden, by place. -/
def suggestions (options : Options) (vs : Verdicts) : List Variable :=
  let shown : Verdicts := vs.filter fun (d, verdict) => verdict.isCan && !d.isHidden options
  shown.sort.map fun (d, _) => d.var

def suggestionLines (options : Options) (path : Text) (vs : Verdicts) : List Text :=
  (vs.suggestions options).map fun v => v.suggestionLine path

def verdictLines (path : Text) (vs : Verdicts) : List Text :=
  vs.map fun (d, verdict) => d.var.verdictLine path verdict

end Verdicts

end WriteOnce
