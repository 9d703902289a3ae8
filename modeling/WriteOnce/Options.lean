import WriteOnce.Text.Blank

/-!
# Reporting options

Two families of variables can be reported or left out. Comments at the top of a
source, each on a line of its own, can change this for the source.
-/

namespace WriteOnce

/-- Which families of variables are reported. -/
structure Options where
  locals : Bool
  parameters : Bool
  deriving DecidableEq

namespace Options

def default : Options := ⟨true, true⟩

/-- Leaves out further families. -/
def hide (o : Options) (locals parameters : Bool) : Options :=
  ⟨o.locals && !locals, o.parameters && !parameters⟩

def pragmaMark : Text := "finalist:"

/-- The instruction that a comment holds behind its mark, if it has one. -/
def pragma? (comment : Text) : Option Text :=
  let body := (Text.mk (comment.codes.drop 2)).trim
  if body.startsWith pragmaMark then
    some (Text.mk (body.codes.drop pragmaMark.codes.length)).trim
  else none

/-- The instructions in the comments that stand, among blank lines, in front of all else. -/
def pragmas (source : Text) : List Text :=
  let lines := ((source.split 0x0A).map Text.trim).filter fun line => !line.isEmpty
  (lines.takeWhile fun line => line.startsWith "//").filterMap pragma?

/-- Follows one instruction; unknown ones change nothing. -/
def follow (o : Options) (pragma : Text) : Options :=
  if pragma = "no-locals" then { o with locals := false }
  else if pragma = "no-parameters" then { o with parameters := false }
  else if pragma = "locals" then { o with locals := true }
  else if pragma = "parameters" then { o with parameters := true }
  else o

/-- The options for a source: later instructions win over earlier ones and over the base. -/
def ofPragmas (source : Text) (base : Options) : Options := (pragmas source).foldl follow base

end Options

end WriteOnce
