import WriteOnce.Pos

/-!
# Why an analysis gives no verdicts
-/

namespace WriteOnce

inductive JumpWord
  | breakWord
  | continueWord
  deriving DecidableEq

def JumpWord.text : JumpWord → Text
  | .breakWord => "break"
  | .continueWord => "continue"

inductive AnalysisFault
  /-- Only methods, initializers and blocks can be analyzed. -/
  | notAnalyzable (className : Text)
  | methodWithoutBody
  | misplacedJump (word : JumpWord)
  | continueToNoLoop
  | undeclaredLocal (name : Text)
  | unreachableNode (id : Nat) (kind : Text)
  deriving DecidableEq

structure AnalysisError where
  fault : AnalysisFault
  pos : Pos
  deriving DecidableEq

def AnalysisFault.message : AnalysisFault → Text
  | .notAnalyzable className => "cannot analyze " ++ className
  | .methodWithoutBody => "method has no body"
  | .misplacedJump word => word.text ++ " outside of a matching statement"
  | .continueToNoLoop => "continue target is not a loop"
  | .undeclaredLocal name => "undeclared local " ++ name
  | .unreachableNode id kind =>
    "node " ++ Text.ofNat id ++ " (" ++ kind ++ ") is not reachable from entry"

/-- Faults that belong to no place in the source are placed at line 0, column 0. -/
def Pos.nowhere : Pos := ⟨0, 0⟩

def AnalysisError.message (e : AnalysisError) : Text := e.pos.locate e.fault.message

end WriteOnce
