import WriteOnce.Token.Lexer
import WriteOnce.Grammar.Members

/-!
# From source to syntax

The whole source is read as tokens first, so that a fault in a token comes before
any fault in the grammar.
-/

namespace WriteOnce

inductive SourceError
  | token (error : LexError)
  | grammar (error : ParseError)
  deriving DecidableEq

def SourceError.message : SourceError → Text
  | .token error => error.message
  | .grammar error => error.message

/-- What a parser makes of a source in which productions stand inside each other at most `depth`
times. -/
def parseWith (p : Grammar → Parser α) (depth : Nat) (source : List Char) :
    Except SourceError α :=
  match tokenize source with
  | .error e => .error (.token e)
  | .ok stream =>
    match p (.ofDepth depth) stream with
    | .error e => .error (.grammar e)
    | .ok (result, _) => .ok result

/-- How deeply a source may nest is for the system to say on which it is parsed. -/
def Program.parse (source : List Char) (depth : Nat := Grammar.depthLimit) :
    Except SourceError Program :=
  parseWith Grammar.program depth source

def Block.parse (source : List Char) (depth : Nat := Grammar.depthLimit) :
    Except SourceError Block :=
  parseWith Grammar.wholeBlock depth source

end WriteOnce
