import WriteOnce.Token.Basic

/-!
# Looking ahead

Some productions begin alike and are told apart by scanning ahead. The scans go
over the tokens once and give what is left behind the scanned part. They go by
the text of a token, so that a quoted literal can pass for a word or an operator.
-/

namespace WriteOnce

def primitiveNames : List Text :=
  ["boolean", "byte", "char", "short", "int", "long", "float", "double", "void"].map Text.ofString

namespace Lookahead

def headReads (word : Text) (ts : List Token) : Bool := ts.head?.any (·.text = word)

def headIsIdent (ts : List Token) : Bool := ts.head?.any Token.isIdent

/-- What is left behind the parenthesis that closes `depth` inner ones and one more. -/
def afterClosing : Nat → List Token → List Token
  | _, [] => []
  | depth, t :: ts =>
    if t.text = "(" then afterClosing (depth + 1) ts
    else if t.text = ")" then
      match depth with
      | 0 => ts
      | d + 1 => afterClosing d ts
    else afterClosing depth ts

/-! ## Modifiers and annotations -/

/-- Where a scan of modifiers stands. -/
inductive ModifierScan
  | between
  /-- In front of a name that belongs to an annotation. -/
  | atName
  /-- Behind a name of an annotation. -/
  | named
  /-- In the arguments of an annotation, inside so many inner parentheses. -/
  | inside (depth : Nat)
  deriving DecidableEq

def skipModifiersFrom : ModifierScan → List Token → List Token
  | _, [] => []
  | .atName, _ :: ts => skipModifiersFrom .named ts
  | .inside depth, t :: ts =>
    if t.text = "(" then skipModifiersFrom (.inside (depth + 1)) ts
    else if t.text = ")" then
      match depth with
      | 0 => skipModifiersFrom .between ts
      | d + 1 => skipModifiersFrom (.inside d) ts
    else skipModifiersFrom (.inside depth) ts
  | scan, t :: ts =>
    if scan = .named && t.text = "." && headIsIdent ts then skipModifiersFrom .atName ts
    else if scan = .named && t.text = "(" then skipModifiersFrom (.inside 0) ts
    else if t.text = "final" then skipModifiersFrom .between ts
    else if t.text = "@" && headIsIdent ts then skipModifiersFrom .atName ts
    else t :: ts

/-- What is left behind annotations and the word `final`, in any order. -/
def skipModifiers (ts : List Token) : List Token := skipModifiersFrom .between ts

/-! ## Types -/

/-- Where a scan of a named type stands. -/
inductive TypeScan
  /-- Behind a part of the name. -/
  | named
  /-- Behind the arguments of a part. -/
  | closed
  /-- In the arguments of a part, inside so many inner brackets. -/
  | inside (depth : Nat)
  deriving DecidableEq

def skipBrackets : List Token → List Token
  | t :: u :: ts => if t.text = "[" && u.text = "]" then skipBrackets ts else t :: u :: ts
  | ts => ts

/-- Words and signs that can stand between the brackets of type arguments. -/
def typeArgumentWords : List Text :=
  [",", "?", ".", "[", "]", "extends", "super", "&"].map Text.ofString

def inTypeArguments (t : Token) : Bool :=
  t.isIdent || t.text ∈ primitiveNames || t.text ∈ typeArgumentWords

def skipTypeFrom : TypeScan → List Token → Option (List Token)
  | .inside _, [] => none
  | _, [] => some []
  | .inside depth, t :: ts =>
    if t.text = "<" then skipTypeFrom (.inside (depth + 1)) ts
    else if t.text = ">" then
      match depth with
      | 0 => skipTypeFrom .closed ts
      | d + 1 => skipTypeFrom (.inside d) ts
    else if inTypeArguments t then skipTypeFrom (.inside depth) ts
    else none
  | scan, t :: ts =>
    if scan = .named && t.text = "<" then skipTypeFrom (.inside 0) ts
    else if t.text = "." then
      match ts with
      | n :: rest => if n.isIdent then skipTypeFrom .named rest else some (t :: ts)
      | [] => some [t]
    else some (skipBrackets (t :: ts))

/-- What is left behind a type, if the tokens begin with one. -/
def skipType? : List Token → Option (List Token)
  | [] => none
  | t :: ts =>
    if t.text ∈ primitiveNames && !t.isIdent then some (skipBrackets ts)
    else if t.isIdent then skipTypeFrom .named ts
    else none

/-- What is left behind bracketed type parameters, inside so many inner brackets. -/
def skipTypeParams? : Nat → List Token → Option (List Token)
  | _, [] => none
  | depth, t :: ts =>
    if t.text = "<" then skipTypeParams? (depth + 1) ts
    else if t.text = ">" then
      match depth with
      | 0 => some ts
      | d + 1 => skipTypeParams? d ts
    else if inTypeArguments t then skipTypeParams? depth ts
    else none

/-! ## Telling productions apart -/

/-- A declaration begins with modifiers, a type and a name. -/
def atLocalDecl (ts : List Token) : Bool :=
  (skipType? (skipModifiers ts)).any headIsIdent

/-- The head of a `for` over a collection is a declaration up to a colon. -/
def atForEachHeader (ts : List Token) : Bool :=
  (skipType? (skipModifiers ts)).any fun rest => headIsIdent rest && headReads ":" rest.tail

def atClassDecl (ts : List Token) : Bool := headReads "class" (skipModifiers ts)

/-- A lambda begins with a name or a group in parentheses, and then an arrow. -/
def atLambda : List Token → Bool
  | [] => false
  | t :: ts =>
    if t.isIdent then headReads "->" ts
    else t.text = "(" && headReads "->" (afterClosing 0 ts)

def castFollowers : List Text :=
  ["(", "!", "~", "this", "super", "new", "true", "false", "null"].map Text.ofString

/-- Whether a token can begin the operand of a cast to a named type. -/
def beginsCastOperand (t : Token) : Bool :=
  match t.kind with
  | .ident | .int | .float | .string | .char => true
  | _ => t.text ∈ castFollowers

/-- A cast begins with a type in parentheses. If the type begins with a primitive name nothing
else is asked; otherwise an operand must follow, since a name in parentheses is an operand too. -/
def atCast : List Token → Bool
  | [] => false
  | t :: ts =>
    if t.text = "(" && !t.isQuoted then
      match skipType? ts with
      | some (closing :: rest) =>
        closing.text = ")" &&
          (ts.head?.any (·.text ∈ primitiveNames) || rest.head?.any beginsCastOperand)
      | _ => false
    else false

/-! ## Operators made of `>` -/

/-- Adjacent `>` tokens read as one operator: so many arrows, and perhaps an equals sign. The
operator takes as many tokens as it has arrows. -/
structure ArrowRun where
  arrows : Nat
  equals : Bool
  deriving DecidableEq

/-- Whether a token stands where the text of another one would end. -/
def adjacent (t u : Token) : Bool :=
  u.pos.line = t.pos.line && u.pos.col = t.pos.col + t.text.codes.length

/-- At most `more` arrows are joined to those already seen, the last of them in `last`. -/
def extendArrows (arrows : Nat) (last : Token) : (more : Nat) → List Token → ArrowRun
  | more + 1, t :: ts =>
    if adjacent last t then
      if t.text = ">" then extendArrows (arrows + 1) t more ts
      else if t.text = ">=" then ⟨arrows + 1, true⟩
      else ⟨arrows, false⟩
    else ⟨arrows, false⟩
  | _, _ => ⟨arrows, false⟩

/-- The longest operator of arrows in front, of at most three arrows. -/
def arrowRun? : List Token → Option ArrowRun
  | [] => none
  | t :: ts =>
    if t.kind = .op then
      if t.text = ">=" then some ⟨1, true⟩
      else if t.text = ">" then some (extendArrows 1 t 2 ts)
      else none
    else none

end Lookahead

end WriteOnce
