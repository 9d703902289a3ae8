import WriteOnce.Text.Basic

/-!
# Positions in a source

Lines and columns count from one, and a column counts code points.
-/

namespace WriteOnce

structure Pos where
  line : Nat
  col : Nat
  deriving DecidableEq, Inhabited

namespace Pos

def start : Pos := ⟨1, 1⟩

/-- The position after a character that stands here. -/
def after (pos : Pos) (c : Char) : Pos :=
  if c = '\n' then ⟨pos.line + 1, 1⟩ else ⟨pos.line, pos.col + 1⟩

/-- The position after a stretch of characters that begins here. -/
def afterAll (pos : Pos) (cs : List Char) : Pos := cs.foldl after pos

def le (p q : Pos) : Bool := p.line < q.line || (p.line = q.line && p.col ≤ q.col)

def right (pos : Pos) (columns : Nat) : Pos := ⟨pos.line, pos.col + columns⟩

/-- `line:col` -/
def text (pos : Pos) : Text := Text.ofNat pos.line ++ ":" ++ Text.ofNat pos.col

/-- A message with the place it is about. -/
def locate (pos : Pos) (message : Text) : Text :=
  message ++ " at line " ++ Text.ofNat pos.line ++ " col " ++ Text.ofNat pos.col

end Pos

end WriteOnce
