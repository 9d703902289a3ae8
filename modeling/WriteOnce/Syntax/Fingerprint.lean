import WriteOnce.Digest.Sha256
import WriteOnce.Syntax.Tree
import WriteOnce.Text.Quoted
import WriteOnce.Text.Utf8

/-!
# Fingerprints of syntax

A tree is spelled out in one pass from the root: the length of every list, the
class of every node and the value of every leaf. The spelling shows positions
too, and its digest stands for the tree.
-/

namespace WriteOnce

namespace Tree

/-- A leaf ends with a comma. -/
def spellLeaf (value : Text) (rest : List Nat) : List Nat := value.codes ++ 0x2C :: rest

mutual

/-- The spelling of a tree in front of `rest`. -/
def spell : Tree → List Nat → List Nat
  | node label fields, rest => label.codes ++ 0x28 :: spellFields fields rest
  | list items, rest =>
    0x5B :: ((Text.ofNat items.length).codes ++ 0x5D :: spellItems items rest)
  | place pos, rest =>
    Text.codes "Pos(" ++ spellLeaf (Text.ofNat pos.line) (spellLeaf (Text.ofNat pos.col) rest)
  | text value, rest => spellLeaf value.quoted rest
  | number value, rest => spellLeaf (Text.ofNat value) rest
  | flag true, rest => spellLeaf "True" rest
  | flag false, rest => spellLeaf "False" rest
  | absent, rest => spellLeaf "None" rest

def spellFields : List (Text × Tree) → List Nat → List Nat
  | [], rest => rest
  | (_, t) :: fields, rest => spell t (spellFields fields rest)

def spellItems : List Tree → List Nat → List Nat
  | [], rest => rest
  | t :: items, rest => spell t (spellItems items rest)

end

def spelling (t : Tree) : Text := ⟨spell t []⟩

/-- The digest of the spelling, in hexadecimal. -/
def fingerprint (t : Tree) : Text :=
  ⟨(Sha256.digest t.spelling.utf8).flatMap fun byte => Text.Quoted.hexDigits 2 byte.toNat⟩

end Tree

end WriteOnce
