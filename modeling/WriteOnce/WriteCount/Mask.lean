import WriteOnce.Text.Basic

/-!
# Sets of write counts

How often a variable has been written is counted up to two: never, once, or more
often. A mask is the set of counts that are possible at a place, as a number with
one bit for each count. Higher bits mean nothing.
-/

namespace WriteOnce

structure Mask where
  bits : Nat
  deriving DecidableEq

namespace Mask

def zero : Mask := ⟨1⟩

def one : Mask := ⟨2⟩

def many : Mask := ⟨4⟩

def empty : Mask := ⟨0⟩

def union (m n : Mask) : Mask := ⟨m.bits ||| n.bits⟩

/-- Whether the two sets have a count in common. -/
def meets (m n : Mask) : Bool := m.bits &&& n.bits ≠ 0

/-- Whether the variable may have been written before. -/
def mayBeWritten (m : Mask) : Bool := m.meets (one.union many)

/-- The counts after one more write. -/
def written (m : Mask) : Mask :=
  (if m.meets zero then one else empty).union (if m.mayBeWritten then many else empty)

/-- The largest count, where two stands for all larger ones. -/
def most (m : Mask) : Nat := if m.meets many then 2 else if m.meets one then 1 else 0

def describe (m : Mask) : Text :=
  let counts : List (Mask × Text) := [(zero, "0"), (one, "1"), (many, "2+")]
  "\x7b" ++ Text.join "," ((counts.filter fun c => m.meets c.1).map Prod.snd) ++ "\x7d"

end Mask

/-- The masks of some variables, in the order of a list of variables kept elsewhere. -/
abbrev Counts := List Mask

namespace Counts

/-- The masks that a table gives; a variable that is missing has not been written. -/
def ofTable [BEq κ] (keys : List κ) (table : List (κ × Mask)) : Counts :=
  keys.map fun key => (table.lookup key).getD .zero

def union (a b : Counts) : Counts := List.zipWith Mask.union a b

end Counts

end WriteOnce
