import WriteOnce.Proofs.Caching

/-!
# What is given to a digest

The tree of a fragment is walked with a stack. What is taken from its top gives out some bytes, and
its parts are put on the stack in its place. This comes to the encoding of the tree, and so two
fragments of parsed sources give out the same bytes only if their trees are the same.
-/

namespace WriteOnce

namespace Tree

/-! ## Walking with a stack -/

mutual

/-- How often something is taken from the stack for a tree. -/
def size : Tree → Nat
  | node _ fields => sizeFields fields + 1
  | list items => sizeItems items + 1
  | place _ => 3
  | _ => 1

def sizeFields : List (Text × Tree) → Nat
  | [] => 0
  | (_, t) :: fields => size t + sizeFields fields

def sizeItems : List Tree → Nat
  | [] => 0
  | t :: items => size t + sizeItems items

end

variable (printable : Nat → Bool)

/-- What a tree gives out when it is taken from the stack, and its parts. -/
def emit : Tree → Text × List Tree
  | node label fields => (label ++ "(", fields.map Prod.snd)
  | list items => ("[" ++ Text.ofNat items.length ++ "]", items)
  | place pos => ("Pos(", [number pos.line, number pos.col])
  | text value => (Text.Quoted.encode printable value ++ ",", [])
  | number value => (Text.ofNat value ++ ",", [])
  | flag true => ("True" ++ ",", [])
  | flag false => ("False" ++ ",", [])
  | absent => ("None" ++ ",", [])

theorem sizeFields_eq (fields : List (Text × Tree)) :
    sizeItems (fields.map Prod.snd) = sizeFields fields := by
  induction fields with
  | nil => rfl
  | cons field fields ih =>
    rw [List.map_cons, sizeItems, ih]
    rfl

theorem sizeItems_append (ts us : List Tree) :
    sizeItems (ts ++ us) = sizeItems ts + sizeItems us := by
  induction ts with
  | nil => exact (Nat.zero_add _).symm
  | cons t ts ih => rw [List.cons_append, sizeItems, sizeItems, ih, Nat.add_assoc]

theorem size_emit (t : Tree) : sizeItems (t.emit printable).2 + 1 = t.size := by
  cases t with
  | node label fields => rw [emit, sizeFields_eq, size]
  | flag value => cases value <;> rfl
  | _ => rfl

/-- The bytes that are given out until the stack, its top first, is empty. -/
def walk : List Tree → List UInt8
  | [] => []
  | t :: stack => (t.emit printable).1.utf8 ++ walk ((t.emit printable).2 ++ stack)
termination_by stack => sizeItems stack
decreasing_by
  have hsize := size_emit printable t
  rw [sizeItems_append, sizeItems]
  omega

/-- The bytes that a tree gives out. -/
def stream (t : Tree) : List UInt8 := walk printable [t]

/-! ## The walk in one piece -/

theorem encodingFields_eq (fields : List (Text × Tree)) :
    encodingItems printable (fields.map Prod.snd) = encodingFields printable fields := by
  induction fields with
  | nil => rfl
  | cons field fields ih =>
    rw [List.map_cons, encodingItems, ih]
    rfl

theorem encodingItems_append (ts us : List Tree) :
    encodingItems printable (ts ++ us) =
      encodingItems printable ts ++ encodingItems printable us := by
  induction ts with
  | nil => rfl
  | cons t ts ih =>
    rw [List.cons_append, encodingItems, encodingItems, ih]
    exact (Text.append_assoc ..).symm

/-- An encoding begins with what is given out first. -/
theorem encoding_emit (t : Tree) :
    t.encoding printable =
      (t.emit printable).1 ++ encodingItems printable (t.emit printable).2 := by
  cases t with
  | node label fields => rw [emit, encodingFields_eq, encoding]
  | list items => rfl
  | place pos =>
    exact (Text.append_assoc ..).trans (congrArg _ (congrArg _ (Text.append_empty _).symm))
  | flag value => cases value <;> exact (Text.append_empty _).symm
  | _ => exact (Text.append_empty _).symm

/-- What is given out from some moment on is the encoding of the stack. -/
theorem walk_eq (stack : List Tree) :
    walk printable stack = (encodingItems printable stack).utf8 := by
  fun_induction walk printable stack with
  | case1 => rfl
  | case2 t stack ih =>
    rw [ih, encodingItems_append, encodingItems, encoding_emit, Text.append_assoc]
    exact List.flatMap_append.symm

theorem stream_eq (t : Tree) : t.stream printable = (t.encoding printable).utf8 := by
  rw [stream, walk_eq, encodingItems, encodingItems, Text.append_empty]

end Tree

/-- The walk gives out the encoding of a fragment, whose digest is the fingerprint if the printable
code points are printed. Parsed fragments that give out the same bytes have the same tree. -/
theorem Fragment.stream_inj (printable : Nat → Bool) {f g : Fragment} (hf : f.Parsed)
    (hg : g.Parsed) :
    f.tree.stream printable = (f.tree.encoding printable).utf8 ∧
      f.tree.spelling.utf8 = f.tree.stream Text.isPrintable ∧
      (f.tree.stream printable = g.tree.stream printable → f.tree = g.tree) := by
  refine ⟨f.tree.stream_eq printable, ?_, fun h => ?_⟩
  · rw [Tree.stream_eq, Tree.spelling_eq]
  · rw [Tree.stream_eq, Tree.stream_eq] at h
    exact Tree.encoding_bytes_inj f.signed g.signed hf.coded hg.coded h

/-- `{ f("it's"); }` -/
def quotedCall : List Char := "\x7b f(\"it's\"); \x7d".toList

/-- A comment behind a block does not show in its bytes. -/
theorem Fragment.stream_inj_comment : ∃ b c, Block.parse quotedCall = .ok b ∧
    Block.parse (quotedCall ++ "// done".toList) = .ok c ∧
    b.tree.stream (· < 0x7F) = c.tree.stream (· < 0x7F) ∧ b.tree = c.tree := by
  obtain ⟨b, hb, hany⟩ := FlowGraph.exists_ok_of_any (x := Block.parse quotedCall)
    (p := fun b => (Block.parse (quotedCall ++ "// done".toList)).toOption.any fun c =>
      b.tree.encoding (· < 0x7F) = c.tree.encoding (· < 0x7F))
    (by decide +kernel)
  obtain ⟨c, hc, hencoding⟩ := FlowGraph.exists_ok_of_any hany
  have hb' : (Fragment.block b).Parsed := ⟨_, _, .inr ⟨b, hb, .refl⟩⟩
  have hc' : (Fragment.block c).Parsed := ⟨_, _, .inr ⟨c, hc, .refl⟩⟩
  have hstream : b.tree.stream (· < 0x7F) = c.tree.stream (· < 0x7F) := by
    rw [Tree.stream_eq, Tree.stream_eq, of_decide_eq_true hencoding]
  exact ⟨b, c, hb, hc, hstream, (Fragment.stream_inj (· < 0x7F) hb' hc').2.2 hstream⟩

end WriteOnce
