import WriteOnce.Grammar.Expressions
import WriteOnce.Proofs.EnsuringParsers
import WriteOnce.Proofs.WrittenOperators

/-!
# Trees of binary operators

Operators bind at ten levels. A sequence of operands and operators is read off exactly one tree in
which no left operand binds more loosely than its parent and every right operand binds more tightly.
The parser finds that tree: at each level it takes the longest piece whose operators bind at least
as tightly, and leaves the rest to the levels below.
-/

namespace WriteOnce

open WriteOnce.Parser Lookahead

namespace BinaryOp

/-- How tightly an operator binds. -/
def level : BinaryOp → Nat
  | or => 1
  | and => 2
  | bitOr => 3
  | bitXor => 4
  | bitAnd => 5
  | equal | notEqual => 6
  | less | greater | lessEqual | greaterEqual => 7
  | shiftLeft | shiftRight | shiftRightZero => 8
  | add | subtract => 9
  | multiply | divide | remainder => 10

theorem level_bounds (op : BinaryOp) : 1 ≤ op.level ∧ op.level ≤ 10 := by
  cases op <;> decide

/-- The text of an operator's first token. -/
def lead : BinaryOp → Text
  | shiftRight | shiftRightZero => ">"
  | op => op.symbol

/-- What the arrows in front are read as. -/
def arrows : BinaryOp → Option ArrowRun
  | greater => some ⟨1, false⟩
  | greaterEqual => some ⟨1, true⟩
  | shiftRight => some ⟨2, false⟩
  | shiftRightZero => some ⟨3, false⟩
  | _ => none

theorem length_tokens (op : BinaryOp) (col col' : Nat) :
    (op.tokens col).length = (op.tokens col').length := by
  cases op <;> rfl

end BinaryOp

/-- The expression of an operand in this column of the first line. -/
def Operand.exprAt (a : Operand) (col : Nat) : Expr :=
  match a with
  | name word _ => .name ⟨1, col⟩ (.ofChars word)
  | int word _ => .literal ⟨1, col⟩ (.int (.ofChars word))

theorem Operand.kind_ne_op (a : Operand) : a.kind ≠ .op := by cases a <;> simp [Operand.kind]

theorem Operand.text_ne_parenthesis (a : Operand) (col : Nat) : (a.token col).text ≠ "(" := by
  cases a with
  | name word h => exact h.ne (by decide)
  | int word h =>
    obtain ⟨c, cs, rfl, hdigit, -⟩ := Lexer.exists_cons_intWord h
    intro heq
    have hsign : c = '(' := (List.cons.inj (Text.ofChars_injective heq)).1
    exact Lexer.isDigit_ne hdigit (by decide) hsign

inductive OperatorTree
  | operand (a : Operand)
  | node (op : BinaryOp) (left right : OperatorTree)

namespace OperatorTree

/-- Operands and operators in order. -/
def reading : OperatorTree → List (Operand ⊕ BinaryOp)
  | operand a => [.inl a]
  | node op left right => left.reading ++ .inr op :: right.reading

/-- Operands bind more tightly than all operators. -/
def level : OperatorTree → Nat
  | operand _ => 11
  | node op _ _ => op.level

/-- Every left operand binds at least as tightly as its parent, and every right one more tightly. -/
def Graded : OperatorTree → Prop
  | operand _ => True
  | node op left right =>
    (op.level ≤ left.level ∧ op.level < right.level) ∧ left.Graded ∧ right.Graded

/-- How many columns the tree takes, written with single spaces. -/
def width : OperatorTree → Nat
  | operand a => a.width
  | node op left right => left.width + 2 + op.width + right.width

/-- The expression of the tree, written from this column on. -/
def exprAt (col : Nat) : OperatorTree → Expr
  | operand a => a.exprAt col
  | node op left right =>
    .binary ⟨1, col⟩ op (left.exprAt col) (right.exprAt (col + left.width + 2 + op.width))

theorem pos_exprAt (t : OperatorTree) (col : Nat) : (t.exprAt col).pos = ⟨1, col⟩ := by
  cases t with
  | operand a => cases a <;> rfl
  | node => rfl

/-! ## One tree for each reading -/

theorem reading_ne_nil (t : OperatorTree) : t.reading ≠ [] := by
  cases t <;> simp [reading]

theorem level_le_of_mem {t : OperatorTree} (h : t.Graded) {op : BinaryOp}
    (hop : .inr op ∈ t.reading) : t.level ≤ op.level := by
  induction t with
  | operand a => simp [reading] at hop
  | node o left right ihleft ihright =>
    obtain ⟨⟨hleft, hright⟩, hl, hr⟩ := h
    simp only [reading, List.mem_append, List.mem_cons, Sum.inr.injEq] at hop
    rcases hop with hop | rfl | hop
    · exact hleft.trans (ihleft hl hop)
    · exact Nat.le_refl _
    · exact hright.le.trans (ihright hr hop)

/-- Of two roots of the same sequence neither stands in front of the other. -/
theorem split_unique {op op' : BinaryOp} {left right left' right' : OperatorTree}
    (h : (node op left right).Graded) (h' : (node op' left' right').Graded)
    {as : List (Operand ⊕ BinaryOp)} (hleft : left'.reading = left.reading ++ as)
    (hright : .inr op :: right.reading = as ++ .inr op' :: right'.reading) : as = [] := by
  obtain _ | ⟨x, as⟩ := as
  · rfl
  · obtain ⟨rfl, htail⟩ := List.cons.inj hright
    have hle : op'.level ≤ op.level :=
      h'.1.1.trans (level_le_of_mem h'.2.1 (hleft ▸ by simp))
    have hlt : op.level < op'.level :=
      h.1.2.trans_le (level_le_of_mem h.2.2 (htail ▸ by simp))
    omega

theorem eq_of_reading_eq {t u : OperatorTree} (ht : t.Graded) (hu : u.Graded)
    (h : t.reading = u.reading) : t = u := by
  have hsingle : ∀ (a : Operand) (op : BinaryOp) (left right : OperatorTree),
      (operand a).reading ≠ (node op left right).reading := by
    intro a op left right heq
    have hlength := congrArg List.length heq
    have hleft := List.length_pos_iff.2 left.reading_ne_nil
    simp only [reading, List.length_cons, List.length_nil, List.length_append] at hlength
    omega
  induction t generalizing u with
  | operand a =>
    cases u with
    | operand b => simpa [reading] using h
    | node op left right => exact absurd h (hsingle a op left right)
  | node op left right ihleft ihright =>
    cases u with
    | operand b => exact absurd h.symm (hsingle b op left right)
    | node op' left' right' =>
      have hsplit : left.reading = left'.reading ∧
          .inr op :: right.reading = .inr op' :: right'.reading := by
        rcases List.append_eq_append_iff.1 h with ⟨as, hleft, hright⟩ | ⟨as, hleft, hright⟩
        · obtain rfl := split_unique ht hu hleft hright
          exact ⟨by simpa using hleft.symm, by simpa using hright⟩
        · obtain rfl := split_unique hu ht hleft hright
          exact ⟨by simpa using hleft, by simpa using hright.symm⟩
      obtain ⟨rfl, hright⟩ : op = op' ∧ right.reading = right'.reading := by
        simpa using hsplit.2
      rw [ihleft ht.2.1 hu.2.1 hsplit.1, ihright ht.2.2 hu.2.2 hright]

end OperatorTree

namespace Operations

/-- Operators and operands in order. -/
def items : Operations → List (Operand ⊕ BinaryOp)
  | [] => []
  | (op, a) :: rest => .inr op :: .inl a :: items rest

/-- The stream that begins behind an operand that ends in front of this column. -/
def stream (rest : Operations) (col : Nat) (stop : Pos) : TokenStream := ⟨rest.tokens col, stop⟩

/-- The stream that begins with an operand in this column. -/
def streamFrom (a : Operand) (rest : Operations) (col : Nat) (stop : Pos) : TokenStream :=
  ⟨a.token col :: rest.tokens (col + a.width), stop⟩

end Operations

namespace Production

open Operations

variable {g : Grammar} {stop : Pos} {k : Nat}

/-! ## Levels of operators -/

/-- The parser takes an operand and as many operations behind it as bind so tightly. -/
def Climbs (k : Nat) (p : Parser Expr) : Prop :=
  ∀ (a : Operand) (rest : Operations) (col : Nat) (stop : Pos), ∃ (t : OperatorTree)
    (taken left : Operations), rest = taken ++ left ∧ t.reading = .inl a :: taken.items ∧
      t.Graded ∧ k ≤ t.level ∧ (∀ x ∈ left.head?, x.1.level < k) ∧
      p (streamFrom a rest col stop) = .ok (t.exprAt col, left.stream (col + t.width) stop)

/-- The operators of one level are found in front, each with its tokens, and nothing else is. -/
structure Finds (op? : TokenStream → Option (BinaryOp × Nat)) (k : Nat) : Prop where
  operator (op : BinaryOp) (a : Operand) (rest : Operations) (col : Nat) (stop : Pos) :
    op? (stream ((op, a) :: rest) col stop) =
      if op.level = k then some (op, (op.tokens (col + 1)).length) else none
  semicolon (col : Nat) (stop : Pos) : op? (stream [] col stop) = none

theorem items_append (rest more : Operations) :
    items (rest ++ more) = rest.items ++ more.items := by
  induction rest with
  | nil => rfl
  | cons x rest ih => simp [items, ih]

theorem stream_skip (op : BinaryOp) (a : Operand) (rest : Operations) (col : Nat) (stop : Pos) :
    (stream ((op, a) :: rest) col stop).skip (op.tokens (col + 1)).length =
      streamFrom a rest (col + 2 + op.width) stop := by
  rw [TokenStream.skip, stream, Operations.tokens, List.drop_left]
  rfl

theorem length_tokens (rest : Operations) (col col' : Nat) :
    (rest.tokens col).length = (rest.tokens col').length := by
  induction rest generalizing col col' with
  | nil => rfl
  | cons x rest ih =>
    obtain ⟨op, a⟩ := x
    simp only [Operations.tokens, List.length_append, List.length_cons,
      op.length_tokens (col + 1) (col' + 1)]
    rw [ih]

theorem length_tokens_append_le (taken left : Operations) (col col' : Nat) :
    (left.tokens col).length ≤ ((taken ++ left).tokens col').length := by
  induction taken generalizing col' with
  | nil => exact (length_tokens left col col').le
  | cons x taken ih =>
    obtain ⟨op, a⟩ := x
    have hle := ih (col' + 2 + op.width + a.width)
    simp only [List.cons_append, Operations.tokens, List.length_append, List.length_cons]
    omega

section

variable {op? : TokenStream → Option (BinaryOp × Nat)} {operand : Parser Expr} {left right : Expr}
  {s s' : TokenStream}

theorem binaryStep_none (h : op? s = none) : binaryStep op? operand left s = .ok (none, s) := by
  rw [binaryStep, bind_of_ok (look_of_eq h)]
  rfl

theorem binaryStep_some {op : BinaryOp} {count : Nat} (h : op? s = some (op, count))
    (hrun : operand (s.skip count) = .ok (right, s')) :
    binaryStep op? operand left s = .ok (some (.binary left.pos op left right), s') := by
  have hskip : skip count s = .ok ((), s.skip count) := rfl
  rw [binaryStep, bind_of_ok (look_of_eq h)]
  dsimp only
  rw [bind_of_ok hskip, bind_of_ok hrun]
  rfl

end

/-- A loop over the operators of one level, behind a tree that binds so tightly. -/
theorem exists_runs {op? : TokenStream → Option (BinaryOp × Nat)} {operand : Parser Expr}
    {step : Expr → Parser (Option Expr)} (hoperand : Climbs (k + 1) operand) (hop : Finds op? k)
    (hstep : ∀ left rest col, step left (stream rest col stop) =
      binaryStep op? operand left (stream rest col stop))
    (rest : Operations) (col : Nat) (t : OperatorTree) (ht : t.Graded) (hlevel : k ≤ t.level)
    (hrest : ∀ x ∈ rest.head?, x.1.level ≤ k) :
    ∃ (u : OperatorTree) (taken left : Operations), rest = taken ++ left ∧
      u.reading = t.reading ++ taken.items ∧ u.Graded ∧ k ≤ u.level ∧
      (∀ x ∈ left.head?, x.1.level < k) ∧
      Runs step (t.exprAt col) (rest.stream (col + t.width) stop) (u.exprAt col)
        (left.stream (col + u.width) stop) := by
  induction h : rest.length using Nat.strong_induction_on generalizing rest t with
  | _ n ih =>
    obtain _ | ⟨⟨op, a⟩, rest⟩ := rest
    · refine ⟨t, [], [], rfl, by simp [items], ht, hlevel, nofun, .stop ?_⟩
      rw [hstep, binaryStep_none (hop.semicolon _ stop)]
    · have hfound := hop.operator op a rest (col + t.width) stop
      by_cases hk : op.level = k
      · rw [if_pos hk] at hfound
        obtain ⟨v, taken, left, rfl, hreading, hv, hvlevel, hleft, hrun⟩ :=
          hoperand a rest (col + t.width + 2 + op.width) stop
        rw [← stream_skip] at hrun
        have hnode : (OperatorTree.node op t v).Graded := ⟨⟨by omega, by omega⟩, ht, hv⟩
        have hless : left.length < n := by
          rw [← h, List.length_cons, List.length_append]
          omega
        have hwidth : col + t.width + 2 + op.width + v.width =
            col + (OperatorTree.node op t v).width := by
          rw [OperatorTree.width]
          omega
        obtain ⟨u, more, last, rfl, hureading, hu, hulevel, hlast, hruns⟩ :=
          ih left.length hless left (.node op t v) hnode hk.ge
            (fun x hx => Nat.le_of_lt_succ (hleft x hx)) rfl
        refine ⟨u, (op, a) :: (taken ++ more), last, by simp, ?_, hu, hulevel, hlast,
          .next ?_ ?_ hruns⟩
        · simp [hureading, OperatorTree.reading, hreading, items, items_append]
        · rw [hstep, binaryStep_some hfound hrun, OperatorTree.pos_exprAt, ← hwidth]
          rfl
        · have hle := length_tokens_append_le taken (more ++ last)
            (col + (OperatorTree.node op t v).width) (col + t.width + 2 + op.width + a.width)
          simp only [stream, Operations.tokens, List.length_append, List.length_cons]
          omega
      · rw [if_neg hk] at hfound
        have hlt : op.level < k := by
          have hle : op.level ≤ k := hrest (op, a) rfl
          omega
        refine ⟨t, [], (op, a) :: rest, rfl, by simp [items], ht, hlevel, ?_, .stop ?_⟩
        · rintro _ ⟨⟩
          exact hlt
        · rw [hstep, binaryStep_none hfound]

/-- One level is climbed in a loop over its operators, between operands of the next level. -/
theorem climbs_iterate {op? : TokenStream → Option (BinaryOp × Nat)} {operand : Parser Expr}
    {step : Expr → Parser (Option Expr)} (hoperand : Climbs (k + 1) operand) (hop : Finds op? k)
    (hstep : ∀ left rest col stop, step left (stream rest col stop) =
      binaryStep op? operand left (stream rest col stop)) :
    Climbs k (do iterate step (← operand)) := by
  intro a rest col stop
  obtain ⟨t, taken, left, rfl, hreading, ht, hlevel, hleft, hrun⟩ := hoperand a rest col stop
  obtain ⟨u, more, last, rfl, hureading, hu, hulevel, hlast, hruns⟩ :=
    exists_runs hoperand hop (fun left rest col => hstep left rest col stop) left col t ht
      (Nat.le_of_succ_le hlevel) fun x hx => Nat.le_of_lt_succ (hleft x hx)
  refine ⟨u, taken ++ more, last, by simp, ?_, hu, hulevel, hlast, ?_⟩
  · rw [hureading, hreading, items_append, List.cons_append]
  · rw [bind_of_ok hrun, hruns.iterate_eq]

/-! ## The operators of each level -/

section

variable (op : BinaryOp) (a : Operand) (rest : Operations) (col : Nat)

theorem current_stream (stop : Pos) :
    (stream ((op, a) :: rest) col stop).current = ⟨.op, op.lead, ⟨1, col + 1⟩⟩ := by
  cases op <;> rfl

theorem sees_stream (stop : Pos) (word : Text) :
    (stream ((op, a) :: rest) col stop).sees word = decide (op.lead = word) := by
  rw [TokenStream.sees, current_stream]
  exact Bool.and_true _

/-- An arrow is not joined to the operand behind a space. -/
theorem not_adjacent {c c' : Nat} (h : c + 1 < c') :
    adjacent ⟨.op, ">", ⟨1, c⟩⟩ (a.token c') = false := by
  have hne : c' ≠ c + 1 := h.ne'
  have hlength : (Text.ofString ">").codes.length = 1 := rfl
  simp [adjacent, Operand.token, hlength, hne]

/-- In front of an operand, arrows end. -/
theorem extendArrows_operand (arrows more : Nat) {c c' : Nat} (h : c + 1 < c') (ts : List Token) :
    extendArrows arrows ⟨.op, ">", ⟨1, c⟩⟩ more (a.token c' :: ts) = ⟨arrows, false⟩ := by
  cases more with
  | zero => rfl
  | succ more => rw [extendArrows, not_adjacent a h, if_neg Bool.false_ne_true]

/-- Arrows without a space between them are joined. -/
theorem extendArrows_arrow (arrows more c : Nat) (ts : List Token) :
    extendArrows arrows ⟨.op, ">", ⟨1, c⟩⟩ (more + 1) (⟨.op, ">", ⟨1, c + 1⟩⟩ :: ts) =
      extendArrows (arrows + 1) ⟨.op, ">", ⟨1, c + 1⟩⟩ more ts := by
  have hadjacent : adjacent ⟨.op, ">", ⟨1, c⟩⟩ ⟨.op, ">", ⟨1, c + 1⟩⟩ = true :=
    Bool.and_eq_true_iff.2 ⟨rfl, decide_eq_true rfl⟩
  rw [extendArrows, if_pos hadjacent, if_pos rfl]

theorem arrowRun?_stream (stop : Pos) :
    arrowRun? (stream ((op, a) :: rest) col stop).ahead = op.arrows := by
  cases op with
  | greater =>
    exact congrArg some (extendArrows_operand a 1 2 (Nat.lt_succ_self (col + 2)) _)
  | shiftRight =>
    refine (congrArg some (extendArrows_arrow 1 1 (col + 1) _)).trans ?_
    exact congrArg some (extendArrows_operand a 2 1 (Nat.lt_succ_self (col + 3)) _)
  | shiftRightZero =>
    refine (congrArg some (extendArrows_arrow 1 1 (col + 1) _)).trans ?_
    refine (congrArg some (extendArrows_arrow 2 0 (col + 2) _)).trans ?_
    exact congrArg some (extendArrows_operand a 3 0 (Nat.lt_succ_self (col + 4)) _)
  | _ => rfl

end

theorem finds_operator? {ops : List BinaryOp}
    (hops : ∀ op : BinaryOp, ((ops.find? fun o => op.lead = o.symbol).map fun o => (o, 1)) =
      if op.level = k then some (op, (op.tokens 0).length) else none)
    (hnone : ∀ op ∈ ops, op.symbol ≠ ";") : Finds (operator? ops) k where
  operator op a rest col stop := by
    rw [op.length_tokens _ 0, ← hops, operator?]
    simp only [sees_stream]
  semicolon col stop := by
    rw [operator?, List.find?_eq_none.2]
    · rfl
    · intro op hop
      have hne : Text.ofString ";" ≠ op.symbol := (hnone op hop).symm
      have hsees : (stream [] col stop).sees op.symbol = false :=
        Bool.and_eq_false_imp.2 fun heq => absurd (of_decide_eq_true heq) hne
      simp [hsees]

theorem finds_shiftOp? : Finds shiftOp? 8 where
  operator op a rest col stop := by
    rw [op.length_tokens _ 0, shiftOp?, sees_stream, arrowRun?_stream]
    cases op <;> rfl
  semicolon col stop := rfl

theorem finds_comparisonOp? : Finds comparisonOp? 7 where
  operator op a rest col stop := by
    rw [op.length_tokens _ 0, comparisonOp?, operator?, arrowRun?_stream]
    simp only [sees_stream]
    cases op <;> rfl
  semicolon col stop := rfl

/-! ## Operands -/

/-- What can follow an operand. -/
def followers : List Text :=
  [";", "||", "&&", "|", "^", "&", "==", "!=", "<", ">", "<=", ">=", "<<", "+", "-", "*", "/",
    "%"].map Text.ofString

section

variable (rest : Operations) (col : Nat)

theorem current_mem_followers (stop : Pos) : (rest.stream col stop).current.kind = .op ∧
    (rest.stream col stop).current.text ∈ followers := by
  obtain _ | ⟨⟨op, a⟩, rest⟩ := rest
  · have hsemicolon : Text.ofString ";" ∈ followers := by decide
    exact ⟨rfl, hsemicolon⟩
  · have hlead : op.lead ∈ followers := by cases op <;> decide
    rw [current_stream]
    exact ⟨rfl, hlead⟩

theorem not_sees_stream (stop : Pos) {word : Text} (h : word ∉ followers) :
    (rest.stream col stop).sees word = false := by
  refine Bool.and_eq_false_imp.2 fun heq => absurd ?_ h
  rw [← of_decide_eq_true heq]
  exact (current_mem_followers rest col stop).2

theorem stepOp?_stream (stop : Pos) : stepOp? (rest.stream col stop) = none := by
  have hnone : ∀ word ∈ followers,
      [StepOp.increment, StepOp.decrement].find? (fun op => op.symbol = word) = none := by decide
  obtain ⟨hkind, hmem⟩ := current_mem_followers rest col stop
  rw [stepOp?, if_pos hkind, hnone _ hmem]

theorem suffix_stream (e : Expr) (stop : Pos) :
    suffix g e (rest.stream col stop) = .ok (none, rest.stream col stop) := by
  have hdecline : ∀ word : Text, word ∉ followers →
      accept word (rest.stream col stop) = .ok (false, rest.stream col stop) :=
    fun word hword => accept_of_not_sees (not_sees_stream rest col stop hword)
  rw [suffix, bind_of_ok (hdecline "." (by decide)), if_neg Bool.false_ne_true,
    bind_of_ok (hdecline "[" (by decide)), if_neg Bool.false_ne_true,
    bind_of_ok (hdecline "(" (by decide)), if_neg Bool.false_ne_true,
    bind_of_ok (hdecline "::" (by decide)), if_neg Bool.false_ne_true,
    bind_of_ok (look_of_eq (stepOp?_stream rest col stop))]
  rfl

theorem not_headReads_arrow (stop : Pos) : headReads "->" (rest.tokens col) = false := by
  have hne : Text.ofString "->" ∉ followers := by decide
  have hmem := (current_mem_followers rest col stop).2
  rw [TokenStream.current, stream] at hmem
  cases h : rest.tokens col with
  | nil => rfl
  | cons t ts =>
    rw [h] at hmem
    exact decide_eq_false fun heq : t.text = "->" => hne (heq ▸ hmem)

theorem primary_operand (a : Operand) (stop : Pos) :
    primary g (streamFrom a rest col stop) =
      .ok (a.exprAt col, rest.stream (col + a.width) stop) := by
  cases a with
  | int word h => rfl
  | name word h =>
    have hliteral : literal? (Operand.token (.name word h) col) = none := by
      have htrue : Text.ofChars word ≠ "true" := h.ne (by decide)
      have hfalse : Text.ofChars word ≠ "false" := h.ne (by decide)
      have hnull : Text.ofChars word ≠ "null" := h.ne (by decide)
      change (if Text.ofChars word = "true" then some (Literal.bool true)
        else if Text.ofChars word = "false" then some (Literal.bool false)
        else if Text.ofChars word = "null" then some Literal.null else none) = _
      rw [if_neg htrue, if_neg hfalse, if_neg hnull]
    have hlambda : atLambda (streamFrom (.name word h) rest col stop).ahead = false :=
      not_headReads_arrow rest _ stop
    have hcurrent : (streamFrom (.name word h) rest col stop).current =
        Operand.token (.name word h) col := rfl
    rw [primary, bind_of_ok (current_eq _), hcurrent, hliteral]
    dsimp only
    rw [bind_of_ok (look_of_eq hlambda)]
    rfl

theorem unary_operand (a : Operand) (stop : Pos) :
    unary g (streamFrom a rest col stop) =
      .ok (a.exprAt col, rest.stream (col + a.width) stop) := by
  have hcast : atCast (streamFrom a rest col stop).ahead = false := by
    rw [streamFrom, atCast, decide_eq_false (a.text_ne_parenthesis col)]
    rfl
  have hop : (streamFrom a rest col stop).current.kind ≠ .op := a.kind_ne_op
  have hunary : unaryOp? (streamFrom a rest col stop) = none := if_neg hop
  have hstep : stepOp? (streamFrom a rest col stop) = none := if_neg hop
  have hdecline : Runs (suffix g) (a.exprAt col) (rest.stream (col + a.width) stop) (a.exprAt col)
      (rest.stream (col + a.width) stop) := .stop (suffix_stream rest _ _ stop)
  rw [unary, bind_of_ok (pos_eq _), bind_of_ok (look_of_eq hunary)]
  dsimp only
  rw [bind_of_ok (look_of_eq hstep)]
  dsimp only
  rw [bind_of_ok (look_of_eq hcast), if_neg Bool.false_ne_true, postfixed,
    bind_of_ok (primary_operand rest col a stop), hdecline.iterate_eq]

end

theorem climbs_unary : Climbs 11 (unary g) := by
  intro a rest col stop
  refine ⟨.operand a, [], rest, rfl, rfl, trivial, Nat.le_refl _, ?_, unary_operand rest col a stop⟩
  exact fun x _ => Nat.lt_succ_of_le x.1.level_bounds.2

/-! ## All levels -/

theorem climbs_chain {ops : List BinaryOp} {operand : Parser Expr}
    (hoperand : Climbs (k + 1) operand)
    (hops : ∀ op : BinaryOp, ((ops.find? fun o => op.lead = o.symbol).map fun o => (o, 1)) =
      if op.level = k then some (op, (op.tokens 0).length) else none)
    (hnone : ∀ op ∈ ops, op.symbol ≠ ";") : Climbs k (chain (operator? ops) operand) :=
  climbs_iterate hoperand (finds_operator? hops hnone) fun _ _ _ _ => rfl

theorem climbs_comparison (hshift : Climbs 8 (shift g)) : Climbs 7 (comparison g) := by
  refine climbs_iterate hshift finds_comparisonOp? fun left rest col stop => ?_
  have hnone := not_sees_stream rest col stop (by decide : Text.ofString "instanceof" ∉ followers)
  rw [comparisonStep, bind_of_ok (accept_of_not_sees hnone), if_neg Bool.false_ne_true]

theorem climbs_disjunction : Climbs 1 (disjunction g) := by
  have hproduct : Climbs 10 (product g) :=
    climbs_chain climbs_unary (fun op => by cases op <;> rfl) (by decide)
  have hsum : Climbs 9 (sum g) :=
    climbs_chain hproduct (fun op => by cases op <;> rfl) (by decide)
  have hshift : Climbs 8 (shift g) := climbs_iterate hsum finds_shiftOp? fun _ _ _ _ => rfl
  have hequality : Climbs 6 (equality g) :=
    climbs_chain (climbs_comparison hshift) (fun op => by cases op <;> rfl) (by decide)
  have hbitAnd : Climbs 5 (bitAnd g) :=
    climbs_chain hequality (fun op => by cases op <;> rfl) (by decide)
  have hbitXor : Climbs 4 (bitXor g) :=
    climbs_chain hbitAnd (fun op => by cases op <;> rfl) (by decide)
  have hbitOr : Climbs 3 (bitOr g) :=
    climbs_chain hbitXor (fun op => by cases op <;> rfl) (by decide)
  have hconjunction : Climbs 2 (conjunction g) :=
    climbs_chain hbitOr (fun op => by cases op <;> rfl) (by decide)
  exact climbs_chain hconjunction (fun op => by cases op <;> rfl) (by decide)

/-- Where no operation is left, an expression ends. -/
theorem expr_of_disjunction {s : TokenStream} {e : Expr} {col : Nat} {stop : Pos}
    (h : disjunction g s = .ok (e, stream [] col stop)) :
    expr g s = .ok (e, stream [] col stop) := by
  have hnone : (stream [] col stop).sees "?" = false := not_sees_stream [] col stop (by decide)
  have hconditional : conditional g s = .ok (e, stream [] col stop) := by
    rw [conditional, bind_of_ok h, bind_of_ok (accept_of_not_sees hnone)]
    rfl
  have hassign : assignOp? (stream [] col stop) = none := rfl
  rw [expr, bind_of_ok hconditional, bind_of_ok (look_of_eq hassign)]
  rfl

end Production

/-- The sequence of these operands and operators. -/
def Operations.sequence (first : Operand) (rest : Operations) : List (Operand ⊕ BinaryOp) :=
  .inl first :: rest.items

namespace Production

/-- Whatever operands and operators are written behind each other, there is exactly one tree with
this sequence in which no left operand binds more loosely than its parent and every right operand
binds more tightly. The tokens of what is written parse to the expression of that tree, up to the
semicolon. -/
theorem expr_graded (g : Grammar) (first : Operand) (rest : Operations) :
    ∃ (t : OperatorTree) (s : TokenStream),
      t.reading = rest.sequence first ∧ t.Graded ∧
      (∀ u : OperatorTree, u.reading = rest.sequence first → u.Graded → u = t) ∧
      tokenize (first.word ++ rest.written) = .ok s ∧
      expr g s = .ok (t.exprAt 1, ⟨[⟨.op, ";", ⟨1, 1 + t.width⟩⟩], s.stop⟩) := by
  obtain ⟨t, taken, left, rfl, hreading, ht, -, hleft, hrun⟩ :=
    climbs_disjunction (g := g) first rest 1 ⟨1, first.width + rest.width + 2⟩
  obtain rfl : left = [] := by
    cases left with
    | nil => rfl
    | cons x left =>
      have hlt : x.1.level < 1 := hleft x rfl
      have hle := x.1.level_bounds.1
      omega
  rw [List.append_nil] at hrun ⊢
  exact ⟨t, _, hreading, ht,
    fun u hu hgraded => OperatorTree.eq_of_reading_eq hgraded ht (hu.trans hreading.symm),
    tokenize_written first taken, expr_of_disjunction hrun⟩

end Production

end WriteOnce
