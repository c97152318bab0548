import Nsh.Arithmetic.Parser
import Nsh.Arithmetic.Spelling

/-!
# Expression trees

What an arithmetic text without names stands for: a tree, with the value C gives
it on 64-bit two's-complement integers, and the text it is written as, with
parentheses only where a table of precedences needs them.  Nothing here is
translated from the evaluator.
-/

namespace Nsh.Arithmetic

/-- Why a tree has no value. -/
inductive Fault where
  | division
  | exponent
deriving DecidableEq, Repr

def Fault.complaint : Fault → Complaint
  | .division => .divisionError
  | .exponent => .negativeExponent

/-- A prefix operator. -/
inductive Sign where
  | plus
  | minus
  | complement
  | not
deriving DecidableEq, Repr

/-- A binary operator of the C grammar: every one but `**`. -/
abbrev CBinary := { op : BinaryOperator // op ≠ .power }

/-- A binary operator that may leave its right operand unevaluated. -/
inductive Connective where
  | and
  | or
deriving DecidableEq, Repr

inductive Expression where
  | literal (value : Fin (2 ^ 63))
  | sign (op : Sign) (operand : Expression)
  | power (base exponent : Expression)
  | binary (op : CBinary) (left right : Expression)
  | connect (op : Connective) (left right : Expression)
  | conditional (condition thenBranch elseBranch : Expression)
  | comma (left right : Expression)
deriving DecidableEq

/-! ### Values -/

/-- The 64-bit integer congruent to `x`. -/
def wrap (x : Int) : Int64 := Int64.ofInt x

namespace Sign

def value : Sign → Int64 → Int64
  | .plus, v => v
  | .minus, v => wrap (-v.toInt)
  | .complement, v => wrap (-v.toInt - 1)
  | .not, v => flag (decide (v.toInt = 0))

end Sign

/-- Shifts move by the count modulo 64. -/
def places (count : Int64) : Nat := (count.toInt % 64).toNat

/-- A quotient exists unless the divisor is zero or the quotient is out of range. -/
def quotient (left right : Int64) (result : Int) : Except Fault Int64 :=
  if right.toInt = 0 ∨ (left.toInt = -2 ^ 63 ∧ right.toInt = -1) then .error .division
  else .ok (wrap result)

namespace CBinary

def value (op : CBinary) (left right : Int64) : Except Fault Int64 :=
  match op with
  | ⟨.multiply, _⟩ => .ok (wrap (left.toInt * right.toInt))
  | ⟨.divide, _⟩ => quotient left right (left.toInt.tdiv right.toInt)
  | ⟨.remainder, _⟩ => quotient left right (left.toInt.tmod right.toInt)
  | ⟨.add, _⟩ => .ok (wrap (left.toInt + right.toInt))
  | ⟨.subtract, _⟩ => .ok (wrap (left.toInt - right.toInt))
  | ⟨.shiftLeft, _⟩ => .ok (wrap (left.toInt * 2 ^ places right))
  | ⟨.shiftRight, _⟩ => .ok (wrap (left.toInt / 2 ^ places right))
  | ⟨.less, _⟩ => .ok (flag (decide (left.toInt < right.toInt)))
  | ⟨.lessEqual, _⟩ => .ok (flag (decide (left.toInt ≤ right.toInt)))
  | ⟨.greater, _⟩ => .ok (flag (decide (left.toInt > right.toInt)))
  | ⟨.greaterEqual, _⟩ => .ok (flag (decide (left.toInt ≥ right.toInt)))
  | ⟨.equal, _⟩ => .ok (flag (decide (left.toInt = right.toInt)))
  | ⟨.notEqual, _⟩ => .ok (flag (decide (left.toInt ≠ right.toInt)))
  | ⟨.bitAnd, _⟩ => .ok (Int64.ofBitVec (left.toBitVec &&& right.toBitVec))
  | ⟨.bitXor, _⟩ => .ok (Int64.ofBitVec (left.toBitVec ^^^ right.toBitVec))
  | ⟨.bitOr, _⟩ => .ok (Int64.ofBitVec (left.toBitVec ||| right.toBitVec))
  | ⟨.power, h⟩ => absurd rfl h

end CBinary

/-- The left operands that decide the value of a connective. -/
def Connective.decides : Connective → Int64 → Bool
  | .and, v => v == 0
  | .or, v => v != 0

namespace Expression

/-- The value of a tree, or why it has none. -/
def value : Expression → Except Fault Int64
  | .literal n => .ok (wrap n.val)
  | .sign op operand => do
    let v ← operand.value
    .ok (op.value v)
  | .power base exponent => do
    let b ← base.value
    let x ← exponent.value
    if x.toInt < 0 then .error .exponent else .ok (wrap (b.toInt ^ x.toInt.toNat))
  | .binary op left right => do
    let l ← left.value
    let r ← right.value
    op.value l r
  | .connect op left right => do
    let l ← left.value
    if op.decides l then .ok (flag (l != 0))
    else do
      let r ← right.value
      .ok (flag (r != 0))
  | .conditional condition thenBranch elseBranch => do
    let c ← condition.value
    if c != 0 then thenBranch.value else elseBranch.value
  | .comma left right => do
    let _ ← left.value
    right.value

/-- Every `**` of the tree whose operands have values satisfies `P`. -/
def EveryPower (P : Int64 → Int64 → Prop) : Expression → Prop
  | .literal _ => True
  | .sign _ operand => operand.EveryPower P
  | .power base exponent => base.EveryPower P ∧ exponent.EveryPower P ∧
      ∀ b x, base.value = .ok b → exponent.value = .ok x → P b x
  | .binary _ left right => left.EveryPower P ∧ right.EveryPower P
  | .connect _ left right => left.EveryPower P ∧ right.EveryPower P
  | .conditional condition thenBranch elseBranch =>
    condition.EveryPower P ∧ thenBranch.EveryPower P ∧ elseBranch.EveryPower P
  | .comma left right => left.EveryPower P ∧ right.EveryPower P

/-- A tree of the C grammar: without `**` and the comma. -/
def InC : Expression → Prop
  | .literal _ => True
  | .sign _ operand => operand.InC
  | .power _ _ | .comma _ _ => False
  | .binary _ left right => left.InC ∧ right.InC
  | .connect _ left right => left.InC ∧ right.InC
  | .conditional condition thenBranch elseBranch =>
    condition.InC ∧ thenBranch.InC ∧ elseBranch.InC

/-- Where there is no `**`, every one is as it should be. -/
theorem InC.everyPower {P : Int64 → Int64 → Prop} {e : Expression} (h : e.InC) :
    e.EveryPower P := by
  induction e with
  | literal _ => trivial
  | sign op operand ih => exact ih h
  | power base exponent _ _ => exact absurd h id
  | binary op left right ihl ihr => exact ⟨ihl h.1, ihr h.2⟩
  | connect op left right ihl ihr => exact ⟨ihl h.1, ihr h.2⟩
  | conditional c t f ihc iht ihf => exact ⟨ihc h.1, iht h.2.1, ihf h.2.2⟩
  | comma left right _ _ => exact absurd h id

end Expression

/-! ### Precedence

From the loosest: the comma 0, `?:` 1, `||` 2, `&&` 3, the other binary
operators 4 to 11, `**` 12.  `**` takes at its left an operand of level 13 and
at its right one of its own level.  A prefix operator stands at level 12, or in
Bash's own table at level 13, where it binds tighter than `**`. -/

def Sign.token : Sign → Token
  | .plus => .binary .add
  | .minus => .binary .subtract
  | .complement => .bitNot
  | .not => .not

def Connective.token : Connective → Token
  | .and => .logicalAnd
  | .or => .logicalOr

def Connective.level : Connective → Nat
  | .and => 3
  | .or => 2

/-- The level of a prefix operator, where it may bind tighter than `**`. -/
def Sign.level (tight : Bool) : Nat := if tight then 13 else 12

/-- The levels of the C grammar's binary operators, in its eight groups. -/
def CBinary.level (op : CBinary) : Nat :=
  match op.val with
  | .multiply | .divide | .remainder => 11
  | .add | .subtract => 10
  | .shiftLeft | .shiftRight => 9
  | .lessEqual | .greaterEqual | .less | .greater => 8
  | .equal | .notEqual => 7
  | .bitAnd => 6
  | .bitXor => 5
  | .bitOr => 4
  | .power => 12

theorem CBinary.level_eq (op : CBinary) : op.level = 3 + op.val.bindingPower := by
  obtain ⟨op, hop⟩ := op
  cases op <;> first | rfl | exact absurd rfl hop

theorem CBinary.level_bounds (op : CBinary) : 4 ≤ op.level ∧ op.level ≤ 11 := by
  have hpos := op.val.bindingPower_pos
  have hle := op.val.bindingPower_le
  rw [op.level_eq]
  omega

/-- The tokens of an operand: in parentheses where it is looser than required. -/
def operandTokens (required level : Nat) (tokens : List Token) : List Token :=
  if level < required then .lParen :: (tokens ++ [.rParen]) else tokens

/-- How deep an operand nests. -/
def operandNesting (required level nesting : Nat) : Nat :=
  if level < required then nesting + 1 else nesting

namespace Expression

variable (tight : Bool)

def level : Expression → Nat
  | .literal _ => 13
  | .sign _ _ => Sign.level tight
  | .power _ _ => 12
  | .binary op _ _ => op.level
  | .connect op _ _ => op.level
  | .conditional _ _ _ => 1
  | .comma _ _ => 0

/-- The tokens of a tree, with parentheses only where the table needs them. -/
def print : Expression → List Token
  | .literal n => [.number (wrap n.val)]
  | .sign op operand =>
    op.token :: operandTokens (Sign.level tight) (operand.level tight) operand.print
  | .power base exponent =>
    operandTokens 13 (base.level tight) base.print ++
      .power :: operandTokens 12 (exponent.level tight) exponent.print
  | .binary op left right =>
    operandTokens op.level (left.level tight) left.print ++
      .binary op.val :: operandTokens (op.level + 1) (right.level tight) right.print
  | .connect op left right =>
    operandTokens op.level (left.level tight) left.print ++
      op.token :: operandTokens (op.level + 1) (right.level tight) right.print
  | .conditional condition thenBranch elseBranch =>
    operandTokens 2 (condition.level tight) condition.print ++
      .question :: (operandTokens 1 (thenBranch.level tight) thenBranch.print ++
        .colon :: operandTokens 1 (elseBranch.level tight) elseBranch.print)
  | .comma left right =>
    operandTokens 0 (left.level tight) left.print ++
      .comma :: operandTokens 1 (right.level tight) right.print

/-- How many parentheses and prefix operators stand inside one another. -/
def nesting : Expression → Nat
  | .literal _ => 0
  | .sign _ operand => operandNesting (Sign.level tight) (operand.level tight) operand.nesting + 1
  | .power base exponent =>
    max (operandNesting 13 (base.level tight) base.nesting)
      (operandNesting 12 (exponent.level tight) exponent.nesting)
  | .binary op left right =>
    max (operandNesting op.level (left.level tight) left.nesting)
      (operandNesting (op.level + 1) (right.level tight) right.nesting)
  | .connect op left right =>
    max (operandNesting op.level (left.level tight) left.nesting)
      (operandNesting (op.level + 1) (right.level tight) right.nesting)
  | .conditional condition thenBranch elseBranch =>
    max (operandNesting 2 (condition.level tight) condition.nesting)
      (max (operandNesting 1 (thenBranch.level tight) thenBranch.nesting)
        (operandNesting 1 (elseBranch.level tight) elseBranch.nesting))
  | .comma left right =>
    max (operandNesting 0 (left.level tight) left.nesting)
      (operandNesting 1 (right.level tight) right.nesting)

/-- The text of a tree: its tokens with a blank between each two. -/
def written (e : Expression) : Bytes := spelled (e.print tight)

end Expression

/-- The height of a tree, a literal having none. -/
def Expression.height : Expression → Nat
  | .literal _ => 0
  | .sign _ operand => operand.height + 1
  | .power base exponent => max base.height exponent.height + 1
  | .binary _ left right => max left.height right.height + 1
  | .connect _ left right => max left.height right.height + 1
  | .conditional condition thenBranch elseBranch =>
    max condition.height (max thenBranch.height elseBranch.height) + 1
  | .comma left right => max left.height right.height + 1

end Nsh.Arithmetic
