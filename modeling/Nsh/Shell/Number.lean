import Nsh.Shell.Bytes

/-!
# Shell integers

Shell operands are byte strings with parsing rules of their own: base zero
accepts the arithmetic prefixes, a magnitude saturates at the end of the signed
range, and blanks may stand on either side.
-/

namespace Nsh.Number

/-- The value of a digit in the bases up to thirty-six. -/
def digitValue (b : UInt8) : Option Nat :=
  if chr '0' ≤ b ∧ b ≤ chr '9' then some (b.toNat - (chr '0').toNat)
  else if chr 'a' ≤ b ∧ b ≤ chr 'z' then some (b.toNat - (chr 'a').toNat + 10)
  else if chr 'A' ≤ b ∧ b ≤ chr 'Z' then some (b.toNat - (chr 'A').toNat + 10)
  else none

def isShellSpace (b : UInt8) : Bool :=
  b == chr ' ' || b == 0x09 || b == 0x0a || b == 0x0d || b == 0x0b || b == 0x0c

def u64Max : Nat := 2 ^ 64 - 1

/-- `u64::saturating_mul`, on natural numbers. -/
def saturatingMul (a b : Nat) : Nat := min (a * b) u64Max

/-- `u64::saturating_add`, on natural numbers. -/
def saturatingAdd (a b : Nat) : Nat := min (a + b) u64Max

/-- Read digits below `base` into `magnitude`; what is left starts at the first
    byte that is not one. -/
def digits (base limit : Nat) : Nat → Bytes → Nat × Bytes
  | magnitude, [] => (magnitude, [])
  | magnitude, b :: rest =>
    match digitValue b with
    | none => (magnitude, b :: rest)
    | some digit =>
      if digit ≥ base then (magnitude, b :: rest)
      else digits base limit
        (min (saturatingAdd (saturatingMul magnitude base) digit) limit) rest

/-- The digit the third byte spells, if it is one below `base`. -/
def thirdDigitBelow (base : Nat) (input : Bytes) : Bool :=
  match input[2]?.bind digitValue with
  | some digit => decide (digit < base)
  | none => false

/-- The base and the bytes its digits start at. -/
def prefixed (requestedBase : Nat) (input : Bytes) : Nat × Bytes :=
  if requestedBase = 0 then
    if input[0]? = some (chr '0') then
      if (input[1]? = some (chr 'x') ∨ input[1]? = some (chr 'X')) ∧ thirdDigitBelow 16 input then
        (16, input.drop 2)
      else if (input[1]? = some (chr 'b') ∨ input[1]? = some (chr 'B')) ∧
          thirdDigitBelow 2 input then
        (2, input.drop 2)
      else (8, input)
    else (10, input)
  else if ((requestedBase = 16 ∧ (input[1]? = some (chr 'x') ∨ input[1]? = some (chr 'X'))) ∨
        (requestedBase = 2 ∧ (input[1]? = some (chr 'b') ∨ input[1]? = some (chr 'B')))) ∧
      input[0]? = some (chr '0') ∧ thirdDigitBelow requestedBase input then
    (requestedBase, input.drop 2)
  else (requestedBase, input)

/-- `invalid_number`. -/
def invalidNumber (input : Bytes) : Bytes := text "Illegal number: " ++ input

/-- Parse one signed shell integer in `requestedBase`, where zero selects a
    prefix (`parse_integer`).  `none` is the refusal `invalidNumber` words. -/
def parseInteger (input : Bytes) (requestedBase : Nat) : Option Int64 :=
  let start := input.dropWhile isShellSpace
  let negative := start[0]? = some (chr '-')
  let unsigned :=
    if start[0]? = some (chr '+') ∨ start[0]? = some (chr '-') then start.drop 1 else start
  let limit := if negative then 2 ^ 63 else 2 ^ 63 - 1
  let (base, digitsStart) := prefixed requestedBase unsigned
  let (magnitude, rest) := digits base limit 0 digitsStart
  if rest.length = digitsStart.length then
    if requestedBase = 0 ∧ start = [] then some 0 else none
  else if rest.dropWhile isShellSpace ≠ [] then none
  else if negative then some (Int64.ofInt (-(magnitude : Int)))
  else some (Int64.ofInt magnitude)

example : parseInteger (text " \t-052\n") 0 = some (-42) := by decide

end Nsh.Number
