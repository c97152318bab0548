import Mathlib.Data.Int.Log
import Mathlib.Data.Nat.Size
import Mathlib.Data.Rat.Defs
import Nsh.Lib.NearestEven
import Nsh.Shell.Bytes

/-!
# Hexadecimal floating literals

The digits of a literal are laid into a mantissa and a binary exponent, and what does
not fit is kept as one sticky bit.  The whole of it is rounded once.  What the scan hands
to the conversion is a number of units and the power of two that is one; the conversion
of that is exact.
-/

namespace Nsh.Printf

/-! ### The scan -/

/-- An `i32`, where a sum has left its range. -/
def wrap (n : Int) : Int := Int.bmod n (2 ^ 32)

/-- `i32::saturating_add` and `saturating_mul`, of the sum or product itself. -/
def saturate (n : Int) : Int := max (-2 ^ 31) (min (2 ^ 31 - 1) n)

/-- `to_digit(16)` -/
def hexDigit (byte : UInt8) : Option Nat :=
  if chr '0' ≤ byte ∧ byte ≤ chr '9' then some (byte.toNat - 48)
  else if chr 'a' ≤ byte ∧ byte ≤ chr 'f' then some (byte.toNat - 87)
  else if chr 'A' ≤ byte ∧ byte ≤ chr 'F' then some (byte.toNat - 55)
  else none

/-- What the loop over the digits keeps. -/
structure Digits where
  mantissa : Nat := 0
  sticky : Bool := false
  exponent : Int := 0
  fraction : Bool := false
deriving DecidableEq, Repr

/-- A turn of the loop on a digit. -/
def Digits.push (d : Digits) (digit : Nat) : Digits :=
  if d.mantissa < 2 ^ 124 then
    { d with
      mantissa := 16 * d.mantissa + digit
      exponent := wrap (d.exponent - if d.fraction then 4 else 0) }
  else
    { d with
      sticky := d.sticky || digit != 0
      exponent := wrap (d.exponent + if d.fraction then 0 else 4) }

def scanDigits : Bytes → Digits → Digits × Bytes
  | [], d => (d, [])
  | byte :: rest, d =>
    if byte = chr '.' ∧ d.fraction = false then scanDigits rest { d with fraction := true }
    else
      match hexDigit byte with
      | some digit => scanDigits rest (d.push digit)
      | none => (d, byte :: rest)

def scanExponentDigits : Int → Bytes → Int × Bytes
  | value, [] => (value, [])
  | value, byte :: rest =>
    if isAsciiDigit byte then
      scanExponentDigits (saturate (saturate (value * 10) + (byte.toNat - 48 : Nat))) rest
    else (value, byte :: rest)

/-- Whether a sign stands in front. -/
def signed (bytes : Bytes) : Bool :=
  bytes.head? == some (chr '-') || bytes.head? == some (chr '+')

/-- The exponent behind the digits, which counts only with digits of its own. -/
def scanExponent (bytes : Bytes) (exponent : Int) : Int × Bytes :=
  match bytes with
  | [] => (exponent, [])
  | p :: rest =>
    let probe := if signed rest then rest.tail else rest
    if (p = chr 'p' ∨ p = chr 'P') ∧ probe.head?.any isAsciiDigit then
      let value := (scanExponentDigits 0 probe).1
      (saturate (exponent + if rest.head? = some (chr '-') then -value else value),
        (scanExponentDigits 0 probe).2)
    else (exponent, p :: rest)

/-! ### The rounding -/

/-- What is handed to the conversion: a number of units of `2 ^ place`. -/
inductive Magnitude where
  | infinite
  | finite (digits : Nat) (place : Int)
deriving DecidableEq, Repr

/-- `round_bits`: what survives dropping the lowest bits, and whether nothing was lost. -/
def roundBits (mantissa : Nat) (sticky : Bool) (shift : Int) : Nat × Bool :=
  if shift ≤ 0 then (mantissa, !sticky)
  else if 128 ≤ shift then
    (if shift = 128 ∧ (2 ^ 127 < mantissa ∨ (mantissa = 2 ^ 127 ∧ sticky)) then 1 else 0, false)
  else
    let dropped := mantissa % 2 ^ shift.toNat
    let half := 2 ^ (shift.toNat - 1)
    let kept := mantissa / 2 ^ shift.toNat
    (kept + if half < dropped ∨ (dropped = half ∧ (sticky ∨ kept % 2 ≠ 0)) then 1 else 0,
      dropped = 0 ∧ sticky = false)

/-- `round_to_double`.  The product of the units and their place is an exact one, so it is
infinite where it comes to `2 ^ 1024`. -/
def roundToDouble (mantissa : Nat) (sticky : Bool) (exponent : Int) : Magnitude × Bool :=
  if mantissa = 0 then (.finite 0 0, false)
  else
    let bits : Int := mantissa.size
    let top := exponent + bits - 1
    if 1023 < top then (.infinite, true)
    else
      let atFullPrecision := (roundBits mantissa sticky (bits - 53)).1
      let tiny := top + (if atFullPrecision / 2 ^ 53 ≠ 0 then 1 else 0) < -1022
      let step := max top (-1022) - 52
      let rounded := roundBits mantissa sticky (step - exponent)
      let place := max step exponent
      if (2 : ℚ) ^ 1024 ≤ rounded.1 * 2 ^ place then (.infinite, true)
      else (.finite rounded.1 place, decide tiny && !rounded.2)

/-- `scan_hexadecimal`, from just past the `0x`: the magnitude, whether it is out of range,
and what is left. -/
def scanHexadecimal (bytes : Bytes) : Magnitude × Bool × Bytes :=
  let (d, rest) := scanDigits bytes {}
  let (exponent, rest) := scanExponent rest d.exponent
  let (magnitude, range) := roundToDouble d.mantissa d.sticky exponent
  (magnitude, range, rest)

/-! ### What a literal denotes -/

/-- The digits in front, and what is behind them. -/
def hexPrefix : Bytes → List Nat × Bytes
  | [] => ([], [])
  | byte :: rest =>
    match hexDigit byte with
    | some digit => (digit :: (hexPrefix rest).1, (hexPrefix rest).2)
    | none => ([], byte :: rest)

def digitsValue (base : Nat) (digits : List Nat) : Nat :=
  digits.foldl (fun value digit => base * value + digit) 0

/-- The decimal digits in front. -/
def decimalPrefix (bytes : Bytes) : List Nat :=
  (bytes.takeWhile isAsciiDigit).map fun byte => byte.toNat - 48

structure Literal where
  integer : List Nat
  fraction : List Nat
  power : Int
deriving DecidableEq, Repr

/-- The power behind a `p`, of any length. -/
def powerOf : Bytes → Int
  | [] => 0
  | p :: rest =>
    let digits := decimalPrefix (if signed rest then rest.tail else rest)
    if (p = chr 'p' ∨ p = chr 'P') ∧ digits ≠ [] then
      if rest.head? = some (chr '-') then -(digitsValue 10 digits : Int) else digitsValue 10 digits
    else 0

/-- The literal in front of a text. -/
def literalOf (bytes : Bytes) : Literal :=
  let (integer, behind) := hexPrefix bytes
  if behind.head? = some (chr '.') then
    let (fraction, behind) := hexPrefix behind.tail
    ⟨integer, fraction, powerOf behind⟩
  else ⟨integer, [], powerOf behind⟩

def Literal.value (l : Literal) : ℚ :=
  digitsValue 16 (l.integer ++ l.fraction) * 2 ^ (l.power - 4 * l.fraction.length)

/-! ### Correct rounding -/

/-- The unit of the doubles of this size. -/
def unit (value : ℚ) : ℚ := 2 ^ (max (Int.log 2 value) (-1022) - 52)

/-- The value rounded to nearest, ties to even: at 53 bits, or at the smallest subnormal's
multiples. -/
def RoundsTo (value rounded : ℚ) : Prop :=
  ∃ n : ℤ, IsNearestEven (value / unit value) n ∧ rounded = n * unit value

/-- The value is below the normal range when it is rounded to 53 bits. -/
def Tiny (value : ℚ) : Prop :=
  ∃ n : ℤ, IsNearestEven (value / 2 ^ (Int.log 2 value - 52)) n ∧
    (n : ℚ) * 2 ^ (Int.log 2 value - 52) < 2 ^ (-1022 : ℤ)

/-- A magnitude denotes the rounded value, or is infinite past the largest double. -/
def Magnitude.Denotes (rounded : ℚ) : Magnitude → Prop
  | .infinite => (2 : ℚ) ^ 1024 ≤ rounded
  | .finite digits place => rounded < 2 ^ 1024 ∧ (digits : ℚ) * 2 ^ place = rounded

/-- The value was rounded once, correctly, and the range flag is set for what is infinite and
for what is tiny and inexact. -/
def CorrectlyRounded (value : ℚ) (magnitude : Magnitude) (range : Bool) : Prop :=
  ∃ rounded, RoundsTo value rounded ∧ magnitude.Denotes rounded ∧
    (range = true ↔ magnitude = .infinite ∨ (Tiny value ∧ rounded ≠ value))

end Nsh.Printf
