import Mathlib.Data.Finset.Basic
import Mathlib.Data.Nat.Digits.Defs

/-!
# Shell text

The shell's words, names and values are byte strings.  A byte is written here
by the ASCII character it stands for, and a table keyed by byte strings is the
ordered map the source keeps its variables in.
-/

namespace Nsh

/-- A byte string (`BString`). -/
abbrev Bytes := List UInt8

/-- The byte an ASCII character stands for. -/
def chr (c : Char) : UInt8 := UInt8.ofNat c.toNat

/-- A byte string literal. -/
def text (s : String) : Bytes := s.toList.map chr

/-- `BTreeMap<BString, V>`. -/
abbrev ByteMap (V : Type) := Std.ExtTreeMap Bytes V

/-! ### ASCII classes -/

/-- `u8::is_ascii_digit`. -/
def isAsciiDigit (b : UInt8) : Bool := decide (chr '0' ≤ b) && decide (b ≤ chr '9')

/-- `u8::is_ascii_alphabetic`. -/
def isAsciiAlphabetic (b : UInt8) : Bool :=
  (decide (chr 'a' ≤ b) && decide (b ≤ chr 'z')) ||
    (decide (chr 'A' ≤ b) && decide (b ≤ chr 'Z'))

/-- `u8::is_ascii_whitespace`: space, tab, line feed, form feed, return. -/
def isAsciiWhitespace (b : UInt8) : Bool :=
  b == 0x20 || b == 0x09 || b == 0x0a || b == 0x0c || b == 0x0d

/-- `u8::to_ascii_uppercase`. -/
def toAsciiUppercase (b : UInt8) : UInt8 :=
  if decide (chr 'a' ≤ b) && decide (b ≤ chr 'z') then b - 32 else b

/-- `u8::to_ascii_lowercase`. -/
def toAsciiLowercase (b : UInt8) : UInt8 :=
  if decide (chr 'A' ≤ b) && decide (b ≤ chr 'Z') then b + 32 else b

/-! ### Decimal text -/

/-- The byte of one decimal digit. -/
def digitByte (d : Nat) : UInt8 := UInt8.ofNat (48 + d)

/-- A natural number in decimal, `0` being a digit of its own. -/
def decimalNat (n : Nat) : Bytes :=
  if n = 0 then [chr '0'] else (Nat.digits 10 n).reverse.map digitByte

/-- `i64::to_string`. -/
def decimal (value : Int64) : Bytes :=
  if value < 0 then chr '-' :: decimalNat value.toInt.natAbs else decimalNat value.toInt.natAbs

end Nsh
