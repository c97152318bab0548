import Mathlib.Algebra.Group.Int.Defs
import Mathlib.Algebra.Group.Nat.Defs
import Mathlib.Data.Int.Init

/-!
# Exact sums of machine words

A sum of signed words is the sum of the integers they stand for, or it leaves their
range.  A build that checks for overflow stops there and one that does not wraps
around.  A `Summed` value is what the second computes, and whether the first gets as
far as computing it.
-/

namespace Nsh

/-- A value computed from signed words, and whether every sum on the way was exact. -/
structure Summed (α : Type) where
  value : α
  exact : Bool
deriving DecidableEq, Repr

namespace Summed

variable {α β : Type}

instance : Monad Summed where
  pure a := ⟨a, true⟩
  bind m f := ⟨(f m.value).value, m.exact && (f m.value).exact⟩

/-- Whether a signed word stands for the integer. -/
def fits (n : Int) : Bool := decide (-2 ^ 63 ≤ n) && decide (n < 2 ^ 63)

def add (a b : Int64) : Summed Int64 := ⟨a + b, fits (a.toInt + b.toInt)⟩

def sub (a b : Int64) : Summed Int64 := ⟨a - b, fits (a.toInt - b.toInt)⟩

def mul (a b : Int64) : Summed Int64 := ⟨a * b, fits (a.toInt * b.toInt)⟩

def neg (a : Int64) : Summed Int64 := ⟨-a, fits (-a.toInt)⟩

/-- `i64::abs`. -/
def abs (a : Int64) : Summed Int64 := if a < 0 then neg a else pure a

/-- What the `checked_` operations return. -/
def checked (m : Summed α) : Option α := if m.exact then some m.value else none

/-- `i64::saturating_add`. -/
def saturatingAdd (a b : Int64) : Int64 :=
  (add a b).checked.getD (if b < 0 then Int64.minValue else Int64.maxValue)

/-! ### Computing with sums -/

@[simp] theorem pure_value (a : α) : (pure a : Summed α).value = a := rfl

@[simp] theorem pure_exact (a : α) : (pure a : Summed α).exact = true := rfl

@[simp] theorem bind_value (m : Summed α) (f : α → Summed β) :
    (m >>= f).value = (f m.value).value := rfl

@[simp] theorem bind_exact (m : Summed α) (f : α → Summed β) :
    (m >>= f).exact = (m.exact && (f m.value).exact) := rfl

theorem pure_bind (a : α) (f : α → Summed β) : pure a >>= f = f a := by
  show (⟨(f a).value, true && (f a).exact⟩ : Summed β) = f a
  rw [Bool.true_and]

theorem fits_iff {n : Int} : fits n = true ↔ -2 ^ 63 ≤ n ∧ n < 2 ^ 63 := by
  simp [fits]

@[simp] theorem add_exact (a b : Int64) : (add a b).exact = fits (a.toInt + b.toInt) := rfl

@[simp] theorem sub_exact (a b : Int64) : (sub a b).exact = fits (a.toInt - b.toInt) := rfl

theorem bmod_of_fits {n : Int} (h : fits n = true) : n.bmod (2 ^ 64) = n := by
  obtain ⟨hlow, hhigh⟩ := fits_iff.mp h
  rw [Int.bmod_eq_of_le]
  · omega
  · omega

/-- An exact sum is the sum of the integers. -/
theorem toInt_add {a b : Int64} (h : fits (a.toInt + b.toInt) = true) :
    (add a b).value.toInt = a.toInt + b.toInt := by
  show (a + b).toInt = _
  rw [Int64.toInt_add, bmod_of_fits h]

theorem toInt_sub {a b : Int64} (h : fits (a.toInt - b.toInt) = true) :
    (sub a b).value.toInt = a.toInt - b.toInt := by
  show (a - b).toInt = _
  rw [Int64.toInt_sub, bmod_of_fits h]

theorem toInt_mul {a b : Int64} (h : fits (a.toInt * b.toInt) = true) :
    (mul a b).value.toInt = a.toInt * b.toInt := by
  show (a * b).toInt = _
  rw [Int64.toInt_mul, bmod_of_fits h]

theorem toInt_neg {a : Int64} (h : fits (-a.toInt) = true) :
    (neg a).value.toInt = -a.toInt := by
  show (-a).toInt = _
  rw [Int64.toInt_neg, bmod_of_fits h]

theorem checked_eq_some {m : Summed α} {a : α} (h : m.checked = some a) :
    m.exact = true ∧ m.value = a := by
  unfold checked at h
  split at h
  · next hexact => exact ⟨hexact, Option.some.inj h⟩
  · cases h

theorem toInt_saturatingAdd {a b : Int64} (h : fits (a.toInt + b.toInt) = true) :
    (saturatingAdd a b).toInt = a.toInt + b.toInt := by
  have hchecked : (add a b).checked = some (add a b).value := if_pos h
  rw [saturatingAdd, hchecked, Option.getD_some, toInt_add h]

/-- Only the least word has no absolute value. -/
theorem abs_exact {a : Int64} (h : -2 ^ 63 < a.toInt) :
    (abs a).exact = true ∧ (abs a).value.toInt = a.toInt.natAbs := by
  have hhigh := a.toInt_lt
  have hzero : (0 : Int64).toInt = 0 := rfl
  unfold abs
  split
  · next hlt =>
    rw [Int64.lt_iff_toInt_lt, hzero] at hlt
    have hfits : fits (-a.toInt) = true := by
      rw [fits_iff]
      omega
    exact ⟨hfits, (toInt_neg hfits).trans (by omega)⟩
  · next hge =>
    rw [Int64.lt_iff_toInt_lt, hzero] at hge
    exact ⟨rfl, show a.toInt = _ by omega⟩

/-- Adding a negative word to one that is not negative is exact. -/
theorem fits_add_of_sign {a b : Int64} (ha : 0 ≤ a.toInt) (hb : b.toInt < 0) :
    fits (a.toInt + b.toInt) = true := by
  have hlow := b.le_toInt
  have hhigh := a.toInt_lt
  rw [fits_iff]
  omega

end Summed

/-! ### The greater and the lesser of two words -/

theorem toInt_max (a b : Int64) : (max a b).toInt = max a.toInt b.toInt := by
  show (if a ≤ b then b else a).toInt = _
  split
  · next h =>
    have := Int64.le_iff_toInt_le.mp h
    omega
  · next h =>
    rw [Int64.le_iff_toInt_le] at h
    omega

theorem toInt_min (a b : Int64) : (min a b).toInt = min a.toInt b.toInt := by
  show (if a ≤ b then a else b).toInt = _
  split
  · next h =>
    have := Int64.le_iff_toInt_le.mp h
    omega
  · next h =>
    rw [Int64.le_iff_toInt_le] at h
    omega

end Nsh
