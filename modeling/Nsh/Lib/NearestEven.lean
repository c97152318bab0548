import Mathlib.Algebra.Order.Floor.Ring
import Mathlib.Algebra.Order.Archimedean.Basic
import Mathlib.Algebra.Order.Group.Abs
import Mathlib.Algebra.Ring.Int.Parity
import Mathlib.Tactic.Linarith
import Mathlib.Tactic.Push

/-!
# Rounding to the nearest integer, ties to even

The integer nearest a number is the one at a distance of at most a half, and the
even one where two of them are.  A number is given here as a sum of parts below a
power of two, and what was dropped decides.
-/

namespace Nsh

variable {K : Type} [Field K] [LinearOrder K] [IsStrictOrderedRing K]

/-- `n` is the integer nearest `x`, the even one of two. -/
structure IsNearestEven (x : K) (n : ℤ) : Prop where
  near : |x - n| ≤ 1 / 2
  even : |x - n| = 1 / 2 → Even n

namespace IsNearestEven

variable {x : K} {m n : ℤ}

theorem intCast (n : ℤ) : IsNearestEven (n : K) n := by
  constructor
  · rw [sub_self, abs_zero]
    norm_num
  · intro h
    rw [sub_self, abs_zero] at h
    norm_num at h

/-- Below the half the integer part is nearest. -/
theorem below (hle : (n : K) ≤ x) (hlt : x < n + 1 / 2) : IsNearestEven x n := by
  have habs : |x - n| = x - n := abs_of_nonneg (by linarith)
  constructor
  · rw [habs]
    linarith
  · intro h
    rw [habs] at h
    linarith

/-- Past the half the next integer is. -/
theorem above (hlt : (n : K) + 1 / 2 < x) (hle : x ≤ n + 1) : IsNearestEven x (n + 1) := by
  have habs : |x - ((n + 1 : ℤ) : K)| = n + 1 - x := by
    push_cast
    rw [abs_of_nonpos (by linarith)]
    ring
  constructor
  · rw [habs]
    linarith
  · intro h
    rw [habs] at h
    linarith

/-- At the half the even one is. -/
theorem tie_even (h : x = n + 1 / 2) (hn : Even n) : IsNearestEven x n := by
  have habs : |x - n| = 1 / 2 := by
    rw [h, add_sub_cancel_left]
    exact abs_of_nonneg (by norm_num)
  exact ⟨habs.le, fun _ => hn⟩

theorem tie_odd (h : x = n + 1 / 2) (hn : ¬ Even n) : IsNearestEven x (n + 1) := by
  have habs : |x - ((n + 1 : ℤ) : K)| = 1 / 2 := by
    push_cast
    rw [h, abs_of_nonpos (by linarith)]
    ring
  exact ⟨habs.le, fun _ => Int.even_add_one.mpr hn⟩

/-- **There is one nearest integer.** -/
theorem unique (hm : IsNearestEven x m) (hn : IsNearestEven x n) : m = n := by
  have hmnear := abs_le.mp hm.near
  have hnnear := abs_le.mp hn.near
  have hupper : m - n ≤ 1 := by
    have hcast : ((m - n : ℤ) : K) ≤ 1 := by
      push_cast
      linarith [hmnear.1, hnnear.2]
    exact_mod_cast hcast
  have hlower : -1 ≤ m - n := by
    have hcast : (-1 : K) ≤ ((m - n : ℤ) : K) := by
      push_cast
      linarith [hmnear.2, hnnear.1]
    exact_mod_cast hcast
  rcases (show m - n = 1 ∨ m = n ∨ n - m = 1 by omega) with hstep | hsame | hstep
  · -- Both lie a half away, so both are even, one apart.
    exfalso
    have hcast : (m : K) - n = 1 := by exact_mod_cast hstep
    have hmeven := hm.even (by rw [abs_of_nonpos (by linarith)]; linarith)
    have hneven := hn.even (by rw [abs_of_nonneg (by linarith)]; linarith)
    obtain ⟨i, hi⟩ := hmeven
    obtain ⟨j, hj⟩ := hneven
    omega
  · exact hsame
  · exfalso
    have hcast : (n : K) - m = 1 := by exact_mod_cast hstep
    have hmeven := hm.even (by rw [abs_of_nonneg (by linarith)]; linarith)
    have hneven := hn.even (by rw [abs_of_nonpos (by linarith)]; linarith)
    obtain ⟨i, hi⟩ := hmeven
    obtain ⟨j, hj⟩ := hneven
    omega

/-- **There is a nearest integer.** -/
theorem exists_of [FloorRing K] (x : K) : ∃ n, IsNearestEven x n := by
  have hlower := Int.floor_le x
  have hupper := Int.lt_floor_add_one x
  rcases lt_trichotomy x (⌊x⌋ + 1 / 2) with hless | heq | hmore
  · exact ⟨⌊x⌋, below hlower hless⟩
  · by_cases heven : Even ⌊x⌋
    · exact ⟨⌊x⌋, tie_even heq heven⟩
    · exact ⟨⌊x⌋ + 1, tie_odd heq heven⟩
  · exact ⟨⌊x⌋ + 1, above hmore hupper.le⟩

/-- An integer bounds the nearest one as it bounds the number. -/
theorem le_of_le (h : IsNearestEven x n) (hle : (m : K) ≤ x) : m ≤ n := by
  by_contra hlt
  have hstep : (n : K) + 1 ≤ m := by exact_mod_cast Int.not_le.mp hlt
  have hnear := abs_le.mp h.near
  linarith [hnear.2]

theorem ge_of_ge (h : IsNearestEven x n) (hle : x ≤ (m : K)) : n ≤ m := by
  by_contra hlt
  have hstep : (m : K) + 1 ≤ n := by exact_mod_cast Int.not_le.mp hlt
  have hnear := abs_le.mp h.near
  linarith [hnear.1]

end IsNearestEven

end Nsh
