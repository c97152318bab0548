import Nsh.Printf.Rounding

/-!
# Values that round alike

A scan that reports the rounding of another value is right where no double tells the two
apart.  For a value and itself times a power of two that is where both are past the largest
double, or both are nothing, or both are the smallest subnormal.
-/

namespace Nsh.Printf

/-- Rounded past the largest double. -/
def Past (value : ℚ) : Prop := (2 ^ 54 - 1) * 2 ^ 970 ≤ value

/-- Rounded to the smallest subnormal, and not equal to what is rounded to it at twice the
size. -/
def Least (value : ℚ) : Prop := 2 ^ (-1075 : ℤ) < value ∧ value < 3 * 2 ^ (-1075 : ℤ)

/-- The doubles do not tell the two values apart. -/
def Alike (value other : ℚ) : Prop :=
  value = other ∨ Past value ∧ Past other ∨
    value ≤ 2 ^ (-1075 : ℤ) ∧ other ≤ 2 ^ (-1075 : ℤ) ∨ Least value ∧ Least other

section

variable {value rounded : ℚ}

theorem RoundsTo.unique {other : ℚ} (h : RoundsTo value rounded) (h' : RoundsTo value other) :
    rounded = other := by
  obtain ⟨n, hn, rfl⟩ := h
  obtain ⟨m, hm, rfl⟩ := h'
  rw [hn.unique hm]

theorem unit_pos (value : ℚ) : 0 < unit value := zpow_pos two_pos _

theorem exists_roundsTo (value : ℚ) : ∃ rounded, RoundsTo value rounded := by
  obtain ⟨n, hn⟩ := IsNearestEven.exists_of (value / unit value)
  exact ⟨n * unit value, n, hn, rfl⟩

/-- A power of two that is a multiple of a unit. -/
theorem zpow_div_unit {value : ℚ} {k : ℤ} (h : max (Int.log 2 value) (-1022) - 52 ≤ k) :
    ∃ m : ℤ, (2 : ℚ) ^ k / unit value = m ∧ (m : ℚ) * unit value = 2 ^ k := by
  obtain ⟨j, hj⟩ := Int.eq_ofNat_of_zero_le
    (show 0 ≤ k - (max (Int.log 2 value) (-1022) - 52) by omega)
  have hquot : (2 : ℚ) ^ k / unit value = ((2 ^ j : ℤ) : ℚ) := by
    unfold unit
    rw [← zpow_sub₀ two_ne_zero, hj]
    push_cast
    exact zpow_natCast 2 j
  refine ⟨2 ^ j, hquot, ?_⟩
  rw [← hquot, div_mul_cancel₀ _ (unit_pos value).ne']

theorem RoundsTo.le_zpow (h : RoundsTo value rounded) {k : ℤ} (hle : value ≤ 2 ^ k)
    (hk : max (Int.log 2 value) (-1022) - 52 ≤ k) : rounded ≤ 2 ^ k := by
  obtain ⟨n, hn, rfl⟩ := h
  obtain ⟨m, hquot, hproduct⟩ := zpow_div_unit hk
  have hbound : value / unit value ≤ m := by
    rw [← hquot]
    exact div_le_div_of_nonneg_right hle (unit_pos value).le
  have hnm : (n : ℚ) ≤ m := by exact_mod_cast hn.ge_of_ge hbound
  rw [← hproduct]
  exact mul_le_mul_of_nonneg_right hnm (unit_pos value).le

theorem RoundsTo.zpow_le (h : RoundsTo value rounded) {k : ℤ} (hle : 2 ^ k ≤ value)
    (hk : max (Int.log 2 value) (-1022) - 52 ≤ k) : 2 ^ k ≤ rounded := by
  obtain ⟨n, hn, rfl⟩ := h
  obtain ⟨m, hquot, hproduct⟩ := zpow_div_unit hk
  have hbound : m ≤ value / unit value := by
    rw [← hquot]
    exact div_le_div_of_nonneg_right hle (unit_pos value).le
  have hnm : (m : ℚ) ≤ n := by exact_mod_cast hn.le_of_le hbound
  rw [← hproduct]
  exact mul_le_mul_of_nonneg_right hnm (unit_pos value).le

theorem log_mul_zpow (hvalue : 0 < value) (d : ℤ) :
    Int.log 2 (value * 2 ^ d) = Int.log 2 value + d := by
  have hscale : (0 : ℚ) < 2 ^ d := zpow_pos two_pos d
  have hscaled : 0 < value * 2 ^ d := mul_pos hvalue hscale
  have hlower := Int.zpow_log_le_self Nat.one_lt_two hvalue
  have hupper := Int.lt_zpow_succ_log_self Nat.one_lt_two value
  push_cast at hlower hupper
  apply le_antisymm
  · have hlt : Int.log 2 (value * 2 ^ d) < Int.log 2 value + 1 + d := by
      rw [← Int.lt_zpow_iff_log_lt Nat.one_lt_two hscaled]
      push_cast
      rw [zpow_add₀ two_ne_zero (Int.log 2 value + 1) d]
      exact mul_lt_mul_of_pos_right hupper hscale
    omega
  · rw [← Int.zpow_le_iff_le_log Nat.one_lt_two hscaled]
    push_cast
    rw [zpow_add₀ two_ne_zero]
    exact mul_le_mul_of_nonneg_right hlower hscale.le

/-! ### The ends of the range -/

/-- **A value is past the largest double** from half a unit below `2 ^ 1024` on. -/
theorem RoundsTo.infinite_iff (h : RoundsTo value rounded) (hvalue : 0 < value) :
    2 ^ 1024 ≤ rounded ↔ Past value := by
  unfold Past
  have hlower := Int.zpow_log_le_self Nat.one_lt_two hvalue
  have hupper := Int.lt_zpow_succ_log_self Nat.one_lt_two value
  push_cast at hlower hupper
  have hpos : (0 : ℚ) < 2 ^ 970 := pow_pos two_pos 970
  have hinfinite : (2 : ℚ) ^ 1024 = 2 ^ 54 * 2 ^ 970 := pow_add 2 54 970
  have hhalf : (2 : ℚ) ^ 1023 = 2 ^ 53 * 2 ^ 970 := pow_add 2 53 970
  have hlast : (2 : ℚ) ^ 971 = 2 * 2 ^ 970 := pow_succ' 2 970
  rw [hinfinite]
  rcases lt_trichotomy (Int.log 2 value) 1023 with hless | hsame | hmore
  · have hbound : value ≤ 2 ^ (1023 : ℤ) :=
      hupper.le.trans (zpow_le_zpow_right₀ one_le_two (by omega))
    have hrounded := h.le_zpow hbound (by omega)
    rw [show (2 : ℚ) ^ (1023 : ℤ) = 2 ^ 1023 from zpow_natCast 2 1023, hhalf] at hbound hrounded
    generalize (2 : ℚ) ^ 970 = half at *
    constructor
    · intro hle
      linarith only [hle, hrounded, hpos]
    · intro hle
      linarith only [hle, hbound, hpos]
  · obtain ⟨n, hn, rfl⟩ := h
    have hunit : unit value = 2 * 2 ^ 970 := by
      unfold unit
      rw [hsame, ← hlast]
      exact zpow_natCast 2 971
    rw [hunit] at hn ⊢
    clear hlower hupper hinfinite hhalf hlast
    generalize (2 : ℚ) ^ 970 = half at *
    have hnear := abs_le.mp hn.near
    have hvalue' : value = value / (2 * half) * (2 * half) := by
      rw [div_mul_cancel₀ _ (by linarith)]
    generalize value / (2 * half) = x at *
    have hscaled : ∀ k : ℚ, k * half ≤ n * (2 * half) ↔ k ≤ 2 * n := by
      intro k
      rw [show (n : ℚ) * (2 * half) = 2 * n * half by ring, mul_le_mul_iff_of_pos_right hpos]
    have hscaled' : ∀ k : ℚ, k * half ≤ value ↔ k ≤ 2 * x := by
      intro k
      rw [hvalue', show x * (2 * half) = 2 * x * half by ring, mul_le_mul_iff_of_pos_right hpos]
    rw [hscaled, hscaled']
    constructor
    · intro hle
      linarith [hnear.1]
    · intro hle
      by_contra hlt
      have hless : (n : ℚ) < 2 ^ 53 := by linarith
      have hstep : n ≤ 2 ^ 53 - 1 := by
        have hcast : n < 2 ^ 53 := by exact_mod_cast hless
        omega
      have hcast : (n : ℚ) ≤ 2 ^ 53 - 1 := by exact_mod_cast hstep
      have htie : n = 2 ^ 53 - 1 := by
        have hnlower : (2 ^ 53 - 1 : ℚ) ≤ n := by linarith [hnear.2]
        exact le_antisymm hstep (by exact_mod_cast hnlower)
      have heven := hn.even (by
        rw [abs_of_nonneg (by linarith)]
        linarith [hnear.2])
      rw [htie] at heven
      exact absurd heven (by decide)
  · have hbound : (2 : ℚ) ^ (1024 : ℤ) ≤ 2 ^ Int.log 2 value :=
      zpow_le_zpow_right₀ one_le_two (by omega)
    have hrounded := h.zpow_le hlower (by omega)
    rw [show (2 : ℚ) ^ (1024 : ℤ) = 2 ^ 1024 from zpow_natCast 2 1024, hinfinite] at hbound
    generalize (2 : ℚ) ^ 970 = half at *
    constructor
    · intro _
      linarith only [hbound, hlower, hpos]
    · intro _
      linarith only [hbound, hrounded]

/-- A value of at most half more than the smallest subnormal is far below the normal range. -/
theorem log_of_le (hvalue : 0 < value) (hle : value ≤ 3 * 2 ^ (-1075 : ℤ)) :
    Int.log 2 value < -1072 := by
  rw [← Int.lt_zpow_iff_log_lt Nat.one_lt_two hvalue]
  have hpos : (0 : ℚ) < 2 ^ (-1075 : ℤ) := zpow_pos two_pos _
  have hsplit : (2 : ℚ) ^ (-1072 : ℤ) = 2 ^ (3 : ℤ) * 2 ^ (-1075 : ℤ) :=
    zpow_add₀ two_ne_zero 3 (-1075)
  rw [Nat.cast_ofNat, hsplit, show (2 : ℚ) ^ (3 : ℤ) = 8 by norm_num]
  generalize (2 : ℚ) ^ (-1075 : ℤ) = half at *
  linarith

/-- Among the subnormals there is one unit. -/
theorem unit_of_le (hlog : Int.log 2 value ≤ -1022) : unit value = 2 * 2 ^ (-1075 : ℤ) := by
  unfold unit
  rw [max_eq_right hlog]
  exact zpow_one_add₀ (two_ne_zero : (2 : ℚ) ≠ 0) (-1075)

/-- What is below the normal range is tiny. -/
theorem tiny_of_le (hvalue : 0 < value) (hle : value ≤ 3 * 2 ^ (-1075 : ℤ)) : Tiny value := by
  have hlog := log_of_le hvalue hle
  obtain ⟨n, hn⟩ := IsNearestEven.exists_of (value / 2 ^ (Int.log 2 value - 52))
  refine ⟨n, hn, ?_⟩
  obtain ⟨_, hupper⟩ := full_bounds hvalue
  have hunit : (0 : ℚ) < 2 ^ (Int.log 2 value - 52) := zpow_pos two_pos _
  have hbound : (n : ℚ) ≤ 2 ^ (53 : ℤ) := by exact_mod_cast hn.ge_of_ge hupper.le
  calc (n : ℚ) * 2 ^ (Int.log 2 value - 52)
      ≤ 2 ^ (53 : ℤ) * 2 ^ (Int.log 2 value - 52) := mul_le_mul_of_nonneg_right hbound hunit.le
    _ = 2 ^ (Int.log 2 value + 1) := by
        rw [← zpow_add₀ two_ne_zero]
        congr 1
        ring
    _ < 2 ^ (-1022 : ℤ) := zpow_lt_zpow_right₀ one_lt_two (by omega)

/-- A value of at most half the smallest subnormal is rounded to nothing. -/
theorem RoundsTo.eq_zero (h : RoundsTo value rounded) (hvalue : 0 < value)
    (hle : value ≤ 2 ^ (-1075 : ℤ)) : rounded = 0 := by
  have hpos : (0 : ℚ) < 2 ^ (-1075 : ℤ) := zpow_pos two_pos _
  have hlog := log_of_le hvalue (by generalize (2 : ℚ) ^ (-1075 : ℤ) = half at *; linarith)
  obtain ⟨n, hn, rfl⟩ := h
  rw [unit_of_le (by omega)] at hn ⊢
  generalize (2 : ℚ) ^ (-1075 : ℤ) = half at *
  have hlower : 0 ≤ value / (2 * half) := by positivity
  have hupper : value / (2 * half) ≤ 1 / 2 := by
    rw [div_le_iff₀ (by positivity)]
    linarith
  have hzero : IsNearestEven (value / (2 * half)) 0 := by
    rcases hupper.lt_or_eq with hlt | heq
    · apply IsNearestEven.below
      · rwa [Int.cast_zero]
      · rw [Int.cast_zero]
        linarith
    · apply IsNearestEven.tie_even _ Even.zero
      rw [heq, Int.cast_zero, zero_add]
  rw [hn.unique hzero, Int.cast_zero, zero_mul]

/-- One between a half of it and a half more is rounded to it. -/
theorem RoundsTo.eq_least (h : RoundsTo value rounded) (hleast : Least value) :
    rounded = 2 * 2 ^ (-1075 : ℤ) := by
  obtain ⟨hmore, hless⟩ := hleast
  have hpos : (0 : ℚ) < 2 ^ (-1075 : ℤ) := zpow_pos two_pos _
  have hlog := log_of_le (hpos.trans hmore) hless.le
  obtain ⟨n, hn, rfl⟩ := h
  rw [unit_of_le (by omega)] at hn ⊢
  generalize (2 : ℚ) ^ (-1075 : ℤ) = half at *
  have hlower : 1 / 2 < value / (2 * half) := by
    rw [lt_div_iff₀ (by positivity)]
    linarith
  have hupper : value / (2 * half) < 3 / 2 := by
    rw [div_lt_iff₀ (by positivity)]
    linarith
  have hone : IsNearestEven (value / (2 * half)) 1 := by
    have habs : |value / (2 * half) - ((1 : ℤ) : ℚ)| < 1 / 2 := by
      rw [Int.cast_one, abs_lt]
      constructor <;> linarith
    exact ⟨habs.le, fun heq => absurd heq habs.ne⟩
  rw [hn.unique hone, Int.cast_one, one_mul]

/-! ### One value at two sizes -/

theorem two_mul_le_scale (hvalue : 0 < value) {d : ℤ} (hd : 1 ≤ d) :
    2 * value ≤ value * 2 ^ d := by
  have hpow : (2 : ℚ) ^ (1 : ℤ) ≤ 2 ^ d := zpow_le_zpow_right₀ one_le_two hd
  rw [zpow_one] at hpow
  rw [mul_comm]
  exact mul_le_mul_of_nonneg_left hpow hvalue.le

/-- In the normal range the rounding keeps the size. -/
theorem RoundsTo.scale (h : RoundsTo value rounded) (hvalue : 0 < value)
    (hlog : -1022 ≤ Int.log 2 value) {d : ℤ} (hd : 0 ≤ d) :
    RoundsTo (value * 2 ^ d) (rounded * 2 ^ d) := by
  have hscale : (2 : ℚ) ^ d ≠ 0 := zpow_ne_zero d two_ne_zero
  have hunit : unit (value * 2 ^ d) = unit value * 2 ^ d := by
    unfold unit
    rw [log_mul_zpow hvalue, max_eq_left (by omega), max_eq_left hlog,
      show Int.log 2 value + d - 52 = Int.log 2 value - 52 + d by ring, zpow_add₀ two_ne_zero]
  obtain ⟨n, hn, rfl⟩ := h
  refine ⟨n, ?_, ?_⟩
  · rw [hunit, mul_div_mul_right _ _ hscale]
    exact hn
  · rw [hunit, mul_assoc]

/-- **Two sizes of one value are rounded to one double** only at the smallest. -/
theorem RoundsTo.same {d : ℤ} (h : RoundsTo value rounded) (hvalue : 0 < value) (hd : 1 ≤ d)
    (h' : RoundsTo (value * 2 ^ d) rounded) :
    value ≤ 2 ^ (-1075 : ℤ) ∧ value * 2 ^ d ≤ 2 ^ (-1075 : ℤ) ∨
      Least value ∧ Least (value * 2 ^ d) := by
  have htwice := two_mul_le_scale hvalue hd
  have hscaled : 0 < value * 2 ^ d := mul_pos hvalue (zpow_pos two_pos d)
  have hlower := Int.zpow_log_le_self Nat.one_lt_two hvalue
  have hupper := Int.lt_zpow_succ_log_self Nat.one_lt_two value
  have hlower' := Int.zpow_log_le_self Nat.one_lt_two hscaled
  push_cast at hlower hupper hlower'
  have hlog := log_mul_zpow hvalue d
  by_cases hnormal : -1022 ≤ Int.log 2 value
  · -- The larger one is rounded to as much more.
    exfalso
    have heq := (h.scale hvalue hnormal (by omega)).unique h'
    have hpos : 0 < rounded :=
      lt_of_lt_of_le (zpow_pos two_pos _) (h.zpow_le hlower (by omega))
    have hmul := two_mul_le_scale hpos hd
    linarith
  by_cases hnormal' : -1022 < Int.log 2 (value * 2 ^ d)
  · -- The smaller one stays below the normal range, and the larger one above its first power.
    exfalso
    have hbelow := h.le_zpow (k := -1022)
      (hupper.le.trans (zpow_le_zpow_right₀ one_le_two (by omega))) (by omega)
    have habove := h'.zpow_le hlower' (by omega)
    have hless : (2 : ℚ) ^ (-1022 : ℤ) < 2 ^ Int.log 2 (value * 2 ^ d) :=
      zpow_lt_zpow_right₀ one_lt_two hnormal'
    linarith
  obtain ⟨n, hn, hrounded⟩ := h
  obtain ⟨m, hm, hrounded'⟩ := h'
  have hpos : (0 : ℚ) < 2 ^ (-1075 : ℤ) := zpow_pos two_pos _
  unfold Least
  rw [unit_of_le (by omega)] at hn hrounded hm hrounded'
  clear hlower hupper hlower' hlog hnormal hnormal'
  generalize (2 : ℚ) ^ (-1075 : ℤ) = half at *
  generalize value * 2 ^ d = larger at *
  have htwo : (0 : ℚ) < 2 * half := by linarith
  have hmn : m = n := by
    have hcast : (m : ℚ) = n := mul_right_cancel₀ htwo.ne' (hrounded'.symm.trans hrounded)
    exact_mod_cast hcast
  subst hmn
  have hx : 0 < value / (2 * half) := div_pos hvalue htwo
  have hxx : 2 * (value / (2 * half)) ≤ larger / (2 * half) := by
    rw [← mul_div_assoc]
    exact div_le_div_of_nonneg_right htwice htwo.le
  have hvalue' : value = value / (2 * half) * (2 * half) := (div_mul_cancel₀ _ htwo.ne').symm
  have hlarger' : larger = larger / (2 * half) * (2 * half) := (div_mul_cancel₀ _ htwo.ne').symm
  have hatmost : ∀ x : ℚ, x * (2 * half) ≤ half ↔ 2 * x ≤ 1 := by
    intro x
    rw [show x * (2 * half) = 2 * x * half by ring, mul_le_iff_le_one_left hpos]
  have hmore : ∀ x : ℚ, half < x * (2 * half) ↔ 1 < 2 * x := by
    intro x
    rw [← not_le, hatmost, not_le]
  have hless : ∀ x : ℚ, x * (2 * half) < 3 * half ↔ 2 * x < 3 := by
    intro x
    rw [show x * (2 * half) = 2 * x * half by ring, mul_lt_mul_iff_of_pos_right hpos]
  rw [hvalue', hlarger', hatmost, hatmost, hmore, hmore, hless, hless]
  generalize value / (2 * half) = x at *
  generalize larger / (2 * half) = y at *
  have hnear := abs_le.mp hn.near
  have hnear' := abs_le.mp hm.near
  have hlow : 0 ≤ m := hn.le_of_le (by rw [Int.cast_zero]; exact hx.le)
  have hhigh : m ≤ 1 := by
    have hcast : (m : ℚ) < 2 := by linarith [hnear.1, hnear'.2]
    have hint : m < 2 := by exact_mod_cast hcast
    omega
  rcases (show m = 0 ∨ m = 1 by omega) with rfl | rfl
  · left
    rw [Int.cast_zero] at hnear hnear'
    constructor
    · linarith [hnear.2]
    · linarith [hnear'.2]
  · -- The ties go to nothing and to twice the smallest.
    right
    rw [Int.cast_one] at hnear hnear'
    have hodd : ¬ Even (1 : ℤ) := Int.not_even_one
    have hxhalf : x ≠ 1 / 2 := by
      intro heq
      apply hodd
      apply hn.even
      rw [heq]
      norm_num
    have hyhalf : y ≠ 3 / 2 := by
      intro heq
      apply hodd
      apply hm.even
      rw [heq]
      norm_num
    have hxless : 1 / 2 < x := lt_of_le_of_ne (by linarith [hnear.1]) (Ne.symm hxhalf)
    have hyless : y < 3 / 2 := lt_of_le_of_ne (by linarith [hnear'.2]) hyhalf
    refine ⟨⟨?_, ?_⟩, ?_, ?_⟩
    · linarith
    · linarith
    · linarith
    · linarith

/-! ### A rounding reported of another value -/

/-- The larger of two sizes is not rounded to itself where the smaller is rounded to it. -/
theorem Least.ne {d : ℤ} (h : Least value) (h' : Least (value * 2 ^ d)) (hd : d ≠ 0) :
    2 * 2 ^ (-1075 : ℤ) ≠ value ∧ 2 * 2 ^ (-1075 : ℤ) ≠ value * 2 ^ d := by
  obtain ⟨hmore, hless⟩ := h
  obtain ⟨hmore', hless'⟩ := h'
  have hpos : (0 : ℚ) < 2 ^ (-1075 : ℤ) := zpow_pos two_pos _
  rcases lt_or_gt_of_ne hd with hneg | hgt
  · have htwice := two_mul_le_scale (d := -d) (hpos.trans hmore') (by omega)
    rw [mul_assoc, ← zpow_add₀ two_ne_zero, add_neg_cancel, zpow_zero, mul_one] at htwice
    generalize (2 : ℚ) ^ (-1075 : ℤ) = half at *
    constructor
    · intro heq
      linarith
    · intro heq
      linarith
  · have htwice := two_mul_le_scale (hpos.trans hmore) (show 1 ≤ d by omega)
    generalize (2 : ℚ) ^ (-1075 : ℤ) = half at *
    constructor
    · intro heq
      linarith
    · intro heq
      linarith

theorem RoundsTo.same_of_ne {d : ℤ} (h : RoundsTo value rounded) (hvalue : 0 < value) (hd : d ≠ 0)
    (h' : RoundsTo (value * 2 ^ d) rounded) :
    value ≤ 2 ^ (-1075 : ℤ) ∧ value * 2 ^ d ≤ 2 ^ (-1075 : ℤ) ∨
      Least value ∧ Least (value * 2 ^ d) := by
  rcases lt_or_gt_of_ne hd with hneg | hgt
  · have hback : value * 2 ^ d * 2 ^ (-d) = value := by
      rw [mul_assoc, ← zpow_add₀ two_ne_zero, add_neg_cancel, zpow_zero, mul_one]
    have hsame := h'.same (d := -d) (mul_pos hvalue (zpow_pos two_pos d)) (by omega)
      (by rwa [hback])
    rw [hback] at hsame
    exact hsame.imp And.symm And.symm
  · exact h.same hvalue (by omega) h'

/-- Two values that are inexact at one double. -/
theorem CorrectlyRounded.of_same {other : ℚ} {magnitude : Magnitude} {range : Bool}
    (h : CorrectlyRounded other magnitude range) (hrounds : RoundsTo value rounded)
    (hrounds' : RoundsTo other rounded) (htiny : Tiny value) (htiny' : Tiny other)
    (hne : rounded ≠ value) (hne' : rounded ≠ other) :
    CorrectlyRounded value magnitude range := by
  obtain ⟨same, hsame, hdenotes, hrange⟩ := h
  obtain rfl := hsame.unique hrounds'
  refine ⟨same, hrounds, hdenotes, ?_⟩
  rw [hrange]
  constructor
  · exact fun _ => .inr ⟨htiny, hne⟩
  · exact fun _ => .inr ⟨htiny', hne'⟩

/-- **What is reported of one size** is right of another exactly where they are alike. -/
theorem CorrectlyRounded.alike_iff {magnitude : Magnitude} {range : Bool} {d : ℤ}
    (hvalue : 0 < value) (h : CorrectlyRounded (value * 2 ^ d) magnitude range) :
    CorrectlyRounded value magnitude range ↔ Alike value (value * 2 ^ d) := by
  by_cases hd : d = 0
  · rw [hd, zpow_zero, mul_one] at h ⊢
    exact iff_of_true h (.inl rfl)
  have hvalue' : 0 < value * 2 ^ d := mul_pos hvalue (zpow_pos two_pos d)
  obtain ⟨rounded, hrounds⟩ := exists_roundsTo value
  obtain ⟨rounded', hrounds', hdenotes', hrange'⟩ := id h
  have hpos : (0 : ℚ) < 2 ^ (-1075 : ℤ) := zpow_pos two_pos _
  constructor
  · rintro ⟨same, hsame, hdenotes, _⟩
    cases magnitude with
    | infinite =>
      exact .inr (.inl ⟨(hsame.infinite_iff hvalue).mp hdenotes,
        (hrounds'.infinite_iff hvalue').mp hdenotes'⟩)
    | finite digits place =>
      rw [← hdenotes'.2, hdenotes.2] at hrounds'
      exact .inr (.inr (hsame.same_of_ne hvalue hd hrounds'))
  · rintro (heq | ⟨hpast, hpast'⟩ | ⟨hless, hless'⟩ | ⟨hleast, hleast'⟩)
    · rwa [← heq] at h
    · have hinfinite' := (hrounds'.infinite_iff hvalue').mpr hpast'
      cases magnitude with
      | infinite =>
        refine ⟨rounded, hrounds, (hrounds.infinite_iff hvalue).mpr hpast, fun _ => .inl rfl, ?_⟩
        exact fun _ => hrange'.mpr (.inl rfl)
      | finite digits place => exact absurd hdenotes'.1 (not_lt.mpr hinfinite')
    · rw [hrounds.eq_zero hvalue hless] at hrounds
      rw [hrounds'.eq_zero hvalue' hless'] at hrounds'
      have hbound : (2 : ℚ) ^ (-1075 : ℤ) ≤ 3 * 2 ^ (-1075 : ℤ) := by
        generalize (2 : ℚ) ^ (-1075 : ℤ) = half at *
        linarith
      exact h.of_same hrounds hrounds' (tiny_of_le hvalue (hless.trans hbound))
        (tiny_of_le hvalue' (hless'.trans hbound)) hvalue.ne hvalue'.ne
    · obtain ⟨hne, hne'⟩ := hleast.ne hleast' hd
      rw [hrounds.eq_least hleast] at hrounds
      rw [hrounds'.eq_least hleast'] at hrounds'
      exact h.of_same hrounds hrounds' (tiny_of_le hvalue hleast.2.le)
        (tiny_of_le hvalue' hleast'.2.le) hne hne'

end

end Nsh.Printf
