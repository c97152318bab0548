import Mathlib.Tactic.FieldSimp
import Mathlib.Tactic.Positivity
import Nsh.Printf.Hexadecimal

/-!
# One rounding of a hexadecimal literal

The mantissa stands for every value from itself up to the next integer, and the sticky
bit says whether it is the value itself.  Dropping bits rounds that value to the nearest
integer, ties to even, and `round_to_double` drops those below the unit of the result.
-/

namespace Nsh.Printf

/-- What the digits that were dropped add to the mantissa, and the bit that stands for it. -/
structure Part (part : ℚ) (sticky : Bool) : Prop where
  nonneg : 0 ≤ part
  lt_one : part < 1
  sticky : sticky = true ↔ part ≠ 0

section

variable {mantissa : ℕ} {sticky : Bool} {part : ℚ}

theorem Part.eq_zero (h : Part part sticky) (hsticky : ¬ sticky = true) : part = 0 := by
  by_contra hne
  exact hsticky (h.sticky.mpr hne)

theorem Part.pos (h : Part part sticky) (hsticky : sticky = true) : 0 < part :=
  lt_of_le_of_ne h.nonneg (Ne.symm (h.sticky.mp hsticky))

/-- A number between an integer and the next that one of the two is equal to. -/
theorem part_eq_zero_of_int {n : ℤ} {q : ℤ} {y : ℚ} (hy0 : 0 ≤ y) (hy1 : y < 1)
    (h : (n : ℚ) = q + y) : y = 0 := by
  have hlower : q ≤ n := by
    have hcast : (q : ℚ) ≤ n := by linarith
    exact_mod_cast hcast
  have hupper : n < q + 1 := by
    have hcast : (n : ℚ) < ((q + 1 : ℤ) : ℚ) := by
      push_cast
      linarith
    exact_mod_cast hcast
  have hsame : n = q := by omega
  rw [hsame] at h
  linarith

/-- Dropping fewer bits than there may be rounds to the nearest, and says whether any was
lost. -/
theorem roundBits_within (h : Part part sticky) {n : ℕ} (hn : 0 < n) (hlt : n < 128) :
    IsNearestEven ((mantissa + part) / 2 ^ n) ((roundBits mantissa sticky n).1 : ℤ) ∧
      ((roundBits mantissa sticky n).2 = true ↔
        (mantissa + part) / 2 ^ n = ((roundBits mantissa sticky n).1 : ℤ)) := by
  have hround : roundBits mantissa sticky n =
      (mantissa / 2 ^ n + (if 2 ^ (n - 1) < mantissa % 2 ^ n ∨ (mantissa % 2 ^ n = 2 ^ (n - 1) ∧
        (sticky ∨ mantissa / 2 ^ n % 2 ≠ 0)) then 1 else 0),
        decide (mantissa % 2 ^ n = 0 ∧ sticky = false)) := by
    unfold roundBits
    rw [if_neg (by omega), if_neg (by omega)]
    rfl
  rw [hround]
  have hpow : 2 ^ n = 2 * 2 ^ (n - 1) := by
    rw [← Nat.pow_succ', Nat.succ_eq_add_one, Nat.sub_add_cancel hn]
  have hdrop : mantissa % 2 ^ n < 2 ^ n := Nat.mod_lt _ (by positivity)
  have hsplit : mantissa = 2 ^ n * (mantissa / 2 ^ n) + mantissa % 2 ^ n :=
    (Nat.div_add_mod mantissa (2 ^ n)).symm
  generalize hkept : mantissa / 2 ^ n = kept at *
  generalize hdropped : mantissa % 2 ^ n = dropped at *
  generalize 2 ^ (n - 1) = half at *
  have hP : (2 : ℚ) ^ n = 2 * half := by
    have hcast := congrArg (Nat.cast (R := ℚ)) hpow
    push_cast at hcast
    exact hcast
  have hhalf : (0 : ℚ) < half := by
    have hpos : (0 : ℚ) < 2 ^ n := by positivity
    rw [hP] at hpos
    linarith
  have hx : (mantissa + part) / 2 ^ n = kept + (dropped + part) / (2 * half) := by
    rw [hsplit, hpow, hP]
    push_cast
    field_simp
    ring
  have hpart0 := h.nonneg
  have hpart1 := h.lt_one
  have hbelow : (dropped : ℚ) + 1 ≤ 2 * half := by
    rw [hpow] at hdrop
    exact_mod_cast hdrop
  have hy0 : 0 ≤ ((dropped : ℚ) + part) / (2 * half) := by positivity
  have hy1 : ((dropped : ℚ) + part) / (2 * half) < 1 := by
    rw [div_lt_one (by linarith)]
    linarith
  rw [hx]
  refine ⟨?_, ?_⟩
  · rcases lt_trichotomy dropped half with hless | heq | hmore
    · -- Less than half is dropped.
      rw [if_neg (by omega)]
      apply IsNearestEven.below
      · push_cast
        linarith
      · have hcast : (dropped : ℚ) + 1 ≤ half := by exact_mod_cast hless
        have hy : ((dropped : ℚ) + part) / (2 * half) < 1 / 2 := by
          rw [div_lt_div_iff₀ (by linarith) (by norm_num)]
          linarith
        push_cast
        linarith
    · subst heq
      by_cases hsticky : sticky = true
      · -- A half and more.
        rw [if_pos (.inr ⟨rfl, .inl hsticky⟩)]
        have hpos := h.pos hsticky
        have hy : 1 / 2 < ((dropped : ℚ) + part) / (2 * dropped) := by
          rw [div_lt_div_iff₀ (by norm_num) (by linarith)]
          linarith
        rw [Nat.cast_add, Nat.cast_one]
        apply IsNearestEven.above
        · push_cast
          linarith
        · push_cast
          linarith
      · -- Exactly half: the even one.
        have hzero := h.eq_zero hsticky
        have hy : ((dropped : ℚ) + part) / (2 * dropped) = 1 / 2 := by
          rw [hzero, add_zero]
          field_simp
        rw [hy]
        by_cases hodd : kept % 2 ≠ 0
        · rw [if_pos (.inr ⟨rfl, .inr hodd⟩), Nat.cast_add, Nat.cast_one]
          apply IsNearestEven.tie_odd (by push_cast; rfl)
          rw [Int.even_coe_nat, Nat.even_iff]
          exact hodd
        · have hkeeps : ¬ (dropped < dropped ∨ (dropped = dropped ∧
              (sticky = true ∨ kept % 2 ≠ 0))) := by
            rintro (hless | ⟨_, hs | hs⟩)
            · exact absurd hless (Nat.lt_irrefl _)
            · exact hsticky hs
            · exact hodd hs
          rw [if_neg hkeeps]
          apply IsNearestEven.tie_even (by push_cast; rw [add_zero])
          rw [Nat.add_zero, Int.even_coe_nat, Nat.even_iff]
          exact not_not.mp hodd
    · -- More than half.
      rw [if_pos (.inl hmore), Nat.cast_add, Nat.cast_one]
      have hcast : (half : ℚ) + 1 ≤ dropped := by exact_mod_cast hmore
      have hy : 1 / 2 < ((dropped : ℚ) + part) / (2 * half) := by
        rw [div_lt_div_iff₀ (by norm_num) (by linarith)]
        linarith
      apply IsNearestEven.above
      · push_cast
        linarith
      · push_cast
        linarith
  · rw [decide_eq_true_iff]
    constructor
    · rintro ⟨hzero, hsticky⟩
      have hpart := h.eq_zero (by rw [hsticky]; exact Bool.false_ne_true)
      rw [if_neg, hzero, hpart]
      · simp
      · have hpos : 0 < half := by exact_mod_cast hhalf
        omega
    · intro heq
      have hint : ((kept : ℤ) : ℚ) + ((dropped : ℚ) + part) / (2 * half) =
          kept + ((dropped : ℚ) + part) / (2 * half) := by rw [Int.cast_natCast]
      have hy := part_eq_zero_of_int hy0 hy1 (heq.symm.trans hint.symm)
      have hsum : (dropped : ℚ) + part = 0 := by
        rcases div_eq_zero_iff.mp hy with hsum | hden
        · exact hsum
        · linarith
      have hdropped0 : (0 : ℚ) ≤ dropped := Nat.cast_nonneg dropped
      have hdzero : (dropped : ℚ) = 0 := by linarith
      refine ⟨by exact_mod_cast hdzero, ?_⟩
      by_contra hsticky
      have hpos := h.pos (Bool.eq_true_of_not_eq_false hsticky)
      linarith

/-- Dropping at least as many bits as there may be leaves one or nothing. -/
theorem roundBits_past (h : Part part sticky) (hmantissa : mantissa < 2 ^ 128)
    (hpos : mantissa ≠ 0) {n : ℕ} (hn : 128 ≤ n) :
    IsNearestEven ((mantissa + part) / 2 ^ n) ((roundBits mantissa sticky n).1 : ℤ) ∧
      ((roundBits mantissa sticky n).2 = true ↔
        (mantissa + part) / 2 ^ n = ((roundBits mantissa sticky n).1 : ℤ)) := by
  have hround : roundBits mantissa sticky n =
      (if (n : ℤ) = 128 ∧ (2 ^ 127 < mantissa ∨ (mantissa = 2 ^ 127 ∧ sticky)) then 1 else 0,
        false) := by
    unfold roundBits
    rw [if_neg (by omega), if_pos (by omega)]
  rw [hround]
  have hpart0 := h.nonneg
  have hpart1 := h.lt_one
  have hone : (1 : ℚ) ≤ mantissa := by exact_mod_cast Nat.one_le_iff_ne_zero.mpr hpos
  have hbound : (mantissa : ℚ) + 1 ≤ 2 ^ 128 := by exact_mod_cast hmantissa
  have hpow : (2 : ℚ) ^ 128 ≤ 2 ^ n := pow_le_pow_right₀ (by norm_num) hn
  have hP : (0 : ℚ) < 2 ^ n := by positivity
  have hx0 : 0 < ((mantissa : ℚ) + part) / 2 ^ n := div_pos (by linarith) hP
  have hx1 : ((mantissa : ℚ) + part) / 2 ^ n < 1 := by
    rw [div_lt_one hP]
    linarith
  refine ⟨?_, ?_⟩
  · by_cases hexact : n = 128
    · subst hexact
      have hhalf : (2 : ℚ) ^ 128 = 2 * 2 ^ 127 := by norm_num
      by_cases hup : 2 ^ 127 < mantissa ∨ (mantissa = 2 ^ 127 ∧ sticky = true)
      · rw [if_pos ⟨rfl, hup⟩]
        have hmore : (1 : ℚ) / 2 < (mantissa + part) / 2 ^ 128 := by
          rw [div_lt_div_iff₀ (by norm_num) (by positivity)]
          rcases hup with hmore | ⟨heq, hsticky⟩
          · have hcast : (2 : ℚ) ^ 127 + 1 ≤ mantissa := by exact_mod_cast hmore
            linarith
          · have hp := h.pos hsticky
            have hcast : (mantissa : ℚ) = 2 ^ 127 := by exact_mod_cast heq
            linarith
        exact IsNearestEven.above (n := 0) (by push_cast; linarith) (by push_cast; linarith)
      · rw [if_neg fun hand => hup hand.2]
        rw [not_or] at hup
        rcases Nat.lt_or_eq_of_le (Nat.not_lt.mp hup.1) with hless | heq
        · have hcast : (mantissa : ℚ) + 1 ≤ 2 ^ 127 := by exact_mod_cast hless
          apply IsNearestEven.below
          · push_cast
            exact hx0.le
          · rw [div_lt_iff₀ hP]
            push_cast
            linarith
        · have hzero := h.eq_zero fun hs => hup.2 ⟨heq, hs⟩
          have hcast : (mantissa : ℚ) = 2 ^ 127 := by exact_mod_cast heq
          apply IsNearestEven.tie_even
          · rw [hzero, hcast]
            norm_num
          · exact ⟨0, rfl⟩
    · rw [if_neg fun hand => hexact (by exact_mod_cast hand.1)]
      have hmore : (2 : ℚ) ^ 129 ≤ 2 ^ n := pow_le_pow_right₀ (by norm_num) (by omega)
      have hhalf : (2 : ℚ) ^ 129 = 2 * 2 ^ 128 := by norm_num
      apply IsNearestEven.below
      · push_cast
        exact hx0.le
      · rw [div_lt_iff₀ hP]
        push_cast
        linarith
  · constructor
    · intro hfalse
      cases hfalse
    · intro heq
      have hzero : ((mantissa : ℚ) + part) / 2 ^ n = 0 := by
        have hint : ((0 : ℤ) : ℚ) + ((mantissa : ℚ) + part) / 2 ^ n =
            ((mantissa : ℚ) + part) / 2 ^ n := by rw [Int.cast_zero, zero_add]
        exact part_eq_zero_of_int hx0.le hx1 (heq.symm.trans hint.symm)
      exact absurd hzero hx0.ne'

/-- **Dropping bits rounds to the nearest**, ties to even, and says whether any was lost. -/
theorem roundBits_nearest (h : Part part sticky) (hmantissa : mantissa < 2 ^ 128)
    (hpos : mantissa ≠ 0) {n : ℕ} (hn : 0 < n) :
    IsNearestEven ((mantissa + part) / 2 ^ n) ((roundBits mantissa sticky n).1 : ℤ) ∧
      ((roundBits mantissa sticky n).2 = true ↔
        (mantissa + part) / 2 ^ n = ((roundBits mantissa sticky n).1 : ℤ)) := by
  by_cases hlt : n < 128
  · exact roundBits_within h hn hlt
  · exact roundBits_past h hmantissa hpos (Nat.not_lt.mp hlt)

/-- Rounding a value at a unit, where nothing stands below the mantissa unless its bits are
dropped. -/
theorem rounded_at (h : Part part sticky) (hmantissa : mantissa < 2 ^ 128) (hpos : mantissa ≠ 0)
    (exponent step : ℤ) (hexact : step ≤ exponent → part = 0) :
    ∃ n : ℤ, IsNearestEven ((mantissa + part) * 2 ^ exponent / 2 ^ step) n ∧
      (n : ℚ) * 2 ^ step = (roundBits mantissa sticky (step - exponent)).1 * 2 ^ max step exponent ∧
      ((roundBits mantissa sticky (step - exponent)).2 = true ↔
        (n : ℚ) * 2 ^ step = (mantissa + part) * 2 ^ exponent) := by
  have htwo : (2 : ℚ) ≠ 0 := two_ne_zero
  have hstep : (2 : ℚ) ^ step ≠ 0 := zpow_ne_zero step htwo
  rcases Int.lt_or_le exponent step with hlt | hle
  · obtain ⟨k, hk⟩ := Int.eq_ofNat_of_zero_le (show 0 ≤ step - exponent by omega)
    have hvalue : ((mantissa : ℚ) + part) * 2 ^ exponent / 2 ^ step =
        (mantissa + part) / 2 ^ k := by
      rw [← zpow_natCast (2 : ℚ) k, show (k : ℤ) = step - exponent from hk.symm, zpow_sub₀ htwo]
      field_simp
    obtain ⟨hnear, hsame⟩ := roundBits_nearest h hmantissa hpos (show 0 < k by omega)
    rw [hk]
    refine ⟨_, by rw [hvalue]; exact hnear, ?_, ?_⟩
    · rw [max_eq_left (by omega), Int.cast_natCast]
    · rw [hsame, ← hvalue, div_eq_iff hstep]
      exact eq_comm
  · have hzero := hexact hle
    have hsticky : sticky = false := by
      by_contra hsticky
      have hp := h.pos (Bool.eq_true_of_not_eq_false hsticky)
      linarith
    obtain ⟨k, hk⟩ := Int.eq_ofNat_of_zero_le (show 0 ≤ exponent - step by omega)
    have hround : roundBits mantissa sticky (step - exponent) = (mantissa, true) := by
      unfold roundBits
      rw [if_pos (by omega), hsticky]
      rfl
    have hvalue : ((mantissa : ℚ) + part) * 2 ^ exponent / 2 ^ step =
        ((mantissa * 2 ^ k : ℕ) : ℤ) := by
      rw [hzero, add_zero, mul_div_assoc, ← zpow_sub₀ htwo, hk]
      push_cast
      rw [zpow_natCast]
    have hproduct : (((mantissa * 2 ^ k : ℕ) : ℤ) : ℚ) * 2 ^ step =
        (mantissa + part) * 2 ^ exponent := by
      rw [← hvalue, div_mul_cancel₀ _ hstep]
    refine ⟨((mantissa * 2 ^ k : ℕ) : ℤ), by rw [hvalue]; exact IsNearestEven.intCast _, ?_, ?_⟩
    · rw [hproduct, hround, max_eq_right hle, hzero, add_zero]
    · rw [hround]
      exact ⟨fun _ => hproduct, fun _ => rfl⟩

/-- Where the leading bit of the value stands. -/
theorem log_value (h : Part part sticky) (hpos : mantissa ≠ 0) (exponent : ℤ) :
    Int.log 2 (((mantissa : ℚ) + part) * 2 ^ exponent) = exponent + mantissa.size - 1 := by
  have hpart0 := h.nonneg
  have hpart1 := h.lt_one
  have hsize : 0 < mantissa.size := Nat.size_pos.mpr (Nat.pos_of_ne_zero hpos)
  have hone : (1 : ℚ) ≤ mantissa := by exact_mod_cast Nat.one_le_iff_ne_zero.mpr hpos
  have hscale : (0 : ℚ) < 2 ^ exponent := zpow_pos two_pos exponent
  have hvalue : 0 < ((mantissa : ℚ) + part) * 2 ^ exponent := mul_pos (by linarith) hscale
  have hlower : (2 : ℚ) ^ (mantissa.size - 1) ≤ mantissa := by
    exact_mod_cast Nat.lt_size.mp (show mantissa.size - 1 < mantissa.size by omega)
  have hupper : (mantissa : ℚ) + 1 ≤ 2 ^ mantissa.size := by
    exact_mod_cast Nat.lt_size_self mantissa
  apply le_antisymm
  · have hlt : Int.log 2 (((mantissa : ℚ) + part) * 2 ^ exponent) < exponent + mantissa.size := by
      rw [← Int.lt_zpow_iff_log_lt Nat.one_lt_two hvalue, zpow_add₀ (by norm_num), mul_comm,
        zpow_natCast]
      push_cast
      exact mul_lt_mul_of_pos_left (by linarith) hscale
    omega
  · rw [← Int.zpow_le_iff_le_log Nat.one_lt_two hvalue,
      show exponent + mantissa.size - 1 = exponent + ((mantissa.size - 1 : ℕ) : ℤ) by omega,
      zpow_add₀ (by norm_num), mul_comm, zpow_natCast]
    push_cast
    exact mul_le_mul_of_nonneg_right (by linarith) hscale.le

/-- A value and the unit at which it has 53 bits. -/
theorem full_bounds {value : ℚ} (hvalue : 0 < value) :
    ((2 ^ 52 : ℤ) : ℚ) ≤ value / 2 ^ (Int.log 2 value - 52) ∧
      value / 2 ^ (Int.log 2 value - 52) < ((2 ^ 53 : ℤ) : ℚ) := by
  have hunit : (0 : ℚ) < 2 ^ (Int.log 2 value - 52) := zpow_pos two_pos _
  have hlower := Int.zpow_log_le_self Nat.one_lt_two hvalue
  have hupper := Int.lt_zpow_succ_log_self Nat.one_lt_two value
  have hscaled : ∀ k : ℕ, ((2 ^ k : ℤ) : ℚ) * 2 ^ (Int.log 2 value - 52) =
      2 ^ ((k : ℤ) + (Int.log 2 value - 52)) := by
    intro k
    push_cast
    rw [← zpow_natCast, ← zpow_add₀ two_ne_zero]
  push_cast at hlower hupper
  constructor
  · rw [le_div_iff₀ hunit, hscaled]
    rwa [show ((52 : ℕ) : ℤ) + (Int.log 2 value - 52) = Int.log 2 value by push_cast; ring]
  · rw [div_lt_iff₀ hunit, hscaled]
    rwa [show ((53 : ℕ) : ℤ) + (Int.log 2 value - 52) = Int.log 2 value + 1 by push_cast; ring]

theorem size_full (h : part ≠ 0 → 2 ^ 124 ≤ mantissa) (hsmall : mantissa.size ≤ 53) : part = 0 := by
  by_contra hne
  have hlt := Nat.lt_size.mpr (h hne)
  omega

/-- Which values are tiny once they are rounded to 53 bits. -/
theorem tiny_iff (h : Part part sticky) (hmantissa : mantissa < 2 ^ 128) (hpos : mantissa ≠ 0)
    (hfull : part ≠ 0 → 2 ^ 124 ≤ mantissa) (exponent : ℤ) :
    Tiny ((mantissa + part) * 2 ^ exponent) ↔
      exponent + mantissa.size - 1 +
        (if (roundBits mantissa sticky (mantissa.size - 53)).1 / 2 ^ 53 ≠ 0 then 1 else 0)
          < -1022 := by
  have hlog := log_value h hpos exponent
  have hone : (1 : ℚ) ≤ mantissa := by exact_mod_cast Nat.one_le_iff_ne_zero.mpr hpos
  have hvalue : 0 < ((mantissa : ℚ) + part) * 2 ^ exponent :=
    mul_pos (by linarith [h.nonneg]) (zpow_pos two_pos exponent)
  obtain ⟨hlower, hupper⟩ := full_bounds hvalue
  rw [hlog] at hlower hupper
  obtain ⟨n, hnear, hproduct, _⟩ := rounded_at h hmantissa hpos exponent
    (exponent + mantissa.size - 1 - 52) fun hle => size_full hfull (by omega)
  rw [show exponent + (mantissa.size : ℤ) - 1 - 52 - exponent = mantissa.size - 53 by ring]
    at hproduct
  have hnlower := hnear.le_of_le hlower
  have hnupper := hnear.ge_of_ge hupper.le
  have hunit : (0 : ℚ) < 2 ^ (exponent + mantissa.size - 1 - 52) := zpow_pos two_pos _
  -- The rounding carried out of the 53 bits exactly where it came to the next power of two.
  have hcarry : (roundBits mantissa sticky (mantissa.size - 53)).1 / 2 ^ 53 ≠ 0 ↔ n = 2 ^ 53 := by
    rw [Ne, Nat.div_eq_zero_iff, not_or, Nat.not_lt]
    rcases Nat.lt_or_ge mantissa.size 53 with hsmall | hlarge
    · have hround : (roundBits mantissa sticky (mantissa.size - 53)).1 = mantissa := by
        unfold roundBits
        rw [if_pos (by omega)]
      have hbound : mantissa < 2 ^ 53 :=
        Nat.lt_of_lt_of_le (Nat.lt_size_self mantissa)
          (Nat.pow_le_pow_right (by norm_num) hsmall.le)
      rw [hround]
      constructor
      · intro hge
        omega
      · intro hn
        exfalso
        have hzero := size_full hfull hsmall.le
        rw [hround, max_eq_right (by omega), hn] at hproduct
        rw [hzero, add_zero, div_lt_iff₀ hunit, ← hproduct] at hupper
        exact absurd hupper (lt_irrefl _)
    · rw [max_eq_left (by omega)] at hproduct
      have hsame : (n : ℚ) = (roundBits mantissa sticky (mantissa.size - 53)).1 :=
        mul_right_cancel₀ hunit.ne' hproduct
      have hint : n = ((roundBits mantissa sticky (mantissa.size - 53)).1 : ℤ) := by
        exact_mod_cast hsame
      rw [hint] at hnupper ⊢
      constructor
      · rintro ⟨_, hge⟩
        exact le_antisymm hnupper (by exact_mod_cast hge)
      · intro heq
        exact ⟨by norm_num, by exact_mod_cast heq.ge⟩
  -- What was rounded to 53 bits, against the smallest normal.
  have hbelow : (n : ℚ) * 2 ^ (exponent + mantissa.size - 1 - 52) < 2 ^ (-1022 : ℤ) ↔
      exponent + mantissa.size - 1 + (if n = 2 ^ 53 then 1 else 0) < -1022 := by
    have hscaled : ∀ k : ℕ, ((2 ^ k : ℤ) : ℚ) * 2 ^ (exponent + mantissa.size - 1 - 52) =
        2 ^ ((k : ℤ) + (exponent + mantissa.size - 1 - 52)) := by
      intro k
      push_cast
      rw [← zpow_natCast, ← zpow_add₀ two_ne_zero]
    by_cases hn : n = 2 ^ 53
    · rw [if_pos hn, hn, hscaled, zpow_lt_zpow_iff_right₀ one_lt_two]
      push_cast
      constructor <;> intro hlt <;> omega
    · rw [if_neg hn]
      have hless : n < 2 ^ 53 := lt_of_le_of_ne hnupper hn
      constructor
      · intro hlt
        by_contra hge
        have hmul : ((2 ^ 52 : ℤ) : ℚ) * 2 ^ (exponent + mantissa.size - 1 - 52) ≤
            n * 2 ^ (exponent + mantissa.size - 1 - 52) :=
          mul_le_mul_of_nonneg_right (by exact_mod_cast hnlower) hunit.le
        rw [hscaled] at hmul
        have hle := hmul.trans hlt.le
        rw [zpow_le_zpow_iff_right₀ one_lt_two] at hle
        have heq : exponent + mantissa.size - 1 = -1022 := by
          push_cast at hle
          omega
        have hstrict := hmul.trans_lt hlt
        rw [zpow_lt_zpow_iff_right₀ one_lt_two] at hstrict
        push_cast at hstrict
        omega
      · intro hlt
        have hmul : (n : ℚ) * 2 ^ (exponent + mantissa.size - 1 - 52) <
            ((2 ^ 53 : ℤ) : ℚ) * 2 ^ (exponent + mantissa.size - 1 - 52) :=
          mul_lt_mul_of_pos_right (by exact_mod_cast hless) hunit
        rw [hscaled] at hmul
        refine hmul.trans_le ?_
        rw [zpow_le_zpow_iff_right₀ one_lt_two]
        push_cast
        omega
  have htiny : Tiny ((mantissa + part) * 2 ^ exponent) ↔
      (n : ℚ) * 2 ^ (exponent + mantissa.size - 1 - 52) < 2 ^ (-1022 : ℤ) := by
    unfold Tiny
    rw [hlog]
    constructor
    · rintro ⟨other, hother, hlt⟩
      rwa [hother.unique hnear] at hlt
    · exact fun hlt => ⟨n, hnear, hlt⟩
  rw [htiny, hbelow]
  by_cases hn : n = 2 ^ 53
  · rw [if_pos hn, if_pos (hcarry.mpr hn)]
  · rw [if_neg hn, if_neg fun hne => hn (hcarry.mp hne)]

/-- Zero is zero, and in range. -/
theorem rounds_zero (exponent : ℤ) :
    CorrectlyRounded (((0 : ℕ) + 0) * 2 ^ exponent) (roundToDouble 0 sticky exponent).1
      (roundToDouble 0 sticky exponent).2 := by
  have hzero : (((0 : ℕ) : ℚ) + 0) * 2 ^ exponent = 0 := by rw [Nat.cast_zero, add_zero, zero_mul]
  have hround : roundToDouble 0 sticky exponent = (.finite 0 0, false) := by
    unfold roundToDouble
    rw [if_pos rfl]
  rw [hround, hzero]
  refine ⟨0, ⟨0, ?_, ?_⟩, ⟨by norm_num, ?_⟩, ?_⟩
  · rw [zero_div]
    exact IsNearestEven.intCast 0
  · rw [Int.cast_zero, zero_mul]
  · rw [Nat.cast_zero, zero_mul]
  · constructor
    · intro hrange
      cases hrange
    · rintro (hinfinite | ⟨_, hne⟩)
      · cases hinfinite
      · exact absurd rfl hne

/-- **`round_to_double` rounds once, correctly.** -/
theorem roundToDouble_rounds (h : Part part sticky) (hmantissa : mantissa < 2 ^ 128)
    (hfull : part ≠ 0 → 2 ^ 124 ≤ mantissa) (exponent : ℤ) :
    CorrectlyRounded ((mantissa + part) * 2 ^ exponent) (roundToDouble mantissa sticky exponent).1
      (roundToDouble mantissa sticky exponent).2 := by
  by_cases hpos : mantissa = 0
  · have hzero : part = 0 := by
      by_contra hne
      have hlarge := hfull hne
      omega
    rw [hpos, hzero]
    exact rounds_zero exponent
  have hlog := log_value h hpos exponent
  have hone : (1 : ℚ) ≤ mantissa := by exact_mod_cast Nat.one_le_iff_ne_zero.mpr hpos
  have hvalue : 0 < ((mantissa : ℚ) + part) * 2 ^ exponent :=
    mul_pos (by linarith [h.nonneg]) (zpow_pos two_pos exponent)
  obtain ⟨n, hnear, hproduct, hexact⟩ := rounded_at h hmantissa hpos exponent
    (max (exponent + mantissa.size - 1) (-1022) - 52) fun hle => size_full hfull (by omega)
  have hunit : unit (((mantissa : ℚ) + part) * 2 ^ exponent) =
      2 ^ (max (exponent + mantissa.size - 1) (-1022) - 52) := by
    unfold unit
    rw [hlog]
  have hrounds : RoundsTo (((mantissa : ℚ) + part) * 2 ^ exponent)
      (n * 2 ^ (max (exponent + (mantissa.size : ℤ) - 1) (-1022) - 52)) :=
    ⟨n, by rw [hunit]; exact hnear, by rw [hunit]⟩
  refine ⟨_, hrounds, ?_⟩
  unfold roundToDouble
  rw [if_neg hpos]
  dsimp only
  by_cases hhuge : 1023 < exponent + (mantissa.size : ℤ) - 1
  · -- The value itself is past the largest double.
    rw [if_pos hhuge]
    refine ⟨?_, fun _ => .inl rfl, fun _ => rfl⟩
    have hmax : max (exponent + (mantissa.size : ℤ) - 1) (-1022) = exponent + mantissa.size - 1 :=
      max_eq_left (by omega)
    obtain ⟨hlower, _⟩ := full_bounds hvalue
    rw [hlog] at hlower
    rw [hmax] at hnear ⊢
    have hnlower : ((2 ^ 52 : ℤ) : ℚ) ≤ n := by exact_mod_cast hnear.le_of_le hlower
    have hscaled : ((2 ^ 52 : ℤ) : ℚ) * 2 ^ (exponent + (mantissa.size : ℤ) - 1 - 52) =
        2 ^ (exponent + (mantissa.size : ℤ) - 1) := by
      rw [Int.cast_pow, Int.cast_ofNat, ← zpow_natCast, ← zpow_add₀ two_ne_zero]
      congr 1
      push_cast
      ring
    have hmul := mul_le_mul_of_nonneg_right hnlower
      (zpow_pos (two_pos : (0 : ℚ) < 2) (exponent + mantissa.size - 1 - 52)).le
    rw [hscaled] at hmul
    show (2 : ℚ) ^ 1024 ≤ _
    refine le_trans ?_ hmul
    rw [← zpow_natCast, zpow_le_zpow_iff_right₀ one_lt_two]
    push_cast
    omega
  · rw [if_neg hhuge, ← hproduct]
    by_cases hinfinite : (2 : ℚ) ^ 1024 ≤
        n * 2 ^ (max (exponent + (mantissa.size : ℤ) - 1) (-1022) - 52)
    · rw [if_pos hinfinite]
      exact ⟨hinfinite, fun _ => .inl rfl, fun _ => rfl⟩
    · rw [if_neg hinfinite]
      refine ⟨⟨not_le.mp hinfinite, hproduct.symm⟩, ?_⟩
      dsimp only
      rw [Bool.and_eq_true, decide_eq_true_iff, ← tiny_iff h hmantissa hpos hfull exponent,
        Bool.not_eq_true', Bool.eq_false_iff, Ne, hexact]
      constructor
      · exact fun hand => .inr hand
      · rintro (hmagnitude | hand)
        · cases hmagnitude
        · exact hand

end

end Nsh.Printf
