import Mathlib.Algebra.BigOperators.Group.Finset.Basic
import Mathlib.Algebra.Order.Ring.GeomSum
import Mathlib.Algebra.Ring.GeomSum
import Mathlib.Data.Int.ModEq
import Mathlib.Data.Nat.Factorization.Basic
import Mathlib.NumberTheory.Multiplicity
import Mathlib.RingTheory.Int.Basic
import Nsh.Arithmetic.Operators
import Nsh.Arithmetic.Termination

/-!
# Powers and products

`**` beside the product it stands for, which the evaluator's own multiplication
wraps.  They agree where the power fits, as long as the clamped exponent keeps its
parity, and where the power that does not fit happens to wrap to the end of the
range it saturates at.
-/

namespace Nsh.Arithmetic

variable {W : Type}

/-! ### Products -/

/-- The product of so many copies of a base, each multiplied by the evaluator. -/
def product (p : Setting W) (base : Int64) : ℕ → Walk W Int64
  | 0 => pure 1
  | n + 1 => do
    let value ← product p base n
    apply p .multiply value base

theorem wrap_mul (x : Int) (v : Int64) : wrap x * v = wrap (x * v.toInt) := by
  unfold wrap
  rw [Int64.ofInt_mul, Int64.ofInt_toInt]

theorem product_eq (p : Setting W) (base : Int64) (n : ℕ) (s : Parser W) :
    product p base n s = .done (wrap (base.toInt ^ n)) s := by
  induction n with
  | zero =>
    rw [pow_zero]
    rfl
  | succ n ih =>
    calc product p base (n + 1) s
      _ = apply p .multiply (wrap (base.toInt ^ n)) base s := Run.bind_done ih _
      _ = .done (wrap (base.toInt ^ n) * base) s := rfl
      _ = .done (wrap (base.toInt ^ (n + 1))) s := by rw [wrap_mul, pow_succ]

/-! ### What wraps to the ends of the range -/

theorem wrap_eq_iff {x : Int} {v : Int64} : wrap x = v ↔ x ≡ v.toInt [ZMOD 2 ^ 64] := by
  rw [Int.modEq_iff_dvd]
  constructor
  · rintro rfl
    unfold wrap
    rw [Int64.toInt_ofInt]
    exact Int.dvd_bmod_sub_self
  · intro h
    have hge : -2 ^ 63 ≤ v.toInt := Int64.le_toInt v
    have hlt : v.toInt < 2 ^ 63 := Int64.toInt_lt v
    refine wrap_eq ((Int.bmod_eq_iff (by decide)).2 ⟨hge, hlt, ?_⟩).symm
    exact_mod_cast h

/-- A sum of odd numbers is odd where their number is. -/
theorem odd_sum_range {f : ℕ → Int} (h : ∀ i, Odd (f i)) (n : ℕ) :
    Odd (∑ i ∈ Finset.range n, f i) ↔ Odd n := by
  induction n with
  | zero => simp
  | succ n ih =>
    rw [Finset.sum_range_succ, Int.odd_add, ih, Nat.odd_add_one, ← Int.not_odd_iff_even]
    simp [h n]

/-- Odd powers tell odd numbers apart, modulo a power of two. -/
theorem modEq_of_pow {a b : Int} {n k : ℕ} (ha : Odd a) (hb : Odd b) (hn : Odd n)
    (h : a ^ n ≡ b ^ n [ZMOD 2 ^ k]) : a ≡ b [ZMOD 2 ^ k] := by
  have hsum : Odd (∑ i ∈ Finset.range n, a ^ i * b ^ (n - 1 - i)) :=
    (odd_sum_range (fun _ => ha.pow.mul hb.pow) n).2 hn
  have hcoprime : IsCoprime ((2 : Int) ^ k) (∑ i ∈ Finset.range n, a ^ i * b ^ (n - 1 - i)) :=
    (Int.isCoprime_two_left.2 hsum).pow_left
  rw [Int.modEq_iff_dvd] at h ⊢
  rw [← neg_sub, dvd_neg] at h ⊢
  rw [← (Commute.all a b).geom_sum₂_mul n] at h
  exact hcoprime.dvd_of_dvd_mul_left h

theorem toInt_maxValue : Int64.maxValue.toInt = 2 ^ 63 - 1 := rfl

theorem toInt_minValue : Int64.minValue.toInt = -2 ^ 63 := rfl

theorem toInt_mem (v : Int64) : -2 ^ 63 ≤ v.toInt ∧ v.toInt < 2 ^ 63 :=
  ⟨Int64.le_toInt v, Int64.toInt_lt v⟩

/-- The largest number is its own inverse. -/
theorem odd_pow_maxValue {n : ℕ} (hn : Odd n) :
    (2 ^ 63 - 1 : Int) ^ n ≡ 2 ^ 63 - 1 [ZMOD 2 ^ 64] := by
  obtain ⟨k, rfl⟩ := hn
  have hsq : (2 ^ 63 - 1 : Int) ^ 2 ≡ 1 [ZMOD 2 ^ 64] := by decide
  have hpow := (hsq.pow k).mul_right (2 ^ 63 - 1)
  rwa [one_pow, one_mul, ← pow_mul, ← pow_succ] at hpow

/-- Only odd powers of the largest number wrap to it. -/
theorem wrap_pow_maxValue {base : Int64} {n : ℕ} :
    wrap (base.toInt ^ n) = Int64.maxValue ↔ base = Int64.maxValue ∧ Odd n := by
  rw [wrap_eq_iff, toInt_maxValue]
  constructor
  · intro h
    have hfour : base.toInt ^ n % 4 = 3 := by
      have hmod : base.toInt ^ n ≡ 2 ^ 63 - 1 [ZMOD 4] := h.of_dvd (by decide)
      exact hmod
    have hodd : Odd (base.toInt ^ n) := Int.odd_iff.2 (by omega)
    have hn : Odd n := by
      rw [← Nat.not_even_iff_odd]
      rintro ⟨k, rfl⟩
      rw [← two_mul, pow_mul'] at hfour hodd
      have hsq := Int.sq_mod_four_eq_one_of_odd ((Int.odd_pow' two_ne_zero).1 hodd)
      omega
    have hbase : Odd base.toInt := (Int.odd_pow' (Nat.pos_of_ne_zero fun h0 => by
      subst h0
      exact absurd hn (by decide)).ne').1 hodd
    have hmod : base.toInt ≡ 2 ^ 63 - 1 [ZMOD 2 ^ 64] :=
      modEq_of_pow hbase (by decide) hn (h.trans (odd_pow_maxValue hn).symm)
    obtain ⟨hge, hlt⟩ := toInt_mem base
    refine ⟨Int64.toInt_inj.1 ?_, hn⟩
    rw [Int.modEq_iff_dvd] at hmod
    rw [toInt_maxValue]
    omega
  · rintro ⟨rfl, hn⟩
    exact odd_pow_maxValue hn

/-- The powers that wrap to the least number. -/
theorem wrap_pow_minValue {base : Int64} {n : ℕ} :
    wrap (base.toInt ^ n) = Int64.minValue ↔
      ∃ k m, base.toInt.natAbs = 2 ^ k * m ∧ Odd m ∧ k * n = 63 := by
  rw [wrap_eq_iff, toInt_minValue]
  have habs : base.toInt ^ n ≡ -2 ^ 63 [ZMOD 2 ^ 64] ↔ base.toInt.natAbs ^ n % 2 ^ 64 = 2 ^ 63 := by
    rw [Int.modEq_iff_dvd, ← Int.natAbs_pow]
    omega
  rw [habs]
  have hpow : ∀ k m : ℕ, Odd m → ((2 ^ k * m) ^ n % 2 ^ 64 = 2 ^ 63 ↔ k * n = 63) := by
    intro k m hm
    obtain ⟨j, hj⟩ : Odd (m ^ n) := hm.pow
    rw [mul_pow, ← pow_mul, hj]
    constructor
    · intro h
      by_contra hne
      rcases Nat.lt_or_gt_of_ne hne with hlt | hgt
      · have hdvd : 2 ^ (k * n + 1) ∣ 2 ^ (k * n) * (2 * j + 1) := by
          have hmod : 2 ^ (k * n) * (2 * j + 1) = 2 ^ 64 * (2 ^ (k * n) * (2 * j + 1) / 2 ^ 64) +
              2 ^ 63 := by
            rw [← h]
            exact (Nat.div_add_mod _ _).symm
          rw [hmod]
          exact ((pow_dvd_pow 2 (by omega)).mul_right _).add (pow_dvd_pow 2 (by omega))
        rw [pow_succ, Nat.mul_dvd_mul_iff_left (by positivity)] at hdvd
        omega
      · have hdvd : 2 ^ 64 ∣ 2 ^ (k * n) * (2 * j + 1) := (pow_dvd_pow 2 (by omega)).mul_right _
        rw [Nat.mod_eq_zero_of_dvd hdvd] at h
        exact absurd h (by decide)
    · intro h
      rw [h]
      omega
  constructor
  · intro h
    have hne : base.toInt.natAbs ≠ 0 := by
      intro h0
      rw [h0] at h
      cases n with
      | zero => exact absurd h (by decide)
      | succ n =>
        rw [zero_pow (Nat.succ_ne_zero n)] at h
        exact absurd h (by decide)
    obtain ⟨k, m, hm, hkm⟩ := Nat.exists_eq_two_pow_mul_odd hne
    rw [hkm] at h
    exact ⟨k, m, hkm, hm, (hpow k m hm).1 h⟩
  · rintro ⟨k, m, hkm, hm, hkn⟩
    rw [hkm]
    exact (hpow k m hm).2 hkn

/-! ### Where the power is the product -/

/-- Where the power of a base is the product of its copies: it fits, and is not an
    even power of minus one past 32 bits; or it does not fit, and wraps to the end
    of the range that its magnitude is past. -/
inductive PowerWraps (base exponent : Int64) : Prop
  | fits (h : PowerFits base exponent)
      (hparity : ¬(base.toInt = -1 ∧ 2 ^ 32 ≤ exponent.toInt ∧ Even exponent.toInt))
  | up (hbase : base = Int64.maxValue) (hodd : Odd exponent.toInt)
  | down (hneg : base.toInt < 0) (k m : ℕ) (hbase : base.toInt.natAbs = 2 ^ k * m) (hm : Odd m)
      (hk : k * exponent.toInt.toNat = 63)

/-- The exponent that is used. -/
def clamped (exponent : Int64) : ℕ := (min exponent.toInt (2 ^ 32 - 1)).toNat

theorem clamped_cases {exponent : Int64} (h : 0 ≤ exponent.toInt) :
    clamped exponent = exponent.toInt.toNat ∨
      (2 ^ 32 ≤ exponent.toInt ∧ clamped exponent = 2 ^ 32 - 1) := by
  unfold clamped
  omega

/-- A power that does not fit does not with the clamped exponent either. -/
theorem clamped_overflows {base exponent : Int64} (h : 0 ≤ exponent.toInt)
    (hfits : ¬PowerFits base exponent) :
    base.toInt ^ clamped exponent < -2 ^ 63 ∨ 2 ^ 63 ≤ base.toInt ^ clamped exponent := by
  have hsmall : ¬(-2 ^ 63 ≤ base.toInt ^ exponent.toInt.toNat ∧
      base.toInt ^ exponent.toInt.toNat < 2 ^ 63) := fun hrange =>
    hfits ⟨h, hrange.1, hrange.2⟩
  rcases clamped_cases h with heq | ⟨hlarge, hclamped⟩
  · rw [heq]
    omega
  · rw [hclamped]
    have hbase : 2 ≤ base.toInt.natAbs := by
      by_contra hlt
      have hcases : base.toInt = 0 ∨ base.toInt = 1 ∨ base.toInt = -1 := by omega
      apply hsmall
      rcases hcases with hb | hb | hb
      · rw [hb, zero_pow (by omega)]
        decide
      · rw [hb, one_pow]
        decide
      · rw [hb]
        rcases neg_one_pow_eq_or Int exponent.toInt.toNat with hpow | hpow <;> rw [hpow] <;> decide
    have hpow : 2 ^ 64 ≤ (base.toInt ^ (2 ^ 32 - 1)).natAbs := by
      rw [Int.natAbs_pow]
      calc 2 ^ 64
        _ ≤ 2 ^ (2 ^ 32 - 1) := Nat.pow_le_pow_right (by decide) (by decide)
        _ ≤ base.toInt.natAbs ^ (2 ^ 32 - 1) := Nat.pow_le_pow_left hbase _
    omega

theorem saturate_of_le {x : Int} (h : 2 ^ 63 - 1 ≤ x) : saturate x = Int64.maxValue := by
  unfold saturate
  rw [min_eq_right h, max_eq_right (by decide)]
  rfl

theorem saturate_of_ge {x : Int} (h : x ≤ -2 ^ 63) : saturate x = Int64.minValue := by
  unfold saturate
  rw [min_eq_left (by omega), max_eq_left h]
  rfl

theorem odd_toNat {x : Int} (h : 0 ≤ x) : Odd x.toNat ↔ Odd x := by
  rw [← Int.odd_coe_nat, Int.toNat_of_nonneg h]

theorem PowerWraps.of_eq {base exponent : Int64} (h : 0 ≤ exponent.toInt)
    (heq : saturatingPower base exponent = wrap (base.toInt ^ exponent.toInt.toNat)) :
    PowerWraps base exponent := by
  by_cases hfits : PowerFits base exponent
  · refine .fits hfits ?_
    rintro ⟨hbase, hlarge, heven⟩
    have hone : base = -1 := Int64.toInt_inj.1 hbase
    have hpow : base.toInt ^ exponent.toInt.toNat = 1 := by
      rw [hbase]
      refine Even.neg_one_pow ?_
      rwa [← Nat.not_odd_iff_even, odd_toNat h, Int.not_odd_iff_even]
    rw [hpow, hone, saturatingPower_minus_one hlarge] at heq
    exact absurd heq (by decide)
  · rcases clamped_overflows h hfits with hlt | hge
    · have hmin : saturatingPower base exponent = Int64.minValue := saturate_of_ge hlt.le
      rw [hmin] at heq
      obtain ⟨k, m, hbase, hm, hk⟩ := wrap_pow_minValue.1 heq.symm
      refine .down ?_ k m hbase hm hk
      by_contra hneg
      have hpos : 0 ≤ base.toInt ^ clamped exponent := pow_nonneg (not_lt.1 hneg) _
      omega
    · have hmax : saturatingPower base exponent = Int64.maxValue := saturate_of_le (by
        show 2 ^ 63 - 1 ≤ base.toInt ^ clamped exponent
        omega)
      rw [hmax] at heq
      obtain ⟨hbase, hodd⟩ := wrap_pow_maxValue.1 heq.symm
      exact .up hbase ((odd_toNat h).1 hodd)

theorem PowerWraps.eq {base exponent : Int64} (h : 0 ≤ exponent.toInt)
    (hwraps : PowerWraps base exponent) :
    saturatingPower base exponent = wrap (base.toInt ^ exponent.toInt.toNat) := by
  cases hwraps with
  | fits hfits hparity =>
    by_cases hone : base.toInt = -1 → exponent.toInt < 2 ^ 32
    · exact saturatingPower_eq ⟨hfits, hone⟩
    · obtain ⟨hbase, hlarge⟩ := Classical.not_imp.1 hone
      have hodd : Odd exponent.toInt := by
        rw [← Int.not_even_iff_odd]
        exact fun heven => hparity ⟨hbase, not_lt.1 hlarge, heven⟩
      have hmin : base = -1 := Int64.toInt_inj.1 hbase
      rw [hbase, ((odd_toNat h).2 hodd).neg_one_pow, hmin,
        saturatingPower_minus_one (not_lt.1 hlarge)]
      rfl
  | up hbase hodd =>
    have hn := (odd_toNat h).2 hodd
    rw [wrap_pow_maxValue.2 ⟨hbase, hn⟩, hbase]
    refine saturate_of_le ?_
    have hpos : clamped exponent ≠ 0 := by
      rcases clamped_cases h with heq | ⟨_, heq⟩ <;> rw [heq]
      · exact hn.pos.ne'
      · decide
    exact le_self_pow₀ (by decide) hpos
  | down hneg k m hbase hm hk =>
    rw [wrap_pow_minValue.2 ⟨k, m, hbase, hm, hk⟩]
    refine saturate_of_ge ?_
    have hsmall : exponent.toInt.toNat ≤ 63 := Nat.le_of_dvd (by decide) ⟨k, by rw [← hk, mul_comm]⟩
    have hclamped : (min exponent.toInt (2 ^ 32 - 1)).toNat = exponent.toInt.toNat := by omega
    have hodd : Odd exponent.toInt.toNat := Nat.Odd.of_mul_right (by rw [hk]; decide)
    have habs : base.toInt = -(base.toInt.natAbs : Int) := by omega
    have hle : 2 ^ 63 ≤ base.toInt.natAbs ^ exponent.toInt.toNat := by
      rw [hbase, mul_pow, ← pow_mul, hk]
      exact Nat.le_mul_of_pos_right _ (Nat.pow_pos hm.pos)
    rw [hclamped, habs, hodd.neg_pow]
    have hcast : (2 : Int) ^ 63 ≤ (base.toInt.natAbs : Int) ^ exponent.toInt.toNat := by
      exact_mod_cast hle
    omega

theorem apply_power_nonneg (p : Setting W) {base exponent : Int64} (h : 0 ≤ exponent.toInt)
    (s : Parser W) : apply p .power base exponent s = .done (saturatingPower base exponent) s := by
  have hnonneg : ¬exponent < 0 := by
    rw [Int64.lt_iff_toInt_lt]
    exact not_lt.2 h
  simp only [apply]
  rw [if_neg hnonneg]
  rfl

/-- **Power is iterated multiplication** exactly where it does not saturate to
    another number than the product wraps to. -/
theorem power_is_product (p : Setting W) (s : Parser W) {base exponent : Int64}
    (h : 0 ≤ exponent.toInt) :
    apply p .power base exponent s = product p base exponent.toInt.toNat s ↔
      PowerWraps base exponent := by
  rw [apply_power_nonneg p h, product_eq, Outcome.done.injEq]
  constructor
  · rintro ⟨heq, _⟩
    exact .of_eq h heq
  · intro hwraps
    exact ⟨hwraps.eq h, rfl⟩

/-- An evaluation that opens no others. -/
def soleSetting : Setting Unit :=
  setting Host.plain (fun _ => ⊥) (fun _ => ⊥) (freshShell .bash) []

/-- A power of minus twenty-four that wraps to the least number. -/
theorem power_is_product_down : ∃ s : Parser Unit,
    apply soleSetting .power (-24) 21 s = product soleSetting (-24) 21 s :=
  ⟨⟨freshShell .bash, []⟩, (power_is_product soleSetting _ (by decide)).2
    (.down (by decide) 3 3 (by decide) (by decide) (by decide))⟩

/-- The power of two that is past the range saturates, and the product wraps. -/
theorem not_power_is_product : ∃ s : Parser Unit,
    apply soleSetting .power 2 63 s = .done Int64.maxValue s ∧
      product soleSetting 2 63 s = .done Int64.minValue s := by
  refine ⟨⟨freshShell .bash, []⟩, ?_, ?_⟩
  · rw [apply_power_nonneg soleSetting (by decide)]
    rfl
  · rw [product_eq]
    rfl

end Nsh.Arithmetic
