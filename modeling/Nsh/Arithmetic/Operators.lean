import Nsh.Arithmetic.Expression
import Mathlib.Algebra.Ring.Parity

/-!
# The operators and their values

Each operator of the evaluator computes the value of the tree it stands in: the
wrapping machine operations are the operations on integers, wrapped.  `**`
saturates and clamps its exponent, so it is the power only where that fits and
where a base of minus one is not raised to an exponent past 32 bits.
-/

namespace Nsh.Arithmetic

variable {W : Type}

/-- Answer with a value, or complain of the fault. -/
def answerWith (p : Setting W) (result : Except Fault Int64) : Walk W Int64 :=
  match result with
  | .ok v => pure v
  | .error fault => complain p fault.complaint

theorem wrap_eq {x : Int} {v : Int64} (h : v.toInt = x.bmod (2 ^ 64)) : wrap x = v :=
  (Int64.ofInt_eq_iff_bmod_eq_toInt x v).mpr h.symm

theorem places_lt (count : Int64) : places count < 64 := by
  unfold places
  omega

theorem shiftCount_eq (count : Int64) : shiftCount count = Int64.ofNat (places count) := by
  have hmod : (count.toInt % 2 ^ 32).toNat % 64 = places count := by
    unfold places
    omega
  unfold shiftCount
  rw [hmod]

theorem toNat_smod_places (count : Int64) :
    ((Int64.ofNat (places count)).toBitVec.smod 64).toNat = places count := by
  have hlt := places_lt count
  generalize places count = n at hlt ⊢
  interval_cases n <;> decide

theorem shiftLeft_eq (left right : Int64) :
    left <<< shiftCount right = wrap (left.toInt * 2 ^ places right) := by
  have hpow :
      Int64.ofInt (2 ^ places right) = Int64.ofBitVec (BitVec.twoPow 64 (places right)) := by
    apply Int64.toBitVec.inj
    have hcast : ((2 : Int) ^ places right) = ((2 ^ places right : Nat) : Int) := by norm_cast
    apply BitVec.eq_of_toNat_eq
    rw [hcast, Int64.toBitVec_ofInt, BitVec.ofInt_natCast, BitVec.toNat_ofNat,
      Int64.toBitVec_ofBitVec, BitVec.toNat_twoPow]
  apply Int64.toBitVec.inj
  unfold wrap
  rw [Int64.ofInt_mul, Int64.ofInt_toInt, hpow, Int64.toBitVec_mul, shiftCount_eq,
    Int64.toBitVec_shiftLeft, BitVec.shiftLeft_eq', toNat_smod_places,
    BitVec.shiftLeft_eq_mul_twoPow, Int64.toBitVec_ofBitVec]

theorem shiftRight_eq (left right : Int64) :
    left >>> shiftCount right = wrap (left.toInt / 2 ^ places right) := by
  have hvalue : (left >>> shiftCount right).toInt = left.toInt / 2 ^ places right := by
    rw [shiftCount_eq, ← Int64.toInt_toBitVec, Int64.toBitVec_shiftRight, BitVec.sshiftRight',
      toNat_smod_places, BitVec.toInt_sshiftRight, Int.shiftRight_eq_div_pow, Int64.toInt_toBitVec]
    norm_cast
  rw [← hvalue]
  exact (Int64.ofInt_toInt _).symm

theorem flag_congr {P Q : Prop} [Decidable P] [Decidable Q] (h : P ↔ Q) :
    flag (decide P) = flag (decide Q) := by
  rw [decide_eq_decide.mpr h]

theorem quotient_eq (p : Setting W) (left right : Int64) {x : Int} {v : Int64}
    (h : v.toInt = x.bmod (2 ^ 64)) :
    (if right = 0 ∨ (left = Int64.minValue ∧ right = -1) then complain p .divisionError
      else pure v : Walk W Int64) = answerWith p (quotient left right x) := by
  have hcond : (right = 0 ∨ (left = Int64.minValue ∧ right = -1)) ↔
      (right.toInt = 0 ∨ (left.toInt = -2 ^ 63 ∧ right.toInt = -1)) := by
    rw [← Int64.toInt_inj, ← Int64.toInt_inj, ← Int64.toInt_inj]
    rfl
  unfold quotient
  by_cases hfault : right = 0 ∨ (left = Int64.minValue ∧ right = -1)
  · rw [if_pos hfault, if_pos (hcond.mp hfault)]
    rfl
  · rw [if_neg hfault, if_neg fun h => hfault (hcond.mpr h), wrap_eq h]
    rfl

/-- An operator computes its value, or complains of a division. -/
theorem apply_eq (p : Setting W) (op : CBinary) (left right : Int64) :
    apply p op.val left right = answerWith p (op.value left right) := by
  obtain ⟨op, hop⟩ := op
  cases op with
  | power => exact absurd rfl hop
  | multiply => exact congrArg pure (wrap_eq (Int64.toInt_mul left right)).symm
  | add => exact congrArg pure (wrap_eq (Int64.toInt_add left right)).symm
  | subtract => exact congrArg pure (wrap_eq (Int64.toInt_sub left right)).symm
  | shiftLeft => exact congrArg pure (shiftLeft_eq left right)
  | shiftRight => exact congrArg pure (shiftRight_eq left right)
  | less => exact congrArg pure (flag_congr Int64.lt_iff_toInt_lt)
  | lessEqual => exact congrArg pure (flag_congr Int64.le_iff_toInt_le)
  | greater => exact congrArg pure (flag_congr Int64.lt_iff_toInt_lt)
  | greaterEqual => exact congrArg pure (flag_congr Int64.le_iff_toInt_le)
  | equal =>
    refine congrArg pure (?_ : flag (left == right) = flag (decide (left.toInt = right.toInt)))
    rw [← flag_congr (P := left = right) Int64.toInt_inj.symm]
    rfl
  | notEqual =>
    refine congrArg pure (?_ : flag (left != right) = flag (decide (left.toInt ≠ right.toInt)))
    rw [← flag_congr (P := left ≠ right) (not_congr Int64.toInt_inj.symm)]
    rw [decide_not]; rfl
  | bitAnd => rfl
  | bitXor => rfl
  | bitOr => rfl
  | divide => exact quotient_eq p left right (Int64.toInt_div left right)
  | remainder =>
    exact quotient_eq p left right (by rw [← Int64.toInt_mod]; exact (Int64.toInt_bmod _).symm)

/-- The function a prefix operator applies. -/
def Sign.apply : Sign → Int64 → Int64
  | .plus, v => v
  | .minus, v => -v
  | .complement, v => ~~~v
  | .not, v => flag (v == 0)

theorem Sign.apply_eq (op : Sign) (v : Int64) : op.apply v = op.value v := by
  cases op with
  | plus => rfl
  | minus => exact (wrap_eq (Int64.toInt_neg v)).symm
  | complement => exact (wrap_eq (Int64.toInt_not v)).symm
  | not =>
    have hzero : v = 0 ↔ v.toInt = 0 := Int64.toInt_inj.symm
    exact flag_congr hzero

/-! ### `**` -/

/-- A power that is an integer of 64 bits. -/
structure PowerFits (base exponent : Int64) : Prop where
  nonneg : 0 ≤ exponent.toInt
  ge : -2 ^ 63 ≤ base.toInt ^ exponent.toInt.toNat
  lt : base.toInt ^ exponent.toInt.toNat < 2 ^ 63

/-- A power that fits, and whose base is not minus one under an exponent past 32
    bits. -/
structure PowerComputed (base exponent : Int64) : Prop extends PowerFits base exponent where
  parity : base.toInt = -1 → exponent.toInt < 2 ^ 32

theorem saturate_eq_wrap {x : Int} (hge : -2 ^ 63 ≤ x) (hlt : x < 2 ^ 63) :
    saturate x = wrap x := by
  unfold saturate wrap
  rw [min_eq_left (by omega), max_eq_right hge]

/-- Only zero, one and minus one have powers that fit past 32 bits. -/
theorem base_of_large {b : Int} {n : Nat} (hn : 2 ^ 32 ≤ n) (hge : -2 ^ 63 ≤ b ^ n)
    (hlt : b ^ n < 2 ^ 63) : b = 0 ∨ b = 1 ∨ b = -1 := by
  have hsmall : b.natAbs < 2 := by
    by_contra hbig
    have hpow : 2 ^ 64 ≤ b.natAbs ^ n := calc
      2 ^ 64 ≤ 2 ^ n := Nat.pow_le_pow_right (by decide) (by omega)
      _ ≤ b.natAbs ^ n := Nat.pow_le_pow_left (by omega) n
    rw [← Int.natAbs_pow] at hpow
    omega
  omega

theorem saturatingPower_eq {base exponent : Int64} (h : PowerComputed base exponent) :
    saturatingPower base exponent = wrap (base.toInt ^ exponent.toInt.toNat) := by
  have hnonneg := h.nonneg
  rw [← saturate_eq_wrap h.ge h.lt]
  unfold saturatingPower
  by_cases hlarge : exponent.toInt < 2 ^ 32
  · rw [min_eq_left (by omega)]
  · have hmin : (min exponent.toInt (2 ^ 32 - 1)).toNat = 2 ^ 32 - 1 := by
      rw [min_eq_right (by omega)]
      rfl
    rw [hmin]
    rcases base_of_large (by omega) h.ge h.lt with hbase | hbase | hbase
    · rw [hbase, zero_pow (by decide), zero_pow (by omega)]
    · rw [hbase, one_pow, one_pow]
    · exact absurd (h.parity hbase) hlarge

/-- Past 32 bits the clamped exponent is odd, so an even power of minus one is
    minus one. -/
theorem saturatingPower_minus_one {exponent : Int64} (h : 2 ^ 32 ≤ exponent.toInt) :
    saturatingPower (-1) exponent = -1 := by
  have hmin : (min exponent.toInt (2 ^ 32 - 1)).toNat = 2 ^ 32 - 1 := by
    rw [min_eq_right (by omega)]
    rfl
  have hodd : Odd (2 ^ 32 - 1) := by decide
  have hbase : (-1 : Int64).toInt = -1 := by decide
  unfold saturatingPower
  rw [hmin, hbase, hodd.neg_one_pow]
  decide

/-- A power that fits is computed. -/
theorem apply_power (p : Setting W) {base exponent : Int64} (h : PowerComputed base exponent) :
    apply p .power base exponent = pure (wrap (base.toInt ^ exponent.toInt.toNat)) := by
  have hnonneg : ¬ exponent < 0 := by
    rw [Int64.lt_iff_toInt_lt]
    exact not_lt.mpr h.nonneg
  simp only [apply]
  rw [if_neg hnonneg, saturatingPower_eq h]

end Nsh.Arithmetic
