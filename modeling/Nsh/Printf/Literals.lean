import Nsh.Printf.Alike

/-!
# The scan of a hexadecimal literal

The loop keeps thirty-two digits behind the leading zeros and counts in the exponent
what the others were worth.  The exponent is an `i32`, which a literal of enough digits
leaves.
-/

namespace Nsh.Printf

/-! ### The digits kept -/

/-- How many digits are left behind the leading zeros. -/
def significant (digits : List ℕ) : ℕ := (digits.dropWhile (· = 0)).length

/-- How many of them the mantissa has no room for. -/
def dropped (digits : List ℕ) : ℕ := significant digits - 32

theorem significant_concat (digits : List ℕ) (digit : ℕ) :
    significant (digits ++ [digit]) =
      if significant digits = 0 ∧ digit = 0 then 0 else significant digits + 1 := by
  unfold significant
  rw [List.dropWhile_append]
  cases hkept : digits.dropWhile (· = 0) with
  | nil =>
    by_cases hzero : digit = 0
    · simp [hzero]
    · simp [hzero]
  | cons first rest => simp

theorem digitsValue_concat (base : ℕ) (digits : List ℕ) (digit : ℕ) :
    digitsValue base (digits ++ [digit]) = base * digitsValue base digits + digit := by
  unfold digitsValue
  rw [List.foldl_concat]

/-- What the loop holds after these digits, so many of them behind the point. -/
structure Laid (digits : List ℕ) (places : ℕ) (d : Digits) : Prop where
  below : d.mantissa < 16 ^ min (significant digits) 32
  leading : 0 < significant digits → 16 ^ (min (significant digits) 32 - 1) ≤ d.mantissa
  value : ∃ low, digitsValue 16 digits = d.mantissa * 16 ^ dropped digits + low ∧
    low < 16 ^ dropped digits ∧ (d.sticky = true ↔ low ≠ 0)
  exponent : d.exponent = wrap (4 * (dropped digits - places))

theorem laid_nil : Laid [] 0 {} := by
  refine ⟨by decide, fun h => absurd h (by decide), ⟨0, by decide, by decide, by decide⟩, ?_⟩
  rfl

theorem wrap_add (a b : ℤ) : wrap (wrap a + b) = wrap (a + b) := Int.bmod_add_bmod

theorem wrap_sub (a b : ℤ) : wrap (wrap a - b) = wrap (a - b) := Int.bmod_sub_bmod

/-- The mantissa takes another digit exactly where fewer than thirty-two are kept. -/
theorem Laid.full_iff {digits : List ℕ} {places : ℕ} {d : Digits} (h : Laid digits places d) :
    d.mantissa < 2 ^ 124 ↔ significant digits < 32 := by
  have hpow : (2 : ℕ) ^ 124 = 16 ^ 31 := by norm_num
  rw [hpow]
  constructor
  · intro hlt
    by_contra hge
    have hleading := h.leading (by omega)
    rw [Nat.min_eq_right (by omega)] at hleading
    omega
  · intro hlt
    refine Nat.lt_of_lt_of_le h.below (Nat.pow_le_pow_right (by norm_num) ?_)
    omega

/-- A digit the mantissa has room for. -/
theorem Laid.push_kept {digits : List ℕ} {places : ℕ} {d : Digits} (h : Laid digits places d)
    {digit : ℕ} (hdigit : digit < 16) (hroom : d.mantissa < 2 ^ 124) :
    Laid (digits ++ [digit]) (places + if d.fraction then 1 else 0) (d.push digit) := by
  obtain ⟨low, hvalue, hlow, hsticky⟩ := h.value
  have hbelow := h.below
  have hleading := h.leading
  have hfew := h.full_iff.mp hroom
  have hpush : d.push digit = { d with
      mantissa := 16 * d.mantissa + digit
      exponent := wrap (d.exponent - if d.fraction then 4 else 0) } := by
    unfold Digits.push
    rw [if_pos hroom]
  have hmore := significant_concat digits digit
  have hnone : dropped digits = 0 := by
    unfold dropped
    omega
  have hnone' : dropped (digits ++ [digit]) = 0 := by
    unfold dropped
    split at hmore <;> omega
  rw [hnone] at hvalue hlow
  obtain rfl : low = 0 := by
    rw [pow_zero] at hlow
    omega
  rw [Nat.min_eq_left (by omega)] at hbelow hleading
  rw [hpush]
  refine ⟨?_, ?_, ⟨0, ?_, ?_, hsticky⟩, ?_⟩
  · show 16 * d.mantissa + digit < _
    by_cases hzero : significant digits = 0 ∧ digit = 0
    · rw [hzero.1, pow_zero] at hbelow
      rw [hmore, if_pos hzero, Nat.zero_min, pow_zero]
      omega
    · rw [hmore, if_neg hzero, Nat.min_eq_left (by omega), pow_succ]
      omega
  · intro hpos
    show _ ≤ 16 * d.mantissa + digit
    by_cases hzero : significant digits = 0 ∧ digit = 0
    · rw [hmore, if_pos hzero] at hpos
      exact absurd hpos (Nat.lt_irrefl 0)
    · rw [hmore, if_neg hzero, Nat.min_eq_left (by omega), Nat.add_sub_cancel]
      rcases Nat.eq_zero_or_pos (significant digits) with hfirst | hsome
      · have hne : digit ≠ 0 := fun heq => hzero ⟨hfirst, heq⟩
        rw [hfirst, pow_zero]
        omega
      · have hlead := hleading hsome
        obtain ⟨count, hcount⟩ := Nat.exists_eq_succ_of_ne_zero (Nat.ne_of_gt hsome)
        rw [hcount, Nat.succ_sub_one] at hlead
        rw [hcount, pow_succ]
        omega
  · rw [hnone', digitsValue_concat, hvalue]
    ring
  · rw [hnone']
    exact Nat.one_pos
  · show wrap (d.exponent - if d.fraction then 4 else 0) = _
    rw [h.exponent, wrap_sub, hnone, hnone']
    congr 1
    cases d.fraction with
    | true =>
      simp only [if_true]
      push_cast
      ring
    | false =>
      simp only [Bool.false_eq_true, if_false]
      push_cast
      ring

/-- A digit the mantissa has no room for. -/
theorem Laid.push_dropped {digits : List ℕ} {places : ℕ} {d : Digits} (h : Laid digits places d)
    {digit : ℕ} (hdigit : digit < 16) (hroom : ¬ d.mantissa < 2 ^ 124) :
    Laid (digits ++ [digit]) (places + if d.fraction then 1 else 0) (d.push digit) := by
  obtain ⟨low, hvalue, hlow, hsticky⟩ := h.value
  have hbelow := h.below
  have hleading := h.leading
  have hmany : 32 ≤ significant digits := Nat.not_lt.mp fun hlt => hroom (h.full_iff.mpr hlt)
  have hpush : d.push digit = { d with
      sticky := d.sticky || digit != 0
      exponent := wrap (d.exponent + if d.fraction then 0 else 4) } := by
    unfold Digits.push
    rw [if_neg hroom]
  have hmore : significant (digits ++ [digit]) = significant digits + 1 := by
    rw [significant_concat, if_neg fun hzero => by omega]
  have hone : dropped (digits ++ [digit]) = dropped digits + 1 := by
    unfold dropped
    omega
  rw [Nat.min_eq_right hmany] at hbelow hleading
  rw [hpush]
  refine ⟨?_, ?_, ⟨16 * low + digit, ?_, ?_, ?_⟩, ?_⟩
  · rwa [hmore, Nat.min_eq_right (by omega)]
  · intro _
    rw [hmore, Nat.min_eq_right (by omega)]
    exact hleading (by omega)
  · rw [digitsValue_concat, hvalue, hone, pow_succ]
    ring
  · rw [hone, pow_succ]
    omega
  · show (d.sticky || digit != 0) = true ↔ _
    rw [Bool.or_eq_true, hsticky, bne_iff_ne]
    omega
  · show wrap (d.exponent + if d.fraction then 0 else 4) = _
    rw [h.exponent, wrap_add, hone]
    congr 1
    cases d.fraction with
    | true =>
      simp only [if_true]
      push_cast
      ring
    | false =>
      simp only [Bool.false_eq_true, if_false]
      push_cast
      ring

/-- **A digit is laid** into the mantissa, or into the sticky bit. -/
theorem Laid.push {digits : List ℕ} {places : ℕ} {d : Digits} (h : Laid digits places d)
    {digit : ℕ} (hdigit : digit < 16) :
    Laid (digits ++ [digit]) (places + if d.fraction then 1 else 0) (d.push digit) := by
  by_cases hroom : d.mantissa < 2 ^ 124
  · exact h.push_kept hdigit hroom
  · exact h.push_dropped hdigit hroom

theorem fraction_push (d : Digits) (digit : ℕ) : (d.push digit).fraction = d.fraction := by
  unfold Digits.push
  split <;> rfl

/-- Digits laid one after the other. -/
theorem Laid.pushAll {digits : List ℕ} {places : ℕ} {d : Digits} (h : Laid digits places d)
    {more : List ℕ} (hmore : ∀ digit ∈ more, digit < 16) :
    Laid (digits ++ more) (places + if d.fraction then more.length else 0)
        (more.foldl Digits.push d) ∧
      (more.foldl Digits.push d).fraction = d.fraction := by
  induction more generalizing digits places d with
  | nil =>
    rw [List.append_nil, List.length_nil, ite_self, Nat.add_zero]
    exact ⟨h, rfl⟩
  | cons digit more ih =>
    obtain ⟨hlaid, hfraction⟩ := ih (h.push (hmore digit List.mem_cons_self))
      fun other hother => hmore other (List.mem_cons_of_mem digit hother)
    rw [fraction_push] at hlaid hfraction
    refine ⟨?_, hfraction⟩
    rw [List.append_assoc] at hlaid
    rw [show places + (if d.fraction then (digit :: more).length else 0) =
      places + (if d.fraction then 1 else 0) + (if d.fraction then more.length else 0) by
        split
        · rw [List.length_cons]
          omega
        · rfl]
    exact hlaid

/-! ### The scan and the literal -/

theorem hexDigit_lt {byte : UInt8} {digit : ℕ} (h : hexDigit byte = some digit) : digit < 16 := by
  unfold hexDigit at h
  have hnine : (chr '9').toNat = 57 := rfl
  have hf : (chr 'f').toNat = 102 := rfl
  have hF : (chr 'F').toNat = 70 := rfl
  split_ifs at h with hdigit hlower hupper
  · cases h
    have hle := UInt8.le_iff_toNat_le.mp hdigit.2
    omega
  · cases h
    have hle := UInt8.le_iff_toNat_le.mp hlower.2
    omega
  · cases h
    have hle := UInt8.le_iff_toNat_le.mp hupper.2
    omega

theorem hexPrefix_lt (bytes : Bytes) : ∀ digit ∈ (hexPrefix bytes).1, digit < 16 := by
  induction bytes with
  | nil => exact fun digit h => absurd h List.not_mem_nil
  | cons byte rest ih =>
    rw [hexPrefix]
    cases hbyte : hexDigit byte with
    | none => exact fun digit h => absurd h List.not_mem_nil
    | some first =>
      intro digit h
      rcases List.mem_cons.mp h with rfl | hrest
      · exact hexDigit_lt hbyte
      · exact ih digit hrest

/-- Behind the point the loop reads the digits in front. -/
theorem scanDigits_fraction (bytes : Bytes) (d : Digits) (h : d.fraction = true) :
    scanDigits bytes d = ((hexPrefix bytes).1.foldl Digits.push d, (hexPrefix bytes).2) := by
  induction bytes generalizing d with
  | nil => rfl
  | cons byte rest ih =>
    rw [scanDigits, hexPrefix, if_neg fun hand => by rw [h] at hand; cases hand.2]
    cases hexDigit byte with
    | none => rfl
    | some digit => exact ih (d.push digit) ((fraction_push d digit).trans h)

/-- Before it, those in front and what the point is followed by. -/
theorem scanDigits_integer (bytes : Bytes) (d : Digits) (h : d.fraction = false) :
    scanDigits bytes d =
      if (hexPrefix bytes).2.head? = some (chr '.') then
        scanDigits (hexPrefix bytes).2.tail
          { (hexPrefix bytes).1.foldl Digits.push d with fraction := true }
      else ((hexPrefix bytes).1.foldl Digits.push d, (hexPrefix bytes).2) := by
  induction bytes generalizing d with
  | nil => rfl
  | cons byte rest ih =>
    rw [scanDigits]
    by_cases hpoint : byte = chr '.'
    · subst hpoint
      rw [if_pos ⟨rfl, h⟩]
      rfl
    · rw [if_neg fun hand => hpoint hand.1]
      cases hbyte : hexDigit byte with
      | none =>
        have hfront : hexPrefix (byte :: rest) = ([], byte :: rest) := by rw [hexPrefix, hbyte]
        rw [hfront]
        exact (if_neg fun heq => hpoint (Option.some.inj heq)).symm
      | some digit =>
        have hfront : hexPrefix (byte :: rest) =
            (digit :: (hexPrefix rest).1, (hexPrefix rest).2) := by rw [hexPrefix, hbyte]
        rw [hfront]
        exact ih (d.push digit) ((fraction_push d digit).trans h)

/-- What the loop holds of the digits of a literal, and what it leaves. -/
theorem scanDigits_laid (bytes : Bytes) :
    Laid ((literalOf bytes).integer ++ (literalOf bytes).fraction)
        (literalOf bytes).fraction.length (scanDigits bytes {}).1 ∧
      powerOf (scanDigits bytes {}).2 = (literalOf bytes).power := by
  obtain ⟨hinteger, hfraction⟩ := laid_nil.pushAll (hexPrefix_lt bytes)
  rw [scanDigits_integer bytes {} rfl]
  unfold literalOf
  rcases hfront : hexPrefix bytes with ⟨integer, behind⟩
  rw [hfront] at hinteger hfraction
  dsimp only at hinteger ⊢
  by_cases hpoint : behind.head? = some (chr '.')
  · rw [if_pos hpoint, if_pos hpoint, scanDigits_fraction _ _ rfl]
    have hlt := hexPrefix_lt behind.tail
    rcases hafter : hexPrefix behind.tail with ⟨fraction, after⟩
    rw [hafter] at hlt
    -- Setting the flag changes nothing that is laid.
    have hset : Laid ([] ++ integer) 0
        { integer.foldl Digits.push {} with fraction := true } :=
      ⟨hinteger.below, hinteger.leading, hinteger.value, hinteger.exponent⟩
    obtain ⟨hlaid, _⟩ := hset.pushAll hlt
    rw [List.nil_append, if_pos rfl, Nat.zero_add] at hlaid
    exact ⟨hlaid, rfl⟩
  · rw [if_neg hpoint, if_neg hpoint]
    refine ⟨?_, rfl⟩
    rw [List.append_nil]
    exact hinteger

/-! ### The exponent -/

/-- A power as the scan reads it. -/
def clamp (power : ℤ) : ℤ := max (-(2 ^ 31 - 1)) (min (2 ^ 31 - 1) power)

theorem scanExponentDigits_eq (bytes : Bytes) (value : ℕ) :
    (scanExponentDigits (min (2 ^ 31 - 1) value) bytes).1 =
      min (2 ^ 31 - 1)
        (((decimalPrefix bytes).foldl (fun value digit => 10 * value + digit) value : ℕ) : ℤ) := by
  induction bytes generalizing value with
  | nil => rfl
  | cons byte rest ih =>
    rw [scanExponentDigits]
    by_cases hdigit : isAsciiDigit byte = true
    · have hfront : decimalPrefix (byte :: rest) = (byte.toNat - 48) :: decimalPrefix rest := by
        unfold decimalPrefix
        rw [List.takeWhile_cons_of_pos hdigit, List.map_cons]
      have hstep : saturate (saturate (min (2 ^ 31 - 1) (value : ℤ) * 10) +
          (byte.toNat - 48 : ℕ)) =
            min (2 ^ 31 - 1) ((10 * value + (byte.toNat - 48) : ℕ) : ℤ) := by
        unfold saturate
        generalize byte.toNat - 48 = digit
        omega
      rw [if_pos hdigit, hfront, hstep, ih]
      rfl
    · have hfront : decimalPrefix (byte :: rest) = [] := by
        unfold decimalPrefix
        rw [List.takeWhile_cons_of_neg hdigit, List.map_nil]
      rw [if_neg hdigit, hfront]
      rfl

theorem decimalPrefix_ne_nil (bytes : Bytes) :
    decimalPrefix bytes ≠ [] ↔ bytes.head?.any isAsciiDigit = true := by
  cases bytes with
  | nil => exact ⟨fun h => absurd rfl h, fun h => absurd h (by decide)⟩
  | cons byte rest =>
    unfold decimalPrefix
    by_cases hdigit : isAsciiDigit byte = true
    · rw [List.takeWhile_cons_of_pos hdigit]
      exact ⟨fun _ => hdigit, fun _ => List.cons_ne_nil _ _⟩
    · rw [List.takeWhile_cons_of_neg hdigit]
      exact ⟨fun h => absurd rfl h, fun h => absurd h hdigit⟩

/-- The exponent a literal is scanned to. -/
theorem scanExponent_eq (bytes : Bytes) {exponent : ℤ} (hlower : -2 ^ 31 ≤ exponent)
    (hupper : exponent < 2 ^ 31) :
    (scanExponent bytes exponent).1 = saturate (exponent + clamp (powerOf bytes)) := by
  have hnone : exponent = saturate (exponent + clamp 0) := by
    unfold saturate clamp
    omega
  cases bytes with
  | nil => exact hnone
  | cons p rest =>
    unfold scanExponent powerOf
    dsimp only
    by_cases hpower : (p = chr 'p' ∨ p = chr 'P') ∧
        decimalPrefix (if signed rest then rest.tail else rest) ≠ []
    · have hvalue := scanExponentDigits_eq (if signed rest then rest.tail else rest) 0
      have hdigits : digitsValue 10 (decimalPrefix (if signed rest then rest.tail else rest)) =
          (decimalPrefix (if signed rest then rest.tail else rest)).foldl
            (fun value digit => 10 * value + digit) 0 := rfl
      rw [← hdigits, Nat.cast_zero, show min (2 ^ 31 - 1) (0 : ℤ) = 0 by norm_num] at hvalue
      rw [if_pos hpower, if_pos ⟨hpower.1, (decimalPrefix_ne_nil _).mp hpower.2⟩, hvalue]
      generalize digitsValue 10 (decimalPrefix (if signed rest then rest.tail else rest)) = value
      dsimp only
      unfold saturate clamp
      split <;> omega
    · rw [if_neg hpower, if_neg fun hand =>
        hpower ⟨hand.1, (decimalPrefix_ne_nil _).mpr hand.2⟩]
      exact hnone

/-! ### Literals rounded correctly -/

/-- Where the last digit kept stands, in bits from the point. -/
def Literal.place (l : Literal) : ℤ :=
  4 * (dropped (l.integer ++ l.fraction) - l.fraction.length)

/-- The exponent the counters come to: an `i32` that wraps for the digits, and saturates for
the power. -/
def Literal.counted (l : Literal) : ℤ := saturate (wrap l.place + clamp l.power)

/-- The value of the digits at the exponent counted. -/
def Literal.scanned (l : Literal) : ℚ := l.value * 2 ^ (l.counted - (l.place + l.power))

theorem wrap_of_range {n : ℤ} (hlower : -2 ^ 31 ≤ n) (hupper : n < 2 ^ 31) : wrap n = n := by
  unfold wrap
  apply Int.bmod_eq_of_le
  · omega
  · omega

theorem wrap_range (n : ℤ) : -2 ^ 31 ≤ wrap n ∧ wrap n < 2 ^ 31 := by
  unfold wrap
  have hlower := @Int.le_bmod n (2 ^ 32) (by norm_num)
  have hupper := @Int.bmod_lt n (2 ^ 32) (by norm_num)
  omega

/-- What the scan hands to the conversion. -/
theorem scanHexadecimal_eq (bytes : Bytes) :
    ((scanHexadecimal bytes).1, (scanHexadecimal bytes).2.1) =
      roundToDouble (scanDigits bytes {}).1.mantissa (scanDigits bytes {}).1.sticky
        (literalOf bytes).counted := by
  obtain ⟨hlaid, hpower⟩ := scanDigits_laid bytes
  obtain ⟨hlower, hupper⟩ := wrap_range (literalOf bytes).place
  have hexponent : (scanDigits bytes {}).1.exponent = wrap (literalOf bytes).place := hlaid.exponent
  have hscan := scanExponent_eq (scanDigits bytes {}).2 hlower hupper
  rw [hpower] at hscan
  unfold scanHexadecimal Literal.counted
  dsimp only
  rw [hexponent, hscan]

/-- The digits kept, and the part of the next one that the sticky bit stands for. -/
theorem value_split (bytes : Bytes) :
    ∃ part, Part part (scanDigits bytes {}).1.sticky ∧
      (scanDigits bytes {}).1.mantissa < 2 ^ 128 ∧
      (part ≠ 0 → 2 ^ 124 ≤ (scanDigits bytes {}).1.mantissa) ∧
      (literalOf bytes).value = ((scanDigits bytes {}).1.mantissa + part) *
        2 ^ ((literalOf bytes).place + (literalOf bytes).power) := by
  obtain ⟨hlaid, _⟩ := scanDigits_laid bytes
  obtain ⟨low, hvalue, hlow, hsticky⟩ := hlaid.value
  have hbelow := hlaid.below
  have hleading := hlaid.leading
  generalize (scanDigits bytes {}).1 = d at *
  unfold Literal.value Literal.place
  generalize literalOf bytes = l at *
  generalize hdropped : dropped (l.integer ++ l.fraction) = lost at *
  have hscale : (0 : ℚ) < 16 ^ lost := by positivity
  refine ⟨low / 16 ^ lost, ⟨by positivity, ?_, ?_⟩, ?_, ?_, ?_⟩
  · rw [div_lt_one hscale]
    exact_mod_cast hlow
  · rw [hsticky]
    constructor
    · intro hne
      exact div_ne_zero (by exact_mod_cast hne) hscale.ne'
    · intro hne hzero
      apply hne
      rw [hzero, Nat.cast_zero, zero_div]
  · calc d.mantissa < 16 ^ min (significant (l.integer ++ l.fraction)) 32 := hbelow
      _ ≤ 16 ^ 32 := Nat.pow_le_pow_right (by norm_num) (min_le_right _ _)
      _ = 2 ^ 128 := by norm_num
  · intro hne
    have hmany : 32 < significant (l.integer ++ l.fraction) := by
      by_contra hfew
      have hnone : lost = 0 := by
        rw [← hdropped]
        unfold dropped
        omega
      rw [hnone, pow_zero] at hlow
      apply hne
      rw [show low = 0 by omega, Nat.cast_zero, zero_div]
    have hlarge := hleading (by omega)
    rw [Nat.min_eq_right (by omega)] at hlarge
    calc 2 ^ 124 = 16 ^ (32 - 1) := by norm_num
      _ ≤ d.mantissa := hlarge
  · have hsixteen : (16 : ℚ) ^ lost = 2 ^ (4 * (lost : ℤ)) := by
      rw [show (4 : ℤ) * lost = ((4 * lost : ℕ) : ℤ) by push_cast; ring, zpow_natCast, pow_mul]
      norm_num
    rw [hvalue]
    push_cast
    calc ((d.mantissa : ℚ) * 16 ^ lost + low) * 2 ^ (l.power - 4 * (l.fraction.length : ℤ))
        = (d.mantissa + low / 16 ^ lost) *
            (16 ^ lost * 2 ^ (l.power - 4 * (l.fraction.length : ℤ))) := by
          field_simp
      _ = _ := by
          rw [hsixteen, ← zpow_add₀ two_ne_zero]
          congr 2
          ring

theorem value_nonneg (bytes : Bytes) : 0 ≤ (literalOf bytes).value := by
  exact mul_nonneg (Nat.cast_nonneg _) (zpow_pos two_pos _).le

theorem scanned_of_zero {bytes : Bytes} (h : 0 = (literalOf bytes).value) :
    (literalOf bytes).scanned = (literalOf bytes).value := by
  unfold Literal.scanned
  rw [← h, zero_mul]

/-- The digits at the exponent counted are rounded once, correctly. -/
theorem scanHexadecimal_scanned (bytes : Bytes) :
    CorrectlyRounded (literalOf bytes).scanned (scanHexadecimal bytes).1
      (scanHexadecimal bytes).2.1 := by
  obtain ⟨part, hpart, hmantissa, hfull, hvalue⟩ := value_split bytes
  have hrounds := roundToDouble_rounds hpart hmantissa hfull (literalOf bytes).counted
  have hscanned : (literalOf bytes).scanned =
      ((scanDigits bytes {}).1.mantissa + part) * 2 ^ (literalOf bytes).counted := by
    unfold Literal.scanned
    rw [hvalue, mul_assoc, ← zpow_add₀ two_ne_zero]
    congr 2
    ring
  rwa [← scanHexadecimal_eq bytes, ← hscanned] at hrounds

/-! ### Literals whose counter is held -/

/-- The counter stays in its range, and a power that does not fit an `i32` is past every double
whatever the digits count. -/
structure Literal.Held (l : Literal) : Prop where
  lower : -2 ^ 31 ≤ l.place
  upper : l.place < 2 ^ 31
  above : 2 ^ 31 ≤ l.power → 1024 ≤ l.place + (2 ^ 31 - 1)
  below : l.power ≤ -2 ^ 31 → l.place - (2 ^ 31 - 1) ≤ -1204

theorem Literal.Held.counted {l : Literal} (h : l.Held) :
    l.counted = l.place + l.power ∨ 1024 ≤ l.counted ∧ 1024 ≤ l.place + l.power ∨
      l.counted ≤ -1204 ∧ l.place + l.power ≤ -1204 := by
  obtain ⟨hlower, hupper, habove, hbelow⟩ := h
  unfold Literal.counted saturate clamp
  rw [wrap_of_range hlower hupper]
  omega

/-- The digits kept stand for a value between two powers of two. -/
theorem value_bounds (bytes : Bytes) (hpos : 0 < (literalOf bytes).value) (exponent : ℤ) :
    2 ^ exponent ≤ (literalOf bytes).value *
        2 ^ (exponent - ((literalOf bytes).place + (literalOf bytes).power)) ∧
      (literalOf bytes).value *
        2 ^ (exponent - ((literalOf bytes).place + (literalOf bytes).power)) ≤
          2 ^ (128 + exponent) := by
  obtain ⟨part, hpart, hmantissa, hfull, hvalue⟩ := value_split bytes
  generalize (literalOf bytes).place + (literalOf bytes).power = place at *
  generalize (scanDigits bytes {}).1.mantissa = mantissa at *
  have hpart0 := hpart.nonneg
  have hpart1 := hpart.lt_one
  have hscale : (0 : ℚ) < 2 ^ exponent := zpow_pos two_pos _
  have hsame : (literalOf bytes).value * 2 ^ (exponent - place) =
      (mantissa + part) * 2 ^ exponent := by
    rw [hvalue, mul_assoc, ← zpow_add₀ two_ne_zero]
    congr 2
    ring
  have hsome : mantissa ≠ 0 := by
    rintro rfl
    have hzero : part = 0 := by
      by_contra hne
      exact absurd (hfull hne) (by norm_num)
    rw [hvalue, hzero, Nat.cast_zero, add_zero, zero_mul] at hpos
    exact absurd hpos (lt_irrefl 0)
  have hone : (1 : ℚ) ≤ mantissa := by exact_mod_cast Nat.one_le_iff_ne_zero.mpr hsome
  have hbound : (mantissa : ℚ) + 1 ≤ 2 ^ (128 : ℤ) := by exact_mod_cast hmantissa
  rw [hsame]
  constructor
  · calc (2 : ℚ) ^ exponent = 1 * 2 ^ exponent := (one_mul _).symm
      _ ≤ (mantissa + part) * 2 ^ exponent :=
        mul_le_mul_of_nonneg_right (by linarith) hscale.le
  · rw [zpow_add₀ two_ne_zero]
    exact mul_le_mul_of_nonneg_right (by linarith) hscale.le

theorem past_of_zpow_le {value : ℚ} {exponent : ℤ} (hlarge : 1024 ≤ exponent)
    (h : 2 ^ exponent ≤ value) : Past value := by
  have hpos : (0 : ℚ) < 2 ^ 970 := pow_pos two_pos 970
  have hinfinite : (2 : ℚ) ^ (1024 : ℤ) = 2 ^ 54 * 2 ^ 970 :=
    (zpow_natCast 2 1024).trans (pow_add 2 54 970)
  have hle : (2 : ℚ) ^ (1024 : ℤ) ≤ 2 ^ exponent := zpow_le_zpow_right₀ one_le_two hlarge
  unfold Past
  rw [hinfinite] at hle
  generalize (2 : ℚ) ^ 970 = half at *
  linarith only [hle, h, hpos]

/-- Where its digits do not leave the counter a literal is rounded correctly. -/
theorem scanHexadecimal_held (bytes : Bytes) (h : (literalOf bytes).Held) :
    CorrectlyRounded (literalOf bytes).value (scanHexadecimal bytes).1
      (scanHexadecimal bytes).2.1 := by
  have hrounds := scanHexadecimal_scanned bytes
  rcases (value_nonneg bytes).lt_or_eq with hpos | hzero
  · have hvalue := value_bounds bytes hpos ((literalOf bytes).place + (literalOf bytes).power)
    have hscanned := value_bounds bytes hpos (literalOf bytes).counted
    rw [sub_self, zpow_zero, mul_one] at hvalue
    refine (hrounds.alike_iff hpos).mpr ?_
    rcases h.counted with hsame | ⟨hlarge, hlarge'⟩ | ⟨hsmall, hsmall'⟩
    · left
      rw [hsame, sub_self, zpow_zero, mul_one]
    · exact .inr (.inl ⟨past_of_zpow_le hlarge' hvalue.1, past_of_zpow_le hlarge hscanned.1⟩)
    · refine .inr (.inr (.inl ⟨hvalue.2.trans ?_, hscanned.2.trans ?_⟩))
      · exact zpow_le_zpow_right₀ one_le_two (by omega)
      · exact zpow_le_zpow_right₀ one_le_two (by omega)
  · rwa [scanned_of_zero hzero] at hrounds

/-! ### Rounded literals -/

/-- **A literal is rounded once, correctly**, exactly where no double tells its value from the
value at the exponent counted, so wherever the digits do not leave the counter. -/
theorem scanHexadecimal_rounds_iff (bytes : Bytes) :
    (CorrectlyRounded (literalOf bytes).value (scanHexadecimal bytes).1
        (scanHexadecimal bytes).2.1 ↔
      Alike (literalOf bytes).value (literalOf bytes).scanned) ∧
    ((literalOf bytes).Held → CorrectlyRounded (literalOf bytes).value (scanHexadecimal bytes).1
      (scanHexadecimal bytes).2.1) := by
  refine ⟨?_, scanHexadecimal_held bytes⟩
  have hrounds := scanHexadecimal_scanned bytes
  rcases (value_nonneg bytes).lt_or_eq with hpos | hzero
  · exact hrounds.alike_iff hpos
  · rw [scanned_of_zero hzero] at hrounds ⊢
    exact iff_of_true hrounds (.inl rfl)

/-! ### A literal of too many digits -/

theorem hexPrefix_zeros (n : ℕ) (tail : Bytes) :
    hexPrefix (List.replicate n (chr '0') ++ tail) =
      (List.replicate n 0 ++ (hexPrefix tail).1, (hexPrefix tail).2) := by
  induction n with
  | zero => rfl
  | succ n ih =>
    rw [List.replicate_succ, List.cons_append, hexPrefix, ih]
    rfl

/-- So many zeros behind the point and a one. -/
theorem literalOf_places (n : ℕ) :
    literalOf (chr '.' :: (List.replicate n (chr '0') ++ [chr '1'])) =
      ⟨[], List.replicate n 0 ++ [1], 0⟩ := by
  have hone : hexPrefix [chr '1'] = ([1], []) := rfl
  have hpoint : ∀ rest, hexPrefix (chr '.' :: rest) = ([], chr '.' :: rest) := fun _ => rfl
  unfold literalOf
  rw [hpoint]
  dsimp only
  rw [if_pos List.head?_cons, List.tail_cons, hexPrefix_zeros, hone]
  rfl

theorem digitsValue_zeros (n : ℕ) : digitsValue 16 (List.replicate n 0) = 0 := by
  induction n with
  | zero => rfl
  | succ n ih => rw [List.replicate_succ', digitsValue_concat, ih]

theorem value_places (n : ℕ) :
    (Literal.mk [] (List.replicate n 0 ++ [1]) 0).value = 2 ^ (-4 * ((n : ℤ) + 1)) := by
  unfold Literal.value
  dsimp only
  rw [List.nil_append, digitsValue_concat, digitsValue_zeros, List.length_append,
    List.length_replicate, List.length_singleton]
  push_cast
  rw [one_mul, zero_sub, neg_mul]

theorem place_places (n : ℕ) :
    (Literal.mk [] (List.replicate n 0 ++ [1]) 0).place = -4 * ((n : ℤ) + 1) := by
  have hsignificant : significant (List.replicate n 0 ++ [1]) = 1 := by
    rw [significant_concat, if_neg fun hand => absurd hand.2 one_ne_zero]
    unfold significant
    rw [List.dropWhile_replicate]
    rfl
  unfold Literal.place dropped
  dsimp only
  rw [List.nil_append, hsignificant, List.length_append, List.length_replicate,
    List.length_singleton]
  push_cast
  ring

/-- Where the count of the places wraps, a value below one is scanned as one above it. -/
theorem rounds_places {n : ℕ} (h : 0 ≤ saturate (wrap (-4 * ((n : ℤ) + 1)) + clamp 0)) :
    ¬ CorrectlyRounded
      (literalOf (chr '.' :: (List.replicate n (chr '0') ++ [chr '1']))).value
      (scanHexadecimal (chr '.' :: (List.replicate n (chr '0') ++ [chr '1']))).1
      (scanHexadecimal (chr '.' :: (List.replicate n (chr '0') ++ [chr '1']))).2.1 := by
  intro hrounds
  have hscanned := scanHexadecimal_scanned (chr '.' :: (List.replicate n (chr '0') ++ [chr '1']))
  have hcounted : (literalOf (chr '.' :: (List.replicate n (chr '0') ++ [chr '1']))).counted =
      saturate (wrap (-4 * ((n : ℤ) + 1)) + clamp 0) := by
    unfold Literal.counted
    rw [literalOf_places, place_places]
  generalize saturate (wrap (-4 * ((n : ℤ) + 1)) + clamp 0) = counted at h hcounted
  have hvalue : (literalOf (chr '.' :: (List.replicate n (chr '0') ++ [chr '1']))).value =
      2 ^ (-4 * ((n : ℤ) + 1)) := by
    rw [literalOf_places, value_places]
  have hone : (literalOf (chr '.' :: (List.replicate n (chr '0') ++ [chr '1']))).scanned =
      2 ^ counted := by
    unfold Literal.scanned
    rw [hcounted, hvalue, literalOf_places, place_places, ← zpow_add₀ two_ne_zero]
    congr 1
    ring
  have habove : 1 ≤ (literalOf (chr '.' :: (List.replicate n (chr '0') ++ [chr '1']))).scanned := by
    rw [hone]
    exact one_le_zpow₀ one_le_two h
  have hpos : 0 < (literalOf (chr '.' :: (List.replicate n (chr '0') ++ [chr '1']))).value := by
    rw [hvalue]
    exact zpow_pos two_pos _
  have hbelow : (literalOf (chr '.' :: (List.replicate n (chr '0') ++ [chr '1']))).value < 1 := by
    rw [hvalue]
    exact zpow_lt_one_of_neg₀ one_lt_two (by omega)
  have hleast : 3 * (2 : ℚ) ^ (-1075 : ℤ) < 1 := by
    have hquarter : (2 : ℚ) ^ (-1075 : ℤ) < 2 ^ (-2 : ℤ) :=
      zpow_lt_zpow_right₀ one_lt_two (by norm_num)
    rw [show (2 : ℚ) ^ (-2 : ℤ) = 1 / 4 by norm_num] at hquarter
    generalize (2 : ℚ) ^ (-1075 : ℤ) = half at *
    linarith
  have hhalf : (0 : ℚ) < 2 ^ (-1075 : ℤ) := zpow_pos two_pos _
  rcases (hscanned.alike_iff hpos).mp hrounds with heq | ⟨hpast, _⟩ | ⟨_, hless⟩ | ⟨_, hless⟩
  · exact absurd (heq.symm.le.trans_lt hbelow) (not_lt.mpr habove)
  · have hlarge : (1 : ℚ) ≤ (2 ^ 54 - 1) * 2 ^ 970 :=
      one_le_mul_of_one_le_of_one_le (by norm_num) (one_le_pow₀ one_le_two)
    exact absurd (hlarge.trans hpast) (not_le.mpr hbelow)
  · have hall := habove.trans hless
    generalize (2 : ℚ) ^ (-1075 : ℤ) = half at *
    linarith
  · exact absurd (habove.trans_lt hless.2) (not_lt.mpr hleast.le)

/-- The counter of the places behind the point wraps: a literal far below every double is
reported infinite. -/
theorem not_rounds_places :
    ¬ ∀ bytes, CorrectlyRounded (literalOf bytes).value (scanHexadecimal bytes).1
      (scanHexadecimal bytes).2.1 := by
  intro h
  have hwraps : 0 ≤ saturate (wrap (-4 * (((2 ^ 29 : ℕ) : ℤ) + 1)) + clamp 0) := by decide
  exact rounds_places hwraps (h _)

end Nsh.Printf
