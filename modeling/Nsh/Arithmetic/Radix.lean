import Nsh.Arithmetic.Spelling
import Nsh.Arithmetic.Termination

/-!
# Radix literals

`B#digits` beside the digits of a number in base `B`, written in the alphabet of
Bash, which up to base 36 leaves the case of a letter free.  The lexer's alphabet
does not: a capital is a digit past 35 in every base.
-/

namespace Nsh.Arithmetic

/-! ### Spelling -/

/-- The byte of a digit in the alphabet `0-9 a-z A-Z @ _`. -/
def radixByte (d : ℕ) : UInt8 :=
  if d < 10 then chr '0' + UInt8.ofNat d
  else if d < 36 then chr 'a' + UInt8.ofNat (d - 10)
  else if d < 62 then chr 'A' + UInt8.ofNat (d - 36)
  else if d = 62 then chr '@'
  else chr '_'

def isCapital (byte : UInt8) : Bool := decide (chr 'A' ≤ byte) && decide (byte ≤ chr 'Z')

/-- Up to base 36 a letter may be written in either case. -/
def SpellsDigit (base d : ℕ) (byte : UInt8) : Prop :=
  byte = radixByte d ∨ (base ≤ 36 ∧ 10 ≤ d ∧ byte = chr 'A' + UInt8.ofNat (d - 10))

/-- The digits of a number, the first first; zero has one. -/
def radixDigits (base n : ℕ) : List ℕ := if n = 0 then [0] else (Nat.digits base n).reverse

def SpellsNumber (base n : ℕ) (bytes : Bytes) : Prop :=
  List.Forall₂ (SpellsDigit base) (radixDigits base n) bytes

theorem radixDigit_radixByte {d : ℕ} (h : d < 64) : radixDigit (radixByte d) = some d := by
  revert d
  decide

/-- A capital stands for a digit that no base up to 36 has. -/
theorem radixDigit_capital {byte : UInt8} (h : isCapital byte = true) :
    ∃ d, radixDigit byte = some d ∧ 36 ≤ d := by
  unfold isCapital at h
  rw [Bool.and_eq_true, decide_eq_true_iff, decide_eq_true_iff] at h
  obtain ⟨hge, hle⟩ := h
  have hdigit : ¬(chr '0' ≤ byte ∧ byte ≤ chr '9') := fun hdigit =>
    absurd (UInt8.le_trans hge hdigit.2) (by decide)
  have hsmall : ¬(chr 'a' ≤ byte ∧ byte ≤ chr 'z') := fun hsmall =>
    absurd (UInt8.le_trans hsmall.1 hle) (by decide)
  refine ⟨byte.toNat - (chr 'A').toNat + 36, ?_, Nat.le_add_left 36 _⟩
  unfold radixDigit
  rw [if_neg hdigit, if_neg hsmall, if_pos ⟨hge, hle⟩]

theorem isCapital_capital {d : ℕ} (hge : 10 ≤ d) (hlt : d < 36) :
    isCapital (chr 'A' + UInt8.ofNat (d - 10)) = true := by
  revert d
  decide

theorem radixDigits_lt {base n d : ℕ} (hbase : 1 < base) (h : d ∈ radixDigits base n) :
    d < base := by
  unfold radixDigits at h
  split at h
  · rw [List.mem_singleton] at h
    omega
  · exact Nat.digits_lt_base hbase (List.mem_reverse.1 h)

/-- The value digits have behind those read so far. -/
def radixValue (base : ℕ) (value : ℕ) (digits : List ℕ) : ℕ :=
  digits.foldl (fun value d => base * value + d) value

theorem radixValue_radixDigits (base n : ℕ) : radixValue base 0 (radixDigits base n) = n := by
  unfold radixValue radixDigits
  split
  · next hzero => rw [hzero, List.foldl_cons, List.foldl_nil, mul_zero]
  · rw [List.foldl_reverse]
    calc (Nat.digits base n).foldr (fun d value => base * value + d) 0
      _ = Nat.ofDigits base (Nat.digits base n) := by
        rw [Nat.ofDigits_eq_foldr]
        congr 1
        funext d value
        exact Nat.add_comm _ _
      _ = n := Nat.ofDigits_digits base n

theorem le_radixValue {base value : ℕ} (hbase : 0 < base) (digits : List ℕ) :
    value ≤ radixValue base value digits := by
  induction digits generalizing value with
  | nil => exact le_refl value
  | cons d rest ih =>
    calc value
      _ ≤ base * value := Nat.le_mul_of_pos_left value hbase
      _ ≤ base * value + d := Nat.le_add_right _ _
      _ ≤ radixValue base value (d :: rest) := ih

/-! ### Reading -/

theorem accumulate_below {base value d : ℕ} (h : base * value + d < 2 ^ 63) (hbase : 0 < base) :
    accumulate base (Int64.ofNat value) d = Int64.ofNat (base * value + d) := by
  have hvalue : value < 2 ^ 63 := by
    have hle := Nat.le_mul_of_pos_left value hbase
    omega
  have hn : (Int64.ofNat value).toInt = value := Int64.toInt_ofNat_of_lt hvalue
  have hm : (Int64.ofNat (base * value)).toInt = (base * value : ℕ) :=
    Int64.toInt_ofNat_of_lt (by omega)
  have hfirst : saturate ((Int64.ofNat value).toInt * base) = Int64.ofNat (base * value) := by
    unfold saturate
    rw [hn, mul_comm, ← Nat.cast_mul, max_eq_right (by omega), min_eq_left (by omega)]
    rfl
  unfold accumulate
  rw [hfirst, hm]
  unfold saturate
  rw [max_eq_right (by omega), min_eq_left (by omega)]
  rfl

/-- Digits of the lexer's own alphabet are read to their value. -/
theorem readDigits_radix {base : ℕ} (hbase : 1 < base) (hle : base ≤ 64) {digits : List ℕ}
    (hdigits : ∀ d ∈ digits, d < base) {value : ℕ} (rest : Bytes)
    (hvalue : radixValue base value digits < 2 ^ 63) :
    readDigits radixDigit base (Int64.ofNat value) (digits.map radixByte ++ rest) =
      readDigits radixDigit base (Int64.ofNat (radixValue base value digits)) rest := by
  induction digits generalizing value with
  | nil => rfl
  | cons d digits ih =>
    have hd : d < base := hdigits d List.mem_cons_self
    have hnext : base * value + d < 2 ^ 63 :=
      lt_of_le_of_lt (le_radixValue (by omega) digits) hvalue
    rw [List.map_cons, List.cons_append, readDigits, radixDigit_radixByte (by omega)]
    simp only
    rw [if_neg (by omega), accumulate_below hnext (by omega)]
    exact ih (fun d hd => hdigits d (List.mem_cons_of_mem _ hd)) hvalue

/-- What is read to its end holds digits alone. -/
theorem digits_of_read {digitOf : UInt8 → Option ℕ} {base : ℕ} {value : Int64} {bytes : Bytes}
    (h : (readDigits digitOf base value bytes).2 = []) {byte : UInt8} (hmem : byte ∈ bytes) :
    ∃ d, digitOf byte = some d ∧ d < base := by
  induction bytes generalizing value with
  | nil => cases hmem
  | cons first rest ih =>
    unfold readDigits at h
    cases hdigit : digitOf first with
    | none =>
      rw [hdigit] at h
      cases h
    | some d =>
      rw [hdigit] at h
      simp only at h
      split at h
      · cases h
      · next hlt =>
        rcases List.mem_cons.1 hmem with rfl | hmem
        · exact ⟨d, hdigit, not_le.1 hlt⟩
        · exact ih h hmem

/-- In a base up to 36 reading goes on to the end or to a capital. -/
theorem readDigits_spelled {base : ℕ} (hbase : base ≤ 36) {digits : List ℕ} {bytes : Bytes}
    (hspells : List.Forall₂ (SpellsDigit base) digits bytes) (hdigits : ∀ d ∈ digits, d < base)
    (value : Int64) : (readDigits radixDigit base value bytes).2 = [] ∨
      ∃ byte rest, (readDigits radixDigit base value bytes).2 = byte :: rest ∧
        isCapital byte = true := by
  induction hspells generalizing value with
  | nil => exact .inl rfl
  | @cons d byte digits bytes hspell _ ih =>
    have hd : d < base := hdigits d List.mem_cons_self
    unfold readDigits
    rcases hspell with rfl | ⟨_, hge, rfl⟩
    · rw [radixDigit_radixByte (by omega)]
      simp only
      rw [if_neg (by omega)]
      exact ih (fun d hd => hdigits d (List.mem_cons_of_mem _ hd)) _
    · have hcapital := isCapital_capital hge (by omega)
      obtain ⟨d', hd', hlarge⟩ := radixDigit_capital hcapital
      rw [hd']
      simp only
      rw [if_pos (by omega)]
      exact .inr ⟨_, _, rfl, hcapital⟩

/-- Without capitals, a number is spelled in the lexer's alphabet. -/
theorem map_radixByte {base : ℕ} {digits : List ℕ} {bytes : Bytes}
    (hspells : List.Forall₂ (SpellsDigit base) digits bytes) (hdigits : ∀ d ∈ digits, d < base)
    (hcapitals : base ≤ 36 → ∀ byte ∈ bytes, isCapital byte = false) :
    bytes = digits.map radixByte := by
  induction hspells with
  | nil => rfl
  | @cons d byte digits bytes hspell _ ih =>
    have hbyte : byte = radixByte d := by
      rcases hspell with hbyte | ⟨hbase, hge, rfl⟩
      · exact hbyte
      · have hd : d < base := hdigits d List.mem_cons_self
        have hnot := hcapitals hbase _ List.mem_cons_self
        rw [isCapital_capital hge (by omega)] at hnot
        cases hnot
    rw [List.map_cons, hbyte]
    congr 1
    exact ih (fun d hd => hdigits d (List.mem_cons_of_mem _ hd)) fun hbase byte hmem =>
      hcapitals hbase byte (List.mem_cons_of_mem _ hmem)

/-! ### The literal -/

/-- The base of a literal is read as a number, up to its `#`. -/
theorem number_radix {base : ℕ} (hge : 2 ≤ base) (hle : base ≤ 64) (bytes : Bytes) :
    number true (decimalNat base ++ chr '#' :: bytes) =
      radixLiteral (Int64.ofNat base) (chr '#' :: bytes) := by
  obtain ⟨d, digits, hd, heq, hzero⟩ := decimalNat_cons base
  have hlit : literalBase (decimalNat base ++ chr '#' :: bytes) =
      (10, decimalNat base ++ chr '#' :: bytes) := by
    unfold literalBase
    rw [heq, List.cons_append, List.getElem?_cons_zero, if_neg]
    intro hfirst
    exact digitByte_ne_zero hd (fun h => by have := hzero h; omega) (Option.some.inj hfirst)
  have hread : readDigits Number.digitValue 10 0 (decimalNat base ++ chr '#' :: bytes) =
      (Int64.ofNat base, chr '#' :: bytes) := by
    have hhash : Number.digitValue (chr '#') = none := by decide
    unfold decimalNat
    rw [if_neg (by omega), readDigits_digits base (by omega), readDigits, hhash]
  unfold number
  rw [hlit]
  simp only
  rw [hread]
  exact if_pos ⟨trivial, rfl, trivial⟩

/-- A literal is what its digits are read to, unless there are none. -/
theorem radixLiteral_eq {base : ℕ} (hge : 2 ≤ base) (hle : base ≤ 64) (bytes : Bytes) :
    radixLiteral (Int64.ofNat base) (chr '#' :: bytes) =
      if (readDigits radixDigit base 0 bytes).2.length = bytes.length then (.bad, bytes)
      else (.number (readDigits radixDigit base 0 bytes).1,
        (readDigits radixDigit base 0 bytes).2) := by
  have hvalue : (Int64.ofNat base).toInt = base := Int64.toInt_ofNat_of_lt (by omega)
  have hrange : 2 ≤ Int64.ofNat base ∧ Int64.ofNat base ≤ 64 := by
    rw [Int64.le_iff_toInt_le, Int64.le_iff_toInt_le, hvalue]
    change (2 : Int) ≤ base ∧ (base : Int) ≤ 64
    omega
  unfold radixLiteral
  rw [if_pos hrange, hvalue]
  rfl

/-- The first token of a literal, and the tokens of what it leaves. -/
theorem tokens_literal (locale : Locale) {base : ℕ} (hge : 2 ≤ base) (hle : base ≤ 64)
    (bytes : Bytes) : ∃ fuel, tokens locale true (decimalNat base ++ chr '#' :: bytes) =
      (radixLiteral (Int64.ofNat base) (chr '#' :: bytes)).1 :: tokensFrom locale true (fuel + 1)
        (radixLiteral (Int64.ofNat base) (chr '#' :: bytes)).2 := by
  obtain ⟨d, digits, hd, heq, _⟩ := decimalNat_cons base
  have hnext : next locale true (decimalNat base ++ chr '#' :: bytes) =
      radixLiteral (Int64.ofNat base) (chr '#' :: bytes) := by
    rw [← number_radix hge hle, heq, List.cons_append]
    unfold next
    rw [List.dropWhile_cons_of_neg (by rw [digitByte_not_blank true hd]; decide)]
    simp only
    rw [if_pos (digitByte_isAsciiDigit hd)]
  refine ⟨digits.length + bytes.length + 1, ?_⟩
  have hlength :
      (decimalNat base ++ chr '#' :: bytes).length = digits.length + bytes.length + 2 := by
    rw [heq, List.length_append, List.length_cons, List.length_cons]
    omega
  unfold tokens
  rw [hlength]
  conv_lhs => unfold tokensFrom
  rw [hnext]
  have hne : (radixLiteral (Int64.ofNat base) (chr '#' :: bytes)).1 ≠ .eof := by
    rw [radixLiteral_eq hge hle]
    split
    · intro heof
      cases heof
    · intro heof
      cases heof
  generalize radixLiteral (Int64.ofNat base) (chr '#' :: bytes) = literal at hne
  obtain ⟨token, rest⟩ := literal
  cases token with
  | eof => exact absurd rfl hne
  | _ => rfl

theorem tokensFrom_capital (locale : Locale) {byte : UInt8} (hcapital : isCapital byte = true)
    (rest : Bytes) (fuel : ℕ) :
    tokensFrom locale true (fuel + 1) (byte :: rest) ≠ [.eof] := by
  unfold isCapital at hcapital
  have halpha : isAsciiAlphabetic byte = true := by
    unfold isAsciiAlphabetic
    rw [hcapital, Bool.or_true]
  rw [Bool.and_eq_true, decide_eq_true_iff, decide_eq_true_iff] at hcapital
  have hdigit : isAsciiDigit byte = false := by
    unfold isAsciiDigit
    rw [Bool.and_eq_false_iff, decide_eq_false_iff_not, decide_eq_false_iff_not]
    exact .inr fun hle => absurd (UInt8.le_trans hcapital.1 hle) (by decide)
  have hblank : isBlank true byte = false := by
    unfold isBlank
    simp only [Bool.true_and, Bool.or_eq_false_iff, beq_eq_false_iff_ne, ne_eq]
    refine ⟨⟨⟨?_, ?_⟩, ?_⟩, ?_⟩ <;> rintro rfl <;> exact absurd hcapital.1 (by decide)
  unfold tokensFrom next
  rw [List.dropWhile_cons_of_neg (by rw [hblank]; decide)]
  simp only
  rw [hdigit, if_neg (by decide), if_pos (by rw [halpha]; rfl)]
  unfold nameToken
  simp

/-- **A radix literal reads back** exactly where no capital stands for a small
    letter. -/
theorem tokens_radix (locale : Locale) {base n : ℕ} (hge : 2 ≤ base) (hle : base ≤ 64)
    (hn : n < 2 ^ 63) {bytes : Bytes} (hspells : SpellsNumber base n bytes) :
    tokens locale true (decimalNat base ++ chr '#' :: bytes) =
        [.number (Int64.ofNat n), .eof] ↔
      (base ≤ 36 → ∀ byte ∈ bytes, isCapital byte = false) := by
  have hdigits : ∀ d ∈ radixDigits base n, d < base := fun d hd => radixDigits_lt (by omega) hd
  have hne : bytes ≠ [] := by
    rintro rfl
    have hnil := List.forall₂_nil_right_iff.1 hspells
    unfold radixDigits at hnil
    split at hnil
    · cases hnil
    · next hzero => exact hzero (Nat.digits_eq_nil_iff_eq_zero.1 (List.reverse_eq_nil_iff.1 hnil))
  obtain ⟨fuel, htokens⟩ := tokens_literal locale hge hle bytes
  rw [htokens, radixLiteral_eq hge hle]
  constructor
  · intro heq hbase byte hmem
    rcases readDigits_spelled hbase hspells hdigits 0 with hend | ⟨stop, rest, hrest, hcapital⟩
    · obtain ⟨d, hd, hlt⟩ := digits_of_read hend hmem
      rw [Bool.eq_false_iff]
      intro hcapital
      obtain ⟨d', hd', hlarge⟩ := radixDigit_capital hcapital
      rw [hd, Option.some.injEq] at hd'
      omega
    · split at heq
      · cases heq
      · rw [hrest] at heq
        exact absurd (List.cons.inj heq).2 (tokensFrom_capital locale hcapital rest fuel)
  · intro hcapitals
    have hread := @readDigits_radix base (by omega) hle _ hdigits 0 []
      (by rw [radixValue_radixDigits]; exact hn)
    rw [List.append_nil, ← map_radixByte hspells hdigits hcapitals, radixValue_radixDigits] at hread
    have hzero : Int64.ofNat 0 = 0 := rfl
    rw [hzero] at hread
    rw [hread]
    have hlength : ([] : Bytes).length ≠ bytes.length := fun h =>
      hne (List.length_eq_zero_iff.1 h.symm)
    rw [readDigits, if_neg hlength]
    rfl

theorem tokens_radix_small :
    tokens Locale.c true (text "16#ff") = [.number 255, .eof] :=
  (@tokens_radix Locale.c 16 255 (by decide) (by decide) (by decide) (text "ff") (by
    have hdigits : radixDigits 16 255 = [15, 15] := by norm_num [radixDigits]
    unfold SpellsNumber
    rw [hdigits]
    exact .cons (.inl (by decide)) (.cons (.inl (by decide)) .nil))).2 (by decide +kernel)

/-- `16#FF`, which Bash reads as 255. -/
theorem not_tokens_radix : SpellsNumber 16 255 (text "FF") ∧
    tokens Locale.c true (text "16#FF") ≠ [.number 255, .eof] := by
  refine ⟨?_, by decide⟩
  have hdigits : radixDigits 16 255 = [15, 15] := by norm_num [radixDigits]
  unfold SpellsNumber
  rw [hdigits]
  exact .cons (.inr (by decide)) (.cons (.inr (by decide)) .nil)

end Nsh.Arithmetic
