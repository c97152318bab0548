import Nsh.Arithmetic.Correctness
import Mathlib.Data.List.TakeWhile

/-!
# Integer constants

The two readers of an integer constant: `parse_integer`, which takes the sign for
part of the number, and the lexer, for which it is an operator in front of a
literal.  Both are exact over the digits; they differ where the magnitude is one
past the range of a literal.
-/

namespace Nsh.Arithmetic

open Number Variables

variable {W : Type}

/-! ### Constants -/

/-- The bytes of a constant without its sign, its base, and its digits. -/
inductive Unsigned : Bytes → ℕ → Bytes → Prop
  | decimal {digits : Bytes} (hne : digits ≠ []) (hfirst : digits.head? ≠ some (chr '0')) :
      Unsigned digits 10 digits
  | octal (digits : Bytes) : Unsigned (chr '0' :: digits) 8 (chr '0' :: digits)
  | hexadecimal {x : UInt8} {digits : Bytes} (hx : x = chr 'x' ∨ x = chr 'X')
      (hne : digits ≠ []) : Unsigned (chr '0' :: x :: digits) 16 digits

inductive ConstantSign where
  | none
  | plus
  | minus
deriving DecidableEq, Repr

def ConstantSign.bytes : ConstantSign → Bytes
  | .none => []
  | .plus => [chr '+']
  | .minus => [chr '-']

def DigitsBelow (base : ℕ) (digits : Bytes) : Prop :=
  ∀ byte ∈ digits, ∃ d, digitValue byte = some d ∧ d < base

instance (base : ℕ) (digits : Bytes) : Decidable (DigitsBelow base digits) :=
  have : Decidable (∀ byte ∈ digits, (digitValue byte).any (· < base) = true) :=
    List.decidableBAll _ _
  decidable_of_iff (∀ byte ∈ digits, (digitValue byte).any (· < base) = true) (by
    simp [DigitsBelow, Option.any_eq_true])

def magnitudeFrom (base : ℕ) (value : ℕ) (digits : Bytes) : ℕ :=
  digits.foldl (fun value byte => value * base + (digitValue byte).getD 0) value

/-- An integer constant: its text, and the number it denotes. -/
structure IntegerConstant where
  sign : ConstantSign
  unsigned : Bytes
  base : ℕ
  digits : Bytes
  shape : Unsigned unsigned base digits
  below : DigitsBelow base digits

namespace IntegerConstant

def text (c : IntegerConstant) : Bytes := c.sign.bytes ++ c.unsigned

def magnitude (c : IntegerConstant) : ℕ := magnitudeFrom c.base 0 c.digits

def number (c : IntegerConstant) : Int :=
  if c.sign = .minus then -(c.magnitude : Int) else c.magnitude

/-- The number is one of 64 bits. -/
def Denotes (c : IntegerConstant) : Prop := -2 ^ 63 ≤ c.number ∧ c.number < 2 ^ 63

instance (c : IntegerConstant) : Decidable c.Denotes :=
  inferInstanceAs (Decidable (-2 ^ 63 ≤ c.number ∧ c.number < 2 ^ 63))

end IntegerConstant

/-! ### Digits -/

theorem magnitudeFrom_cons (base value : ℕ) {byte : UInt8} {d : ℕ} (hd : digitValue byte = some d)
    (digits : Bytes) :
    magnitudeFrom base value (byte :: digits) = magnitudeFrom base (value * base + d) digits := by
  unfold magnitudeFrom
  rw [List.foldl_cons, hd]
  rfl

theorem saturating_step {base limit : ℕ} (hbase : 0 < base) (hlimit : limit ≤ u64Max)
    (value d : ℕ) :
    min (saturatingAdd (saturatingMul (min value limit) base) d) limit =
      min (value * base + d) limit := by
  unfold saturatingAdd saturatingMul
  rcases Nat.le_total limit value with hge | hle
  · have hlarge : limit ≤ limit * base := Nat.le_mul_of_pos_right limit hbase
    have hvalue : limit ≤ value * base := hge.trans (Nat.le_mul_of_pos_right value hbase)
    rw [min_eq_right hge]
    omega
  · rw [min_eq_left hle]
    omega

/-- `parse_integer` reads digits to their magnitude, up to its limit. -/
theorem digits_eq {base limit : ℕ} (hbase : 0 < base) (hlimit : limit ≤ u64Max) {digits : Bytes}
    (hbelow : DigitsBelow base digits) (value : ℕ) :
    Number.digits base limit (min value limit) digits =
      (min (magnitudeFrom base value digits) limit, []) := by
  induction digits generalizing value with
  | nil => rfl
  | cons byte rest ih =>
    obtain ⟨d, hd, hlt⟩ := hbelow byte List.mem_cons_self
    rw [Number.digits, hd, magnitudeFrom_cons base value hd]
    simp only
    rw [if_neg (not_le.2 hlt), saturating_step hbase hlimit]
    exact ih (fun byte hbyte => hbelow byte (List.mem_cons_of_mem _ hbyte)) _

theorem toInt_saturate (x : Int) : (saturate x).toInt = max (-2 ^ 63) (min x (2 ^ 63 - 1)) := by
  unfold saturate
  refine Int64.toInt_ofInt_of_le ?_ ?_
  · exact le_max_left _ _
  · change max (-2 ^ 63) (min x (2 ^ 63 - 1)) < 2 ^ 63
    omega

theorem accumulate_saturate {base : ℕ} (hbase : 0 < base) (value d : ℕ) :
    accumulate base (saturate value) d = saturate ((value * base + d : ℕ) : Int) := by
  unfold accumulate
  have hvalue : (saturate (value : Int)).toInt = min (value : Int) (2 ^ 63 - 1) := by
    rw [toInt_saturate, max_eq_right (by omega)]
  rw [hvalue, toInt_saturate]
  rcases Nat.lt_or_ge value (2 ^ 63) with hlt | hge
  · have hmin : min (value : Int) (2 ^ 63 - 1) = value := min_eq_left (by omega)
    rw [hmin, ← Nat.cast_mul]
    unfold saturate
    congr 1
    omega
  · have hlarge : (2 ^ 63 - 1 : Int) ≤ (2 ^ 63 - 1) * base :=
      le_mul_of_one_le_right (by decide) (by omega)
    have hvalue : 2 ^ 63 ≤ value * base := hge.trans (Nat.le_mul_of_pos_right value hbase)
    have hmin : min (value : Int) (2 ^ 63 - 1) = 2 ^ 63 - 1 := min_eq_right (by omega)
    rw [hmin]
    unfold saturate
    congr 1
    omega

/-- The lexer reads digits to their magnitude, saturated. -/
theorem readDigits_eq {base : ℕ} (hbase : 0 < base) {digits : Bytes}
    (hbelow : DigitsBelow base digits) (value : ℕ) :
    readDigits digitValue base (saturate value) digits =
      (saturate (magnitudeFrom base value digits : ℕ), []) := by
  induction digits generalizing value with
  | nil => rfl
  | cons byte rest ih =>
    obtain ⟨d, hd, hlt⟩ := hbelow byte List.mem_cons_self
    rw [readDigits, hd, magnitudeFrom_cons base value hd]
    simp only
    rw [if_neg (not_le.2 hlt), accumulate_saturate hbase]
    exact ih (fun byte hbyte => hbelow byte (List.mem_cons_of_mem _ hbyte)) _

/-! ### The text of a constant -/

namespace Unsigned

variable {unsigned digits : Bytes} {base : ℕ}

theorem base_pos (h : Unsigned unsigned base digits) : 0 < base := by
  cases h <;> decide

/-- A constant begins with a decimal digit. -/
theorem first (h : Unsigned unsigned base digits) (hbelow : DigitsBelow base digits) :
    ∃ byte rest, unsigned = byte :: rest ∧ isAsciiDigit byte = true := by
  cases h with
  | decimal hne _ =>
    obtain ⟨byte, rest, rfl⟩ := List.exists_cons_of_ne_nil hne
    obtain ⟨d, hd, hlt⟩ := hbelow byte List.mem_cons_self
    refine ⟨byte, rest, rfl, ?_⟩
    unfold digitValue at hd
    unfold isAsciiDigit
    split at hd
    · next hdigit => simpa using hdigit
    · split at hd
      · cases hd; omega
      · split at hd
        · cases hd; omega
        · cases hd
  | octal rest => exact ⟨_, _, rfl, by decide⟩
  | hexadecimal _ _ => exact ⟨_, _, rfl, by decide⟩

/-- Both readers take a constant for one in its base. -/
theorem literalBase_eq (h : Unsigned unsigned base digits) (hbelow : DigitsBelow base digits) :
    literalBase unsigned = (base, digits) := by
  unfold literalBase
  cases h with
  | decimal hne hfirst =>
    rw [if_neg]
    rwa [← List.head?_eq_getElem?]
  | octal rest =>
    have hletter : ∀ byte, digitValue byte = none ∨ (∃ d, digitValue byte = some d ∧ 8 ≤ d) →
        (chr '0' :: rest)[1]? ≠ some byte := by
      rintro byte hbyte hget
      rw [List.getElem?_cons_succ] at hget
      obtain ⟨d, hd, hlt⟩ := hbelow byte
        (List.mem_cons_of_mem _ (List.mem_of_getElem? hget))
      rcases hbyte with hnone | ⟨d', hd', hge⟩
      · rw [hnone] at hd
        cases hd
      · rw [hd, Option.some.injEq] at hd'
        omega
    have hx := hletter (chr 'x') (.inr ⟨33, by decide, by decide⟩)
    have hX := hletter (chr 'X') (.inr ⟨33, by decide, by decide⟩)
    have hb := hletter (chr 'b') (.inr ⟨11, by decide, by decide⟩)
    have hB := hletter (chr 'B') (.inr ⟨11, by decide, by decide⟩)
    rw [List.getElem?_cons_zero, if_pos rfl, if_neg fun h => h.1.elim hx hX,
      if_neg fun h => h.1.elim hb hB]
  | @hexadecimal x digits hx hne =>
    obtain ⟨byte, rest, rfl⟩ := List.exists_cons_of_ne_nil hne
    obtain ⟨d, hd, hlt⟩ := hbelow byte List.mem_cons_self
    have hthird : thirdDigitBelow 16 (chr '0' :: x :: byte :: rest) = true := by
      unfold thirdDigitBelow
      simp only [List.getElem?_cons_succ, List.getElem?_cons_zero, Option.bind_some, hd]
      exact decide_eq_true hlt
    rw [List.getElem?_cons_zero, if_pos rfl,
      if_pos ⟨hx.imp (congrArg some) (congrArg some), hthird⟩]
    rfl

theorem prefixed_eq (h : Unsigned unsigned base digits) (hbelow : DigitsBelow base digits) :
    Number.prefixed 0 unsigned = (base, digits) := by
  have hsame : Number.prefixed 0 unsigned = literalBase unsigned := rfl
  rw [hsame, h.literalBase_eq hbelow]

/-- There are digits behind the prefix of a constant. -/
theorem digits_ne (h : Unsigned unsigned base digits) : digits ≠ [] := by
  cases h with
  | decimal hne _ => exact hne
  | octal rest => exact List.cons_ne_nil _ _
  | hexadecimal _ hne => exact hne

end Unsigned

theorem isAsciiDigit_not {byte : UInt8} (h : isAsciiDigit byte = true) :
    isShellSpace byte = false ∧ isBlank false byte = false ∧ byte ≠ chr '+' ∧ byte ≠ chr '-' ∧
      byte ≠ chr '=' := by
  unfold isAsciiDigit at h
  rw [Bool.and_eq_true, decide_eq_true_iff, decide_eq_true_iff] at h
  refine ⟨?_, ?_, ?_, ?_, ?_⟩
  · unfold isShellSpace
    simp only [Bool.or_eq_false_iff, beq_eq_false_iff_ne, ne_eq]
    refine ⟨⟨⟨⟨⟨?_, ?_⟩, ?_⟩, ?_⟩, ?_⟩, ?_⟩ <;> rintro rfl <;> exact absurd h.1 (by decide)
  · unfold isBlank
    simp only [Bool.false_and, Bool.or_eq_false_iff, beq_eq_false_iff_ne, ne_eq, and_true]
    refine ⟨⟨?_, ?_⟩, ?_⟩ <;> rintro rfl <;> exact absurd h.1 (by decide)
  · rintro rfl
    exact absurd h.1 (by decide)
  · rintro rfl
    exact absurd h.1 (by decide)
  · rintro rfl
    exact absurd h.2 (by decide)

/-! ### Reading a constant -/

namespace IntegerConstant

variable (c : IntegerConstant)

/-- `parse_integer` reads a constant as the number it denotes. -/
theorem parseInteger_eq (h : c.Denotes) :
    parseInteger c.text 0 = some (Int64.ofInt c.number) := by
  obtain ⟨byte, rest, hunsigned, hdigit⟩ := c.shape.first c.below
  obtain ⟨hspace, _, hplus, hminus, _⟩ := isAsciiDigit_not hdigit
  have hread : ∀ limit, limit ≤ u64Max → Number.digits c.base limit 0 c.digits =
      (min c.magnitude limit, []) := fun limit hlimit => by
    have heq := digits_eq c.shape.base_pos hlimit c.below 0
    rwa [Nat.zero_min] at heq
  have hlength : ([] : Bytes).length ≠ c.digits.length := fun hlength =>
    c.shape.digits_ne (List.length_eq_zero_iff.1 hlength.symm)
  obtain ⟨hge, hlt⟩ := h
  unfold number at hge hlt ⊢
  unfold text parseInteger
  cases hsign : c.sign with
  | none =>
    rw [hsign, if_neg (by decide)] at hge hlt
    have hstart : (ConstantSign.bytes .none ++ c.unsigned).dropWhile isShellSpace = c.unsigned := by
      rw [hunsigned]
      exact List.dropWhile_cons_of_neg (by rw [hspace]; decide)
    have hfirst : c.unsigned[0]? = some byte := by rw [hunsigned, List.getElem?_cons_zero]
    simp only [hstart, hfirst, Option.some.injEq, hplus, hminus, or_self, if_false,
      c.shape.prefixed_eq c.below, hread _ (by decide : 2 ^ 63 - 1 ≤ u64Max), if_neg hlength,
      List.dropWhile_nil, ne_eq, not_true_eq_false]
    rw [if_neg (by decide), min_eq_left (by omega)]
  | plus =>
    rw [hsign, if_neg (by decide)] at hge hlt
    have hstart : (ConstantSign.bytes .plus ++ c.unsigned).dropWhile isShellSpace =
        chr '+' :: c.unsigned := List.dropWhile_cons_of_neg (by decide)
    have hne : chr '+' ≠ chr '-' := by decide
    simp only [hstart, List.getElem?_cons_zero, Option.some.injEq, hne, or_false, if_true, if_false,
      List.drop_succ_cons, List.drop_zero,
      c.shape.prefixed_eq c.below, hread _ (by decide : 2 ^ 63 - 1 ≤ u64Max), if_neg hlength,
      List.dropWhile_nil, ne_eq, not_true_eq_false]
    rw [if_neg (by decide), min_eq_left (by omega)]
  | minus =>
    rw [hsign, if_pos rfl] at hge hlt
    have hstart : (ConstantSign.bytes .minus ++ c.unsigned).dropWhile isShellSpace =
        chr '-' :: c.unsigned := List.dropWhile_cons_of_neg (by decide)
    simp only [hstart, List.getElem?_cons_zero, or_true, if_true, if_false,
      List.drop_succ_cons, List.drop_zero,
      c.shape.prefixed_eq c.below, hread _ (by decide : 2 ^ 63 ≤ u64Max), if_neg hlength,
      List.dropWhile_nil, ne_eq, not_true_eq_false]
    rw [min_eq_left (by omega)]

/-- The number of the literal the lexer makes of a constant's digits. -/
def literal : Fin (2 ^ 63) := ⟨min c.magnitude (2 ^ 63 - 1), by omega⟩

/-- The tree the lexer and the prefix operators make of a constant. -/
def expression : Expression :=
  match c.sign with
  | .none => .literal c.literal
  | .plus => .sign .plus (.literal c.literal)
  | .minus => .sign .minus (.literal c.literal)

def signTokens : ConstantSign → List Token
  | .none => []
  | .plus => [.binary .add]
  | .minus => [.binary .subtract]

theorem number_unsigned : Arithmetic.number false c.unsigned =
    (.number (wrap (c.literal.val : Int)), []) := by
  have hread := readDigits_eq c.shape.base_pos c.below 0
  have hzero : saturate ((0 : ℕ) : Int) = 0 := by decide
  have hvalue : saturate (c.magnitude : Int) = wrap (c.literal.val : Int) := by
    have hliteral : c.literal.val = min c.magnitude (2 ^ 63 - 1) := rfl
    rw [hliteral]
    unfold saturate wrap
    congr 1
    omega
  rw [hzero] at hread
  unfold Arithmetic.number
  rw [c.shape.literalBase_eq c.below]
  simp only
  rw [hread]
  simp only [Bool.false_eq_true, false_and, if_false]
  rw [← hvalue]
  rfl

theorem next_unsigned (locale : Locale) :
    next locale false c.unsigned = (.number (wrap (c.literal.val : Int)), []) := by
  obtain ⟨byte, rest, hunsigned, hdigit⟩ := c.shape.first c.below
  have hblank := (isAsciiDigit_not hdigit).2.1
  rw [← c.number_unsigned, hunsigned]
  unfold next
  rw [List.dropWhile_cons_of_neg (by rw [hblank]; decide)]
  simp only
  rw [if_pos hdigit]

theorem tokensFrom_unsigned (locale : Locale) (fuel : ℕ) :
    tokensFrom locale false (fuel + 2) c.unsigned =
      [.number (wrap (c.literal.val : Int)), .eof] := by
  unfold tokensFrom
  rw [c.next_unsigned locale]
  rfl

/-- The tokens of a constant: its sign, and its literal. -/
theorem tokens_text (locale : Locale) : tokens locale false c.text =
    signTokens c.sign ++ [.number (wrap (c.literal.val : Int))] ++ [.eof] := by
  obtain ⟨byte, rest, hunsigned, hdigit⟩ := c.shape.first c.below
  obtain ⟨_, _, _, _, hequals⟩ := isAsciiDigit_not hdigit
  have htake : takeIf (chr '=') c.unsigned = none := by
    rw [hunsigned]
    exact if_neg hequals
  have hlength : c.unsigned.length = rest.length + 1 := by rw [hunsigned, List.length_cons]
  have hsigned : ∀ sign op, binaryOrAssign op c.unsigned = (.binary op, c.unsigned) →
      next locale false (sign :: c.unsigned) = binaryOrAssign op c.unsigned →
      tokens locale false (sign :: c.unsigned) =
        [.binary op, .number (wrap (c.literal.val : Int)), .eof] := by
    intro sign op hop hnext
    unfold tokens
    rw [List.length_cons, hlength, tokensFrom, hnext, hop]
    simp only
    rw [c.tokensFrom_unsigned locale]
  have hbinary : ∀ op, binaryOrAssign op c.unsigned = (.binary op, c.unsigned) := fun op => by
    unfold binaryOrAssign
    rw [htake]
  unfold text
  cases hsign : c.sign with
  | none =>
    change tokensFrom locale false (c.unsigned.length + 1) c.unsigned = _
    rw [hlength, c.tokensFrom_unsigned locale]
    rfl
  | plus => exact hsigned _ .add (hbinary _) rfl
  | minus => exact hsigned _ .subtract (hbinary _) rfl

/-! ### Evaluating a constant -/

theorem signTokens_spell (d : ℕ) :
    Spells (d + 1) 0 (signTokens c.sign ++ [.number (wrap (c.literal.val : Int))])
      c.expression := by
  have hliteral : Spells d 12 [.number (wrap (c.literal.val : Int))] (.literal c.literal) :=
    (Spells.literal c.literal).looser (by decide)
  unfold expression
  cases c.sign with
  | none => exact (Spells.literal c.literal).looser (by decide)
  | plus => exact (Spells.sign .plus hliteral).looser (by decide)
  | minus => exact (Spells.sign .minus hliteral).looser (by decide)

/-- The value of a constant's own text: its number, read from a literal that
    saturates. -/
def textValue : Int64 :=
  wrap (if c.sign = .minus then -(c.literal.val : Int) else c.literal.val)

theorem toInt_wrap_literal : (wrap (c.literal.val : Int)).toInt = c.literal.val := by
  have hlt := c.literal.isLt
  exact Int64.toInt_ofInt_of_le (by omega) (by omega)

theorem expression_value : c.expression.value = .ok c.textValue := by
  have hliteral := c.toInt_wrap_literal
  unfold expression textValue
  cases c.sign with
  | none => rfl
  | plus => rfl
  | minus =>
    refine congrArg Except.ok ?_
    change wrap (-(wrap (c.literal.val : Int)).toInt) = _
    rw [hliteral]
    rfl

theorem expression_everyPower (P : Int64 → Int64 → Prop) : c.expression.EveryPower P := by
  unfold expression
  cases c.sign <;> trivial

/-- The text of a constant evaluates to the literal under its sign. -/
theorem evaluate_text (host : Host W) {shell : Shell W} (hposix : shell.options.dialect ≠ .bash)
    (n : ℕ) : evaluate host (n + 1) c.text shell = .done c.textValue shell := by
  have htokens : shellTokens shell c.text =
      signTokens c.sign ++ [.number (wrap (c.literal.val : Int))] ++ [.eof] := by
    unfold shellTokens
    rw [decide_eq_false hposix]
    exact c.tokens_text shell.locale
  rw [evaluate_tokens host (c.signTokens_spell 0) (by decide) (c.expression_everyPower _) htokens
    (by cases c.sign <;> exact nofun), c.expression_value]
  rfl

theorem textValue_eq (h : c.Denotes) :
    Int64.ofInt c.number = c.textValue ↔ c.number ≠ -2 ^ 63 := by
  obtain ⟨hge, hlt⟩ := h
  have hliteral : c.literal.val = min c.magnitude (2 ^ 63 - 1) := rfl
  have hbound := c.literal.isLt
  have hread : ∀ x : Int, -2 ^ 63 ≤ x → x < 2 ^ 63 → (Int64.ofInt x).toInt = x :=
    fun x hge hlt => Int64.toInt_ofInt_of_le hge hlt
  rw [← Int64.toInt_inj, hread _ hge hlt]
  unfold textValue wrap
  rw [hread _ (by split <;> omega) (by split <;> omega), hliteral]
  unfold number at hge hlt ⊢
  by_cases hsign : c.sign = .minus
  · simp only [if_pos hsign] at hge hlt ⊢
    omega
  · simp only [if_neg hsign] at hge hlt ⊢
    omega

end IntegerConstant

/-! ### Evaluating a name -/

/-- The text is one name: a letter or an underscore, and letters, digits and
    underscores. -/
def IsName (locale : Locale) (name : Bytes) : Prop :=
  ∃ first rest, name = first :: rest ∧ (isAsciiAlphabetic first || first == chr '_') = true ∧
    ∀ byte ∈ rest, nameTail locale byte = true

theorem nameStart {first : UInt8} (h : (isAsciiAlphabetic first || first == chr '_') = true)
    (bash : Bool) : isAsciiDigit first = false ∧ isBlank bash first = false := by
  have hge : chr 'A' ≤ first := by
    rcases Bool.or_eq_true_iff.1 h with h | h
    · unfold isAsciiAlphabetic at h
      rw [Bool.or_eq_true, Bool.and_eq_true, Bool.and_eq_true] at h
      simp only [decide_eq_true_iff] at h
      rcases h with h | h
      · exact UInt8.le_trans (by decide) h.1
      · exact h.1
    · rw [eq_of_beq h]
      decide
  constructor
  · unfold isAsciiDigit
    rw [Bool.and_eq_false_iff, decide_eq_false_iff_not, decide_eq_false_iff_not]
    exact .inr fun hle => absurd (UInt8.le_trans hge hle) (by decide)
  · unfold isBlank
    simp only [Bool.or_eq_false_iff, Bool.and_eq_false_iff, beq_eq_false_iff_ne, ne_eq]
    refine ⟨⟨⟨?_, ?_⟩, ?_⟩, .inr ?_⟩ <;> rintro rfl <;> exact absurd hge (by decide)

theorem tokens_name {locale : Locale} {name : Bytes} (h : IsName locale name) :
    tokens locale false name = [.name ⟨name, none⟩, .eof] := by
  obtain ⟨first, rest, rfl, hfirst, hrest⟩ := h
  obtain ⟨hdigit, hblank⟩ := nameStart hfirst false
  have htoken : nameToken locale false first rest = (.name ⟨first :: rest, none⟩, []) := by
    unfold nameToken
    rw [List.takeWhile_eq_self_iff.2 hrest, List.dropWhile_eq_nil_iff.2 hrest]
    rfl
  have hnext : next locale false (first :: rest) = (.name ⟨first :: rest, none⟩, []) := by
    unfold next
    rw [List.dropWhile_cons_of_neg (by rw [hblank]; decide)]
    simp only
    rw [hdigit, if_neg (by decide), if_pos hfirst, htoken]
  unfold tokens
  rw [tokensFrom, hnext]
  rfl

/-- In the POSIX dialect a name is read through `parse_integer`. -/
theorem evaluate_name (host : Host W) {shell : Shell W} (hposix : shell.options.dialect ≠ .bash)
    {name : Bytes} (hname : IsName shell.locale name) (n : ℕ) :
    evaluate host (n + 1) name shell = lookupIntegerBytes host name shell := by
  let p := setting host (evaluations host n) (evaluations host n) shell name
  have hbash : p.bash = false := decide_eq_false hposix
  have htokens : shellTokens shell name = [.name ⟨name, none⟩, .eof] := by
    unfold shellTokens
    rw [decide_eq_false hposix]
    exact tokens_name hname
  have hprimary : settled p ⟨.primary, true, 0⟩ ⟨shell, [.name ⟨name, none⟩, .eof]⟩ =
      onShell (lookupIntegerBytes host name) ⟨shell, [.eof]⟩ := by
    rw [settled_eq_body]
    change namePrimary p 0 ⟨name, none⟩ true ⟨shell, [.eof]⟩ = _
    have hread : read p 0 ⟨name, none⟩ = onShell (lookupIntegerBytes host name) := by
      change scalar p 0 name = _
      unfold scalar
      rw [hbash]
      rfl
    unfold namePrimary
    rw [if_pos rfl, hread]
    refine bind_stop fun v t ht => ?_
    have hrest : t.rest = [.eof] := keeps_onShell _ _ _ _ ht
    have hcurrent : t.current = .eof := by
      unfold Parser.current
      rw [hrest]
      rfl
    rw [acceptToken_of_ne (by rw [hcurrent]; exact nofun),
      acceptToken_of_ne (by rw [hcurrent]; exact nofun)]
    rfl
  have hassign : ∀ other op rest,
      [Token.name ⟨name, none⟩, .eof] ≠ .name other :: .assign op :: rest := by
    rintro other op rest heq
    injection heq with _ htail
    injection htail with hhead
    cases hhead
  have hwhole : whole p (settled p) 0 ⟨shell, [.name ⟨name, none⟩, .eof]⟩ =
      onShell (lookupIntegerBytes host name) ⟨shell, [.eof]⟩ := by
    rw [whole_primary p hassign fun v t ht => by
      rw [hprimary] at ht
      exact keeps_onShell _ _ _ _ ht, hprimary]
  rw [evaluate_eq_whole host htokens nofun]
  change Run.within _ _ (whole p (settled p) 0) shell = _
  unfold Run.within
  rw [hwhole]
  unfold onShell Run.within
  cases lookupIntegerBytes host name shell <;> rfl

/-- A name whose value is a constant evaluates to the number of the constant. -/
theorem evaluate_name_constant (host : Host W) {shell : Shell W}
    (hposix : shell.options.dialect ≠ .bash) {name : Bytes} (hname : IsName shell.locale name)
    (c : IntegerConstant) (hdenotes : c.Denotes) {read : Shell W}
    (hvalue : lookupBytes host name shell = .done (some c.text) read) (n : ℕ) :
    evaluate host (n + 1) name shell = .done (Int64.ofInt c.number) read := by
  rw [evaluate_name host hposix hname]
  unfold lookupIntegerBytes
  rw [Run.bind_done hvalue, Run.bind_apply, Run.get_apply]
  simp only
  rw [if_neg fun h => nomatch h.1]
  simp only [Option.getD_some, c.parseInteger_eq hdenotes]
  rfl

/-! ### The two readings -/

/-- **A name and its value's text evaluate alike** exactly where the number is not
    the least of 64 bits. -/
theorem evaluate_name_iff (host : Host W) {shell : Shell W}
    (hposix : shell.options.dialect = .posix) {name : Bytes} (hname : IsName shell.locale name)
    (c : IntegerConstant) (hdenotes : c.Denotes) {read : Shell W}
    (hvalue : lookupBytes host name shell = .done (some c.text) read) (n : ℕ) :
    (∃ value after after', evaluate host (n + 1) name shell = .done value after ∧
        evaluate host (n + 1) c.text shell = .done value after') ↔ c.number ≠ -2 ^ 63 := by
  have hbash : shell.options.dialect ≠ .bash := by rw [hposix]; exact nofun
  rw [evaluate_name_constant host hbash hname c hdenotes hvalue, c.evaluate_text host hbash,
    ← c.textValue_eq hdenotes]
  constructor
  · rintro ⟨value, after, after', hleft, hright⟩
    injection hleft with hleft
    injection hright with hright
    rw [hleft, hright]
  · intro heq
    exact ⟨_, read, shell, rfl, by rw [heq]⟩

/-- `-0x1F`. -/
def minusThirtyOne : IntegerConstant where
  sign := .minus
  unsigned := text "0x1F"
  base := 16
  digits := text "1F"
  shape := .hexadecimal (.inl rfl) nofun
  below := by decide +kernel

/-- The least number of 64 bits. -/
def least : IntegerConstant where
  sign := .minus
  unsigned := text "9223372036854775808"
  base := 10
  digits := text "9223372036854775808"
  shape := .decimal nofun (by decide)
  below := by decide +kernel

/-- A POSIX shell after `x=value`. -/
def assignedShell (value : Bytes) : Shell Unit :=
  (freshShell .posix).insert (text "x") (Variable.fresh (.set (.scalar value)) {} .none)

theorem lookup_assignedShell (value : Bytes) :
    lookupBytes Host.plain (text "x") (assignedShell value) =
      .done (some value) (assignedShell value) := rfl

theorem isName_x (value : Bytes) : IsName (assignedShell value).locale (text "x") :=
  ⟨chr 'x', [], rfl, by decide, nofun⟩

theorem evaluate_name_minusThirtyOne : ∃ value after after',
    evaluate Host.plain 1 (text "x") (assignedShell minusThirtyOne.text) = .done value after ∧
      evaluate Host.plain 1 minusThirtyOne.text (assignedShell minusThirtyOne.text) =
        .done value after' :=
  (evaluate_name_iff Host.plain rfl (isName_x _) minusThirtyOne (by decide)
    (lookup_assignedShell _) 0).2 (by decide)

/-- `x=-9223372036854775808`: `$((x))` is the least number, and `$(($x))` the one
    after it. -/
theorem not_evaluate_name :
    least.text = text "-9223372036854775808" ∧ least.Denotes ∧
      evaluate Host.plain 1 (text "x") (assignedShell least.text) =
        .done Int64.minValue (assignedShell least.text) ∧
      evaluate Host.plain 1 least.text (assignedShell least.text) =
        .done (Int64.minValue + 1) (assignedShell least.text) := by
  have hposix : (assignedShell least.text).options.dialect ≠ .bash := nofun
  refine ⟨by decide, by decide, ?_, ?_⟩
  · rw [evaluate_name_constant Host.plain hposix (isName_x _) least (by decide)
      (lookup_assignedShell _)]
    rfl
  · rw [least.evaluate_text Host.plain hposix]
    rfl

end Nsh.Arithmetic
