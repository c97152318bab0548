import Nsh.Arithmetic.Lexer
import Mathlib.Data.Nat.Digits.Lemmas
import Mathlib.Tactic.IntervalCases

/-!
# Spelling tokens

Literals and operators written with a blank between each two are read back as
they were written (`tokens_spelled`).  A literal is written in decimal.
-/

namespace Nsh.Arithmetic

/-! ### The spelling of one token -/

namespace BinaryOperator

def spelling : BinaryOperator → Bytes
  | .lessEqual => text "<="
  | .greaterEqual => text ">="
  | .less => text "<"
  | .greater => text ">"
  | .equal => text "=="
  | .remainder => text "%"
  | .bitAnd => text "&"
  | .shiftLeft => text "<<"
  | .shiftRight => text ">>"
  | .multiply => text "*"
  | .add => text "+"
  | .bitOr => text "|"
  | .subtract => text "-"
  | .bitXor => text "^"
  | .divide => text "/"
  | .notEqual => text "!="
  | .power => text "**"

end BinaryOperator

namespace Token

/-- The text of a literal or of an operator that assigns nothing. -/
def spelling : Token → Bytes
  | .eof | .bad | .name _ | .assign _ | .increment | .decrement => []
  | .number value => decimalNat value.toInt.natAbs
  | .logicalOr => text "||"
  | .logicalAnd => text "&&"
  | .not => text "!"
  | .bitNot => text "~"
  | .binary op => op.spelling
  | .power => text "**"
  | .comma => text ","
  | .lParen => text "("
  | .rParen => text ")"
  | .question => text "?"
  | .colon => text ":"

/-- The literals and operators of a dialect that an expression without names is
    made of. -/
def Spellable (bash : Bool) : Token → Prop
  | .number value => 0 ≤ value.toInt
  | .binary op => op ≠ .power
  | .logicalOr | .logicalAnd | .not | .bitNot | .lParen | .rParen | .question | .colon => True
  | .power | .comma => bash = true
  | _ => False

end Token

/-- Tokens with a blank between each two. -/
def spelled : List Token → Bytes
  | [] => []
  | [token] => token.spelling
  | token :: tokens => token.spelling ++ chr ' ' :: spelled tokens

/-- What may stand behind a token: nothing, or a blank. -/
def Separated (rest : Bytes) : Prop := rest = [] ∨ ∃ rest', rest = chr ' ' :: rest'

/-! ### Decimal literals -/

theorem digitValue_digitByte {d : Nat} (h : d < 10) :
    Number.digitValue (digitByte d) = some d := by
  interval_cases d <;> decide

theorem accumulate_ofNat {n d : Nat} (h : 10 * n + d < 2 ^ 63) :
    accumulate 10 (Int64.ofNat n) d = Int64.ofNat (10 * n + d) := by
  have hn : (Int64.ofNat n).toInt = n := Int64.toInt_ofNat_of_lt (by omega)
  have hm : (Int64.ofNat (10 * n)).toInt = (10 * n : Nat) := Int64.toInt_ofNat_of_lt (by omega)
  have hfirst : saturate ((Int64.ofNat n).toInt * (10 : Nat)) = Int64.ofNat (10 * n) := by
    unfold saturate
    rw [hn, max_eq_right (by omega), min_eq_left (by omega), mul_comm]
    rfl
  unfold accumulate
  rw [hfirst, hm]
  unfold saturate
  rw [max_eq_right (by omega), min_eq_left (by omega)]
  rfl

/-- The digits of a number are read as that number. -/
theorem readDigits_digits (n : Nat) (h : n < 2 ^ 63) (rest : Bytes) :
    readDigits Number.digitValue 10 0 ((Nat.digits 10 n).reverse.map digitByte ++ rest) =
      readDigits Number.digitValue 10 (Int64.ofNat n) rest := by
  induction n using Nat.strong_induction_on generalizing rest with
  | _ n ih =>
    by_cases hn : n = 0
    · subst hn
      rfl
    · have hlt : n / 10 < n := Nat.div_lt_self (Nat.pos_of_ne_zero hn) (by decide)
      have hdigit : n % 10 < 10 := Nat.mod_lt _ (by decide)
      rw [Nat.digits_def' (by decide) (Nat.pos_of_ne_zero hn), List.reverse_cons, List.map_append,
        List.append_assoc, ih (n / 10) hlt (by omega)]
      simp only [List.map_cons, List.map_nil, List.cons_append, List.nil_append]
      rw [readDigits, digitValue_digitByte hdigit]
      simp only
      rw [if_neg (by omega), accumulate_ofNat (by omega)]
      congr 2
      omega

/-- A number is written with a first digit that is zero only for zero itself. -/
theorem decimalNat_cons (n : Nat) : ∃ d rest, d < 10 ∧ decimalNat n = digitByte d :: rest ∧
    (d = 0 → n = 0) := by
  unfold decimalNat
  by_cases hn : n = 0
  · exact ⟨0, [], by decide, by rw [if_pos hn]; decide, fun _ => hn⟩
  · have hne : Nat.digits 10 n ≠ [] := Nat.digits_ne_nil_iff_ne_zero.mpr hn
    have hlast := Nat.getLast_digit_ne_zero 10 hn
    refine ⟨(Nat.digits 10 n).getLast hne, ((Nat.digits 10 n).dropLast.reverse).map digitByte,
      Nat.digits_lt_base (by decide) (List.getLast_mem hne), ?_, fun h => absurd h hlast⟩
    rw [if_neg hn]
    conv_lhs => rw [← List.dropLast_append_getLast hne]
    rw [List.reverse_append, List.reverse_singleton, List.singleton_append, List.map_cons]

theorem digitByte_isAsciiDigit {d : Nat} (h : d < 10) : isAsciiDigit (digitByte d) = true := by
  interval_cases d <;> decide

theorem digitByte_not_blank (bash : Bool) {d : Nat} (h : d < 10) :
    isBlank bash (digitByte d) = false := by
  cases bash <;> interval_cases d <;> decide

theorem digitByte_ne_zero {d : Nat} (h : d < 10) (hd : d ≠ 0) : digitByte d ≠ chr '0' := by
  interval_cases d
  · exact absurd rfl hd
  all_goals decide

/-- No digit stands behind a separated literal. -/
theorem readDigits_separated (base : Nat) (value : Int64) {rest : Bytes} (h : Separated rest) :
    readDigits Number.digitValue base value rest = (value, rest) := by
  rcases h with rfl | ⟨rest', rfl⟩
  · rfl
  · have hblank : Number.digitValue (chr ' ') = none := by decide
    rw [readDigits, hblank]

theorem number_decimalNat (bash : Bool) {n : Nat} (h : n < 2 ^ 63) {rest : Bytes}
    (hrest : Separated rest) :
    number bash (decimalNat n ++ rest) = (.number (Int64.ofNat n), rest) := by
  have hhash : rest[0]? ≠ some (chr '#') := by
    rcases hrest with rfl | ⟨rest', rfl⟩
    · exact nofun
    · rw [List.getElem?_cons_zero]
      decide
  suffices h : ∃ base, literalBase (decimalNat n ++ rest) = (base, decimalNat n ++ rest) ∧
      readDigits Number.digitValue base 0 (decimalNat n ++ rest) = (Int64.ofNat n, rest) by
    obtain ⟨base, hbase, hread⟩ := h
    unfold number
    rw [hbase]
    simp only
    rw [hread]
    simp only
    rw [if_neg fun h => hhash h.2.1]
  by_cases hn : n = 0
  · subst hn
    refine ⟨8, ?_, ?_⟩
    · rcases hrest with rfl | ⟨rest', rfl⟩ <;> rfl
    · exact readDigits_separated 8 0 hrest
  · refine ⟨10, ?_, ?_⟩
    · obtain ⟨d, digits, hd, heq, hzero⟩ := decimalNat_cons n
      unfold literalBase
      rw [heq, List.cons_append, List.getElem?_cons_zero, if_neg]
      intro hfirst
      exact digitByte_ne_zero hd (fun h => hn (hzero h)) (Option.some.inj hfirst)
    · unfold decimalNat
      rw [if_neg hn, readDigits_digits n h rest, readDigits_separated 10 _ hrest]

/-! ### The scan of a spelled text -/

theorem next_blank (locale : Locale) (bash : Bool) (input : Bytes) :
    next locale bash (chr ' ' :: input) = next locale bash input := by
  have h : isBlank bash (chr ' ') = true := by cases bash <;> decide
  unfold next
  rw [List.dropWhile_cons_of_pos h]

/-- A spelled token is read back. -/
theorem next_spelling (locale : Locale) {bash : Bool} {token : Token}
    (h : token.Spellable bash) {rest : Bytes} (hrest : Separated rest) :
    next locale bash (token.spelling ++ rest) = (token, rest) := by
  cases token with
  | number value =>
    obtain ⟨d, digits, hd, heq, -⟩ := decimalNat_cons value.toInt.natAbs
    have hvalue : Int64.ofNat value.toInt.natAbs = value := by
      have hnonneg : 0 ≤ value.toInt := h
      have hcast : ((value.toInt.natAbs : Nat) : Int) = value.toInt := Int.natAbs_of_nonneg hnonneg
      have hofInt : Int64.ofNat value.toInt.natAbs = Int64.ofInt (value.toInt.natAbs : Int) := rfl
      rw [hofInt, hcast, Int64.ofInt_toInt]
    have hlt : value.toInt.natAbs < 2 ^ 63 := by
      have hle : value.toInt ≤ Int64.maxValue.toInt := Int64.toInt_le value
      have hmax : Int64.maxValue.toInt = 2 ^ 63 - 1 := by decide
      have hnonneg : 0 ≤ value.toInt := h
      omega
    have hnumber := number_decimalNat bash hlt hrest
    rw [hvalue] at hnumber
    change next locale bash (decimalNat value.toInt.natAbs ++ rest) = _
    unfold next
    rw [heq, List.cons_append, List.dropWhile_cons_of_neg (by simp [digitByte_not_blank bash hd])]
    simp only
    rw [if_pos (digitByte_isAsciiDigit hd), ← List.cons_append, ← heq, hnumber]
  | binary op =>
    rcases hrest with rfl | ⟨rest', rfl⟩ <;> cases bash <;> cases op <;>
      first | rfl | exact absurd rfl (show BinaryOperator.power ≠ .power from h)
  | eof | bad | name | assign | increment | decrement => exact absurd h id
  | power | comma =>
    cases h
    rcases hrest with rfl | ⟨rest', rfl⟩ <;> rfl
  | logicalOr | logicalAnd | not | bitNot | lParen | rParen | question | colon =>
    rcases hrest with rfl | ⟨rest', rfl⟩ <;> cases bash <;> rfl

theorem spelling_length_pos {bash : Bool} {token : Token} (h : token.Spellable bash) :
    0 < token.spelling.length := by
  cases token with
  | number value =>
    obtain ⟨d, digits, -, heq, -⟩ := decimalNat_cons value.toInt.natAbs
    change 0 < (decimalNat value.toInt.natAbs).length
    rw [heq]
    exact Nat.succ_pos _
  | binary op => cases op <;> decide
  | eof | bad | name | assign | increment | decrement => exact absurd h id
  | power | comma | logicalOr | logicalAnd | not | bitNot | lParen | rParen | question | colon =>
    decide

theorem length_le_spelled {bash : Bool} {list : List Token}
    (h : ∀ token ∈ list, token.Spellable bash) : list.length ≤ (spelled list).length := by
  induction list with
  | nil => exact Nat.zero_le _
  | cons token list ih =>
    have hpos := spelling_length_pos (h token List.mem_cons_self)
    have hrest := ih fun t ht => h t (List.mem_cons_of_mem _ ht)
    cases list with
    | nil => exact hpos
    | cons next list =>
      simp only [spelled, List.length_append, List.length_cons] at hrest ⊢
      omega

theorem ne_eof_of_spellable {bash : Bool} {token : Token} (h : token.Spellable bash) :
    token ≠ .eof := by
  rintro rfl
  exact h

theorem tokensFrom_spelled (locale : Locale) {bash : Bool} {list : List Token}
    (h : ∀ token ∈ list, token.Spellable bash) {fuel : Nat} (hfuel : list.length < fuel) :
    tokensFrom locale bash fuel (spelled list) = list ++ [.eof] := by
  induction list generalizing fuel with
  | nil =>
    obtain ⟨fuel, rfl⟩ : ∃ n, fuel = n + 1 := ⟨fuel - 1, by omega⟩
    rfl
  | cons token list ih =>
    obtain ⟨fuel, rfl⟩ : ∃ n, fuel = n + 1 := ⟨fuel - 1, by omega⟩
    have htoken := h token List.mem_cons_self
    have hfuel' : list.length < fuel := by
      simp only [List.length_cons] at hfuel
      omega
    have htail := ih (fun t ht => h t (List.mem_cons_of_mem _ ht)) hfuel'
    -- The blank in front of the next token is skipped with it.
    have hstep : ∃ rest, next locale bash (spelled (token :: list)) = (token, rest) ∧
        tokensFrom locale bash fuel rest = tokensFrom locale bash fuel (spelled list) := by
      cases list with
      | nil =>
        have hnext := next_spelling locale htoken (Or.inl rfl : Separated [])
        rw [List.append_nil] at hnext
        exact ⟨[], hnext, rfl⟩
      | cons token' list =>
        refine ⟨chr ' ' :: spelled (token' :: list),
          next_spelling locale htoken (Or.inr ⟨_, rfl⟩), ?_⟩
        cases fuel with
        | zero => rfl
        | succ fuel => rw [tokensFrom, tokensFrom, next_blank]
    obtain ⟨rest, hnext, hrest⟩ := hstep
    rw [tokensFrom, hnext]
    split
    · next heq => exact absurd (congrArg Prod.fst heq) (ne_eof_of_spellable htoken)
    · next first rest' _ heq =>
      cases heq
      rw [hrest, htail, List.cons_append]

/-- **A text of literals and operators is read back as it was written.** -/
theorem tokens_spelled (locale : Locale) {bash : Bool} {list : List Token}
    (h : ∀ token ∈ list, token.Spellable bash) :
    tokens locale bash (spelled list) = list ++ [.eof] :=
  tokensFrom_spelled locale h (Nat.lt_succ_of_le (length_le_spelled h))

end Nsh.Arithmetic
