import Nsh.Lib.Exact
import Nsh.Lib.Spending
import Nsh.Shell.Bytes

/-!
# Sequence braces

`{first..last}` and `{first..last..step}` stand for the numbers, or the letters, from the
one operand to the other.  A sequence is counted and charged against what one brace
expansion may spend before any of it is built.  Sums that leave the range of a machine
word are remembered: a build that checks for overflow stops there.
-/

namespace Nsh.Expand.Brace

/-- One unit of a word: a byte with its quotedness, or an expansion that nothing here looks
    into. -/
inductive WordUnit (Part : Type) where
  | literal (byte : UInt8) (quoted : Bool)
  | part (part : Part)
deriving DecidableEq, Repr

variable {Part : Type}

/-- Which limit the budget ran out of. -/
inductive Refused where
  | words
  | depth
deriving DecidableEq, Repr

/-- A step of the expansion, in the words that may still be built. -/
abbrev Spend := Spending Refused

/-- `Budget::charge`. -/
def charge (count : Nat) : Spend Unit := Spending.charge .words count

/-! ### The operands -/

/-- The byte of an unquoted literal. -/
def WordUnit.unquoted : WordUnit Part → Option UInt8
  | .literal byte false => some byte
  | _ => none

/-- The amble's bytes, when every unit is an unquoted literal. -/
def literalText (units : List (WordUnit Part)) : Option Bytes := units.mapM WordUnit.unquoted

/-- `split_str("..")`. -/
def splitDots : Bytes → List Bytes
  | [] => [[]]
  | [byte] => [[byte]]
  | byte :: next :: rest =>
    if byte = chr '.' ∧ next = chr '.' then [] :: splitDots rest
    else (splitDots (next :: rest)).modifyHead (byte :: ·)

def pushDigit (value : Int64) (byte : UInt8) : Option Int64 :=
  (Summed.mul value 10).checked.bind fun value =>
    (Summed.add value (Int64.ofNat (byte - chr '0').toNat)).checked

def parseInteger (term : Bytes) : Option Int64 :=
  let (sign, digits) : Int64 × Bytes :=
    match term with
    | [] => (1, term)
    | byte :: rest =>
      if byte = chr '-' then (-1, rest) else if byte = chr '+' then (1, rest) else (1, term)
  if digits = [] ∨ ¬ digits.all isAsciiDigit then none
  else (digits.foldlM pushDigit 0).map (sign * ·)

/-- Whether a zero-padded operand asks for a width. -/
def padded (term : Bytes) : Bool :=
  let digits := if term.head? = some (chr '-') then term.tail else term
  decide (1 < digits.length) && decide (digits.head? = some (chr '0'))

def paddedWidth (first last : Bytes) : Nat :=
  if padded first || padded last then max first.length last.length else 0

def renderInteger (value : Int64) (width : Nat) : Bytes :=
  let digits := decimalNat value.toInt.natAbs
  let sign := if value < 0 then [chr '-'] else []
  sign ++ List.replicate (width - (digits.length + sign.length)) (chr '0') ++ digits

/-! ### The items -/

def increment (step : Option Int64) (start stop : Int64) : Summed Int64 := do
  let magnitude ← step.elim (pure 1) Summed.abs
  if start ≤ stop then pure (max magnitude 1) else Summed.neg (max magnitude 1)

/-- How many items a sequence has, charged before any of them is built. -/
def sequenceLength (start stop step : Int64) : Spend Nat :=
  match (Summed.sub stop start).checked with
  | none => throw .words
  | some span => do
    let count := span.toInt.natAbs / max step.toInt.natAbs 1 + 1
    charge count
    return count

def numericItems (width : Nat) (step : Int64) : Nat → Int64 → List Bytes
  | 0, _ => []
  | count + 1, value =>
    renderInteger value width :: numericItems width step count (Summed.saturatingAdd value step)

def numericSequence (first last : Bytes) (step : Option Int64) :
    Spend (Option (Summed (List Bytes))) :=
  match parseInteger first, parseInteger last with
  | some start, some stop => do
    let width := paddedWidth first last
    let step := increment step start stop
    let count ← sequenceLength start stop step.value
    return some (step >>= fun step => pure (numericItems width step count start))
  | _, _ => return none

/-- `u8::try_from(value).unwrap_or(b'?')`. -/
def letterByte (value : Int64) : UInt8 :=
  if 0 ≤ value.toInt ∧ value.toInt < 256 then UInt8.ofNat value.toInt.toNat else chr '?'

def characterItems (step : Int64) : Nat → Int64 → Summed (List Bytes)
  | 0, _ => pure []
  | count + 1, value => do
    let next ← Summed.add value step
    let items ← characterItems step count next
    return [letterByte value] :: items

def characterSequence (first last : Bytes) (step : Option Int64) :
    Spend (Option (Summed (List Bytes))) :=
  match first, last with
  | [first], [last] =>
    if isAsciiAlphabetic first && isAsciiAlphabetic last then do
      let start := Int64.ofNat first.toNat
      let stop := Int64.ofNat last.toNat
      let step := increment step start stop
      let count ← sequenceLength start stop step.value
      return some (step >>= fun step => characterItems step count start)
    else return none
  | _, _ => return none

/-- The items of two operands and a step. -/
def sequenceItems (first last : Bytes) (step : Option Int64) :
    Spend (Option (Summed (List Bytes))) := do
  let numeric ← numericSequence first last step
  let letters ← characterSequence first last step
  return numeric.or letters

/-- The terms of a sequence: two operands, and a step or none. -/
def sequenceTerms : List Bytes → Spend (Option (Summed (List Bytes)))
  | [first, last] => sequenceItems first last none
  | [first, last, step] =>
    match parseInteger step with
    | some step => sequenceItems first last (some step)
    | none => return none
  | _ => return none

/-- Unquoted bytes as units. -/
def plain (term : Bytes) : List (WordUnit Part) := term.map fun byte => .literal byte false

def sequence (amble : List (WordUnit Part)) :
    Spend (Option (Summed (List (List (WordUnit Part))))) :=
  match literalText amble with
  | none => return none
  | some text => do
    let items ← sequenceTerms (splitDots text)
    return items.map fun items => items >>= fun items => pure (items.map plain)

/-! ### What a sequence stands for -/

/-- The integers from `first` towards `last`, this far apart, that are not past `last`. -/
def progression (first last : Int) (stride : Nat) : List Int :=
  (List.range ((last - first).natAbs / stride + 1)).map fun k : Nat =>
    if first ≤ last then first + k * stride else first - k * stride

/-- An integer in decimal, its digits padded with zeros to this width. -/
def writtenInteger (width : Nat) (value : Int) : Bytes :=
  if value < 0 then chr '-' :: (decimalNat value.natAbs).leftpad (width - 1) (chr '0')
  else (decimalNat value.natAbs).leftpad width (chr '0')

def writtenLetter (value : Int) : Bytes := [UInt8.ofNat value.toNat]

section

variable {first last : Int} {stride : Nat}

theorem progression_between (hpos : 0 < stride) :
    ∀ value ∈ progression first last stride, min first last ≤ value ∧ value ≤ max first last := by
  intro value hmem
  obtain ⟨k, hk, rfl⟩ := List.mem_map.mp hmem
  have hle : k * stride ≤ (last - first).natAbs :=
    (Nat.le_div_iff_mul_le hpos).mp (Nat.lt_succ_iff.mp (List.mem_range.mp hk))
  have hcast : (k : Int) * stride = (k * stride : Nat) := by simp
  rw [hcast]
  split <;> omega

end

/-! ### The operands -/

section

variable {term first last : Bytes} {value start stop : Int64}

theorem pushDigit_nonneg {value' : Int64} {byte : UInt8} (hnonneg : 0 ≤ value.toInt)
    (h : pushDigit value byte = some value') : 0 ≤ value'.toInt := by
  obtain ⟨product, hproduct, hsum⟩ := Option.bind_eq_some_iff.mp h
  obtain ⟨hfits, rfl⟩ := Summed.checked_eq_some hproduct
  obtain ⟨hfits', rfl⟩ := Summed.checked_eq_some hsum
  have hdigit : (Int64.ofNat (byte - chr '0').toNat).toInt = (byte - chr '0').toNat :=
    Int64.toInt_ofNat_of_lt (by have := (byte - chr '0').toNat_lt; omega)
  rw [Summed.toInt_add hfits', Summed.toInt_mul hfits, hdigit,
    show (10 : Int64).toInt = 10 from rfl]
  omega

theorem foldlM_pushDigit_nonneg {digits : Bytes} {value' : Int64} (hnonneg : 0 ≤ value.toInt)
    (h : digits.foldlM pushDigit value = some value') : 0 ≤ value'.toInt := by
  induction digits generalizing value with
  | nil =>
    obtain rfl : value = value' := Option.some.inj h
    exact hnonneg
  | cons byte digits ih =>
    rw [List.foldlM_cons] at h
    obtain ⟨next, hnext, hrest⟩ := Option.bind_eq_some_iff.mp h
    exact ih (pushDigit_nonneg hnonneg hnext) hrest

/-- An accepted integer is a sign, if any, and digits; and it is not the least word. -/
theorem parseInteger_eq_some (h : parseInteger term = some value) :
    -2 ^ 63 < value.toInt ∧ term ≠ [] ∧
      ∀ byte ∈ term, isAsciiDigit byte = true ∨ byte = chr '-' ∨ byte = chr '+' := by
  -- the sign and the digits
  have hshape (sign : Int64) (digits : Bytes) (hsign : sign = 1 ∨ sign = -1)
      (h : (if digits = [] ∨ ¬ digits.all isAsciiDigit then none
        else (digits.foldlM pushDigit 0).map (sign * ·)) = some value) :
      -2 ^ 63 < value.toInt ∧ ∀ byte ∈ digits, isAsciiDigit byte = true := by
    split at h
    · cases h
    · next hdigits =>
      obtain ⟨magnitude, hmagnitude, rfl⟩ := Option.map_eq_some_iff.mp h
      have hnonneg :=
        foldlM_pushDigit_nonneg (show 0 ≤ (0 : Int64).toInt from le_refl 0) hmagnitude
      have hhigh := magnitude.toInt_lt
      refine ⟨?_, ?_⟩
      · rcases hsign with rfl | rfl
        · rw [Int64.one_mul]
          omega
        · rw [Int64.neg_mul, Int64.one_mul]
          have hfits : Summed.fits (-magnitude.toInt) = true := by
            rw [Summed.fits_iff]
            omega
          have hneg := Summed.toInt_neg hfits
          rw [show (Summed.neg magnitude).value = -magnitude from rfl] at hneg
          omega
      · intro byte hmem
        by_contra hnot
        exact hdigits (Or.inr fun hall => hnot (List.all_eq_true.mp hall byte hmem))
  cases term with
  | nil => simp [parseInteger] at h
  | cons byte rest =>
    rw [parseInteger] at h
    by_cases hminus : byte = chr '-'
    · simp only [if_pos hminus] at h
      obtain ⟨hlow, hdigits⟩ := hshape _ _ (Or.inr rfl) h
      refine ⟨hlow, List.cons_ne_nil byte rest, ?_⟩
      rintro b (_ | ⟨_, hmem⟩)
      · exact Or.inr (Or.inl hminus)
      · exact Or.inl (hdigits b hmem)
    · by_cases hplus : byte = chr '+'
      · simp only [if_neg hminus, if_pos hplus] at h
        obtain ⟨hlow, hdigits⟩ := hshape _ _ (Or.inl rfl) h
        refine ⟨hlow, List.cons_ne_nil byte rest, ?_⟩
        rintro b (_ | ⟨_, hmem⟩)
        · exact Or.inr (Or.inr hplus)
        · exact Or.inl (hdigits b hmem)
      · simp only [if_neg hminus, if_neg hplus] at h
        obtain ⟨hlow, hdigits⟩ := hshape _ _ (Or.inl rfl) h
        exact ⟨hlow, List.cons_ne_nil byte rest, fun b hmem => Or.inl (hdigits b hmem)⟩

/-- An accepted integer holds no dot and is no letter. -/
theorem parseInteger_bytes (h : parseInteger term = some value) :
    ∀ byte ∈ term, byte ≠ chr '.' ∧ isAsciiAlphabetic byte = false := by
  have hdigit : ∀ byte : UInt8, isAsciiDigit byte = true →
      byte ≠ chr '.' ∧ isAsciiAlphabetic byte = false := by
    intro byte hdigit
    simp only [isAsciiDigit, Bool.and_eq_true, decide_eq_true_eq, UInt8.le_iff_toNat_le] at hdigit
    have hlow : 48 ≤ byte.toNat := hdigit.1
    have hhigh : byte.toNat ≤ 57 := hdigit.2
    refine ⟨?_, ?_⟩
    · rintro rfl
      exact absurd hlow (by decide)
    · simp only [isAsciiAlphabetic, Bool.or_eq_false_iff, Bool.and_eq_false_iff,
        decide_eq_false_iff_not, UInt8.le_iff_toNat_le, not_le]
      exact ⟨Or.inl (Nat.lt_of_le_of_lt hhigh (by decide)),
        Or.inl (Nat.lt_of_le_of_lt hhigh (by decide))⟩
  intro byte hmem
  rcases (parseInteger_eq_some h).2.2 byte hmem with hd | rfl | rfl
  · exact hdigit byte hd
  · decide
  · decide

theorem parseInteger_letter {letter : UInt8} (h : isAsciiAlphabetic letter = true) :
    parseInteger [letter] = none := by
  cases hparse : parseInteger [letter] with
  | none => rfl
  | some value =>
    have hnot := (parseInteger_bytes hparse letter List.mem_cons_self).2
    rw [h] at hnot
    cases hnot

theorem splitDots_of_not_mem (h : chr '.' ∉ term) : splitDots term = [term] := by
  induction term with
  | nil => rfl
  | cons byte rest ih =>
    rw [List.mem_cons, not_or] at h
    cases rest with
    | nil => rfl
    | cons next rest =>
      rw [splitDots, if_neg fun hdots => h.1 hdots.1.symm, ih h.2]
      rfl

theorem splitDots_append (h : chr '.' ∉ first) (rest : Bytes) :
    splitDots (first ++ chr '.' :: chr '.' :: rest) = first :: splitDots rest := by
  induction first with
  | nil => rw [List.nil_append, splitDots, if_pos ⟨rfl, rfl⟩]
  | cons byte first ih =>
    rw [List.mem_cons, not_or] at h
    have hrest := ih h.2
    cases hcons : first ++ chr '.' :: chr '.' :: rest with
    | nil => simp at hcons
    | cons next others =>
      rw [hcons] at hrest
      rw [List.cons_append, hcons, splitDots, if_neg fun hdots => h.1 hdots.1.symm, hrest]
      rfl

theorem literalText_plain (term : Bytes) :
    literalText (plain term : List (WordUnit Part)) = some term := by
  induction term with
  | nil => rfl
  | cons byte rest ih =>
    rw [literalText] at ih ⊢
    rw [plain, List.map_cons, List.mapM_cons]
    show (some byte >>= fun b => _) = _
    rw [plain] at ih
    rw [ih]
    rfl

end

/-! ### The items -/

section

variable {start stop step value : Int64} {count width : Nat}

/-- The distance between the items of a step. -/
def stride (step : Option Int64) : Nat := max (step.elim 1 fun step => step.toInt.natAbs) 1

theorem increment_eq {step : Option Int64} (hstep : ∀ n ∈ step, -2 ^ 63 < n.toInt)
    (start stop : Int64) :
    (increment step start stop).exact = true ∧
      (increment step start stop).value.toInt =
        if start.toInt ≤ stop.toInt then (stride step : Int) else -(stride step : Int) := by
  have hmagnitude : (step.elim (pure 1) Summed.abs).exact = true ∧
      (step.elim (pure 1) Summed.abs).value.toInt =
        (step.elim 1 fun step => step.toInt.natAbs : Nat) := by
    cases step with
    | none => exact ⟨rfl, rfl⟩
    | some n => exact Summed.abs_exact (hstep n rfl)
  obtain ⟨hexact, hvalue⟩ := hmagnitude
  unfold increment
  generalize step.elim (pure 1) Summed.abs = magnitude at hexact hvalue
  have hmax : (max magnitude.value 1).toInt = (stride step : Int) := by
    rw [toInt_max, hvalue, stride, Nat.cast_max]
    rfl
  have hbig : (stride step : Int) < 2 ^ 63 := by
    rw [← hmax]
    exact Int64.toInt_lt _
  show (magnitude.exact && (if start ≤ stop then pure (max magnitude.value 1)
    else Summed.neg (max magnitude.value 1)).exact) = true ∧
      (if start ≤ stop then pure (max magnitude.value 1)
        else Summed.neg (max magnitude.value 1)).value.toInt = _
  rw [hexact, Bool.true_and]
  by_cases hle : start ≤ stop
  · rw [if_pos hle, if_pos (Int64.le_iff_toInt_le.mp hle)]
    exact ⟨rfl, hmax⟩
  · have hfits : Summed.fits (-(max magnitude.value 1).toInt) = true := by
      rw [Summed.fits_iff, hmax]
      omega
    rw [if_neg hle, if_neg (Int64.le_iff_toInt_le.not.mp hle)]
    exact ⟨hfits, (Summed.toInt_neg hfits).trans (by rw [hmax])⟩

theorem renderInteger_eq (value : Int64) (width : Nat) :
    renderInteger value width = writtenInteger width value.toInt := by
  have hzero : (0 : Int64).toInt = 0 := rfl
  unfold renderInteger writtenInteger List.leftpad
  by_cases hneg : value < 0
  · have hneg' : value.toInt < 0 := by rwa [Int64.lt_iff_toInt_lt, hzero] at hneg
    simp only [if_pos hneg, if_pos hneg']
    rw [List.length_singleton, Nat.sub_sub, Nat.add_comm 1]
    rfl
  · have hneg' : ¬ value.toInt < 0 := by rwa [Int64.lt_iff_toInt_lt, hzero] at hneg
    simp only [if_neg hneg, if_neg hneg']
    rfl

/-- The numbers, as long as none of them leaves the range of a word. -/
theorem numericItems_eq
    (hfits : ∀ k : Nat, k < count → Summed.fits (value.toInt + k * step.toInt) = true) :
    numericItems width step count value =
      (List.range count).map fun k : Nat =>
        writtenInteger width (value.toInt + k * step.toInt) := by
  induction count generalizing value with
  | zero => rfl
  | succ count ih =>
    rw [numericItems, List.range_succ_eq_map, List.map_cons, List.map_map,
      renderInteger_eq, show (value.toInt + ((0 : Nat) : Int) * step.toInt) = value.toInt by simp]
    refine congrArg _ ?_
    rcases Nat.eq_zero_or_pos count with rfl | hpos
    · rfl
    · have hnext : Summed.fits (value.toInt + step.toInt) = true := by
        have := hfits 1 (by omega)
        rwa [Nat.cast_one, one_mul] at this
      have hvalue := Summed.toInt_saturatingAdd hnext
      have hshift (k : Nat) : (Summed.saturatingAdd value step).toInt + k * step.toInt =
          value.toInt + (k + 1 : Nat) * step.toInt := by
        rw [hvalue, Nat.cast_add, Nat.cast_one, Int.add_mul, Int.one_mul]
        omega
      rw [ih fun k hk => by rw [hshift]; exact hfits (k + 1) (by omega)]
      exact List.map_congr_left fun k _ => by rw [hshift]; rfl

/-- The letters, and that every sum is exact where the one past the last is. -/
theorem characterItems_eq
    (hascii : ∀ k : Nat, k < count →
      0 ≤ value.toInt + k * step.toInt ∧ value.toInt + k * step.toInt < 256) (hpos : 0 < count) :
    (characterItems step count value).value =
        ((List.range count).map fun k : Nat => writtenLetter (value.toInt + k * step.toInt)) ∧
      ((characterItems step count value).exact = true ↔
        Summed.fits (value.toInt + count * step.toInt) = true) := by
  induction count generalizing value with
  | zero => exact absurd hpos (Nat.lt_irrefl 0)
  | succ count ih =>
    have hletter : letterByte value = UInt8.ofNat value.toInt.toNat := by
      have hfirst := hascii 0 (Nat.succ_pos count)
      rw [Nat.cast_zero, zero_mul, add_zero] at hfirst
      rw [letterByte, if_pos hfirst]
    have hvalues : (characterItems step (count + 1) value).value =
        [letterByte value] :: (characterItems step count (Summed.add value step).value).value := rfl
    have hexact : (characterItems step (count + 1) value).exact =
        (Summed.fits (value.toInt + step.toInt) &&
          ((characterItems step count (Summed.add value step).value).exact && true)) := rfl
    rw [hvalues, hexact, Bool.and_true, hletter, List.range_succ_eq_map, List.map_cons,
      List.map_map]
    rcases Nat.eq_zero_or_pos count with rfl | hmore
    · refine ⟨by simp [writtenLetter, characterItems], ?_⟩
      rw [Nat.zero_add, Nat.cast_one, one_mul, characterItems, Summed.pure_exact, Bool.and_true]
    · have hfits : Summed.fits (value.toInt + step.toInt) = true := by
        have hsecond := hascii 1 (by omega)
        rw [Nat.cast_one, one_mul] at hsecond
        rw [Summed.fits_iff]
        omega
      have hshift (k : Nat) : (Summed.add value step).value.toInt + k * step.toInt =
          value.toInt + (k + 1 : Nat) * step.toInt := by
        rw [Summed.toInt_add hfits, Nat.cast_add, Nat.cast_one, Int.add_mul, Int.one_mul]
        omega
      obtain ⟨hitems, hlast⟩ := ih
        (fun k hk => by rw [hshift]; exact hascii (k + 1) (by omega)) hmore
      rw [hfits, Bool.true_and, hitems, hlast, hshift]
      refine ⟨?_, Iff.rfl⟩
      refine congr_arg₂ _ (by simp [writtenLetter]) (List.map_congr_left fun k _ => ?_)
      rw [hshift]
      rfl

end

/-! ### Counting -/

section

variable {first last : Bytes} {start stop step : Int64} {words : Nat}

theorem sequenceLength_ok (hfits : Summed.fits (stop.toInt - start.toInt) = true)
    (hcount : (stop.toInt - start.toInt).natAbs / max step.toInt.natAbs 1 + 1 ≤ words) :
    sequenceLength start stop step words =
      .ok ((stop.toInt - start.toInt).natAbs / max step.toInt.natAbs 1 + 1,
        words - ((stop.toInt - start.toInt).natAbs / max step.toInt.natAbs 1 + 1)) := by
  have hchecked : (Summed.sub stop start).checked = some (Summed.sub stop start).value :=
    if_pos hfits
  rw [sequenceLength, hchecked]
  simp only [Summed.toInt_sub hfits]
  exact Spending.bind_ok (Spending.charge_ok hcount)

theorem sequenceLength_error (hfits : Summed.fits (stop.toInt - start.toInt) = false) :
    sequenceLength start stop step words = .error .words := by
  have hchecked : (Summed.sub stop start).checked = none := if_neg (by simp [hfits])
  rw [sequenceLength, hchecked]
  rfl

/-- The stride of the step that is taken is that of the step that was asked for. -/
theorem natAbs_increment {step : Option Int64} (hstep : ∀ n ∈ step, -2 ^ 63 < n.toInt) :
    max (increment step start stop).value.toInt.natAbs 1 = stride step := by
  have hpos : 1 ≤ stride step := Nat.le_max_right _ _
  rw [(increment_eq hstep start stop).2]
  split <;> omega

theorem length_progression (first last : Int) (stride : Nat) :
    (progression first last stride).length = (last - first).natAbs / stride + 1 := by
  rw [progression, List.length_map, List.length_range]

theorem stride_pos (step : Option Int64) : 0 < stride step :=
  Nat.lt_of_lt_of_le Nat.one_pos (Nat.le_max_right _ _)

/-- The items are found by taking the step over and over. -/
theorem progression_eq {step : Option Int64} (hstep : ∀ n ∈ step, -2 ^ 63 < n.toInt)
    (start stop : Int64) :
    progression start.toInt stop.toInt (stride step) =
      (List.range (progression start.toInt stop.toInt (stride step)).length).map fun k : Nat =>
        start.toInt + k * (increment step start stop).value.toInt := by
  rw [length_progression, progression, (increment_eq hstep start stop).2]
  refine List.map_congr_left fun k _ => ?_
  split
  · rfl
  · rw [Int.mul_neg, Int.sub_eq_add_neg]

theorem value_between {step : Option Int64} (hstep : ∀ n ∈ step, -2 ^ 63 < n.toInt) {k : Nat}
    (hk : k < (progression start.toInt stop.toInt (stride step)).length) :
    min start.toInt stop.toInt ≤ start.toInt + k * (increment step start stop).value.toInt ∧
      start.toInt + k * (increment step start stop).value.toInt ≤ max start.toInt stop.toInt := by
  refine progression_between (stride_pos step) _ ?_
  rw [progression_eq hstep]
  exact List.mem_map.mpr ⟨k, List.mem_range.mpr hk, rfl⟩

/-- Counting and charging a sequence. -/
theorem sequenceLength_progression {step : Option Int64} (hstep : ∀ n ∈ step, -2 ^ 63 < n.toInt)
    (hfits : Summed.fits (stop.toInt - start.toInt) = true)
    (hwithin : (progression start.toInt stop.toInt (stride step)).length ≤ words) :
    sequenceLength start stop (increment step start stop).value words =
      .ok ((progression start.toInt stop.toInt (stride step)).length,
        words - (progression start.toInt stop.toInt (stride step)).length) := by
  rw [length_progression, ← natAbs_increment hstep] at *
  exact sequenceLength_ok hfits hwithin

theorem stride_lt {step : Option Int64} (hstep : ∀ n ∈ step, -2 ^ 63 < n.toInt) :
    stride step < 2 ^ 63 := by
  cases step with
  | none => exact Nat.max_lt.mpr ⟨by decide, by decide⟩
  | some n =>
    have hlow := hstep n rfl
    have hhigh := n.toInt_lt
    exact Nat.max_lt.mpr ⟨show n.toInt.natAbs < 2 ^ 63 by omega, by decide⟩

/-- The sum behind the last item is out of range only where the first is: behind a second
    item the stride is no longer than the distance. -/
theorem fits_last_iff {step : Option Int64} (hstep : ∀ n ∈ step, -2 ^ 63 < n.toInt)
    (hstart : 0 ≤ start.toInt) (hstop : 0 ≤ stop.toInt) (hstart' : start.toInt < 128)
    (hstop' : stop.toInt < 128) :
    Summed.fits (start.toInt + (progression start.toInt stop.toInt (stride step)).length *
        (increment step start stop).value.toInt) = true ↔
      stop.toInt < start.toInt ∨ start.toInt + stride step < 2 ^ 63 := by
  have hlt := stride_lt hstep
  have hlength := length_progression start.toInt stop.toInt (stride step)
  have hwithin := Nat.div_mul_le_self (stop.toInt - start.toInt).natAbs (stride step)
  generalize (progression start.toInt stop.toInt (stride step)).length = count at *
  generalize (stop.toInt - start.toInt).natAbs / stride step = more at *
  have hcount : (count : Int) * stride step = (more * stride step : Nat) + stride step := by
    rw [hlength, Nat.cast_add, Nat.cast_one, Int.add_mul, Int.one_mul, Nat.cast_mul]
  have hmore : more = 0 ∨ stride step ≤ more * stride step := by
    rcases Nat.eq_zero_or_pos more with hzero | hpos
    · exact Or.inl hzero
    · exact Or.inr (Nat.le_mul_of_pos_left _ hpos)
  rw [Summed.fits_iff, (increment_eq hstep start stop).2]
  split
  · rw [hcount]
    rcases hmore with rfl | hmore
    · rw [Nat.zero_mul]
      omega
    · omega
  · rw [Int.mul_neg, hcount]
    omega

theorem numericSequence_ok {step : Option Int64} (hstep : ∀ n ∈ step, -2 ^ 63 < n.toInt)
    (hfirst : parseInteger first = some start) (hlast : parseInteger last = some stop)
    (hfits : Summed.fits (stop.toInt - start.toInt) = true)
    (hwithin : (progression start.toInt stop.toInt (stride step)).length ≤ words) :
    numericSequence first last step words =
      .ok (some ⟨(progression start.toInt stop.toInt (stride step)).map
          (writtenInteger (paddedWidth first last)), true⟩,
        words - (progression start.toInt stop.toInt (stride step)).length) := by
  rw [numericSequence, hfirst, hlast]
  simp only
  rw [Spending.bind_ok (sequenceLength_progression hstep hfits hwithin)]
  have hitems : ∀ k : Nat, k < (progression start.toInt stop.toInt (stride step)).length →
      Summed.fits (start.toInt + k * (increment step start stop).value.toInt) = true := by
    intro k hk
    have hbetween := value_between hstep hk
    have := start.le_toInt
    have := start.toInt_lt
    have := stop.le_toInt
    have := stop.toInt_lt
    rw [Summed.fits_iff]
    omega
  have hvalues := congrArg (List.map (writtenInteger (paddedWidth first last)))
    (progression_eq hstep start stop)
  rw [List.map_map] at hvalues
  refine congrArg (fun out => Except.ok (some out, _)) ?_
  show (⟨numericItems _ _ _ _, (increment step start stop).exact && true⟩ : Summed (List Bytes)) = _
  rw [(increment_eq hstep start stop).1, numericItems_eq hitems, hvalues]
  rfl

theorem numericSequence_error {step : Option Int64}
    (hfirst : parseInteger first = some start) (hlast : parseInteger last = some stop)
    (hfits : Summed.fits (stop.toInt - start.toInt) = false) :
    numericSequence first last step words = .error .words := by
  rw [numericSequence, hfirst, hlast]
  exact Spending.bind_error (sequenceLength_error hfits)

theorem isAsciiAlphabetic_lt {letter : UInt8} (h : isAsciiAlphabetic letter = true) :
    letter.toNat < 128 := by
  simp only [isAsciiAlphabetic, Bool.or_eq_true, Bool.and_eq_true, decide_eq_true_eq,
    UInt8.le_iff_toNat_le] at h
  rcases h with ⟨-, hhigh⟩ | ⟨-, hhigh⟩
  · exact Nat.lt_of_le_of_lt hhigh (by decide)
  · exact Nat.lt_of_le_of_lt hhigh (by decide)

theorem characterSequence_ok {step : Option Int64} (hstep : ∀ n ∈ step, -2 ^ 63 < n.toInt)
    {x y : UInt8} (hx : isAsciiAlphabetic x = true) (hy : isAsciiAlphabetic y = true)
    (hwithin : (progression x.toNat y.toNat (stride step)).length ≤ words) :
    ∃ out, characterSequence [x] [y] step words =
        .ok (some out, words - (progression x.toNat y.toNat (stride step)).length) ∧
      out.value = (progression x.toNat y.toNat (stride step)).map writtenLetter ∧
      (out.exact = true ↔ y.toNat < x.toNat ∨ x.toNat + stride step < 2 ^ 63) := by
  have hstart : (Int64.ofNat x.toNat).toInt = x.toNat :=
    Int64.toInt_ofNat_of_lt (by have := isAsciiAlphabetic_lt hx; omega)
  have hstop : (Int64.ofNat y.toNat).toInt = y.toNat :=
    Int64.toInt_ofNat_of_lt (by have := isAsciiAlphabetic_lt hy; omega)
  have hlow := isAsciiAlphabetic_lt hx
  have hhigh := isAsciiAlphabetic_lt hy
  rw [← hstart, ← hstop] at hwithin ⊢
  have hbegin : characterSequence [x] [y] step = (do
      let step := increment step (Int64.ofNat x.toNat) (Int64.ofNat y.toNat)
      let count ← sequenceLength (Int64.ofNat x.toNat) (Int64.ofNat y.toNat) step.value
      return some (step >>= fun step => characterItems step count (Int64.ofNat x.toNat))) := by
    rw [characterSequence, if_pos (by rw [hx, hy]; rfl)]
  generalize Int64.ofNat x.toNat = start at *
  generalize Int64.ofNat y.toNat = stop at *
  have hfits : Summed.fits (stop.toInt - start.toInt) = true := by
    rw [Summed.fits_iff]
    omega
  have hbetween (k : Nat) (hk : k < (progression start.toInt stop.toInt (stride step)).length) :
      0 ≤ start.toInt + k * (increment step start stop).value.toInt ∧
        start.toInt + k * (increment step start stop).value.toInt < 256 := by
    have := value_between hstep hk
    omega
  have hpos : 0 < (progression start.toInt stop.toInt (stride step)).length := by
    rw [length_progression]
    exact Nat.succ_pos _
  obtain ⟨hvalues, hexact⟩ := characterItems_eq hbetween hpos
  refine ⟨increment step start stop >>= fun each => characterItems each
    (progression start.toInt stop.toInt (stride step)).length start, ?_, ?_, ?_⟩
  · rw [hbegin]
    exact Spending.bind_ok (sequenceLength_progression hstep hfits hwithin)
  · rw [Summed.bind_value, hvalues, progression_eq hstep, List.map_map]
    simp
  · rw [Summed.bind_exact, (increment_eq hstep start stop).1, Bool.true_and, hexact,
      fits_last_iff hstep (by omega) (by omega) (by omega) (by omega)]
    omega

end

/-! ### The sequence a pair of braces stands for -/

/-- What two operands denote: integers, written with the width the operands ask for, or
    letters. -/
inductive Denotes : Bytes → Bytes → Int → Int → (Int → Bytes) → Prop
  | integers {first last : Bytes} {start stop : Int64} (hfirst : parseInteger first = some start)
      (hlast : parseInteger last = some stop) :
      Denotes first last start.toInt stop.toInt (writtenInteger (paddedWidth first last))
  | letters {first last : UInt8} (hfirst : isAsciiAlphabetic first = true)
      (hlast : isAsciiAlphabetic last = true) :
      Denotes [first] [last] first.toNat last.toNat writtenLetter

/-- Whether the distance of two integers is a word; and whether a step behind the first
    letter is one, if the letters ascend. -/
def SpanFits (first : Bytes) (start stop : Int) (stride : Nat) : Prop :=
  if (parseInteger first).isSome then -2 ^ 63 ≤ stop - start ∧ stop - start < 2 ^ 63
  else stop < start ∨ start + stride < 2 ^ 63

instance (first : Bytes) (start stop : Int) (stride : Nat) :
    Decidable (SpanFits first start stop stride) := inferInstanceAs (Decidable (ite _ _ _))

/-- The unquoted text between the braces. -/
def ambleText (first last : Bytes) (step : Option Bytes) : Bytes :=
  first ++ text ".." ++ last ++ step.elim [] (text ".." ++ ·)

section

variable {first last : Bytes} {start stop : Int} {written : Int → Bytes} {step : Option Bytes}
  {magnitude : Option Int64} {words : Nat}

theorem Denotes.no_dot (h : Denotes first last start stop written) :
    chr '.' ∉ first ∧ chr '.' ∉ last := by
  cases h with
  | integers hfirst hlast =>
    exact ⟨fun hmem => (parseInteger_bytes hfirst _ hmem).1 rfl,
      fun hmem => (parseInteger_bytes hlast _ hmem).1 rfl⟩
  | letters hfirst hlast =>
    refine ⟨fun hmem => ?_, fun hmem => ?_⟩
    · rw [← List.mem_singleton.mp hmem] at hfirst
      exact absurd hfirst (by decide)
    · rw [← List.mem_singleton.mp hmem] at hlast
      exact absurd hlast (by decide)

/-- The text is taken apart into its terms. -/
theorem sequence_amble (h : Denotes first last start stop written)
    (hstep : step.map parseInteger = magnitude.map some) :
    (sequence (plain (ambleText first last step)) :
        Spend (Option (Summed (List (List (WordUnit Part)))))) =
      (sequenceItems first last magnitude >>= fun items =>
        pure (items.map fun items => items >>= fun items => pure (items.map plain))) := by
  obtain ⟨hfirst, hlast⟩ := h.no_dot
  rw [sequence, literalText_plain]
  dsimp only
  cases step with
  | none =>
    obtain rfl : magnitude = none := by
      cases magnitude with
      | none => rfl
      | some n => cases hstep
    have hsplit : splitDots (ambleText first last none) = [first, last] := by
      show splitDots (first ++ [chr '.', chr '.'] ++ last ++ []) = _
      rw [List.append_nil, List.append_assoc]
      exact (splitDots_append hfirst last).trans (by rw [splitDots_of_not_mem hlast])
    rw [hsplit]
    rfl
  | some term =>
    obtain ⟨n, rfl, hn⟩ : ∃ n, magnitude = some n ∧ parseInteger term = some n := by
      cases magnitude with
      | none => cases hstep
      | some n => exact ⟨n, rfl, Option.some.inj hstep⟩
    have hterm : chr '.' ∉ term := fun hmem => (parseInteger_bytes hn _ hmem).1 rfl
    have hsplit : splitDots (ambleText first last (some term)) = [first, last, term] := by
      show splitDots (first ++ [chr '.', chr '.'] ++ last ++ ([chr '.', chr '.'] ++ term)) = _
      rw [List.append_assoc, List.append_assoc]
      refine (splitDots_append hfirst _).trans ?_
      refine congrArg _ ((splitDots_append hlast term).trans ?_)
      rw [splitDots_of_not_mem hterm]
    rw [hsplit, sequenceTerms, hn]

theorem sequenceItems_letters {x y : UInt8} (hx : isAsciiAlphabetic x = true) :
    sequenceItems [x] [y] magnitude = characterSequence [x] [y] magnitude := by
  have hnone : numericSequence [x] [y] magnitude = pure none := by
    rw [numericSequence, parseInteger_letter hx]
  simp only [sequenceItems, hnone, pure_bind, Option.none_or, bind_pure]

theorem sequenceItems_integers {n : Int64} (h : parseInteger first = some n) :
    sequenceItems first last magnitude = numericSequence first last magnitude := by
  have hnone : characterSequence first last magnitude = pure none := by
    unfold characterSequence
    split
    · next letter _ =>
      rw [(parseInteger_bytes h letter List.mem_cons_self).2]
      rfl
    · rfl
  simp only [sequenceItems, hnone, pure_bind, Option.or_none, bind_pure]

/-- **Sequence braces are exact**, without any sum out of range, exactly where the distance
    of the integers is a word and a step behind the first letter is one. -/
theorem sequence_exact_iff (Part : Type) (h : Denotes first last start stop written)
    (hstep : step.map parseInteger = magnitude.map some)
    (hwithin : (progression start stop (stride magnitude)).length ≤ words) :
    (∃ out, sequence (plain (ambleText first last step) : List (WordUnit Part)) words =
        .ok (some out, words - (progression start stop (stride magnitude)).length) ∧
      out.exact = true ∧
      out.value = (progression start stop (stride magnitude)).map fun value =>
        plain (written value)) ↔
      SpanFits first start stop (stride magnitude) := by
  have hsmall : ∀ n ∈ magnitude, -2 ^ 63 < n.toInt := by
    rintro n rfl
    obtain ⟨term, -, hterm⟩ := Option.map_eq_some_iff.mp hstep
    exact (parseInteger_eq_some hterm).1
  rw [sequence_amble h hstep]
  cases h with
  | integers hfirst hlast =>
    rw [sequenceItems_integers hfirst, SpanFits, if_pos (by rw [hfirst]; rfl), ← Summed.fits_iff]
    constructor
    · rintro ⟨out, hout, -⟩
      by_contra hfar
      rw [Spending.bind_error
        (numericSequence_error hfirst hlast (Bool.eq_false_of_not_eq_true hfar))] at hout
      cases hout
    · intro hfits
      rw [Spending.bind_ok (numericSequence_ok hsmall hfirst hlast hfits hwithin)]
      exact ⟨_, rfl, rfl, List.map_map⟩
  | letters hfirst hlast =>
    obtain ⟨out, hout, hvalue, hexact⟩ := characterSequence_ok hsmall hfirst hlast hwithin
    rw [sequenceItems_letters hfirst, Spending.bind_ok hout, SpanFits,
      if_neg (by rw [parseInteger_letter hfirst]; exact Bool.false_ne_true)]
    constructor
    · rintro ⟨items, hitems, hsums, -⟩
      obtain rfl := Option.some.inj (congrArg Prod.fst (Except.ok.inj hitems))
      rw [Summed.bind_exact, Summed.pure_exact, Bool.and_true, hexact] at hsums
      omega
    · intro hspan
      refine ⟨_, rfl, ?_, ?_⟩
      · rw [Summed.bind_exact, Summed.pure_exact, Bool.and_true, hexact]
        omega
      · rw [Summed.bind_value, Summed.pure_value, hvalue, List.map_map]
        rfl

/-- `{01..10..3}`. -/
theorem sequence_exact_iff_padded :
    ∃ out, sequence (plain (text "01..10..3") : List (WordUnit Unit)) 65536 =
        .ok (some out, 65532) ∧
      out.exact = true ∧ out.value = [text "01", text "04", text "07", text "10"].map plain := by
  have h : Denotes (text "01") (text "10") 1 10 (writtenInteger 2) :=
    .integers (show parseInteger (text "01") = some 1 by decide +kernel)
      (show parseInteger (text "10") = some 10 by decide +kernel)
  have hstep : (some (text "3")).map parseInteger = (some 3).map some := by decide +kernel
  have hwithin : (progression 1 10 (stride (some 3))).length ≤ 65536 := by decide +kernel
  obtain ⟨out, hout, hexact, hvalue⟩ :=
    (sequence_exact_iff Unit h hstep hwithin).mpr (by decide +kernel)
  exact ⟨out, hout, hexact, hvalue.trans (by decide +kernel)⟩

/-- `{a..b..9223372036854775807}`: one letter, and a sum past the greatest word behind it. -/
theorem not_sequence_exact :
    ¬ ∀ (first last : Bytes) (start stop : Int) (written : Int → Bytes) (step : Option Bytes)
        (magnitude : Option Int64) (words : Nat),
      Denotes first last start stop written → step.map parseInteger = magnitude.map some →
      (progression start stop (stride magnitude)).length ≤ words →
        ∃ out, sequence (plain (ambleText first last step) : List (WordUnit Unit)) words =
            .ok (some out, words - (progression start stop (stride magnitude)).length) ∧
          out.exact = true ∧
          out.value = (progression start stop (stride magnitude)).map fun value =>
            plain (written value) := by
  intro h
  obtain ⟨out, hout, hexact, -⟩ := h (text "a") (text "b") 97 98 writtenLetter
    (some (text "9223372036854775807")) (some 9223372036854775807) 65536
    (.letters (show isAsciiAlphabetic 97 = true by decide)
      (show isAsciiAlphabetic 98 = true by decide)) (by decide +kernel) (by decide +kernel)
  have hrun : sequence (plain (ambleText (text "a") (text "b")
      (some (text "9223372036854775807"))) : List (WordUnit Unit)) 65536 =
        .ok (some ⟨[[.literal 97 false]], false⟩, 65535) := by rfl
  rw [hrun] at hout
  obtain rfl := Option.some.inj (congrArg Prod.fst (Except.ok.inj hout))
  cases hexact

end

end Nsh.Expand.Brace
