import Mathlib.Data.Finset.Card
import Mathlib.Data.Finset.Range
import Nsh.Lib.Exact
import Nsh.Shell.Characters
import Nsh.Variables.Value

/-!
# `${name:offset:length}`

A slice of a string counts characters and a slice of an array counts subscripts.  Both
numbers come from arithmetic expansion, so any signed word reaches the sums.  The
code's slices are compared with slices of a list over the integers.
-/

namespace Nsh.Expand

/-! ### Slices of lists -/

/-- Where a slice begins: a negative offset counts back from the end. -/
def sliceStart (count : Nat) (offset : Int) : Int := if offset < 0 then count + offset else offset

/-- The items from `start` on: `length` of them, or up to a negative length counted back
    from the end; `none` when that end lies before the start. -/
def sliceItemsFrom {α : Type} (items : List α) (start : Int) (length : Option Int) :
    Option (List α) :=
  match length with
  | none => some (items.drop start.toNat)
  | some length =>
    if length < 0 then
      if items.length + length < start then none
      else some ((items.take (items.length + length).toNat).drop start.toNat)
    else some ((items.take (min (start + length) items.length).toNat).drop start.toNat)

/-- The items an offset and a length name; none when the slice begins outside the list. -/
def sliceItems {α : Type} (items : List α) (offset : Int) (length : Option Int) :
    Option (List α) :=
  let start := sliceStart items.length offset
  if start < 0 ∨ items.length < start then some [] else sliceItemsFrom items start length

/-- The first items of a list, all of them where no length is given. -/
def takeAtMost {α : Type} (items : List α) : Option Nat → List α
  | none => items
  | some length => items.take length

/-- The first `length` elements whose subscript is at least `offset`, counted back from
    `bound` when negative; nothing when that is below zero. -/
def sliceSparse {α : Type} (elements : List (Nat × α)) (bound : Nat) (offset : Int)
    (length : Option Nat) : List α :=
  let start := sliceStart bound offset
  if start < 0 then []
  else
    takeAtMost ((elements.filter fun element => decide (start ≤ element.1)).map (·.2)) length

/-! ### Slices of strings -/

/-- The `length` half of `slice_characters`, `start` being where the slice begins. -/
def sliceCharactersFrom (c : Characters) (count start : Int64) (length : Option Int64) :
    Summed (Option Bytes) :=
  let cut (stop : Int64) : Option Bytes :=
    some (c.bytes.extract (c.boundaries.getD start.toInt.toNat 0)
      (c.boundaries.getD (max stop start).toInt.toNat 0))
  match length with
  | none => pure (cut count)
  | some length =>
    if length < 0 then do
      let stop ← Summed.add count length
      pure (if stop < start then none else cut stop)
    else do
      let stop ← Summed.add start length
      pure (cut (min stop count))

/-- `none` where a negative length names an end before the start. -/
def sliceCharacters (locale : Locale) (bytes : Bytes) (offset : Int64) (length : Option Int64) :
    Summed (Option Bytes) := do
  let c : Characters := ⟨locale, bytes⟩
  let count ← Summed.sub (Int64.ofNat c.boundaries.length) 1
  if offset < 0 then do
    let fromEnd ← Summed.add count offset
    if fromEnd < 0 then pure (some []) else sliceCharactersFrom c count fromEnd length
  -- an offset past the end selects nothing, whatever the length says
  else if count < offset then pure (some [])
  else sliceCharactersFrom c count offset length

/-- What a slice with a negative length is refused with. -/
def substringRefused (length : Int64) : Bytes := decimal length ++ text ": substring expression < 0"

/-! ### Slices of arrays -/

/-- The subscripts an indexed array's elements are stored under (`indexed_keys`). -/
def indexedKeys : VariableValue → Option (List UInt64)
  | .indexed values => some values.keys
  | _ => none

/-- One past the highest subscript, or how many elements there are. -/
def selectBound (total : Int64) : Option (List UInt64) → Summed Int64
  | some keys =>
    match keys.getLast? with
    | some last => Summed.add last.toInt64 1
    | none => pure 0
  | none => pure total

/-- Where the first element to select stands. -/
def selectStart (total first : Int64) : Option (List UInt64) → Int64
  | some keys =>
    match keys.findIdx? fun key => decide (first ≤ key.toInt64) with
    | some position => Int64.ofNat position
    | none => total
  | none => min first total

/-- The second half of `select`, from the first subscript on. -/
def selectFrom (elements : List Bytes) (subscripts : Option (List UInt64)) (first : Int64)
    (length : Option Int64) : Summed (Except Bytes (List Bytes)) :=
  let total := Int64.ofNat elements.length
  let start := selectStart total first subscripts
  let chosen (count : Int64) : Except Bytes (List Bytes) :=
    .ok ((elements.drop start.toInt.toNat).take (max count 0).toInt.toNat)
  match length with
  | none => do
    let count ← Summed.sub total start
    pure (chosen count)
  | some length =>
    if length < 0 then pure (.error (substringRefused length))
    else do
      let rest ← Summed.sub total start
      pure (chosen (min length rest))

/-- Cut one offset and length out of a list of elements. -/
def select (elements : List Bytes) (subscripts : Option (List UInt64)) (offset : Int64)
    (length : Option Int64) : Summed (Except Bytes (List Bytes)) := do
  let bound ← selectBound (Int64.ofNat elements.length) subscripts
  if offset < 0 then do
    let start ← Summed.add bound offset
    if start < 0 then pure (.ok []) else selectFrom elements subscripts start length
  else selectFrom elements subscripts offset length

/-- What `${name:offset:length}` slices. -/
inductive Sliced where
  | text (bytes : Bytes)
  /-- `$@` and `$*`; the name of the shell or script stands in front. -/
  | positional (argumentZero : Option Bytes) (words : List Bytes)
  | array (value : VariableValue)

/-- The words `substring` selects, the two numbers being evaluated. -/
def substring (locale : Locale) (sliced : Sliced) (offset : Int64) (length : Option Int64) :
    Summed (Except Bytes (List Bytes)) :=
  match sliced with
  | .text bytes => do
    match ← sliceCharacters locale bytes offset length with
    | some cut => pure (.ok [cut])
    | none => pure (.error (substringRefused (length.getD 0)))
  | .positional argumentZero words => select (argumentZero.getD [] :: words) none offset length
  | .array value => select value.elements (indexedKeys value) offset length

/-! ### A slice of a string -/

theorem negative_iff {a : Int64} : a < 0 ↔ a.toInt < 0 := by
  rw [Int64.lt_iff_toInt_lt, Int64.toInt_zero]

/-- The text between two boundaries is the characters between them, none when the second
    stands before the first. -/
theorem extract_max {c : Characters} {start stop : Int64} (hstart : 0 ≤ start.toInt)
    (hle : start.toInt ≤ c.characters.length) (hstop : stop.toInt ≤ c.characters.length) :
    c.bytes.extract (c.boundaries.getD start.toInt.toNat 0)
        (c.boundaries.getD (max stop start).toInt.toNat 0) =
      ((c.characters.take stop.toInt.toNat).drop start.toInt.toNat).flatten := by
  rw [toInt_max]
  rcases le_total start.toInt stop.toInt with horder | horder
  · rw [max_eq_left horder]
    exact c.extract_boundaries (by omega) (by omega)
  · rw [max_eq_right horder, c.extract_boundaries (le_refl _) (by omega)]
    have hnone : (c.characters.take stop.toInt.toNat).drop start.toInt.toNat = [] :=
      List.drop_eq_nil_of_le (by rw [List.length_take]; omega)
    rw [hnone, List.drop_eq_nil_of_le (by rw [List.length_take]; omega)]

theorem sliceCharactersFrom_exact {c : Characters} {count start : Int64} {length : Option Int64}
    (hcount : count.toInt = c.characters.length) (hstart : 0 ≤ start.toInt) :
    (sliceCharactersFrom c count start length).exact = true ↔
      ∀ n, length = some n → 0 ≤ n.toInt → start.toInt + n.toInt < 2 ^ 63 := by
  cases length with
  | none => simp [sliceCharactersFrom]
  | some length =>
    by_cases hsign : length < 0
    · have hnegative := negative_iff.mp hsign
      have hfits : Summed.fits (count.toInt + length.toInt) = true :=
        Summed.fits_add_of_sign (by omega) hnegative
      simp only [sliceCharactersFrom, if_pos hsign, Summed.bind_exact, Summed.add_exact, hfits,
        Summed.pure_exact, Bool.and_true, true_iff]
      intro n hn hpos
      cases hn
      omega
    · have hpositive : 0 ≤ length.toInt := by rw [negative_iff] at hsign; omega
      simp only [sliceCharactersFrom, if_neg hsign, Summed.bind_exact, Summed.add_exact,
        Summed.pure_exact, Bool.and_true, Summed.fits_iff]
      constructor
      · rintro ⟨-, hlt⟩ n hn -
        cases hn
        exact hlt
      · intro h
        exact ⟨by omega, h length rfl hpositive⟩

theorem sliceCharactersFrom_value {c : Characters} {count start : Int64} {length : Option Int64}
    (hcount : count.toInt = c.characters.length) (hstart : 0 ≤ start.toInt)
    (hle : start.toInt ≤ c.characters.length)
    (hexact : (sliceCharactersFrom c count start length).exact = true) :
    (sliceCharactersFrom c count start length).value =
      (sliceItemsFrom c.characters start.toInt (length.map Int64.toInt)).map List.flatten := by
  rw [sliceCharactersFrom_exact hcount hstart] at hexact
  cases length with
  | none =>
    simp only [sliceCharactersFrom, Summed.pure_value, Option.map_none, sliceItemsFrom,
      Option.map_some]
    rw [extract_max hstart hle (le_of_eq hcount), hcount]
    simp
  | some length =>
    by_cases hsign : length < 0
    · have hnegative := negative_iff.mp hsign
      have hsum : (Summed.add count length).value.toInt = c.characters.length + length.toInt := by
        rw [Summed.toInt_add (Summed.fits_add_of_sign (by omega) hnegative), hcount]
      simp only [sliceCharactersFrom, if_pos hsign, Summed.bind_value, Summed.pure_value,
        Option.map_some, sliceItemsFrom, if_pos hnegative]
      simp only [Int64.lt_iff_toInt_lt, hsum]
      split
      · rfl
      · rw [Option.map_some, extract_max hstart hle (by omega), hsum]
    · have hpositive : ¬ length.toInt < 0 := by rwa [negative_iff] at hsign
      have hlt := hexact length rfl (by omega)
      have hsum : (Summed.add start length).value.toInt = start.toInt + length.toInt :=
        Summed.toInt_add (Summed.fits_iff.mpr ⟨by omega, hlt⟩)
      have hmin : (min (Summed.add start length).value count).toInt =
          min (start.toInt + length.toInt) c.characters.length := by
        rw [toInt_min, hsum, hcount]
      simp only [sliceCharactersFrom, if_neg hsign, Summed.bind_value, Summed.pure_value,
        Option.map_some, sliceItemsFrom, if_neg hpositive]
      rw [extract_max hstart hle (by rw [hmin]; omega), hmin]

/-! ### What the integers say -/

/-- The sum of a start inside the text and a length that is not negative is a word. -/
def SliceEndFits (count : Nat) (offset : Int64) (length : Option Int64) : Prop :=
  ∀ n, length = some n → 0 ≤ n.toInt → 0 ≤ sliceStart count offset.toInt →
    sliceStart count offset.toInt ≤ count → sliceStart count offset.toInt + n.toInt < 2 ^ 63

/-- Slicing the string computes no sum that leaves the words and cuts out what the integers
    say. -/
def SliceExact (locale : Locale) (bytes : Bytes) (offset : Int64) (length : Option Int64) : Prop :=
  (sliceCharacters locale bytes offset length).exact = true ∧
    (sliceCharacters locale bytes offset length).value =
      (sliceItems (Characters.mk locale bytes).characters offset.toInt
        (length.map Int64.toInt)).map List.flatten

theorem sliceCharactersFrom_iff {c : Characters} {count start : Int64} {length : Option Int64}
    (hcount : count.toInt = c.characters.length) (hstart : 0 ≤ start.toInt)
    (hle : start.toInt ≤ c.characters.length) :
    (sliceCharactersFrom c count start length).exact = true ∧
        (sliceCharactersFrom c count start length).value =
          (sliceItemsFrom c.characters start.toInt (length.map Int64.toInt)).map List.flatten ↔
      ∀ n, length = some n → 0 ≤ n.toInt → 0 ≤ start.toInt →
        start.toInt ≤ c.characters.length → start.toInt + n.toInt < 2 ^ 63 := by
  constructor
  · rintro ⟨hexact, -⟩ n hn hpos _ _
    exact (sliceCharactersFrom_exact hcount hstart).mp hexact n hn hpos
  · intro h
    have hexact := (sliceCharactersFrom_exact hcount hstart).mpr
      fun n hn hpos => h n hn hpos hstart hle
    exact ⟨hexact, sliceCharactersFrom_value hcount hstart hle hexact⟩

/-- **A slice of a string is exact** when the end it counts to from its start is a word; the
    table of boundaries, eight bytes each, is one allocation. -/
theorem slice_exact_iff (locale : Locale) (bytes : Bytes) (offset : Int64) (length : Option Int64)
    (hmemory : 8 * (Characters.mk locale bytes).boundaries.length < 2 ^ 63) :
    SliceExact locale bytes offset length ↔
      SliceEndFits (Characters.mk locale bytes).characters.length offset length := by
  unfold SliceExact SliceEndFits sliceCharacters sliceItems
  generalize hc : Characters.mk locale bytes = c at *
  have hlength := c.length_boundaries
  have hfits :
      Summed.fits ((Int64.ofNat c.boundaries.length).toInt - (1 : Int64).toInt) = true := by
    rw [Summed.fits_iff, Int64.toInt_ofNat_of_lt (by omega), show (1 : Int64).toInt = 1 from rfl]
    omega
  have hcount : (Summed.sub (Int64.ofNat c.boundaries.length) 1).value.toInt =
      c.characters.length := by
    rw [Summed.toInt_sub hfits, Int64.toInt_ofNat_of_lt (by omega),
      show (1 : Int64).toInt = 1 from rfl]
    omega
  simp only [Summed.bind_exact, Summed.bind_value, Summed.sub_exact, hfits, Bool.true_and]
  generalize (Summed.sub (Int64.ofNat c.boundaries.length) 1).value = count at *
  by_cases hsign : offset < 0
  · have hnegative := negative_iff.mp hsign
    have hback := Summed.fits_add_of_sign (a := count) (by omega) hnegative
    have hsum := Summed.toInt_add hback
    have hstart : sliceStart c.characters.length offset.toInt =
        (Summed.add count offset).value.toInt := by
      rw [sliceStart, if_pos hnegative, hsum, hcount]
    rw [if_pos hsign, Summed.bind_exact, Summed.bind_value, Summed.add_exact, hback, hstart,
      Bool.true_and]
    by_cases hbefore : (Summed.add count offset).value < 0
    · have hlt := negative_iff.mp hbefore
      rw [if_pos hbefore, if_pos (Or.inl hlt)]
      refine iff_of_true ⟨rfl, rfl⟩ ?_
      intro n _ _ hpos
      omega
    · rw [negative_iff] at hbefore
      rw [if_neg (by rwa [negative_iff]), if_neg (by omega)]
      exact sliceCharactersFrom_iff hcount (by omega) (by omega)
  · rw [negative_iff] at hsign
    have hstart : sliceStart c.characters.length offset.toInt = offset.toInt := by
      rw [sliceStart, if_neg hsign]
    rw [if_neg (by rwa [negative_iff]), hstart]
    by_cases hpast : count < offset
    · have hlt := Int64.lt_iff_toInt_lt.mp hpast
      rw [if_pos hpast, if_pos (Or.inr (by omega))]
      refine iff_of_true ⟨rfl, rfl⟩ ?_
      intro n _ _ _ hle
      omega
    · rw [Int64.lt_iff_toInt_lt] at hpast
      rw [if_neg (by rwa [Int64.lt_iff_toInt_lt]), if_neg (by omega)]
      exact sliceCharactersFrom_iff hcount (by omega) (by omega)

/-- Two characters up to the one in front of the last. -/
theorem slice_exact_iff_abc : SliceExact Locale.c (text "abc") (-2) (some (-1)) ↔
    SliceEndFits (Characters.mk Locale.c (text "abc")).characters.length (-2) (some (-1)) :=
  slice_exact_iff Locale.c (text "abc") (-2) (some (-1)) (by decide)

/-- The greatest length there is, counted from the second character, comes to an end before
    the start: nothing is left of the `b`. -/
theorem not_slice_exact : ¬ ∀ (bytes : Bytes) (offset : Int64) (length : Option Int64),
    8 * (Characters.mk Locale.c bytes).boundaries.length < 2 ^ 63 →
      SliceExact Locale.c bytes offset length := by
  intro h
  have hvalue := (h (text "ab") 1 (some 9223372036854775807) (by decide)).2
  have hempty : (sliceCharacters Locale.c (text "ab") 1 (some 9223372036854775807)).value =
      some [] := by decide +kernel
  rw [hempty] at hvalue
  revert hvalue
  decide +kernel

/-! ### A slice of an array -/

/-- From the first element that has a property which later ones keep, all have it. -/
theorem drop_findIdx {α : Type} {p : α → Bool} {l : List α}
    (h : l.Pairwise fun a b => p a = true → p b = true) : l.drop (l.findIdx p) = l.filter p := by
  induction l with
  | nil => rfl
  | cons a l ih =>
    obtain ⟨hhead, htail⟩ := List.pairwise_cons.mp h
    cases hp : p a with
    | false =>
      rw [List.findIdx_cons, hp, List.filter_cons_of_neg (by simp [hp])]
      exact ih htail
    | true =>
      have hall : l.filter p = l := List.filter_eq_self.mpr fun b hb => hhead b hb hp
      rw [List.findIdx_cons, hp, List.filter_cons_of_pos hp, hall]
      rfl

theorem findIdx_congr {α : Type} {p q : α → Bool} {l : List α} (h : ∀ a ∈ l, p a = q a) :
    l.findIdx p = l.findIdx q := by
  induction l with
  | nil => rfl
  | cons a l ih =>
    rw [List.findIdx_cons, List.findIdx_cons, h a List.mem_cons_self,
      ih fun b hb => h b (List.mem_cons_of_mem a hb)]

/-- Numbers that rise and stay below a bound are at most so many. -/
theorem length_le_of_pairwise {l : List Nat} {bound : Nat} (h : l.Pairwise (· < ·))
    (hbound : ∀ n ∈ l, n < bound) : l.length ≤ bound := by
  have hnodup : l.Nodup := h.imp fun hlt => Nat.ne_of_lt hlt
  have hsubset : l.toFinset ⊆ Finset.range bound := fun n hn =>
    Finset.mem_range.mpr (hbound n (List.mem_toFinset.mp hn))
  rw [← List.toFinset_card_of_nodup hnodup, ← Finset.card_range bound]
  exact Finset.card_le_card hsubset

/-- The elements of an indexed array below the bound of signed words, in subscript order. -/
structure Subscripted (elements : List (UInt64 × Bytes)) : Prop where
  ordered : (elements.map (·.1.toNat)).Pairwise (· < ·)
  small : ∀ element ∈ elements, element.1.toNat < 2 ^ 63

theorem toInt_toInt64 {key : UInt64} (h : key.toNat < 2 ^ 63) : key.toInt64.toInt = key.toNat := by
  show key.toBitVec.toInt = _
  rw [BitVec.toInt_eq_toNat_of_lt]
  · rfl
  · show 2 * key.toNat < _
    omega

/-- Where the highest subscript comes to an end; zero where there is none. -/
def sparseBound (elements : List (UInt64 × Bytes)) : Nat :=
  match elements.getLast? with
  | some last => last.1.toNat + 1
  | none => 0

namespace Subscripted

variable {elements : List (UInt64 × Bytes)} {length : Option Int64} {first offset total : Int64}

theorem lt_sparseBound (h : Subscripted elements) {element : UInt64 × Bytes}
    (hmem : element ∈ elements) : element.1.toNat < sparseBound elements := by
  have hne : elements ≠ [] := List.ne_nil_of_mem hmem
  have hlast : elements.getLast? = some (elements.getLast hne) := List.getLast?_eq_some_getLast hne
  rw [sparseBound, hlast]
  have hsplit : elements.dropLast ++ [elements.getLast hne] = elements :=
    List.dropLast_append_getLast hne
  have hordered := h.ordered
  rw [← hsplit, List.map_append, List.pairwise_append] at hordered
  rw [← hsplit, List.mem_append] at hmem
  rcases hmem with hmem | hmem
  · have hlt := hordered.2.2 _ (List.mem_map_of_mem hmem) _ (List.mem_singleton_self _)
    exact Nat.lt_succ_of_lt hlt
  · rw [List.mem_singleton] at hmem
    rw [hmem]
    exact Nat.lt_succ_self _

theorem length_le (h : Subscripted elements) : elements.length ≤ sparseBound elements := by
  have hbound : ∀ n ∈ elements.map (·.1.toNat), n < sparseBound elements := by
    intro n hn
    obtain ⟨element, hmem, rfl⟩ := List.mem_map.mp hn
    exact h.lt_sparseBound hmem
  have hlength := length_le_of_pairwise h.ordered hbound
  rwa [List.length_map] at hlength

/-- The first element at or past a subscript, as `selectStart` finds it. -/
theorem selectStart_eq (h : Subscripted elements) (first : Int64)
    (htotal : elements.length < 2 ^ 63) :
    (selectStart (Int64.ofNat elements.length) first (some (elements.map (·.1)))).toInt =
      elements.findIdx fun element => decide (first.toInt ≤ element.1.toNat) := by
  have hkeys : elements.findIdx (fun element => decide (first ≤ element.1.toInt64)) =
      elements.findIdx fun element => decide (first.toInt ≤ element.1.toNat) := by
    refine findIdx_congr fun element hmem => ?_
    rw [decide_eq_decide, Int64.le_iff_toInt_le, toInt_toInt64 (h.small element hmem)]
  have hle : elements.findIdx (fun element => decide (first.toInt ≤ element.1.toNat)) ≤
    elements.length := List.findIdx_le_length
  rw [selectStart, List.findIdx?_map, ← hkeys]
  rw [← hkeys] at hle
  split
  · next position hposition =>
    obtain ⟨hlt, rfl⟩ := List.findIdx?_eq_some_iff_findIdx_eq.mp hposition
    exact Int64.toInt_ofNat_of_lt (by omega)
  · next hnone =>
    have hend := List.findIdx?_eq_none_iff_findIdx_eq.mp hnone
    rw [Int64.toInt_ofNat_of_lt (by omega), ← hend]
    rfl

theorem drop_eq_filter (h : Subscripted elements) (first : Int) :
    elements.drop (elements.findIdx fun element => decide (first ≤ element.1.toNat)) =
      elements.filter fun element => decide (first ≤ element.1.toNat) := by
  refine drop_findIdx ?_
  have hordered := List.pairwise_map.mp h.ordered
  refine hordered.imp fun {a b} hlt hle => ?_
  rw [decide_eq_true_eq] at hle ⊢
  omega

/-- The elements from the first subscript on, as many as the length asks for. -/
theorem selectFrom_eq (h : Subscripted elements) (htotal : elements.length < 2 ^ 63)
    (hlength : ∀ n, length = some n → 0 ≤ n.toInt) :
    selectFrom (elements.map (·.2)) (some (elements.map (·.1))) first length =
      pure (.ok (takeAtMost
        ((elements.filter fun element => decide (first.toInt ≤ element.1.toNat)).map (·.2))
        (length.map fun n => n.toInt.toNat))) := by
  have hstart := h.selectStart_eq first htotal
  have hle : elements.findIdx (fun element => decide (first.toInt ≤ element.1.toNat)) ≤
    elements.length := List.findIdx_le_length
  have htotal' : (Int64.ofNat elements.length).toInt = elements.length :=
    Int64.toInt_ofNat_of_lt (by omega)
  simp only [selectFrom, List.length_map]
  generalize selectStart (Int64.ofNat elements.length) first (some (elements.map (·.1))) = start
    at *
  have hfits : Summed.fits ((Int64.ofNat elements.length).toInt - start.toInt) = true := by
    rw [Summed.fits_iff]
    omega
  have hrest := Summed.toInt_sub hfits
  have hdrop : (elements.map (·.2)).drop start.toInt.toNat =
      (elements.filter fun element => decide (first.toInt ≤ element.1.toNat)).map (·.2) := by
    rw [hstart, Int.toNat_natCast, ← List.map_drop, h.drop_eq_filter]
  have hrestlength : ((elements.filter fun element =>
      decide (first.toInt ≤ element.1.toNat)).map (·.2)).length =
        (Summed.sub (Int64.ofNat elements.length) start).value.toInt.toNat := by
    rw [← hdrop, List.length_drop, List.length_map, hrest, hstart]
    omega
  have hall : (max (Summed.sub (Int64.ofNat elements.length) start).value 0).toInt.toNat =
      (Summed.sub (Int64.ofNat elements.length) start).value.toInt.toNat := by
    rw [toInt_max, Int64.toInt_zero]
    omega
  rw [hdrop]
  generalize (elements.filter fun element =>
    decide (first.toInt ≤ element.1.toNat)).map (·.2) = selected at *
  have hsub : Summed.sub (Int64.ofNat elements.length) start =
      pure (Summed.sub (Int64.ofNat elements.length) start).value := by
    show Summed.mk _ _ = Summed.mk _ _
    rw [hfits]
    rfl
  rw [hsub]
  generalize (Summed.sub (Int64.ofNat elements.length) start).value = rest at *
  cases length with
  | none =>
    simp only [Summed.pure_bind]
    rw [hall, ← hrestlength, List.take_length]
    rfl
  | some n =>
    have hpositive := hlength n rfl
    simp only [Summed.pure_bind]
    rw [if_neg (by rw [negative_iff]; omega)]
    have hmin : (max (min n rest) 0).toInt.toNat = min n.toInt.toNat rest.toInt.toNat := by
      rw [toInt_max, toInt_min, Int64.toInt_zero]
      omega
    rw [hmin, ← hrestlength, ← List.take_eq_take_min]
    rfl

end Subscripted

theorem subscripted_toList {values : Std.ExtTreeMap UInt64 Bytes}
    (hkeys : ∀ key : UInt64, key ∈ values → key.toNat < 2 ^ 63) : Subscripted values.toList where
  ordered := by
    rw [List.pairwise_map]
    refine values.ordered_keys_toList.imp fun {a b} hlt => ?_
    exact UInt64.lt_iff_toNat_lt.mp (Std.compare_eq_lt.mp hlt)
  small element hmem := by
    have hheld := Std.ExtTreeMap.mem_toList_iff_getElem?_eq_some.mp hmem
    exact hkeys element.1 (Std.ExtTreeMap.isSome_getElem?_iff_mem.mp (by rw [hheld]; rfl))

/-- Slicing the array computes no sum that leaves the words and selects what the integers
    say. -/
def SparseExact (locale : Locale) (values : Std.ExtTreeMap UInt64 Bytes) (offset : Int64)
    (length : Option Int64) : Prop :=
  (substring locale (.array (.indexed values)) offset length).exact = true ∧
    (substring locale (.array (.indexed values)) offset length).value =
      .ok (sliceSparse (values.toList.map fun element => (element.1.toNat, element.2))
        (sparseBound values.toList) offset.toInt (length.map fun n => n.toInt.toNat))

theorem filter_map_subscript (elements : List (UInt64 × Bytes)) (first : Int) :
    ((elements.map fun element => (element.1.toNat, element.2)).filter fun element =>
        decide (first ≤ element.1)).map (·.2) =
      (elements.filter fun element => decide (first ≤ element.1.toNat)).map (·.2) := by
  rw [List.filter_map, List.map_map]
  rfl

theorem selectBound_eq {elements : List (UInt64 × Bytes)} (h : Subscripted elements)
    (total : Int64) (hbound : sparseBound elements < 2 ^ 63) :
    ∃ bound : Int64, selectBound total (some (elements.map (·.1))) = pure bound ∧
      bound.toInt = sparseBound elements := by
  unfold sparseBound at *
  cases hlast : elements.getLast? with
  | none => exact ⟨0, by simp only [selectBound, List.getLast?_map, hlast, Option.map_none], rfl⟩
  | some last =>
    have hkey := toInt_toInt64 (h.small last (List.mem_of_getLast? hlast))
    have hlt : last.1.toNat + 1 < 2 ^ 63 := by simpa [hlast] using hbound
    have hfits : Summed.fits (last.1.toInt64.toInt + (1 : Int64).toInt) = true := by
      rw [Summed.fits_iff, hkey, show (1 : Int64).toInt = 1 from rfl]
      omega
    refine ⟨last.1.toInt64 + 1, ?_, (Summed.toInt_add hfits).trans (by rw [hkey]; rfl)⟩
    simp only [selectBound, List.getLast?_map, hlast, Option.map_some]
    show Summed.mk _ _ = Summed.mk _ _
    rw [hfits]

/-- The bound of an array that reaches the highest subscript there is is no word. -/
theorem selectBound_exact {elements : List (UInt64 × Bytes)} (h : Subscripted elements)
    {total : Int64} (hexact : (selectBound total (some (elements.map (·.1)))).exact = true) :
    sparseBound elements < 2 ^ 63 := by
  unfold sparseBound
  cases hlast : elements.getLast? with
  | none => simp
  | some last =>
    have hkey := toInt_toInt64 (h.small last (List.mem_of_getLast? hlast))
    simp only [selectBound, List.getLast?_map, hlast, Option.map_some, Summed.add_exact] at hexact
    rw [Summed.fits_iff, hkey, show (1 : Int64).toInt = 1 from rfl] at hexact
    simp only
    omega

theorem sparseBound_lt_iff {values : Std.ExtTreeMap UInt64 Bytes}
    (hkeys : ∀ key : UInt64, key ∈ values → key.toNat < 2 ^ 63) :
    sparseBound values.toList < 2 ^ 63 ↔
      ∀ key : UInt64, key ∈ values → key.toNat ≠ 2 ^ 63 - 1 := by
  have h := subscripted_toList hkeys
  constructor
  · intro hbound key hmem
    obtain ⟨element, helement⟩ := Option.isSome_iff_exists.mp
      (Std.ExtTreeMap.isSome_getElem?_iff_mem.mpr hmem)
    have hlt := h.lt_sparseBound (Std.ExtTreeMap.mem_toList_iff_getElem?_eq_some.mpr helement)
    simp only at hlt
    omega
  · intro hnot
    unfold sparseBound
    cases hlast : values.toList.getLast? with
    | none => simp
    | some last =>
      have hheld := Std.ExtTreeMap.mem_toList_iff_getElem?_eq_some.mp (List.mem_of_getLast? hlast)
      have hmem : last.1 ∈ values := Std.ExtTreeMap.isSome_getElem?_iff_mem.mp (by rw [hheld]; rfl)
      have hlt := hkeys last.1 hmem
      have hne := hnot last.1 hmem
      simp only
      omega

/-- **A slice of an indexed array is exact** when its highest subscript is not the highest
    there is. -/
theorem slice_sparse_iff (locale : Locale) (values : Std.ExtTreeMap UInt64 Bytes)
    (hkeys : ∀ key : UInt64, key ∈ values → key.toNat < 2 ^ 63) (offset : Int64)
    (length : Option Int64) (hlength : ∀ n, length = some n → 0 ≤ n.toInt) :
    SparseExact locale values offset length ↔
      ∀ key : UInt64, key ∈ values → key.toNat ≠ 2 ^ 63 - 1 := by
  have h := subscripted_toList hkeys
  rw [← sparseBound_lt_iff hkeys]
  unfold SparseExact substring VariableValue.elements indexedKeys select
  simp only
  rw [← Std.ExtTreeMap.map_fst_toList_eq_keys]
  generalize values.toList = elements at *
  constructor
  · rintro ⟨hexact, -⟩
    rw [Summed.bind_exact, Bool.and_eq_true] at hexact
    exact selectBound_exact h hexact.1
  · intro hbound
    obtain ⟨bound, hpure, hvalue⟩ :=
      selectBound_eq h (Int64.ofNat (elements.map (·.2)).length) hbound
    have htotal : elements.length < 2 ^ 63 := Nat.lt_of_le_of_lt h.length_le hbound
    rw [hpure, Summed.pure_bind]
    unfold sliceSparse
    by_cases hsign : offset < 0
    · have hnegative := negative_iff.mp hsign
      have hfits := Summed.fits_add_of_sign (a := bound) (by omega) hnegative
      have hsum := Summed.toInt_add hfits
      have hstart : sliceStart (sparseBound elements) offset.toInt =
          (Summed.add bound offset).value.toInt := by
        rw [sliceStart, if_pos hnegative, hsum, hvalue]
      rw [if_pos hsign, Summed.bind_exact, Summed.bind_value, Summed.add_exact, hfits, hstart,
        Bool.true_and]
      by_cases hbefore : (Summed.add bound offset).value < 0
      · rw [if_pos hbefore, if_pos (negative_iff.mp hbefore)]
        exact ⟨rfl, rfl⟩
      · rw [if_neg hbefore, if_neg (by rwa [negative_iff] at hbefore),
          h.selectFrom_eq htotal hlength,
          filter_map_subscript]
        exact ⟨rfl, rfl⟩
    · have hpositive : ¬ offset.toInt < 0 := by rwa [negative_iff] at hsign
      have hstart : sliceStart (sparseBound elements) offset.toInt = offset.toInt :=
        if_neg hpositive
      rw [if_neg hsign, hstart, if_neg hpositive, h.selectFrom_eq htotal hlength,
        filter_map_subscript]
      exact ⟨rfl, rfl⟩

/-- The array with these elements. -/
def arrayOf (elements : List (UInt64 × Bytes)) : Std.ExtTreeMap UInt64 Bytes := .ofList elements

theorem mem_arrayOf {elements : List (UInt64 × Bytes)} {key : UInt64} :
    key ∈ arrayOf elements ↔ key ∈ elements.map (·.1) := by
  rw [arrayOf, Std.ExtTreeMap.mem_ofList, List.contains_iff_mem]

/-- An array with holes, sliced from its last element but one. -/
theorem slice_sparse_iff_holes :
    SparseExact Locale.c (arrayOf [(2, text "b"), (7, text "c")]) (-6) (some 1) ↔
      ∀ key : UInt64, key ∈ arrayOf [(2, text "b"), (7, text "c")] → key.toNat ≠ 2 ^ 63 - 1 :=
  slice_sparse_iff Locale.c _
    (fun key hmem => by
      have hkeys : ∀ key ∈ [(2 : UInt64), 7], key.toNat < 2 ^ 63 := by simp
      exact hkeys key (mem_arrayOf.mp hmem))
    _ _ (fun n hn => by
      cases hn
      decide)

/-- One past the highest subscript there is is no word. -/
theorem not_slice_sparse : ¬ ∀ (values : Std.ExtTreeMap UInt64 Bytes) (offset : Int64)
    (length : Option Int64), (∀ key : UInt64, key ∈ values → key.toNat < 2 ^ 63) →
      (∀ n, length = some n → 0 ≤ n.toInt) → SparseExact Locale.c values offset length := by
  intro h
  have hkeys : ∀ key ∈ [(9223372036854775807 : UInt64)], key.toNat < 2 ^ 63 := by simp
  have hexact := (h (arrayOf [(9223372036854775807, text "x")]) 0 (some 1)
    (fun key hmem => hkeys key (mem_arrayOf.mp hmem))
    (fun n hn => by
      cases hn
      decide)).1
  revert hexact
  decide +kernel

end Nsh.Expand
