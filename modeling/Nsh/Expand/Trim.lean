import Mathlib.Order.Bounds.Basic
import Nsh.Patterns.Questions

/-!
# `${name#pattern}`, `${name%pattern}` and the longest forms of both

A suffix is found by asking one trial from the boundaries of the value in turn; all the
prefixes come from one walk that collects the ends of the pattern.  Both remove the
affix that is extreme among those that the pattern matches and that end on a boundary.
-/

namespace Nsh.Expand

open Nsh.Patterns

/-- The trimming operations among the `ParameterOperation`s. -/
inductive TrimOperation where
  | removeSmallestSuffix
  | removeLargestSuffix
  | removeSmallestPrefix
  | removeLargestPrefix
deriving DecidableEq, Repr

/-! ### Removing an affix -/

/-- The first of the offsets from which the pattern matches the rest, asked in turn. -/
def findMatch (limit : Nat) : Trial → List Nat → Option Nat
  | _, [] => none
  | t, offset :: rest =>
    if (t.matchesFrom limit offset).1 then some offset
    else findMatch limit (t.matchesFrom limit offset).2 rest

/-- The ends of the prefixes the pattern matches, in order. -/
def prefixEnds (limit : Nat) (t : Trial) (boundaries : List Nat) : List Nat :=
  (t.endsFrom limit 0).1.filter fun offset => boundaries.contains offset

/-- What stays of the value: where it begins and where it ends. -/
def trimCut (locale : Locale) (value : Bytes) (p : Pattern) (limit : Nat) :
    TrimOperation → Option (Nat × Nat)
  | .removeSmallestSuffix =>
    (findMatch limit (p.trial locale value) (Characters.mk locale value).boundaries.reverse).map
      fun offset => (0, offset)
  | .removeLargestSuffix =>
    (findMatch limit (p.trial locale value) (Characters.mk locale value).boundaries).map
      fun offset => (0, offset)
  | .removeSmallestPrefix =>
    (prefixEnds limit (p.trial locale value) (Characters.mk locale value).boundaries).head?.map
      fun offset => (offset, value.length)
  | .removeLargestPrefix =>
    (prefixEnds limit (p.trial locale value) (Characters.mk locale value).boundaries).getLast?.map
      fun offset => (offset, value.length)

def trim (locale : Locale) (value : Bytes) (p : Pattern) (limit : Nat)
    (operation : TrimOperation) : Bytes :=
  match trimCut locale value p limit operation with
  | some (start, stop) => value.extract start stop
  | none => value

/-! ### The affixes -/

/-- Where the suffixes begin that begin a character and that the pattern matches. -/
def suffixes (p : Pattern) (locale : Locale) (value : Bytes) : Set Nat :=
  {offset | offset ∈ (Characters.mk locale value).boundaries ∧
    p.Spans locale value offset value.length}

/-- Where the prefixes end that end a character and that the pattern matches. -/
def prefixes (p : Pattern) (locale : Locale) (value : Bytes) : Set Nat :=
  {offset | offset ∈ (Characters.mk locale value).boundaries ∧ p.Spans locale value 0 offset}

/-- The value without the shortest or the longest of the affixes, or the value where there
    is none. -/
def Trimmed (p : Pattern) (locale : Locale) (value : Bytes) : TrimOperation → Bytes → Prop
  | .removeSmallestSuffix, result =>
    (suffixes p locale value = ∅ ∧ result = value) ∨
      ∃ offset, IsGreatest (suffixes p locale value) offset ∧ result = value.take offset
  | .removeLargestSuffix, result =>
    (suffixes p locale value = ∅ ∧ result = value) ∨
      ∃ offset, IsLeast (suffixes p locale value) offset ∧ result = value.take offset
  | .removeSmallestPrefix, result =>
    (prefixes p locale value = ∅ ∧ result = value) ∨
      ∃ offset, IsLeast (prefixes p locale value) offset ∧ result = value.drop offset
  | .removeLargestPrefix, result =>
    (prefixes p locale value = ∅ ∧ result = value) ∨
      ∃ offset, IsGreatest (prefixes p locale value) offset ∧ result = value.drop offset

/-! ### Questions within budget -/

/-- Every question `findMatch` asks ends with budget left. -/
def FindsWithin (limit : Nat) : Trial → List Nat → Prop
  | _, [] => True
  | t, offset :: rest =>
    (t.matchesFrom limit offset).2.budget.exhausted = false ∧
      ((t.matchesFrom limit offset).1 = false →
        FindsWithin limit (t.matchesFrom limit offset).2 rest)

instance decidableFindsWithin (limit : Nat) :
    (t : Trial) → (offsets : List Nat) → Decidable (FindsWithin limit t offsets)
  | _, [] => isTrue trivial
  | t, offset :: rest =>
    have := decidableFindsWithin limit (t.matchesFrom limit offset).2 rest
    inferInstanceAs (Decidable (_ ∧ _))

/-- Every question the operation puts to the trial ends with budget left. -/
def TrimsWithin (p : Pattern) (locale : Locale) (value : Bytes) (limit : Nat) :
    TrimOperation → Prop
  | .removeSmallestSuffix =>
    FindsWithin limit (p.trial locale value) (Characters.mk locale value).boundaries.reverse
  | .removeLargestSuffix =>
    FindsWithin limit (p.trial locale value) (Characters.mk locale value).boundaries
  | _ => ((p.trial locale value).endsFrom limit 0).2.budget.exhausted = false

/-! ### The first match of a list of offsets -/

section

variable {p : Pattern} {locale : Locale} {value : Bytes} {t : Trial} {limit : Nat}

theorem findMatch_none (hready : t.Ready p locale value) {offsets : List Nat}
    (hoffsets : ∀ offset ∈ offsets, offset ≤ value.length) (hlive : FindsWithin limit t offsets)
    (h : findMatch limit t offsets = none) :
    ∀ offset ∈ offsets, ¬ p.Spans locale value offset value.length := by
  induction offsets generalizing t with
  | nil =>
    intro offset hmem
    cases hmem
  | cons offset rest ih =>
    have hle := hoffsets offset List.mem_cons_self
    have hiff := hready.matchesFrom_iff hle hlive.1
    cases hmatched : (t.matchesFrom limit offset).1 with
    | true =>
      rw [findMatch, if_pos hmatched] at h
      cases h
    | false =>
      rw [findMatch, if_neg (by simp [hmatched])] at h
      have hrest := ih (hready.matchesFrom hle)
        (fun other hmem => hoffsets other (List.mem_cons_of_mem offset hmem)) (hlive.2 hmatched) h
      intro other hmem hspans
      rcases List.mem_cons.mp hmem with rfl | hmem
      · rw [hiff.mpr hspans] at hmatched
        cases hmatched
      · exact hrest other hmem hspans

/-- The offset found is one the pattern matches from, and nothing in front of it is. -/
theorem findMatch_some (hready : t.Ready p locale value) {offsets : List Nat}
    (hoffsets : ∀ offset ∈ offsets, offset ≤ value.length) (hlive : FindsWithin limit t offsets)
    {found : Nat} (h : findMatch limit t offsets = some found) :
    p.Spans locale value found value.length ∧
      ∃ before after, offsets = before ++ found :: after ∧
        ∀ offset ∈ before, ¬ p.Spans locale value offset value.length := by
  induction offsets generalizing t with
  | nil => cases h
  | cons offset rest ih =>
    have hle := hoffsets offset List.mem_cons_self
    have hiff := hready.matchesFrom_iff hle hlive.1
    cases hmatched : (t.matchesFrom limit offset).1 with
    | true =>
      rw [findMatch, if_pos hmatched] at h
      cases h
      refine ⟨hiff.mp hmatched, [], rest, rfl, ?_⟩
      intro other hmem
      cases hmem
    | false =>
      rw [findMatch, if_neg (by simp [hmatched])] at h
      obtain ⟨hspans, before, after, rfl, hbefore⟩ := ih (hready.matchesFrom hle)
        (fun other hmem => hoffsets other (List.mem_cons_of_mem offset hmem)) (hlive.2 hmatched) h
      refine ⟨hspans, offset :: before, after, rfl, ?_⟩
      intro other hmem hother
      rcases List.mem_cons.mp hmem with rfl | hmem
      · rw [hiff.mpr hother] at hmatched
        cases hmatched
      · exact hbefore other hmem hother

/-! ### The extreme one of a rising list -/

/-- The first element of a rising list that lies in the set is its least element. -/
theorem isLeast_of_first {α : Type} [Preorder α] {S : Set α} {l before after : List α} {found : α}
    (hl : l.Pairwise (· < ·)) (hS : ∀ n ∈ S, n ∈ l) (hfound : found ∈ S)
    (hsplit : l = before ++ found :: after) (hbefore : ∀ n ∈ before, n ∉ S) : IsLeast S found := by
  refine ⟨hfound, fun n hn => ?_⟩
  have hmem := hS n hn
  rw [hsplit, List.mem_append, List.mem_cons] at hmem
  rcases hmem with hmem | rfl | hmem
  · exact absurd hn (hbefore n hmem)
  · exact le_refl _
  · rw [hsplit] at hl
    have hrest := (List.pairwise_append.mp hl).2.1
    exact le_of_lt ((List.pairwise_cons.mp hrest).1 n hmem)

theorem isGreatest_of_first {S : Set Nat} {l before after : List Nat} {found : Nat}
    (hl : l.Pairwise (· < ·)) (hS : ∀ n ∈ S, n ∈ l) (hfound : found ∈ S)
    (hsplit : l.reverse = before ++ found :: after) (hbefore : ∀ n ∈ before, n ∉ S) :
    IsGreatest S found :=
  isLeast_of_first (α := Natᵒᵈ) (List.pairwise_reverse.mpr hl)
    (fun n hn => List.mem_reverse.mpr (hS n hn)) hfound hsplit hbefore

/-! ### The four operations -/

theorem boundaries_le {offset : Nat} (h : offset ∈ (Characters.mk locale value).boundaries) :
    offset ≤ value.length := (Characters.mk locale value).le_of_mem_boundaries h

theorem mem_prefixEnds
    (hlive : ((p.trial locale value).endsFrom limit 0).2.budget.exhausted = false)
    {offset : Nat} :
    offset ∈ prefixEnds limit (p.trial locale value) (Characters.mk locale value).boundaries ↔
      offset ∈ prefixes p locale value := by
  rw [prefixEnds, List.mem_filter,
    (Trial.ready_trial p locale value).mem_endsFrom (Nat.zero_le _) hlive, List.contains_iff_mem]
  exact and_comm

variable (t limit) in
theorem prefixEnds_pairwise (boundaries : List Nat) :
    (prefixEnds limit t boundaries).Pairwise (· < ·) :=
  (Trial.endsFrom_pairwise t limit 0).filter _

/-- No affix, as an empty list of them says. -/
theorem prefixes_empty
    (hlive : ((p.trial locale value).endsFrom limit 0).2.budget.exhausted = false)
    (hnil : prefixEnds limit (p.trial locale value) (Characters.mk locale value).boundaries = []) :
    prefixes p locale value = ∅ := by
  rw [Set.eq_empty_iff_forall_notMem]
  intro offset hmem
  rw [← mem_prefixEnds hlive, hnil] at hmem
  cases hmem

/-- What is found among all the boundaries, in whatever order they are asked in. -/
theorem findMatch_suffixes {offsets : List Nat}
    (hoffsets : ∀ offset, offset ∈ offsets ↔ offset ∈ (Characters.mk locale value).boundaries)
    (hlive : FindsWithin limit (p.trial locale value) offsets) :
    match findMatch limit (p.trial locale value) offsets with
    | none => suffixes p locale value = ∅
    | some found => found ∈ suffixes p locale value ∧ ∃ before after,
        offsets = before ++ found :: after ∧
          ∀ offset ∈ before, offset ∉ suffixes p locale value := by
  have hready := Trial.ready_trial p locale value
  have hle : ∀ offset ∈ offsets, offset ≤ value.length := fun offset hmem =>
    boundaries_le ((hoffsets offset).mp hmem)
  cases hfind : findMatch limit (p.trial locale value) offsets with
  | none =>
    have hno := findMatch_none hready hle hlive hfind
    refine Set.eq_empty_iff_forall_notMem.mpr fun offset hmem => ?_
    exact hno offset ((hoffsets offset).mpr hmem.1) hmem.2
  | some found =>
    obtain ⟨hspans, before, after, hsplit, hbefore⟩ := findMatch_some hready hle hlive hfind
    have hmem : found ∈ offsets := by
      rw [hsplit]
      exact List.mem_append_right before List.mem_cons_self
    exact ⟨⟨(hoffsets found).mp hmem, hspans⟩, before, after, hsplit,
      fun offset hoffset hin => hbefore offset hoffset hin.2⟩

/-- **Trimming removes exactly the shortest or the longest affix that matches.** -/
theorem trim_trimmed (p : Pattern) (locale : Locale) (value : Bytes) (limit : Nat)
    (operation : TrimOperation) (hlive : TrimsWithin p locale value limit operation) :
    Trimmed p locale value operation (trim locale value p limit operation) := by
  have hrising := (Characters.mk locale value).boundaries_pairwise
  cases operation with
  | removeSmallestSuffix =>
    have hfound := findMatch_suffixes (fun _ => List.mem_reverse) hlive
    unfold Trimmed trim trimCut
    cases hfind : findMatch limit (p.trial locale value)
        (Characters.mk locale value).boundaries.reverse with
    | none =>
      rw [hfind] at hfound
      exact Or.inl ⟨hfound, rfl⟩
    | some found =>
      rw [hfind] at hfound
      obtain ⟨hmem, before, after, hsplit, hbefore⟩ := hfound
      refine Or.inr ⟨found, ?_, by simp [List.extract_eq_take_drop]⟩
      exact isGreatest_of_first hrising (fun offset h => h.1) hmem hsplit hbefore
  | removeLargestSuffix =>
    have hfound := findMatch_suffixes (fun _ => Iff.rfl) hlive
    unfold Trimmed trim trimCut
    cases hfind : findMatch limit (p.trial locale value)
        (Characters.mk locale value).boundaries with
    | none =>
      rw [hfind] at hfound
      exact Or.inl ⟨hfound, rfl⟩
    | some found =>
      rw [hfind] at hfound
      obtain ⟨hmem, before, after, hsplit, hbefore⟩ := hfound
      refine Or.inr ⟨found, ?_, by simp [List.extract_eq_take_drop]⟩
      exact isLeast_of_first hrising (fun offset h => h.1) hmem hsplit hbefore
  | removeSmallestPrefix =>
    have hends := prefixEnds_pairwise (p.trial locale value) limit
      (Characters.mk locale value).boundaries
    unfold Trimmed trim trimCut
    cases hall : prefixEnds limit (p.trial locale value)
        (Characters.mk locale value).boundaries with
    | nil => exact Or.inl ⟨prefixes_empty hlive hall, rfl⟩
    | cons found rest =>
      have hmem : found ∈ prefixes p locale value := by
        rw [← mem_prefixEnds hlive, hall]
        exact List.mem_cons_self
      refine Or.inr ⟨found, ?_, by simp [List.extract_eq_take_drop]⟩
      refine isLeast_of_first hends (fun offset h => (mem_prefixEnds hlive).mpr h) hmem
        (hall.trans (List.nil_append _).symm) fun offset h => ?_
      cases h
  | removeLargestPrefix =>
    have hends := prefixEnds_pairwise (p.trial locale value) limit
      (Characters.mk locale value).boundaries
    unfold Trimmed trim trimCut
    cases hlast : (prefixEnds limit (p.trial locale value)
        (Characters.mk locale value).boundaries).getLast? with
    | none => exact Or.inl ⟨prefixes_empty hlive (List.getLast?_eq_none_iff.mp hlast), rfl⟩
    | some found =>
      have hmem : found ∈ prefixes p locale value :=
        (mem_prefixEnds hlive).mp (List.mem_of_getLast? hlast)
      obtain ⟨before, hsplit⟩ := List.getLast?_eq_some_iff.mp hlast
      refine Or.inr ⟨found, ?_, by simp [List.extract_eq_take_drop]⟩
      have hreverse : (prefixEnds limit (p.trial locale value)
          (Characters.mk locale value).boundaries).reverse = [] ++ found :: before.reverse := by
        rw [hsplit, List.reverse_append]
        rfl
      refine isGreatest_of_first hends (fun offset h => (mem_prefixEnds hlive).mpr h) hmem
        hreverse fun offset h => ?_
      cases h

/-- The shortest suffix of `aab` that `*b` matches is `b`. -/
theorem trim_trimmed_star :
    Trimmed (Pattern.unquoted (text "*b") ⟨true, false⟩) Locale.c (text "aab") .removeSmallestSuffix
      (trim Locale.c (text "aab") (Pattern.unquoted (text "*b") ⟨true, false⟩) 40
        .removeSmallestSuffix) :=
  trim_trimmed _ _ _ 40 .removeSmallestSuffix (by
    show FindsWithin _ _ _
    decide +kernel)

end

end Nsh.Expand
