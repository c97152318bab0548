import Mathlib.Order.Bounds.Basic
import Mathlib.Data.Option.Basic

/-!
# The best answer

A search that keeps the largest answer it has seen, or none, answers with the
greatest element of the set of answers.  `Best r S` says that `r` is that answer for
`S`; taking the maximum of two answers is searching the union.
-/

namespace Nsh

variable {α : Type} [LinearOrder α] {r r' : Option α} {S T : Set α} {v : α}

/-- `r` is the greatest element of `S`, or `none` when `S` has no element. -/
def Best : Option α → Set α → Prop
  | none, S => S = ∅
  | some v, S => IsGreatest S v

@[simp] theorem best_none : Best none S ↔ S = ∅ := Iff.rfl

@[simp] theorem best_some : Best (some v) S ↔ IsGreatest S v := Iff.rfl

theorem Best.mem (h : Best r S) (hr : r = some v) : v ∈ S := by
  subst hr
  exact h.1

theorem Best.isSome_iff (h : Best r S) : r.isSome = true ↔ S.Nonempty := by
  cases r with
  | none =>
    rw [best_none] at h
    simp [h]
  | some v => simpa using ⟨v, h.1⟩

theorem Best.eq_none_of_empty (h : Best r ∅) : r = none := by
  cases r with
  | none => rfl
  | some v => exact absurd h.1 (Set.notMem_empty v)

/-- A set has one best answer. -/
theorem Best.unique (h : Best r S) (h' : Best r' S) : r = r' := by
  cases r with
  | none =>
    rw [best_none] at h
    subst h
    exact h'.eq_none_of_empty.symm
  | some v =>
    cases r' with
    | none =>
      rw [best_none] at h'
      subst h'
      exact absurd h.1 (Set.notMem_empty v)
    | some w => exact congrArg some (h.isGreatest_iff_eq.mp h')

/-- The maximum of two answers is the answer for the union. -/
theorem Best.union (h : Best r S) (h' : Best r' T) : Best (max r r') (S ∪ T) := by
  cases r with
  | none =>
    rw [best_none] at h
    subst h
    cases r' with
    | none =>
      rw [best_none] at h'
      subst h'
      exact Set.union_empty ∅
    | some w =>
      show IsGreatest (∅ ∪ T) w
      rw [Set.empty_union]
      exact h'
  | some v =>
    cases r' with
    | none =>
      rw [best_none] at h'
      subst h'
      show IsGreatest (S ∪ ∅) v
      rw [Set.union_empty]
      exact h
    | some w => exact IsGreatest.union h h'

/-- An answer nothing can beat stands when more is searched. -/
theorem Best.union_of_le (h : Best (some v) S) (hT : ∀ w ∈ T, w ≤ v) : Best (some v) (S ∪ T) := by
  constructor
  · exact Or.inl h.1
  · rintro w (hw | hw)
    · exact h.2 hw
    · exact hT w hw

theorem eq_some_of_max {x y : Option α} (h : max x y = some v) : x = some v ∨ y = some v := by
  cases x with
  | none =>
    cases y with
    | none => cases h
    | some w => exact Or.inr h
  | some u =>
    cases y with
    | none => exact Or.inl h
    | some w =>
      have hmax : max u w = v := Option.some.inj h
      rcases le_total u w with hle | hle
      · rw [max_eq_right hle] at hmax; exact Or.inr (congrArg some hmax)
      · rw [max_eq_left hle] at hmax; exact Or.inl (congrArg some hmax)

end Nsh
