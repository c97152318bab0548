import Mathlib.Logic.Relation

/-!
# A relation taken so many times in a row

`Times R k` is `R` composed with itself `k` times, and `Between R least most` the
union of these over the counts from `least` to `most`, or to any number.  A chain that
is only asked where it ends needs no step that stays where it is, except to make up
the least count.
-/

namespace Nsh

variable {α : Type} {R : α → α → Prop} {a b c : α} {k least : Nat} {most : Option Nat}

/-- The relation, so many times in a row. -/
def Times (R : α → α → Prop) : Nat → α → α → Prop
  | 0, a, c => a = c
  | k + 1, a, c => ∃ b, R a b ∧ Times R k b c

/-- The count does not pass the most there may be. -/
def Within (most : Option Nat) (k : Nat) : Prop := ∀ m, most = some m → k ≤ m

/-- The relation from `least` to `most` times in a row. -/
def Between (R : α → α → Prop) (least : Nat) (most : Option Nat) (a c : α) : Prop :=
  ∃ k, least ≤ k ∧ Within most k ∧ Times R k a c

theorem Times.cons (h : R a b) (rest : Times R k b c) : Times R (k + 1) a c := ⟨b, h, rest⟩

theorem Within.mono {j : Nat} (h : Within most k) (hle : j ≤ k) : Within most j :=
  fun m hm => Nat.le_trans hle (h m hm)

theorem within_none (k : Nat) : Within none k := by
  intro m h
  cases h

theorem within_some {m : Nat} : Within (some m) k ↔ k ≤ m :=
  ⟨fun h => h m rfl, fun h _ hm => Option.some.inj hm ▸ h⟩

/-- **A chain goes nowhere, or a shorter one begins with a step that moves.** -/
theorem Times.moves (h : Times R k a c) :
    a = c ∨ ∃ j b, j < k ∧ R a b ∧ b ≠ a ∧ Times R j b c := by
  induction k with
  | zero => exact Or.inl h
  | succ k ih =>
    obtain ⟨b, hb, hrest⟩ := h
    by_cases hba : b = a
    · subst hba
      rcases ih hrest with hend | ⟨j, d, hj, hd, hne, htail⟩
      · exact Or.inl hend
      · exact Or.inr ⟨j, d, Nat.lt_succ_of_lt hj, hd, hne, htail⟩
    · exact Or.inr ⟨k, b, Nat.lt_succ_self k, hb, hba, hrest⟩

end Nsh
