import Mathlib.Data.List.Basic

/-!
# The first answer of a list

A search asks each element in turn, by its position, and stops at the first that
answers.  Two searches agree if they agree up to the first answer of one of them,
which is what a search may rely on that skips what an earlier one has tried.
-/

namespace Nsh.FirstAnswer

variable {α β γ : Type}

/-- Ask the elements from position `n` on. -/
def firstAnswer (ask : ℕ → α → Option β) : ℕ → List α → Option β
  | _, [] => none
  | n, a :: rest => (ask n a).orElse fun _ => firstAnswer ask (n + 1) rest

theorem firstAnswer_cons (ask : ℕ → α → Option β) (n : ℕ) (a : α) (rest : List α) :
    firstAnswer ask n (a :: rest) = (ask n a).orElse fun _ => firstAnswer ask (n + 1) rest := rfl

/-- The element that answers first, and that nothing in front of it does. -/
theorem firstAnswer_eq_some {ask : ℕ → α → Option β} {n : ℕ} {l : List α} {b : β}
    (h : firstAnswer ask n l = some b) :
    ∃ i a, l[i]? = some a ∧ ask (n + i) a = some b ∧
      ∀ j c, j < i → l[j]? = some c → ask (n + j) c = none := by
  induction l generalizing n with
  | nil => cases h
  | cons a rest ih =>
    rw [firstAnswer_cons] at h
    cases hask : ask n a with
    | some c =>
      rw [hask] at h
      cases h
      exact ⟨0, a, rfl, hask, fun j _ hj => absurd hj (Nat.not_lt_zero j)⟩
    | none =>
      rw [hask] at h
      obtain ⟨i, c, hc, hanswer, hbefore⟩ := ih h
      have hi : n + 1 + i = n + (i + 1) := by omega
      rw [hi] at hanswer
      refine ⟨i + 1, c, hc, hanswer, fun j d hj hd => ?_⟩
      cases j with
      | zero =>
        cases hd
        exact hask
      | succ j =>
        have hj' : n + (j + 1) = n + 1 + j := by omega
        rw [hj']
        exact hbefore j d (Nat.lt_of_succ_lt_succ hj) hd

end Nsh.FirstAnswer
