import Mathlib.Order.BoundedOrder.Basic
import Mathlib.Order.Basic

/-!
# Nested activations under a budget that some of them restart

A recursive program is a functional `F inner restart : A → B`: its body at an
activation `a : A`, given what the activations it opens answer.  The activations
it opens are of two kinds.  An `inner` one is charged: a measure `μ`, bounded by
`N`, decreases.  A `restart` is not: it may open any activation whatever.

`unrolled F n` allows `n` nested activations of either kind.  `restarted F N l`
allows `l` nested restarts and, below each, as many inner activations as the
measure leaves room for.  The two bound each other (`unrolled_le_restarted`,
`restarted_le_unrolled`), so a program whose charged activations are bounded
finishes exactly when its restarts nest finitely deep (`eventually_iff`).
-/

namespace Nsh.Nested

variable {A B : Type} [PartialOrder B] [OrderBot B]

/-- `F` is monotone in what it opens, and opens inner activations of smaller
    measure only. -/
def Guarded (F : (A → B) → (A → B) → A → B) (μ : A → Nat) : Prop :=
  ∀ c c' r r' a, (∀ a', μ a' < μ a → c a' ≤ c' a') → (∀ a', r a' ≤ r' a') →
    F c r a ≤ F c' r' a

/-- At most `n` nested activations. -/
def unrolled (F : (A → B) → (A → B) → A → B) : Nat → A → B
  | 0 => fun _ => ⊥
  | n + 1 => F (unrolled F n) (unrolled F n)

/-- At most `n` nested inner activations, the restarts answered by `restart`. -/
def descent (F : (A → B) → (A → B) → A → B) (restart : A → B) : Nat → A → B
  | 0 => fun _ => ⊥
  | n + 1 => F (descent F restart n) restart

/-- At most `l` nested restarts, each with room for `N` inner activations. -/
def restarted (F : (A → B) → (A → B) → A → B) (N : Nat) : Nat → A → B
  | 0 => descent F (fun _ => ⊥) N
  | l + 1 => descent F (restarted F N l) N

variable {F : (A → B) → (A → B) → A → B} {μ : A → Nat} {N : Nat}

theorem unrolled_le_succ (hF : Guarded F μ) :
    ∀ (n : Nat) (a : A), unrolled F n a ≤ unrolled F (n + 1) a := by
  intro n
  induction n with
  | zero => intro a; exact bot_le
  | succ n ih => intro a; exact hF _ _ _ _ a (fun a' _ => ih a') ih

theorem unrolled_mono (hF : Guarded F μ) {m n : Nat} (hmn : m ≤ n) (a : A) :
    unrolled F m a ≤ unrolled F n a := by
  induction hmn with
  | refl => exact le_refl _
  | step _ ih => exact le_trans ih (unrolled_le_succ hF _ a)

theorem descent_mono (hF : Guarded F μ) {r r' : A → B} (hr : ∀ a, r a ≤ r' a) :
    ∀ (n : Nat) (a : A), descent F r n a ≤ descent F r' n a := by
  intro n
  induction n with
  | zero => intro a; exact le_refl _
  | succ n ih => intro a; exact hF _ _ _ _ a (fun a' _ => ih a') hr

theorem restarted_le_succ (hF : Guarded F μ) :
    ∀ (l : Nat) (a : A), restarted F N l a ≤ restarted F N (l + 1) a := by
  intro l
  induction l with
  | zero => intro a; exact descent_mono hF (fun _ => bot_le) N a
  | succ l ih => intro a; exact descent_mono hF ih N a

/-- A run of `m` nested activations restarts at most `m` deep, and the measure
    leaves room for every inner activation it opens. -/
theorem unrolled_le_descent (hF : Guarded F μ) (hμ : ∀ a, μ a < N) :
    ∀ (m n : Nat) (a : A), μ a < n →
      unrolled F m a ≤ descent F (restarted F N m) n a := by
  intro m
  induction m with
  | zero => intro n a _; exact bot_le
  | succ m ih =>
    intro n a hn
    obtain ⟨n, rfl⟩ : ∃ k, n = k + 1 := ⟨n - 1, by omega⟩
    have hinner : ∀ a', μ a' < μ a →
        unrolled F m a' ≤ descent F (restarted F N (m + 1)) n a' := by
      intro a' ha'
      exact le_trans (ih n a' (by omega)) (descent_mono hF (restarted_le_succ hF m) n a')
    have hrestart : ∀ a', unrolled F m a' ≤ restarted F N (m + 1) a' := by
      intro a'
      exact le_trans (ih N a' (hμ a')) (le_refl _)
    exact hF _ _ _ _ a hinner hrestart

theorem unrolled_le_restarted (hF : Guarded F μ) (hμ : ∀ a, μ a < N) (m : Nat) (a : A) :
    unrolled F m a ≤ restarted F N (m + 1) a :=
  unrolled_le_descent hF hμ m N a (hμ a)

theorem descent_le_unrolled (hF : Guarded F μ) {r : A → B} {k : Nat}
    (hr : ∀ a, r a ≤ unrolled F k a) :
    ∀ (n : Nat) (a : A), descent F r n a ≤ unrolled F (k + n) a := by
  intro n
  induction n with
  | zero => intro a; exact bot_le
  | succ n ih =>
    intro a
    refine hF _ _ _ _ a (fun a' _ => ih a') (fun a' => ?_)
    exact le_trans (hr a') (unrolled_mono hF (Nat.le_add_right k n) a')

/-- `l` nested restarts take at most `(l + 1) * N` nested activations. -/
theorem restarted_le_unrolled (hF : Guarded F μ) :
    ∀ (l : Nat) (a : A), restarted F N l a ≤ unrolled F ((l + 1) * N) a := by
  intro l
  induction l with
  | zero =>
    intro a
    have h := descent_le_unrolled hF (r := fun _ => ⊥) (k := 0) (fun _ => bot_le) N a
    rwa [show 0 + N = (0 + 1) * N by omega] at h
  | succ l ih =>
    intro a
    have h := descent_le_unrolled hF ih N a
    rwa [← Nat.succ_mul] at h

/-- With its inner activations bounded by a measure, what a program comes to
    with enough activations is what it comes to with enough restarts.  `P` is any
    property that more activations keep, such as having finished. -/
theorem eventually_iff (hF : Guarded F μ) (hμ : ∀ a, μ a < N) {P : B → Prop}
    (hP : ∀ {b b'}, b ≤ b' → P b → P b') (a : A) :
    (∃ n, P (unrolled F n a)) ↔ ∃ l, P (restarted F N l a) := by
  constructor
  · rintro ⟨n, hn⟩
    exact ⟨n + 1, hP (unrolled_le_restarted hF hμ n a) hn⟩
  · rintro ⟨l, hl⟩
    exact ⟨(l + 1) * N, hP (restarted_le_unrolled hF l a) hl⟩

end Nsh.Nested
