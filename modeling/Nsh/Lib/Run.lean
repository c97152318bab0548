import Mathlib.Order.BoundedOrder.Basic
import Mathlib.Order.Basic

/-!
# Runs of a fallible stateful computation

A recursive program is modelled by its bounded unrollings: a run either comes
to a value, comes to an error, or needs deeper nesting than it was given.  The
three endings are `Outcome`; a computation over a state is a `Run`.  The flat
order on outcomes puts `unfinished` below everything, so "more nesting can only
finish what was unfinished" is monotonicity in that order.
-/

namespace Nsh

/-- How a bounded run ends. -/
inductive Outcome (σ ε α : Type) where
  | done (value : α) (state : σ)
  | failed (error : ε) (state : σ)
  | unfinished
deriving DecidableEq, Repr

variable {σ τ ε α β γ : Type}

namespace Outcome

/-- The flat order: an unfinished run is below every outcome. -/
instance : PartialOrder (Outcome σ ε α) where
  le o o' := o = .unfinished ∨ o = o'
  le_refl _ := Or.inr rfl
  le_trans _ _ _ h h' := by
    rcases h with h | rfl
    · exact Or.inl h
    · exact h'
  le_antisymm _ _ h h' := by
    rcases h with rfl | h
    · rcases h' with h' | h'
      · exact h'.symm
      · exact h'.symm
    · exact h

instance : OrderBot (Outcome σ ε α) where
  bot := .unfinished
  bot_le _ := Or.inl rfl

/-- In the flat order a finished outcome has nothing above it but itself. -/
theorem eq_of_le {o o' : Outcome σ ε α} (h : o ≤ o') (hfin : o ≠ .unfinished) : o' = o := by
  rcases h with h | h
  · exact absurd h hfin
  · exact h.symm

theorem ne_unfinished_of_le {o o' : Outcome σ ε α} (h : o ≤ o') (hfin : o ≠ .unfinished) :
    o' ≠ .unfinished := by
  rw [eq_of_le h hfin]; exact hfin

end Outcome

/-- A computation over a state `σ` that may fail with `ε`. -/
def Run (σ ε α : Type) : Type := σ → Outcome σ ε α

namespace Run

instance : PartialOrder (Run σ ε α) := inferInstanceAs (PartialOrder (σ → Outcome σ ε α))

instance : OrderBot (Run σ ε α) := inferInstanceAs (OrderBot (σ → Outcome σ ε α))

instance : Monad (Run σ ε) where
  pure a := fun s => .done a s
  bind m f := fun s =>
    match m s with
    | .done a t => f a t
    | .failed e t => .failed e t
    | .unfinished => .unfinished

/-- Raise an error, leaving the state as it stands. -/
def fail (e : ε) : Run σ ε α := fun s => .failed e s

/-- Read the state. -/
def get : Run σ ε σ := fun s => .done s s

/-- Replace the state. -/
def modify (f : σ → σ) : Run σ ε Unit := fun s => .done () (f s)

@[simp] theorem pure_apply (a : α) (s : σ) : (pure a : Run σ ε α) s = .done a s := rfl

@[simp] theorem get_apply (s : σ) : (get : Run σ ε σ) s = .done s s := rfl

@[simp] theorem modify_apply (f : σ → σ) (s : σ) :
    (modify f : Run σ ε Unit) s = .done () (f s) := rfl

theorem bind_apply (m : Run σ ε α) (f : α → Run σ ε β) (s : σ) :
    (m >>= f) s = match m s with
      | .done a t => f a t
      | .failed e t => .failed e t
      | .unfinished => .unfinished := rfl

theorem bind_done {m : Run σ ε α} {s t : σ} {a : α} (h : m s = .done a t) (f : α → Run σ ε β) :
    (m >>= f) s = f a t := by
  rw [bind_apply, h]

theorem bind_failed {m : Run σ ε α} {s t : σ} {e : ε} (h : m s = .failed e t)
    (f : α → Run σ ε β) : (m >>= f) s = .failed e t := by
  rw [bind_apply, h]

theorem bind_unfinished {m : Run σ ε α} {s : σ} (h : m s = .unfinished) (f : α → Run σ ε β) :
    (m >>= f) s = .unfinished := by
  rw [bind_apply, h]

theorem bind_assoc (m : Run σ ε α) (f : α → Run σ ε β) (g : β → Run σ ε γ) :
    (m >>= f) >>= g = m >>= fun a => f a >>= g := by
  funext s
  rw [bind_apply, bind_apply, bind_apply]
  cases m s with
  | done a t => rfl
  | failed e t => rfl
  | unfinished => rfl

theorem bind_pure (m : Run σ ε α) : m >>= pure = m := by
  funext s
  rw [bind_apply]
  cases m s with
  | done a t => rfl
  | failed e t => rfl
  | unfinished => rfl

/-- Inversion of a sequence that came to a value. -/
theorem bind_eq_done {m : Run σ ε α} {f : α → Run σ ε β} {s u : σ} {b : β}
    (h : (m >>= f) s = .done b u) : ∃ a t, m s = .done a t ∧ f a t = .done b u := by
  rw [bind_apply] at h
  cases hm : m s with
  | done a t => rw [hm] at h; exact ⟨a, t, rfl, h⟩
  | failed e t => rw [hm] at h; cases h
  | unfinished => rw [hm] at h; cases h

/-- Sequencing is monotone in both halves. -/
theorem bind_mono {m m' : Run σ ε α} {f f' : α → Run σ ε β} (hm : m ≤ m')
    (hf : ∀ a, f a ≤ f' a) : (m >>= f) ≤ (m' >>= f') := by
  intro s
  rw [bind_apply, bind_apply]
  rcases hm s with h | h
  · rw [h]; exact bot_le
  · rw [← h]
    cases m s with
    | done a t => exact hf a t
    | failed e t => exact le_refl _
    | unfinished => exact le_refl _

theorem bind_mono_right {m : Run σ ε α} {f f' : α → Run σ ε β} (hf : ∀ a, f a ≤ f' a) :
    (m >>= f) ≤ (m >>= f') := bind_mono (le_refl m) hf

/-- Run a computation on one component of a larger state. -/
def within (look : τ → σ) (put : σ → τ → τ) (m : Run σ ε α) : Run τ ε α := fun t =>
  match m (look t) with
  | .done a s => .done a (put s t)
  | .failed e s => .failed e (put s t)
  | .unfinished => .unfinished

theorem within_mono {look : τ → σ} {put : σ → τ → τ} {m m' : Run σ ε α} (h : m ≤ m') :
    within look put m ≤ within look put m' := by
  intro t
  rcases h (look t) with h | h
  · exact Or.inl (by simp only [within, h])
  · exact Or.inr (by simp only [within, h])

theorem within_unfinished {look : τ → σ} {put : σ → τ → τ} {m : Run σ ε α} {t : τ}
    (h : m (look t) = .unfinished) : within look put m t = .unfinished := by
  unfold within
  rw [h]

theorem within_finishes {look : τ → σ} {put : σ → τ → τ} {m : Run σ ε α} {t : τ}
    (h : m (look t) ≠ .unfinished) : within look put m t ≠ .unfinished := by
  unfold within
  split
  · exact nofun
  · exact nofun
  · next heq => exact absurd heq h

theorem ne_unfinished_of_within {look : τ → σ} {put : σ → τ → τ} {m : Run σ ε α} {t : τ}
    (h : within look put m t ≠ .unfinished) : m (look t) ≠ .unfinished :=
  fun hm => h (within_unfinished hm)

/-- Rewrite the errors a computation raises. -/
def mapError (g : ε → ε) (m : Run σ ε α) : Run σ ε α := fun s =>
  match m s with
  | .done a t => .done a t
  | .failed e t => .failed (g e) t
  | .unfinished => .unfinished

theorem mapError_unfinished {g : ε → ε} {m : Run σ ε α} {s : σ} (h : m s = .unfinished) :
    mapError g m s = .unfinished := by
  unfold mapError
  rw [h]

theorem mapError_mono {g : ε → ε} {m m' : Run σ ε α} (h : m ≤ m') :
    mapError g m ≤ mapError g m' := by
  intro s
  rcases h s with h | h
  · exact Or.inl (by simp only [mapError, h])
  · exact Or.inr (by simp only [mapError, h])

end Run

end Nsh
