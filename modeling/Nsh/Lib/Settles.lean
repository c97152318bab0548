import Nsh.Lib.Run

/-!
# Runs that fuel does not cut short

A loop is modelled with fuel.  It comes to an end when enough fuel gives one outcome,
the same for any more.  The rules put such runs together, so that a termination
argument names the state a loop turns on, and no bound on the fuel.
-/

namespace Nsh

variable {σ τ ε α β : Type} {f g : ℕ → Outcome σ ε α}

/-- From some fuel on there is one outcome, and it is a finished one. -/
def Settles (f : ℕ → Outcome σ ε α) : Prop :=
  ∃ outcome, outcome ≠ .unfinished ∧ ∃ bound, ∀ fuel, bound ≤ fuel → f fuel = outcome

namespace Settles

theorem finishes (h : Settles f) : ∃ fuel, f fuel ≠ .unfinished := by
  obtain ⟨outcome, hfinished, bound, hbound⟩ := h
  exact ⟨bound, hbound bound (Nat.le_refl bound) ▸ hfinished⟩

theorem congr (h : Settles f) (hfg : ∃ bound, ∀ fuel, bound ≤ fuel → g fuel = f fuel) :
    Settles g := by
  obtain ⟨outcome, hfinished, bound, hbound⟩ := h
  obtain ⟨start, hstart⟩ := hfg
  refine ⟨outcome, hfinished, max bound start, fun fuel hfuel => ?_⟩
  rw [hstart fuel (Nat.le_trans (Nat.le_max_right bound start) hfuel)]
  exact hbound fuel (Nat.le_trans (Nat.le_max_left bound start) hfuel)

theorem of_eq {outcome : Outcome σ ε α} (hfinished : outcome ≠ .unfinished)
    (h : ∀ fuel, f fuel = outcome) : Settles f :=
  ⟨outcome, hfinished, 0, fun fuel _ => h fuel⟩

theorem done (a : α) (s : σ) : Settles fun _ => (.done a s : Outcome σ ε α) :=
  of_eq (fun h => by cases h) fun _ => rfl

theorem failed (e : ε) (s : σ) : Settles fun _ => (.failed e s : Outcome σ ε α) :=
  of_eq (fun h => by cases h) fun _ => rfl

/-- A turn of the loop uses up one. -/
theorem of_succ (h : Settles fun fuel => f (fuel + 1)) : Settles f := by
  obtain ⟨outcome, hfinished, bound, hbound⟩ := h
  refine ⟨outcome, hfinished, bound + 1, fun fuel hfuel => ?_⟩
  cases fuel with
  | zero => exact absurd hfuel (Nat.not_succ_le_zero bound)
  | succ fuel => exact hbound fuel (Nat.le_of_succ_le_succ hfuel)

/-- What is made of the outcome is finished where the outcome is. -/
theorem map (h : Settles f) (through : Outcome σ ε α → Outcome τ ε β)
    (hthrough : ∀ outcome, outcome ≠ .unfinished → through outcome ≠ .unfinished) :
    Settles fun fuel => through (f fuel) := by
  obtain ⟨outcome, hfinished, bound, hbound⟩ := h
  exact ⟨through outcome, hthrough outcome hfinished, bound, fun fuel hfuel =>
    congrArg through (hbound fuel hfuel)⟩

theorem bind {m : ℕ → Run σ ε α} {next : ℕ → α → Run σ ε β} {s : σ}
    (hm : Settles fun fuel => m fuel s) (hnext : ∀ a t, Settles fun fuel => next fuel a t) :
    Settles fun fuel => (m fuel >>= next fuel) s := by
  obtain ⟨outcome, hfinished, bound, hbound⟩ := hm
  cases outcome with
  | done a t =>
    exact (hnext a t).congr ⟨bound, fun fuel hfuel => Run.bind_done (hbound fuel hfuel) _⟩
  | failed e t =>
    exact (failed e t).congr ⟨bound, fun fuel hfuel => Run.bind_failed (hbound fuel hfuel) _⟩
  | unfinished => exact absurd rfl hfinished

end Settles

end Nsh
