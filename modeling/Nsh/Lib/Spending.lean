import Mathlib.Data.List.Basic
import Nsh.Lib.Failing

/-!
# Computing with a budget

A computation that is charged for what it builds before it builds it, and refused where
the budget does not hold out.  What it returns if it is not refused, and that it never
gives anything back, go from its steps to the whole.
-/

namespace Nsh

/-- A computation in what may still be spent. -/
abbrev Spending (ε : Type) := StateT Nat (Except ε)

namespace Spending

variable {ε α β : Type}

def charge (refused : ε) (count : Nat) : Spending ε Unit := fun budget =>
  if count ≤ budget then .ok ((), budget - count) else .error refused

/-! ### One step after another -/

section

variable {m : Spending ε α} {f : α → Spending ε β} {a : α} {budget left : Nat} {refused : ε}

theorem bind_ok (h : m budget = .ok (a, left)) : (m >>= f) budget = f a left := Failing.bind_ok h

theorem bind_error (h : m budget = .error refused) : (m >>= f) budget = .error refused :=
  Failing.bind_error h

theorem map_ok (g : α → β) (h : m budget = .ok (a, left)) : (g <$> m) budget = .ok (g a, left) :=
  Failing.map_ok g h

theorem map_error (g : α → β) (h : m budget = .error refused) :
    (g <$> m) budget = .error refused := Failing.map_error g h

theorem charge_ok {count : Nat} (h : count ≤ budget) :
    charge refused count budget = .ok ((), budget - count) := if_pos h

theorem of_bind_ok {b : β} (h : (m >>= f) budget = .ok (b, left)) :
    ∃ a between, m budget = .ok (a, between) ∧ f a between = .ok (b, left) := by
  cases hm : m budget with
  | error refused =>
    rw [bind_error hm] at h
    cases h
  | ok out =>
    obtain ⟨a, between⟩ := out
    rw [bind_ok hm] at h
    exact ⟨a, between, rfl, h⟩

end

/-! ### What is returned -/

/-- If the computation is not refused it returns `a`. -/
def Returns (m : Spending ε α) (a : α) : Prop :=
  ∀ budget result left, m budget = .ok (result, left) → result = a

theorem returns_pure (a : α) : Returns (pure a : Spending ε α) a := by
  intro budget result left h
  cases h
  rfl

theorem returns_throw (refused : ε) (a : α) : Returns (throw refused : Spending ε α) a := by
  intro budget result left h
  cases h

theorem returns_charge (refused : ε) (count : Nat) : Returns (charge refused count) () :=
  fun _ _ _ _ => rfl

theorem Returns.bind {m : Spending ε α} {f : α → Spending ε β} {a : α} {b : β} (hm : Returns m a)
    (hf : Returns (f a) b) : Returns (m >>= f) b := by
  intro budget result left h
  obtain ⟨a', between, hfirst, hrest⟩ := of_bind_ok h
  obtain rfl := hm budget a' between hfirst
  exact hf between result left hrest

/-- Over a list, one after the other. -/
theorem returns_mapM {γ : Type} {f : β → Spending ε α} (g : γ → β) (h : γ → α) {l : List γ}
    (hall : ∀ x ∈ l, Returns (f (g x)) (h x)) : Returns ((l.map g).mapM f) (l.map h) := by
  induction l with
  | nil => exact returns_pure []
  | cons x l ih =>
    rw [List.map_cons, List.mapM_cons, List.map_cons]
    refine (hall x List.mem_cons_self).bind (Returns.bind (ih fun y hy => ?_) (returns_pure _))
    exact hall y (List.mem_cons_of_mem x hy)

/-! ### What is spent -/

/-- The computation never leaves more than it was given. -/
def Frugal (m : Spending ε α) : Prop :=
  ∀ budget result left, m budget = .ok (result, left) → left ≤ budget

theorem frugal_pure (a : α) : Frugal (pure a : Spending ε α) := by
  intro budget result left h
  cases h
  exact Nat.le_refl budget

theorem frugal_throw (refused : ε) : Frugal (throw refused : Spending ε α) := by
  intro budget result left h
  cases h

theorem frugal_charge (refused : ε) (count : Nat) : Frugal (charge refused count) := by
  intro budget result left h
  unfold charge at h
  split at h
  · cases h
    exact Nat.sub_le budget count
  · cases h

theorem Frugal.bind {m : Spending ε α} {f : α → Spending ε β} (hm : Frugal m)
    (hf : ∀ a, Frugal (f a)) : Frugal (m >>= f) := by
  intro budget result left h
  obtain ⟨a, between, hfirst, hrest⟩ := of_bind_ok h
  exact Nat.le_trans (hf a between result left hrest) (hm budget a between hfirst)

theorem frugal_mapM {f : β → Spending ε α} (hf : ∀ x, Frugal (f x)) (l : List β) :
    Frugal (l.mapM f) := by
  induction l with
  | nil => exact frugal_pure []
  | cons x l ih =>
    rw [List.mapM_cons]
    exact (hf x).bind fun y => ih.bind fun ys => frugal_pure (y :: ys)

/-- What has been charged for fits what was given. -/
theorem charged_le {refused : ε} {count budget left : Nat} {result : Unit}
    (h : charge refused count budget = .ok (result, left)) : count ≤ budget := by
  unfold charge at h
  split at h
  · assumption
  · cases h

end Spending

end Nsh
