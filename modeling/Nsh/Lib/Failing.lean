import Mathlib.Init

/-!
# Computing with a state that may fail

A computation that changes a state or fails, read one step after another.
-/

namespace Nsh

/-- A computation that changes a state or fails. -/
abbrev Failing (σ ε : Type) := StateT σ (Except ε)

namespace Failing

variable {σ ε α β : Type} {m : Failing σ ε α} {f : α → Failing σ ε β} {a : α} {s s' : σ} {e : ε}

theorem bind_ok (h : m s = .ok (a, s')) : (m >>= f) s = f a s' := by
  show (m s >>= fun out => f out.1 out.2) = _
  rw [h]
  rfl

theorem bind_error (h : m s = .error e) : (m >>= f) s = .error e := by
  show (m s >>= fun out => f out.1 out.2) = _
  rw [h]
  rfl

theorem map_ok (g : α → β) (h : m s = .ok (a, s')) : (g <$> m) s = .ok (g a, s') := by
  show (m s >>= fun out => pure (g out.1, out.2)) = _
  rw [h]
  rfl

theorem map_error (g : α → β) (h : m s = .error e) : (g <$> m) s = .error e := by
  show (m s >>= fun out => pure (g out.1, out.2)) = _
  rw [h]
  rfl

end Failing

end Nsh
