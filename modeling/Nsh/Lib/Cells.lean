import Mathlib.Data.List.Basic

/-!
# Cells written once

A store of cells that are handed out empty and filled at most once.  What a
filled cell holds stands however the store grows, so a value may be promised by
naming its cell before the value is known.
-/

namespace Nsh

/-- The cells handed out so far, the empty ones being `none`. -/
abbrev Cells (α : Type) := List (Option α)

namespace Cells

variable {α : Type}

/-- What a cell holds, once it is filled. -/
def get (cells : Cells α) (cell : Nat) : Option α := cells[cell]?.join

/-- Fill a cell unless it is filled already. -/
def fill (cells : Cells α) (cell : Nat) (value : α) : Cells α :=
  match cells.get cell with
  | some _ => cells
  | none => cells.set cell (some value)

/-- Hand out an empty cell, whose name is how many there were. -/
def fresh (cells : Cells α) : Cells α := cells ++ [none]

theorem get_eq_some {cells : Cells α} {cell : Nat} {value : α} :
    cells.get cell = some value ↔ cells[cell]? = some (some value) := by
  unfold get
  cases cells[cell]? with
  | none => simp
  | some held => simp

theorem get_fresh {cells : Cells α} {cell : Nat} {value : α} (h : cells.get cell = some value) :
    cells.fresh.get cell = some value := by
  rw [get_eq_some] at h ⊢
  have hlt : cell < cells.length := (List.getElem?_eq_some_iff.mp h).1
  unfold fresh
  rw [List.getElem?_append_left hlt]
  exact h

/-- A filled cell keeps what it holds, whichever cell is filled next. -/
theorem get_fill {cells : Cells α} {cell other : Nat} {value value' : α}
    (h : cells.get cell = some value) : (cells.fill other value').get cell = some value := by
  unfold fill
  cases hother : cells.get other with
  | some held => exact h
  | none =>
    have hne : other ≠ cell := by
      rintro rfl
      rw [h] at hother
      cases hother
    rw [get_eq_some] at h ⊢
    show (cells.set other (some value'))[cell]? = _
    rw [List.getElem?_set_ne hne]
    exact h

/-- An empty cell that was handed out holds the value it is filled with. -/
theorem get_fill_self {cells : Cells α} {cell : Nat} {value : α} (hlt : cell < cells.length)
    (hempty : cells.get cell = none) : (cells.fill cell value).get cell = some value := by
  unfold fill
  rw [hempty, get_eq_some]
  exact List.getElem?_set_self hlt

@[simp] theorem length_fresh (cells : Cells α) : cells.fresh.length = cells.length + 1 := by
  simp [fresh]

/-- The cell just handed out is empty. -/
theorem get_fresh_self (cells : Cells α) : cells.fresh.get cells.length = none := by
  simp [fresh, get]

end Cells

end Nsh
