import Mathlib.Data.List.Basic

/-!
# Terminated pieces

A text is cut behind every terminator.  Each piece ends with the terminator and
holds it nowhere else; the last piece may lack it.  The pieces give back the text.
-/

namespace Nsh.Terminated

variable {α : Type} [DecidableEq α] (stop : α)

/-- What stands up to the first terminator, that included, and what is behind it. -/
def front : List α → List α × List α
  | [] => ([], [])
  | first :: rest =>
    if first = stop then ([first], rest) else (first :: (front rest).1, (front rest).2)

/-- The pieces of a text. -/
def pieces : List α → List (List α)
  | [] => []
  | first :: rest =>
    if first = stop then [first] :: pieces rest
    else
      match pieces rest with
      | [] => [[first]]
      | piece :: others => (first :: piece) :: others

variable {stop}

variable (stop) in
theorem front_append (text : List α) : (front stop text).1 ++ (front stop text).2 = text := by
  induction text with
  | nil => rfl
  | cons first rest ih =>
    rw [front]
    split
    · rfl
    · exact congrArg (first :: ·) ih

variable (stop) in
theorem front_ne_nil {text : List α} (h : text ≠ []) : (front stop text).1 ≠ [] := by
  cases text with
  | nil => exact absurd rfl h
  | cons first rest =>
    rw [front]
    split
    · exact List.cons_ne_nil first []
    · exact List.cons_ne_nil first _

theorem pieces_eq_nil {text : List α} : pieces stop text = [] ↔ text = [] := by
  cases text with
  | nil => exact ⟨fun _ => rfl, fun _ => rfl⟩
  | cons first rest =>
    constructor
    · intro h
      rw [pieces] at h
      split at h
      · cases h
      · split at h <;> cases h
    · intro h
      cases h

variable (stop) in
/-- The first piece is the front of the text. -/
theorem pieces_eq_front {text : List α} (h : text ≠ []) :
    pieces stop text = (front stop text).1 :: pieces stop (front stop text).2 := by
  induction text with
  | nil => exact absurd rfl h
  | cons first rest ih =>
    rw [pieces, front]
    split
    · rfl
    · cases hrest : rest with
      | nil => rfl
      | cons second others =>
        rw [← hrest]
        have hne : rest ≠ [] := by
          rw [hrest]
          exact List.cons_ne_nil second others
        rw [ih hne]

/-- The pieces give back the text. -/
theorem pieces_flatten (text : List α) : (pieces stop text).flatten = text := by
  induction text with
  | nil => rfl
  | cons first rest ih =>
    rw [pieces]
    split
    · rw [List.flatten_cons, ih]
      rfl
    · split
      · next hnil =>
        rw [pieces_eq_nil.mp hnil]
        rfl
      · next piece others hpieces =>
        rw [hpieces, List.flatten_cons] at ih
        rw [List.flatten_cons, List.cons_append, ih]

/-- What some pieces leave of the text. -/
theorem flatten_take_append (text : List α) (count : Nat) :
    ((pieces stop text).take count).flatten ++ ((pieces stop text).drop count).flatten = text := by
  rw [← List.flatten_append, List.take_append_drop, pieces_flatten]

end Nsh.Terminated
