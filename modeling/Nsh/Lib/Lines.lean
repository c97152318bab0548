import Mathlib.Data.List.TakeWhile
import Mathlib.Tactic.TypeStar

/-!
# A document that ends at a mark

A text is lines with a separator between them.  A document is read off its front line by
line, each line brought into some shape first: it ends in front of the first line whose
shape is the mark, and what is behind that line is left over.  Where no line is the mark
it is the whole text.
-/

namespace Nsh

variable {α : Type} [DecidableEq α] (separator : α) (shape : List α → List α) (mark : List α)

def linesOf (text : List α) : List (List α) := text.splitOn separator

/-- The lines in front of the mark, in their shape. -/
def linesBefore (text : List α) : List (List α) :=
  ((linesOf separator text).map shape).takeWhile (· ≠ mark)

/-- Some line is the mark. -/
def Marked (text : List α) : Prop := ∃ line ∈ linesOf separator text, shape line = mark

instance (text : List α) : Decidable (Marked separator shape mark text) :=
  inferInstanceAs (Decidable (∃ line ∈ linesOf separator text, shape line = mark))

/-- The lines in front of the mark with the separator behind each; the whole text where no
    line is the mark. -/
def documentOf (text : List α) : List α :=
  if Marked separator shape mark text then
    (linesBefore separator shape mark text).flatMap (· ++ [separator])
  else [separator].intercalate ((linesOf separator text).map shape)

/-- What is behind the line that is the mark. -/
def leftOver (text : List α) : List α :=
  [separator].intercalate
    ((linesOf separator text).drop ((linesBefore separator shape mark text).length + 1))

/-! ### Line by line -/

section

variable {separator} {shape} {mark}

/-- A text is a line of its own, or a line and the text behind its separator. -/
theorem exists_line (separator : α) (text : List α) :
    ∃ line rest, text = line ++ rest ∧ separator ∉ line ∧
      (rest = [] ∨ ∃ next, rest = separator :: next) := by
  refine ⟨text.takeWhile (· ≠ separator), text.dropWhile (· ≠ separator),
    (List.takeWhile_append_dropWhile).symm, ?_, ?_⟩
  · intro hmem
    simpa using List.mem_takeWhile_imp hmem
  · cases hrest : text.dropWhile (· ≠ separator) with
    | nil => exact .inl rfl
    | cons first next =>
      have hne : text.dropWhile (· ≠ separator) ≠ [] := by
        rw [hrest]
        exact List.cons_ne_nil first next
      have hfirst := List.head_dropWhile_not (· ≠ separator) hne
      simp only [hrest, List.head_cons] at hfirst
      have heq : first = separator := by simpa using hfirst
      exact .inr ⟨next, by rw [heq]⟩

/-- Induction over the lines of a text. -/
theorem line_induction {P : List α → Prop} (separator : α)
    (last : ∀ line, separator ∉ line → P line)
    (step : ∀ line text, separator ∉ line → P text → P (line ++ separator :: text)) :
    ∀ text, P text := by
  intro text
  induction hlength : text.length using Nat.strong_induction_on generalizing text with
  | _ length ih =>
    obtain ⟨line, rest, rfl, hline, rfl | ⟨next, rfl⟩⟩ := exists_line separator text
    · rw [List.append_nil]
      exact last line hline
    · refine step line next hline (ih next.length ?_ next rfl)
      rw [← hlength, List.length_append, List.length_cons]
      omega

/-- A line is read off in front of its end in one way only. -/
theorem line_eq_of_append {line line' rest rest' : List α} (hline : separator ∉ line)
    (hline' : separator ∉ line') (hrest : rest = [] ∨ ∃ next, rest = separator :: next)
    (hrest' : rest' = [] ∨ ∃ next, rest' = separator :: next)
    (h : line ++ rest = line' ++ rest') : line = line' ∧ rest = rest' := by
  have hfront : ∀ l r : List α, separator ∉ l → (r = [] ∨ ∃ next, r = separator :: next) →
      (l ++ r).takeWhile (· ≠ separator) = l := by
    intro l r hl hr
    have hall : ∀ a ∈ l, decide (a ≠ separator) = true := by
      intro a ha
      simpa using fun heq : a = separator => hl (heq ▸ ha)
    rw [List.takeWhile_append_of_pos hall]
    rcases hr with rfl | ⟨next, rfl⟩
    · simp
    · simp
  have heq : line = line' := by
    rw [← hfront line rest hline hrest, h, hfront line' rest' hline' hrest']
  subst heq
  exact ⟨rfl, List.append_cancel_left h⟩

theorem linesOf_last {line : List α} (hline : separator ∉ line) :
    linesOf separator line = [line] := List.splitOn_eq_singleton hline

theorem linesOf_cons {line : List α} (text : List α) (hline : separator ∉ line) :
    linesOf separator (line ++ separator :: text) = line :: linesOf separator text :=
  List.splitOn_append_cons_self_of_not_mem hline text

theorem linesOf_ne_nil (text : List α) : linesOf separator text ≠ [] :=
  List.splitOn_ne_nil separator text

theorem linesBefore_last {line : List α} (hline : separator ∉ line) :
    linesBefore separator shape mark line = if shape line = mark then [] else [shape line] := by
  rw [linesBefore, linesOf_last hline]
  by_cases h : shape line = mark
  · simp [h]
  · simp [h]

theorem linesBefore_cons {line : List α} (text : List α) (hline : separator ∉ line) :
    linesBefore separator shape mark (line ++ separator :: text) =
      if shape line = mark then [] else shape line :: linesBefore separator shape mark text := by
  rw [linesBefore, linesOf_cons text hline, List.map_cons]
  by_cases h : shape line = mark
  · simp [h]
  · simp [h, linesBefore]

theorem marked_last {line : List α} (hline : separator ∉ line) :
    Marked separator shape mark line ↔ shape line = mark := by
  rw [Marked, linesOf_last hline]
  simp

theorem marked_cons {line : List α} (text : List α) (hline : separator ∉ line) :
    Marked separator shape mark (line ++ separator :: text) ↔
      shape line = mark ∨ Marked separator shape mark text := by
  rw [Marked, linesOf_cons text hline]
  simp [Marked]

/-- A document that begins with its mark is empty. -/
theorem documentOf_mark {line rest : List α} (hline : separator ∉ line) (hmark : shape line = mark)
    (hrest : rest = [] ∨ ∃ next, rest = separator :: next) :
    documentOf separator shape mark (line ++ rest) = [] ∧
      leftOver separator shape mark (line ++ rest) = rest.tail := by
  rcases hrest with rfl | ⟨next, rfl⟩
  · rw [List.append_nil, documentOf, leftOver, if_pos ((marked_last hline).mpr hmark),
      linesBefore_last hline, if_pos hmark, linesOf_last hline]
    exact ⟨rfl, rfl⟩
  · rw [documentOf, leftOver, if_pos ((marked_cons next hline).mpr (.inl hmark)),
      linesBefore_cons next hline, if_pos hmark, linesOf_cons next hline]
    exact ⟨rfl, List.intercalate_splitOn separator⟩

/-- A document that begins with another line has that line and the document behind it. -/
theorem documentOf_cons {line : List α} (text : List α) (hline : separator ∉ line)
    (hmark : shape line ≠ mark) :
    documentOf separator shape mark (line ++ separator :: text) =
        shape line ++ separator :: documentOf separator shape mark text ∧
      leftOver separator shape mark (line ++ separator :: text) =
        leftOver separator shape mark text := by
  rw [documentOf, leftOver, linesBefore_cons text hline, if_neg hmark, linesOf_cons text hline]
  refine ⟨?_, rfl⟩
  by_cases h : Marked separator shape mark text
  · rw [if_pos ((marked_cons text hline).mpr (.inr h)), documentOf, if_pos h, List.flatMap_cons,
      List.append_assoc, List.singleton_append]
  · have hnot : ¬ Marked separator shape mark (line ++ separator :: text) := by
      rw [marked_cons text hline]
      exact not_or.mpr ⟨hmark, h⟩
    rw [if_neg hnot, documentOf, if_neg h, List.map_cons,
      List.intercalate_cons_of_ne_nil (by simpa using linesOf_ne_nil text), List.append_assoc,
      List.singleton_append]

/-- The last line of a document without a mark. -/
theorem documentOf_last {line : List α} (hline : separator ∉ line) (hmark : shape line ≠ mark) :
    documentOf separator shape mark line = shape line ∧
      leftOver separator shape mark line = [] := by
  rw [documentOf, leftOver, if_neg (mt (marked_last hline).mp hmark), linesBefore_last hline,
    if_neg hmark, linesOf_last hline, List.map_singleton]
  exact ⟨List.intercalate_singleton, rfl⟩

/-- In front of a mark every line has its separator. -/
theorem documentOf_getLast {text : List α} (h : Marked separator shape mark text)
    (hne : documentOf separator shape mark text ≠ []) :
    (documentOf separator shape mark text).getLast? = some separator := by
  rw [documentOf, if_pos h] at hne ⊢
  generalize linesBefore separator shape mark text = lines at hne ⊢
  rcases List.eq_nil_or_concat lines with rfl | ⟨front, line, rfl⟩
  · exact absurd rfl hne
  · simp [List.flatMap_append]

theorem leftOver_suffix (text : List α) : leftOver separator shape mark text <:+ text := by
  induction text using line_induction separator with
  | last line hline =>
    by_cases hmark : shape line = mark
    · have hleft : leftOver separator shape mark (line ++ []) = [] :=
        (documentOf_mark hline hmark (.inl rfl)).2
      rw [List.append_nil] at hleft
      rw [hleft]
      exact List.nil_suffix
    · rw [(documentOf_last hline hmark).2]
      exact List.nil_suffix
  | step line text hline ih =>
    by_cases hmark : shape line = mark
    · rw [(documentOf_mark hline hmark (.inr ⟨text, rfl⟩)).2]
      exact (List.suffix_cons separator text).trans (List.suffix_append line _)
    · rw [(documentOf_cons text hline hmark).2]
      exact ih.trans ((List.suffix_cons separator text).trans (List.suffix_append line _))

end

end Nsh
