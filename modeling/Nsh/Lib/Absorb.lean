import Mathlib.Data.List.Basic

/-!
# Lists that grow in their last element

Something is added to the last element of a list where that takes it in, and behind the list
where it does not, as an element of its own.
-/

namespace Nsh

variable {α β : Type} {take : α → Option α} {fresh : α} {parts : List α}

/-- Add to the last element, or behind it. -/
def absorb (take : α → Option α) (fresh : α) (parts : List α) : List α :=
  match parts.getLast?.bind take with
  | some grown => parts.dropLast ++ [grown]
  | none => parts ++ [fresh]

theorem absorb_some {last grown : α} (h : take last = some grown) :
    absorb take fresh (parts ++ [last]) = parts ++ [grown] := by
  unfold absorb
  rw [List.getLast?_concat, Option.bind_some, h, List.dropLast_concat]

theorem absorb_none (h : ∀ last ∈ parts.getLast?, take last = none) :
    absorb take fresh parts = parts ++ [fresh] := by
  unfold absorb
  rw [Option.bind_eq_none_iff.mpr fun last hlast => h last hlast]

/-- One of the two happens. -/
theorem absorb_cases (take : α → Option α) (fresh : α) (parts : List α) :
    absorb take fresh parts = parts ++ [fresh] ∨
      ∃ front last grown, parts = front ++ [last] ∧ take last = some grown ∧
        absorb take fresh parts = front ++ [grown] := by
  rcases List.eq_nil_or_concat parts with rfl | ⟨front, last, rfl⟩
  · exact .inl rfl
  · rw [List.concat_eq_append]
    cases htake : take last with
    | some grown => exact .inr ⟨front, last, grown, rfl, htake, absorb_some htake⟩
    | none =>
      refine .inl (absorb_none fun other hother => ?_)
      rw [List.getLast?_concat] at hother
      cases hother
      exact htake

/-- What holds of every element holds of them afterwards. -/
theorem forall_mem_absorb {P : α → Prop} (h : ∀ part ∈ parts, P part) (hfresh : P fresh)
    (htake : ∀ last grown, take last = some grown → P last → P grown) :
    ∀ part ∈ absorb take fresh parts, P part := by
  rcases absorb_cases take fresh parts with heq | ⟨front, last, grown, rfl, hgrown, heq⟩
  · rw [heq]
    exact List.forall_mem_append.mpr ⟨h, List.forall_mem_singleton.mpr hfresh⟩
  · rw [heq]
    obtain ⟨hfront, hlast⟩ := List.forall_mem_append.mp h
    have hgrows := htake last grown hgrown (hlast last List.mem_cons_self)
    exact List.forall_mem_append.mpr ⟨hfront, List.forall_mem_singleton.mpr hgrows⟩

/-- What the elements stand for grows at its end. -/
theorem flatMap_absorb (f : α → List β) {added : List β} (hfresh : f fresh = added)
    (htake : ∀ last grown, take last = some grown → f grown = f last ++ added) :
    (absorb take fresh parts).flatMap f = parts.flatMap f ++ added := by
  rcases absorb_cases take fresh parts with heq | ⟨front, last, grown, rfl, hgrown, heq⟩
  · rw [heq, List.flatMap_append, List.flatMap_singleton, hfresh]
  · rw [heq, List.flatMap_append, List.flatMap_append, List.flatMap_singleton,
      List.flatMap_singleton, htake last grown hgrown, List.append_assoc]

end Nsh
