import Mathlib.Data.List.Basic

/-!
# Lists whose marked elements stand first

A list in which no marked element follows an unmarked one, some elements being
exempt.  Dropping elements keeps it, as does putting a marked one in front and
putting any one after the marked prefix; with no exemptions the head of such a
list is marked as soon as anything in it is.
-/

namespace Nsh

variable {α : Type} {marked exempt : α → Prop} {l : List α}

/-- The marked elements stand before the others, the exempt ones apart. -/
def MarkedFirst (marked exempt : α → Prop) (l : List α) : Prop :=
  l.Pairwise fun a b => marked b → marked a ∨ exempt a

namespace MarkedFirst

theorem sublist {l' : List α} (hl : l'.Sublist l) (h : MarkedFirst marked exempt l) :
    MarkedFirst marked exempt l' := List.Pairwise.sublist hl h

/-- An element that is marked or exempt, or has nothing marked behind it, may lead. -/
theorem cons {a : α} (h : MarkedFirst marked exempt l)
    (ha : marked a ∨ exempt a ∨ ∀ b ∈ l, ¬marked b) : MarkedFirst marked exempt (a :: l) := by
  refine List.pairwise_cons.mpr ⟨fun b hb hmarked => ?_, h⟩
  rcases ha with ha | ha | ha
  · exact .inl ha
  · exact .inr ha
  · exact absurd hmarked (ha b hb)

theorem of_none (h : ∀ a ∈ l, ¬marked a) : MarkedFirst marked exempt l := by
  induction l with
  | nil => exact .nil
  | cons a l ih =>
    have hrest : ∀ b ∈ l, ¬marked b := fun b hb => h b (List.mem_cons_of_mem a hb)
    exact (ih hrest).cons (.inr (.inr hrest))

/-- Marks and exemptions may change where a marked element was marked and what stands before it
is still marked or exempt. -/
theorem change {marked' exempt' : α → Prop} (h : MarkedFirst marked exempt l)
    (hkept : ∀ a b, [a, b].Sublist l → marked' b →
      marked b ∧ (marked a ∨ exempt a → marked' a ∨ exempt' a)) :
    MarkedFirst marked' exempt' l := by
  refine List.pairwise_iff_forall_sublist.mpr fun {a b} hab hb => ?_
  obtain ⟨hwas, hfront⟩ := hkept a b hab hb
  exact hfront (List.pairwise_iff_forall_sublist.mp h hab hwas)

/-- A marked list keeps its marked prefix in front of whatever is put after it. -/
theorem insert_after {p : α → Bool} (hp : ∀ a ∈ l, (p a = true ↔ marked a))
    (h : MarkedFirst marked (fun _ => False) l) (a : α) :
    MarkedFirst marked exempt (l.takeWhile p ++ a :: l.dropWhile p) := by
  induction l with
  | nil => exact List.pairwise_singleton _ a
  | cons b l ih =>
    obtain ⟨hb, hl⟩ := List.pairwise_cons.mp h
    have hpb := hp b List.mem_cons_self
    by_cases hmarked : p b = true
    · rw [List.takeWhile_cons_of_pos hmarked, List.dropWhile_cons_of_pos hmarked]
      have hrest := ih (fun c hc => hp c (List.mem_cons_of_mem b hc)) hl
      exact hrest.cons (.inl (hpb.mp hmarked))
    · rw [List.takeWhile_cons_of_neg hmarked, List.dropWhile_cons_of_neg hmarked]
      have hnone : ∀ c ∈ b :: l, ¬marked c := by
        intro c hc hcmarked
        have hunmarked : ¬marked b := fun hb' => hmarked (hpb.mpr hb')
        rcases List.mem_cons.mp hc with rfl | hc
        · exact hunmarked hcmarked
        · rcases hb c hc hcmarked with h' | h'
          · exact hunmarked h'
          · exact h'
      exact (of_none hnone).cons (.inr (.inr hnone))

/-- Without exemptions a list with a marked element is led by one. -/
theorem head_marked (h : MarkedFirst marked (fun _ => False) l) (hsome : ∃ b ∈ l, marked b) :
    ∃ a, l.head? = some a ∧ marked a := by
  cases l with
  | nil => obtain ⟨b, hb, -⟩ := hsome; cases hb
  | cons a l =>
    refine ⟨a, rfl, ?_⟩
    obtain ⟨b, hb, hmarked⟩ := hsome
    rcases List.mem_cons.mp hb with rfl | hb
    · exact hmarked
    · rcases (List.pairwise_cons.mp h).1 b hb hmarked with h' | h'
      · exact h'
      · exact h'.elim

end MarkedFirst

end Nsh
