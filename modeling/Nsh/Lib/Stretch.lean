import Mathlib.Computability.Language
import Mathlib.Logic.Relation

/-!
# The stretches of a word that a language spells

A language relates two offsets of a word when the word spells one of its strings
between them.  The operations on languages become the operations on relations:
concatenation composes, Kleene's star is the reflexive transitive closure.
-/

namespace Nsh

open Computability
open Relation (ReflTransGen TransGen)

variable {α : Type}

/-- Between the offsets `i` and `j` the word spells a string of the language. -/
def Spells (word : List α) (l : Language α) (i j : Nat) : Prop :=
  i ≤ j ∧ j ≤ word.length ∧ word.extract i j ∈ l

theorem extract_append {word : List α} {i k j : Nat} (hik : i ≤ k) (hkj : k ≤ j) :
    word.extract i k ++ word.extract k j = word.extract i j := by
  simp only [List.extract_eq_take_drop]
  have hsplit : word.drop k = (word.drop i).drop (k - i) := by
    rw [List.drop_drop, Nat.add_sub_cancel' hik]
  rw [hsplit, show j - i = (k - i) + (j - k) by omega, List.take_add]

theorem length_extract {word : List α} {i j : Nat} (hj : j ≤ word.length) :
    (word.extract i j).length = j - i := by
  simp only [List.extract_eq_take_drop, List.length_take, List.length_drop]
  omega

theorem extract_cons {l : List α} {i k : Nat} {a : α} (hik : i < k)
    (hget : l[i]? = some a) : l.extract i k = a :: l.extract (i + 1) k := by
  obtain ⟨hlt, rfl⟩ := List.getElem?_eq_some_iff.mp hget
  rw [List.extract_eq_take_drop, List.extract_eq_take_drop, List.drop_eq_getElem_cons hlt,
    show k - i = (k - (i + 1)) + 1 by omega, List.take_succ_cons]

theorem extract_ne_nil (word : List α) {i j : Nat} (hj : j ≤ word.length) (hij : i < j) :
    word.extract i j ≠ [] := by
  intro hempty
  have hlength : (word.extract i j).length = j - i := length_extract hj
  rw [hempty, List.length_nil] at hlength
  omega

theorem extract_self (word : List α) (i : Nat) : word.extract i i = [] := by
  simp

/-- A stretch that is two words in a row is two stretches. -/
theorem extract_eq_append {word u v : List α} {i j : Nat} (hij : i ≤ j) (hj : j ≤ word.length)
    (h : word.extract i j = u ++ v) :
    i + u.length ≤ j ∧ word.extract i (i + u.length) = u ∧ word.extract (i + u.length) j = v := by
  have hlength : j - i = u.length + v.length := by
    rw [← length_extract hj, h, List.length_append]
  have hle : i + u.length ≤ j := by omega
  have hsplit : word.extract i (i + u.length) ++ word.extract (i + u.length) j = word.extract i j :=
    extract_append (Nat.le_add_right i u.length) hle
  rw [h] at hsplit
  have hu : (word.extract i (i + u.length)).length = u.length := by
    rw [length_extract (le_trans hle hj)]
    omega
  exact ⟨hle, List.append_inj hsplit hu⟩

variable {word : List α} {l m : Language α} {i j : Nat}

theorem spells_one (hi : i ≤ word.length) : Spells word 1 i j ↔ i = j := by
  unfold Spells
  rw [Language.mem_one]
  constructor
  · rintro ⟨hij, hj, h⟩
    have := length_extract (i := i) hj
    rw [h, List.length_nil] at this
    omega
  · rintro rfl
    exact ⟨le_refl i, hi, extract_self word i⟩

theorem spells_add : Spells word (l + m) i j ↔ Spells word l i j ∨ Spells word m i j := by
  unfold Spells
  rw [Language.mem_add]
  tauto

theorem spells_zero : ¬ Spells word 0 i j := fun h => Language.notMem_zero _ h.2.2

/-- Concatenation composes the stretches. -/
theorem spells_mul :
    Spells word (l * m) i j ↔ ∃ k, Spells word l i k ∧ Spells word m k j := by
  constructor
  · rintro ⟨hij, hj, h⟩
    obtain ⟨u, hu, v, hv, huv⟩ := Language.mem_mul.mp h
    obtain ⟨hle, hfirst, hsecond⟩ := extract_eq_append hij hj huv.symm
    refine ⟨i + u.length, ⟨Nat.le_add_right _ _, le_trans hle hj, ?_⟩, ⟨hle, hj, ?_⟩⟩
    · rw [hfirst]; exact hu
    · rw [hsecond]; exact hv
  · rintro ⟨k, ⟨hik, hk, hl⟩, ⟨hkj, hj, hm⟩⟩
    refine ⟨le_trans hik hkj, hj, ?_⟩
    rw [← extract_append hik hkj]
    exact Language.append_mem_mul hl hm

/-- Kleene's star is any number of stretches in a row. -/
theorem spells_kstar (hi : i ≤ word.length) :
    Spells word (l∗) i j ↔ ReflTransGen (Spells word l) i j := by
  constructor
  · rintro ⟨hij, hj, h⟩
    obtain ⟨parts, hparts, hmem⟩ := Language.mem_kstar.mp h
    -- by induction on the strings the stretch is made of, from the left
    induction parts generalizing i with
    | nil =>
      obtain rfl : i = j := (spells_one hi).mp ⟨hij, hj, hparts⟩
      exact ReflTransGen.refl
    | cons u parts ih =>
      rw [List.flatten_cons] at hparts
      obtain ⟨hle, hfirst, hrest⟩ := extract_eq_append hij hj hparts
      have hone : Spells word l i (i + u.length) := by
        refine ⟨Nat.le_add_right _ _, le_trans hle hj, ?_⟩
        rw [hfirst]
        exact hmem u List.mem_cons_self
      have hmem' : ∀ v ∈ parts, v ∈ l := fun v hv => hmem v (List.mem_cons_of_mem u hv)
      have hstar : word.extract (i + u.length) j ∈ l∗ :=
        Language.mem_kstar.mpr ⟨parts, hrest, hmem'⟩
      exact ReflTransGen.head hone (ih hone.2.1 hle hstar hrest hmem')
  · intro h
    induction h with
    | refl => exact ⟨le_refl i, hi, by rw [extract_self]; exact Language.nil_mem_kstar l⟩
    | @tail k j _ hstep ih =>
      refine ⟨le_trans ih.1 hstep.1, hstep.2.1, ?_⟩
      rw [← extract_append ih.1 hstep.1]
      obtain ⟨parts, hparts, hmem⟩ := Language.mem_kstar.mp ih.2.2
      refine Language.mem_kstar.mpr ⟨parts ++ [word.extract k j], ?_, ?_⟩
      · rw [hparts]
        simp
      · intro v hv
        rcases List.mem_append.mp hv with hv | hv
        · exact hmem v hv
        · rw [List.mem_singleton.mp hv]
          exact hstep.2.2

theorem spells_mul_kstar : Spells word (l * l∗) i j ↔ TransGen (Spells word l) i j := by
  rw [spells_mul, Relation.TransGen.head'_iff]
  constructor
  · rintro ⟨k, hfirst, hrest⟩
    exact ⟨k, hfirst, (spells_kstar hfirst.2.1).mp hrest⟩
  · rintro ⟨k, hfirst, hrest⟩
    exact ⟨k, hfirst, (spells_kstar hfirst.2.1).mpr hrest⟩

/-- The whole word. -/
theorem spells_whole : Spells word l 0 word.length ↔ word ∈ l := by
  unfold Spells
  simp

end Nsh
