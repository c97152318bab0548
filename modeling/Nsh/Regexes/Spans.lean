import Nsh.Lib.Times
import Nsh.Regexes.Matcher

/-!
# What an expression spans

An expression relates two positions of a subject when what stands between them belongs
to its language.  The anchors ask where they stand, and a character is as wide as the
locale says it is, so the language is given as this relation and not as a set of
strings.  A repetition spans as many spans of its body in a row as its bounds allow.
-/

namespace Nsh.Regexes

open Nsh.Patterns (Subject)

/-! ### Expressions inside an expression -/

mutual

/-- The expression and those inside it, each before what is inside it. -/
def Expr.within : Expr → List Expr
  | .sequence parts => .sequence parts :: withinAll parts
  | .alternation branches => .alternation branches :: withinAll branches
  | .repeated body min max => .repeated body min max :: body.within
  | .group index body => .group index body :: body.within
  | .empty => [.empty]
  | .literal bytes => [.literal bytes]
  | .anyCharacter => [.anyCharacter]
  | .bracket b => [.bracket b]
  | .start => [.start]
  | .finish => [.finish]

def withinAll : List Expr → List Expr
  | [] => []
  | e :: es => e.within ++ withinAll es

end

/-- No literal of the expression is empty, and no repetition asks for more than it
    allows. -/
structure Expr.Solid (e : Expr) : Prop where
  literal : ∀ bytes, .literal bytes ∈ e.within → bytes ≠ []
  repeated : ∀ body min max, .repeated body min max ∈ e.within → Within max min

theorem Expr.Solid.mono {e inner : Expr} (h : e.Solid) (hsub : inner.within ⊆ e.within) :
    inner.Solid where
  literal bytes hmem := h.literal bytes (hsub hmem)
  repeated body min max hmem := h.repeated body min max (hsub hmem)

theorem withinAll_eq_flatMap (es : List Expr) : withinAll es = es.flatMap Expr.within := by
  induction es with
  | nil => rfl
  | cons e es ih => rw [withinAll, ih, List.flatMap_cons]

theorem within_subset {e : Expr} {es : List Expr} (he : e ∈ es) : e.within ⊆ withinAll es := by
  intro inner h
  rw [withinAll_eq_flatMap]
  exact List.mem_flatMap_of_mem he h

/-- An induction on expressions whose parts are in lists. -/
theorem Expr.induct {P : Expr → Prop} (empty : P .empty) (literal : ∀ bytes, P (.literal bytes))
    (anyCharacter : P .anyCharacter) (bracket : ∀ b, P (.bracket b)) (start : P .start)
    (finish : P .finish) (sequence : ∀ parts, (∀ e ∈ parts, P e) → P (.sequence parts))
    (alternation : ∀ branches, (∀ e ∈ branches, P e) → P (.alternation branches))
    (repeated : ∀ body min max, P body → P (.repeated body min max))
    (group : ∀ index body, P body → P (.group index body)) (e : Expr) : P e := by
  refine @Expr.rec P (fun es => ∀ e ∈ es, P e) empty literal anyCharacter bracket start finish
    sequence alternation repeated group ?_ ?_ e
  · intro e he
    cases he
  · intro head tail hhead htail e he
    rcases List.mem_cons.mp he with rfl | he
    · exact hhead
    · exact htail e he

/-! ### Spans -/

mutual

def Expr.Spans (s : Subject) : Expr → Nat → Nat → Prop
  | .empty => fun i j => i = j
  | .literal bytes => fun i j => literalAt s bytes i = true ∧ j = i + bytes.length
  | .anyCharacter => fun i j => i < s.bytes.length ∧ j = s.endAt i
  | .bracket b => fun i j =>
    i < s.bytes.length ∧ j = s.endAt i ∧ b.holds s (s.bytes.extract i j) = true
  | .start => fun i j => i = 0 ∧ i = j
  | .finish => fun i j => i = s.bytes.length ∧ i = j
  | .sequence parts => sequenceSpans s parts
  | .alternation branches => branchesSpans s branches
  | .repeated body min max => Between (body.Spans s) min max
  | .group _ body => body.Spans s

def sequenceSpans (s : Subject) : List Expr → Nat → Nat → Prop
  | [] => fun i j => i = j
  | head :: tail => fun i j => ∃ k, head.Spans s i k ∧ sequenceSpans s tail k j

def branchesSpans (s : Subject) : List Expr → Nat → Nat → Prop
  | [] => fun _ _ => False
  | branch :: branches => fun i j => branch.Spans s i j ∨ branchesSpans s branches i j

end

variable {s : Subject} {e body : Expr} {i j k : Nat}

theorem literalAt_le {bytes : Bytes} (h : literalAt s bytes i = true) :
    i + bytes.length ≤ s.bytes.length := by
  rw [literalAt, Bool.and_eq_true, decide_eq_true_eq] at h
  exact h.1

theorem branchesSpans_iff {branches : List Expr} :
    branchesSpans s branches i j ↔ ∃ branch ∈ branches, branch.Spans s i j := by
  induction branches with
  | nil => simp [branchesSpans]
  | cons branch branches ih => simp [branchesSpans, ih]

/-- A span goes forward and stays in the subject. -/
theorem Expr.Spans.bounds (h : e.Spans s i j) :
    i ≤ j ∧ (i ≤ s.bytes.length → j ≤ s.bytes.length) := by
  induction e using Expr.induct generalizing i j with
  | empty =>
    obtain rfl : i = j := h
    exact ⟨le_refl i, id⟩
  | literal bytes =>
    obtain ⟨hat, rfl⟩ := h
    exact ⟨Nat.le_add_right i _, fun _ => literalAt_le hat⟩
  | anyCharacter =>
    obtain ⟨hlt, rfl⟩ := h
    exact ⟨s.characters.le_endAt i, s.characters.endAt_le⟩
  | bracket b =>
    obtain ⟨hlt, rfl, -⟩ := h
    exact ⟨s.characters.le_endAt i, s.characters.endAt_le⟩
  | start =>
    obtain ⟨-, rfl⟩ := h
    exact ⟨le_refl i, id⟩
  | finish =>
    obtain ⟨-, rfl⟩ := h
    exact ⟨le_refl i, id⟩
  | sequence parts ih =>
    have h : sequenceSpans s parts i j := h
    induction parts generalizing i with
    | nil =>
      obtain rfl : i = j := h
      exact ⟨le_refl i, id⟩
    | cons head tail ihtail =>
      obtain ⟨k, hhead, htail⟩ := h
      obtain ⟨hik, hk⟩ := ih head List.mem_cons_self hhead
      obtain ⟨hkj, hj⟩ := ihtail (fun e he => ih e (List.mem_cons_of_mem head he)) htail htail
      exact ⟨le_trans hik hkj, hj ∘ hk⟩
  | alternation branches ih =>
    obtain ⟨branch, hmem, hbranch⟩ := branchesSpans_iff.mp h
    exact ih branch hmem hbranch
  | repeated body min max ih =>
    obtain ⟨count, -, -, hchain⟩ := h
    induction count generalizing i with
    | zero =>
      obtain rfl : i = j := hchain
      exact ⟨le_refl i, id⟩
    | succ count ihcount =>
      obtain ⟨k, hbody, hrest⟩ := hchain
      obtain ⟨hik, hk⟩ := ih hbody
      obtain ⟨hkj, hj⟩ := ihcount hrest
      exact ⟨le_trans hik hkj, hj ∘ hk⟩
  | group index body ih => exact ih h

theorem Expr.Spans.le (h : e.Spans s i j) : i ≤ j := h.bounds.1

theorem Expr.Spans.le_length (h : e.Spans s i j) (hi : i ≤ s.bytes.length) : j ≤ s.bytes.length :=
  h.bounds.2 hi

/-! ### Single characters -/

/-- A single-character atom ends where it spans to. -/
theorem single_eq_some (hsingle : isSingle e = true) (hsolid : e.Solid) :
    single s e i = some j ↔ e.Spans s i j := by
  unfold single
  cases e with
  | anyCharacter =>
    by_cases hlt : s.bytes.length ≤ i
    · rw [if_pos hlt]
      exact ⟨fun h => (by cases h), fun h => absurd h.1 (Nat.not_lt.mpr hlt)⟩
    · rw [if_neg hlt, Option.some.injEq]
      exact ⟨fun h => ⟨Nat.not_le.mp hlt, h.symm⟩, fun h => h.2.symm⟩
  | bracket b =>
    by_cases hlt : s.bytes.length ≤ i
    · rw [if_pos hlt]
      exact ⟨fun h => (by cases h), fun h => absurd h.1 (Nat.not_lt.mpr hlt)⟩
    · rw [if_neg hlt]
      simp only [Option.ite_none_right_eq_some, Option.some.injEq]
      constructor
      · rintro ⟨hholds, rfl⟩
        exact ⟨Nat.not_le.mp hlt, rfl, hholds⟩
      · rintro ⟨-, rfl, hholds⟩
        exact ⟨hholds, rfl⟩
  | literal bytes =>
    by_cases hlt : s.bytes.length ≤ i
    · rw [if_pos hlt]
      refine ⟨fun h => (by cases h), fun h => ?_⟩
      have hpos := List.length_pos_iff.mpr (hsolid.literal bytes (List.mem_singleton_self _))
      have hle := literalAt_le h.1
      omega
    · rw [if_neg hlt]
      simp only [Option.ite_none_right_eq_some, Option.some.injEq]
      exact ⟨fun h => ⟨h.1, h.2.symm⟩, fun h => ⟨h.1, h.2.symm⟩⟩
  | empty => cases hsingle
  | start => cases hsingle
  | finish => cases hsingle
  | sequence parts => cases hsingle
  | alternation branches => cases hsingle
  | repeated body min max => cases hsingle
  | group index body => cases hsingle

theorem single_lt (hsolid : e.Solid) (h : single s e i = some j) : i < j ∧ i < s.bytes.length := by
  have hlt : ¬s.bytes.length ≤ i := by
    intro hle
    unfold single at h
    rw [if_pos hle] at h
    cases h
  unfold single at h
  rw [if_neg hlt] at h
  refine ⟨?_, Nat.not_le.mp hlt⟩
  have hend : i < s.endAt i := s.characters.lt_endAt (Nat.not_le.mp hlt)
  cases e with
  | anyCharacter =>
    obtain rfl := Option.some.inj h
    exact hend
  | bracket b =>
    obtain ⟨-, h⟩ := Option.ite_none_right_eq_some.mp h
    obtain rfl := Option.some.inj h
    exact hend
  | literal bytes =>
    obtain ⟨-, h⟩ := Option.ite_none_right_eq_some.mp h
    obtain rfl := Option.some.inj h
    exact Nat.lt_add_of_pos_right
      (List.length_pos_iff.mpr (hsolid.literal bytes (List.mem_singleton_self _)))
  | empty => cases h
  | start => cases h
  | finish => cases h
  | sequence parts => cases h
  | alternation branches => cases h
  | repeated body min max => cases h
  | group index body => cases h

theorem allows_iff {max : Option Nat} {count : Nat} :
    allows max count = true ↔ Within max (count + 1) := by
  cases max with
  | none => exact ⟨fun _ => within_none _, fun _ => rfl⟩
  | some max => rw [within_some, Nat.succ_le_iff, allows, Option.all_some, decide_eq_true_eq]

/-- The offset behind `k` repetitions more is where `k` of them in a row end. -/
theorem laterOffsets_get (hsingle : isSingle body = true) (hsolid : body.Solid) {max : Option Nat}
    (fuel count : Nat) (hfuel : s.bytes.length - i ≤ fuel) (hwithin : Within max count) :
    (i :: laterOffsets s body max fuel count i)[k]? = some j ↔
      Within max (count + k) ∧ Times (body.Spans s) k i j := by
  induction k generalizing fuel count i with
  | zero =>
    rw [List.getElem?_cons_zero, Option.some.injEq]
    exact ⟨fun h => ⟨hwithin, h⟩, fun h => h.2⟩
  | succ k ih =>
    rw [List.getElem?_cons_succ]
    by_cases hstep : Within max (count + 1) ∧ ∃ b, single s body i = some b
    · obtain ⟨hcount, b, hb⟩ := hstep
      obtain ⟨hib, hi⟩ := single_lt hsolid hb
      obtain ⟨fuel, rfl⟩ := Nat.exists_eq_succ_of_ne_zero (show fuel ≠ 0 by omega)
      rw [laterOffsets, if_pos (allows_iff.mpr hcount), hb]
      simp only
      rw [ih fuel (count + 1) (by omega) hcount, Nat.add_right_comm, Nat.add_assoc]
      have hspan := (single_eq_some hsingle hsolid).mp hb
      constructor
      · rintro ⟨hk, hchain⟩
        exact ⟨hk, b, hspan, hchain⟩
      · rintro ⟨hk, b', hb', hchain⟩
        rw [← single_eq_some hsingle hsolid, hb, Option.some.injEq] at hb'
        subst hb'
        exact ⟨hk, hchain⟩
    · have hnil : laterOffsets s body max fuel count i = [] := by
        cases fuel with
        | zero => rfl
        | succ fuel =>
          rw [laterOffsets]
          by_cases hcount : Within max (count + 1)
          · rw [if_pos (allows_iff.mpr hcount)]
            cases hb : single s body i with
            | none => rfl
            | some b => exact absurd ⟨hcount, b, hb⟩ hstep
          · rw [if_neg (fun h => hcount (allows_iff.mp h))]
      rw [hnil]
      refine ⟨fun h => by simp at h, ?_⟩
      rintro ⟨hk, b, hb, -⟩
      exact absurd ⟨hk.mono (by omega), b, (single_eq_some hsingle hsolid).mpr hb⟩ hstep

/-- **What `repeat_single` hands on are the ends of the repetition.** -/
theorem mem_offsets (hsingle : isSingle body = true) (hsolid : body.Solid) {min : Nat}
    {max : Option Nat} :
    j ∈ ((i :: laterOffsets s body max (s.bytes.length - i) 0 i).drop min).reverse ↔
      (Expr.repeated body min max).Spans s i j := by
  have hzero : Within max 0 := fun m _ => Nat.zero_le m
  rw [List.mem_reverse, List.mem_iff_getElem?]
  show _ ↔ Between _ _ _ _ _
  constructor
  · rintro ⟨k, hk⟩
    rw [List.getElem?_drop, laterOffsets_get hsingle hsolid _ _ (le_refl _) hzero,
      Nat.zero_add] at hk
    exact ⟨min + k, Nat.le_add_right min k, hk⟩
  · rintro ⟨k, hmin, hmax, hchain⟩
    refine ⟨k - min, ?_⟩
    rw [List.getElem?_drop, Nat.add_sub_cancel' hmin,
      laterOffsets_get hsingle hsolid _ _ (le_refl _) hzero, Nat.zero_add]
    exact ⟨hmax, hchain⟩

theorem repeatSingle_eq (body : Expr) (min : Nat) (max : Option Nat) (next : Continue)
    (depth : Nat) (st : State) :
    repeatSingle s body min max i next depth st =
      tryEnds next ((i :: laterOffsets s body max (s.bytes.length - i) 0 i).drop min).reverse
        depth st := by
  rw [repeatSingle]
  split
  · next hle => rw [List.drop_eq_nil_of_le hle, List.reverse_nil, tryEnds]
  · rfl

end Nsh.Regexes
