import Nsh.Patterns.Groups

/-!
# The walk answers for the ends it should

`reachUncached` is faithful to the pattern while its fuel exceeds the pattern still to
be read, by induction on the fuel; so `reachFrom`, which begins with enough, is a
segment that answers for the ends of the state it was asked about.
-/

namespace Nsh.Patterns

namespace Matcher

variable {m : Matcher} {A : m.Licence} {w : Walk} {p i : Nat}

/-- **The walk is faithful** while its fuel exceeds the pattern still to be read. -/
theorem reachUncached_faithful (fuel : Nat) : Faithful (reachUncached fuel) fuel := by
  induction fuel with
  | zero =>
    intro m A p i aside w w₀ T U hfuel
    exact absurd hfuel (Nat.not_lt_zero _)
  | succ fuel hstep =>
    intro m A p i aside w w₀ T U hfuel hp hi hentered hallowed hsegment haside
    have hgood := hsegment.good
    -- nothing can be reached, or the walk goes on at one state with the same ends
    have nothing (hset : ∀ j, ¬ m.Reaches p i j) :
        Segment A (T ∪ {j | m.Reaches p i j}) U w₀ aside w := by
      have : {j | m.Reaches p i j} = ∅ := by
        ext j
        simpa using hset j
      rw [this, Set.union_empty]
      exact hsegment
    have onward {next i' : Nat} {T : Set Nat} {aside : Option Nat} {w : Walk}
        (hlt : p < next) (hle : next ≤ m.pattern.length) (hi' : i' ≤ m.subject.bytes.length)
        (hsuffix : m.items true next <:+ m.items true p)
        (hsub : ∀ j, m.Reaches next i' j → m.Reaches p i j)
        (hsegment : Segment A T U w₀ aside w) (haside : m.settles aside = false) :
        Segment A (T ∪ {j | m.Reaches next i' j}) U w₀
          (reachUncached fuel m next i' aside w).1 (reachUncached fuel m next i' aside w).2 := by
      obtain ⟨henter, hless⟩ := A.step hsuffix hsub hentered
      exact hstep (by omega) hle hi' henter (hless.trans hallowed) hsegment haside
    rw [reachUncached]
    split
    · next hend =>
      exact hsegment.withAside ((ranOut_segment hgood hend hentered).mono hallowed)
    next hend =>
    have hlt : p < m.pattern.length := by omega
    split
    · next group hgroup =>
      exact hsegment.withAside
        ((reachGroup_segment hstep hgroup (by omega) hi hgood hentered).mono hallowed)
    next hgroup =>
    split
    · next hstar =>
      have hafter := Pattern.lt_starRunEnd hstar
      dsimp only
      split
      · next htrailing =>
        have h := trailingStar_segment hgood hgroup hstar htrailing.1 htrailing.2 hi hentered
        exact (hsegment.trans (h.mono hallowed)).max_comm
      · exact hsegment.withAside
          ((reachStar_segment hstep hgroup hstar (by omega) hi hgood hentered).mono hallowed)
    next hstar =>
    have hstar := Bool.eq_false_iff.mpr hstar
    split
    · next hone =>
      have hsuffix : m.items true (p + 1) <:+ m.items true p := by
        rw [items_one hgroup hstar hone]
        exact List.suffix_cons _ _
      split
      · next hover =>
        apply nothing
        intro j hj
        exact ((reaches_one hgroup hstar hone).mp hj).1 hover
      · next hinside =>
        have hset (j : Nat) : m.Reaches p i j ↔ m.Reaches (p + 1) (m.subject.endAt i) j := by
          rw [reaches_one hgroup hstar hone]
          exact and_iff_right hinside
        simp only [hset]
        exact onward (Nat.lt_succ_self p) hlt (Subject.endAt_le hi) hsuffix
          (fun j hj => (hset j).mpr hj) hsegment haside
    next hone =>
    have hone := Bool.eq_false_iff.mpr hone
    have hbracket : (if m.pattern.active p (chr '[') then m.bracket (p + 1) i else none) =
        (m.bracketAt p).map fun read => (read.2, read.1.widths m.subject i) := by
      unfold bracketAt
      split
      · exact m.bracket_eq (p + 1) i
      · rfl
    rw [hbracket]
    cases hread : m.bracketAt p with
    | some read =>
      obtain ⟨expression, next⟩ := read
      obtain ⟨hnext, hle⟩ := bracketAt_within hread
      have hreaches (j : Nat) := reaches_bracket (i := i) (j := j) hgroup hstar hone hread
      have hsuffix : m.items true next <:+ m.items true p := by
        rw [items_bracket hgroup hstar hone hread]
        exact List.suffix_cons _ _
      simp only [Option.map_some]
      cases hwidths : expression.widths m.subject i with
      | nil =>
        apply nothing
        intro j hj
        rw [hreaches, hwidths] at hj
        simp at hj
      | cons first others =>
        have hsub {width : Nat} (hwidth : width ∈ first :: others) (j : Nat)
            (hj : m.Reaches next (i + width) j) : m.Reaches p i j := by
          rw [hreaches, hwidths]
          exact ⟨width, hwidth, hj⟩
        have hinside {width : Nat} (hwidth : width ∈ first :: others) :
            i + width ≤ m.subject.bytes.length := by
          rw [← hwidths] at hwidth
          exact expression.add_width_le hwidth
        have hoffsets : ∀ o ∈ others.map (i + ·), o ≤ m.subject.bytes.length ∧
            A.allowed next o ⊆ U ∧ (w.Live → A.entered next o) := by
          intro o ho
          obtain ⟨width, hwidth, rfl⟩ := List.mem_map.mp ho
          have hwidth := List.mem_cons_of_mem first hwidth
          obtain ⟨henter, hless⟩ := A.step hsuffix (hsub hwidth) hentered
          exact ⟨hinside hwidth, hless.trans hallowed, fun _ => henter⟩
        have hothers := bestReach_segment hstep (by omega) hle hoffsets hsegment haside
        have hset : T ∪ {j | m.Reaches p i j} =
            (T ∪ {j | ∃ o ∈ others.map (i + ·), m.Reaches next o j}) ∪
              {j | m.Reaches next (i + first) j} := by
          rw [Set.union_assoc]
          congr 1
          ext j
          rw [Set.mem_union, Set.mem_ofPred_eq, Set.mem_ofPred_eq, Set.mem_ofPred_eq, hreaches,
            hwidths]
          simp [or_comm]
        rw [hset]
        dsimp only
        split
        · next hsettles => exact hothers.settled hsettles
        · next hsettles =>
          exact onward hnext hle (hinside List.mem_cons_self) hsuffix (hsub List.mem_cons_self)
            hothers (Bool.eq_false_iff.mpr hsettles)
    | none =>
      have hreaches (j : Nat) := reaches_literal (i := i) (j := j) hlt hgroup hstar hone hread
      simp only [Option.map_none]
      split
      · next hover =>
        apply nothing
        intro j hj
        exact ((hreaches j).mp hj).1 hover
      next hinside =>
      split
      · next hsame =>
        have hset (j : Nat) :
            m.Reaches p i j ↔ m.Reaches (m.patternEnd p) (m.subject.endAt i) j := by
          rw [hreaches]
          constructor
          · exact fun h => h.2.2
          · exact fun h => ⟨hinside, hsame, h⟩
        have hsuffix : m.items true (m.patternEnd p) <:+ m.items true p := by
          rw [items_literal hlt hgroup hstar hone hread]
          exact List.suffix_cons _ _
        simp only [hset]
        exact onward (m.lt_patternEnd hlt) (m.patternEnd_le hp) (Subject.endAt_le hi) hsuffix
          (fun j hj => (hset j).mpr hj) hsegment haside
      · next hdifferent =>
        apply nothing
        intro j hj
        exact hdifferent ((hreaches j).mp hj).2.1

/-- **A walk answers for the ends of its state**, whatever its memo held before. -/
theorem reachFrom_segment (hp : p ≤ m.pattern.length) (hi : i ≤ m.subject.bytes.length)
    (hgood : A.Good w) (hentered : w.Live → A.entered p i) :
    Segment A {j | m.Reaches p i j} (A.allowed p i) w (m.reachFrom p i w).1 (m.reachFrom p i w).2 :=
  reachFromWith_segment (reachUncached_faithful _) (by omega) hp hi hgood hentered

end Matcher

end Nsh.Patterns
