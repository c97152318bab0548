import Nsh.Patterns.Steps

/-!
# The segments of a group

A group asks its alternatives where they can run out, closes what they answer under
repetition or complements it, and lets the pattern behind it go on from there.
-/

namespace Nsh.Patterns

open Relation (ReflTransGen TransGen)

namespace Matcher

variable {m : Matcher} {A : m.Licence} {w w₀ w' : Walk} {p i fuel : Nat} {step : Step}

/-! ### The ends of a group's alternatives -/

/-- Walks that leave the memo and the ends as they are, and found the offsets `G`. -/
structure Gathers (G : Nat → Prop) (w : Walk) (found : List Nat) (w' : Walk) : Prop where
  memo : w'.memo = w.memo
  ends : w'.ends = w.ends
  live : w'.Live → w.Live
  complete : w'.Live → ∀ j, G j → j ∈ found
  sound : ∀ j ∈ found, G j

theorem good_start (budget : Budget) : A.Good (Walk.start budget) := by
  constructor
  · intro _
    constructor
    · intro p i r h
      cases h
    · intro p i r h
      cases h
    · intro p i ends group h
      cases h
  · intro p i v h
    cases h
  · intro p i ends group h
    cases h

theorem endsWithin_gathers (hstep : Faithful step fuel) (hfuel : m.pattern.length < fuel)
    (hi : i ≤ m.subject.bytes.length) (hgoal : m.goal = .every) (w : Walk) :
    Gathers (m.Reaches 0 i) w (endsWithin step m i w).1 (endsWithin step m i w).2 := by
  have h := reachFromWith_segment (A := Licence.rooted m i) hstep (by omega) (Nat.zero_le _) hi
    (good_start w.budget) fun _ _ hj => hj
  constructor
  · rfl
  · rfl
  · exact h.live
  · intro hlive j hj
    exact h.recorded hlive hgoal j hj
  · intro j hj
    rcases h.ends j hj with hj | hj
    · cases hj
    · exact hj

theorem endsWithinAll_gathers (hstep : Faithful step fuel) (hi : i ≤ m.subject.bytes.length)
    {ranges : List (Nat × Nat)}
    (hfuel : ∀ range ∈ ranges, (m.alternative range).pattern.length < fuel) {G : Nat → Prop}
    {found : List Nat} (h : Gathers G w₀ found w) :
    Gathers (fun j => G j ∨ ∃ range ∈ ranges, (m.alternative range).Reaches 0 i j) w₀
      (endsWithinAll step m i ranges found w).1 (endsWithinAll step m i ranges found w).2 := by
  induction ranges generalizing G found w with
  | nil => simpa [endsWithinAll] using h
  | cons range ranges ih =>
    have hone := endsWithin_gathers (m := m.alternative range) hstep
      (hfuel range List.mem_cons_self) hi rfl w
    have hboth : Gathers (fun j => G j ∨ (m.alternative range).Reaches 0 i j) w₀
        (found ++ (endsWithin step (m.alternative range) i w).1)
        (endsWithin step (m.alternative range) i w).2 := by
      constructor
      · rw [hone.memo, h.memo]
      · rw [hone.ends, h.ends]
      · exact fun hlive => h.live (hone.live hlive)
      · rintro hlive j (hj | hj)
        · exact List.mem_append_left _ (h.complete (hone.live hlive) j hj)
        · exact List.mem_append_right _ (hone.complete hlive j hj)
      · intro j hj
        rcases List.mem_append.mp hj with hj | hj
        · exact Or.inl (h.sound j hj)
        · exact Or.inr (hone.sound j hj)
    have := ih (fun range' hmem => hfuel range' (List.mem_cons_of_mem range hmem)) hboth
    rw [endsWithinAll]
    simpa only [List.mem_cons, exists_eq_or_imp, or_assoc] using this

/-- A stretch that only looked up the ends `G` of a group. -/
structure Found (A : m.Licence) (G : Nat → Prop) (w : Walk) (found : List Nat) (w' : Walk) :
    Prop where
  good : A.Good w'
  ends : w'.ends = w.ends
  live : w'.Live → w.Live
  complete : w'.Live → ∀ j, G j → j ∈ found
  sound : ∀ j ∈ found, G j

@[simp] theorem mem_sortDedup {ends : List Nat} {j : Nat} : j ∈ sortDedup ends ↔ j ∈ ends := by
  simp [sortDedup]

theorem alternativeEnds_found (hstep : Faithful step fuel) {group : ExtendedGroup}
    (hgroup : m.pattern.extendedGroup p = some group)
    (hfuel : ∀ range ∈ group.alternatives, (m.alternative range).pattern.length < fuel)
    (hi : i ≤ m.subject.bytes.length) (hgood : A.Good w) :
    Found A (m.GroupReaches group i) w
      (alternativeEnds step m group i w).1 (alternativeEnds step m group i w).2 := by
  have hstart : group.start = p := (Pattern.extendedGroup_within hgroup).start
  unfold alternativeEnds
  rw [hstart]
  split
  · next ends hmemo =>
    constructor
    · exact hgood
    · rfl
    · exact id
    · intro hlive j hj
      exact ((hgood.honest hlive).groups p i ends group hmemo hgroup j).mpr hj
    · exact hgood.groups p i ends group hmemo hgroup
  · have hempty : Gathers (fun _ => False) w [] w :=
      ⟨rfl, rfl, id, fun _ _ h => h.elim, fun _ h => nomatch h⟩
    have h := endsWithinAll_gathers hstep hi hfuel hempty
    simp only [false_or] at h
    generalize endsWithinAll step m i group.alternatives [] w = out at h
    obtain ⟨found, w'⟩ := out
    have hmem (j : Nat) : j ∈ sortDedup found ↔ j ∈ found := mem_sortDedup
    have entry {p' i' : Nat} {ends : List Nat}
        (hmemo : (w'.rememberGroup (p, i) (sortDedup found)).memo.groupEnds (p', i') = some ends) :
        (p' = p ∧ i' = i ∧ ends = sortDedup found) ∨ w.memo.groupEnds (p', i') = some ends := by
      rw [Walk.rememberGroup] at hmemo
      simp only [Function.update_apply] at hmemo
      split at hmemo
      · next heq =>
        cases hmemo
        exact Or.inl ⟨congrArg Prod.fst heq, congrArg Prod.snd heq, rfl⟩
      · rw [h.memo] at hmemo
        exact Or.inr hmemo
    have hreaches : (w'.rememberGroup (p, i) (sortDedup found)).memo.reaches = w.memo.reaches := by
      show w'.memo.reaches = w.memo.reaches
      rw [h.memo]
    constructor
    · constructor
      · intro hlive
        have honest := hgood.honest (h.live hlive)
        constructor
        · rw [hreaches]
          exact honest.best
        · rw [hreaches]
          intro p' i' r' hknown hevery j hj
          have := honest.recorded p' i' r' hknown hevery j hj
          show j ∈ w'.ends
          rw [h.ends]
          exact this
        · intro p' i' ends group' hmemo hgroup' j
          rcases entry hmemo with ⟨rfl, rfl, rfl⟩ | hmemo
          · obtain rfl : group = group' := by rw [hgroup] at hgroup'; exact Option.some.inj hgroup'
            rw [hmem]
            exact ⟨h.sound j, h.complete hlive j⟩
          · exact honest.groups p' i' ends group' hmemo hgroup' j
      · rw [hreaches]
        exact hgood.reaches
      · intro p' i' ends group' hmemo hgroup' j hj
        rcases entry hmemo with ⟨rfl, rfl, rfl⟩ | hmemo
        · obtain rfl : group = group' := by rw [hgroup] at hgroup'; exact Option.some.inj hgroup'
          exact h.sound j ((hmem j).mp hj)
        · exact hgood.groups p' i' ends group' hmemo hgroup' j hj
    · exact h.ends
    · exact h.live
    · intro hlive j hj
      exact (hmem j).mpr (h.complete hlive j hj)
    · intro j hj
      exact h.sound j ((hmem j).mp hj)

/-! ### Repetition -/

theorem mem_insertNew (offsets seen : List Nat) (k : Nat) :
    (k ∈ (insertNew offsets seen).1 ↔ k ∈ offsets ∧ k ∉ seen) ∧
      (k ∈ (insertNew offsets seen).2 ↔ k ∈ seen ∨ k ∈ offsets) := by
  induction offsets generalizing seen with
  | nil => simp [insertNew]
  | cons o offsets ih =>
    rw [insertNew]
    split
    · next h =>
      have ho : o ∈ seen := by simpa using h
      obtain ⟨hfresh, hseen⟩ := ih seen
      rw [hfresh, hseen, List.mem_cons]
      constructor
      · constructor
        · exact fun h => ⟨Or.inr h.1, h.2⟩
        · rintro ⟨rfl | hk, hnot⟩
          · exact absurd ho hnot
          · exact ⟨hk, hnot⟩
      · constructor
        · rintro (hk | hk)
          · exact Or.inl hk
          · exact Or.inr (Or.inr hk)
        · rintro (hk | rfl | hk)
          · exact Or.inl hk
          · exact Or.inl ho
          · exact Or.inr hk
    · next h =>
      have ho : o ∉ seen := by simpa using h
      obtain ⟨hfresh, hseen⟩ := ih (o :: seen)
      simp only [List.mem_cons, hfresh, hseen]
      constructor
      · constructor
        · rintro (rfl | ⟨hk, hnot⟩)
          · exact ⟨Or.inl rfl, ho⟩
          · exact ⟨Or.inr hk, fun hmem => hnot (Or.inr hmem)⟩
        · rintro ⟨rfl | hk, hnot⟩
          · exact Or.inl rfl
          · by_cases heq : k = o
            · exact Or.inl heq
            · exact Or.inr ⟨hk, fun hmem => hmem.elim heq hnot⟩
      · tauto

theorem insertNew_nodup (offsets : List Nat) {seen : List Nat} (h : seen.Nodup) :
    (insertNew offsets seen).2.Nodup := by
  induction offsets generalizing seen with
  | nil => exact h
  | cons o offsets ih =>
    rw [insertNew]
    split
    · exact ih h
    · next hnot =>
      apply ih
      rw [List.nodup_cons]
      exact ⟨by simpa using hnot, h⟩

theorem insertNew_length (offsets seen : List Nat) :
    (insertNew offsets seen).2.length = seen.length + (insertNew offsets seen).1.length := by
  induction offsets generalizing seen with
  | nil => simp [insertNew]
  | cons o offsets ih =>
    rw [insertNew]
    split
    · exact ih seen
    · simp only [ih, List.length_cons]
      omega

theorem length_le_of_nodup {offsets : List Nat} {bound : Nat} (h : offsets.Nodup)
    (hle : ∀ k ∈ offsets, k ≤ bound) : offsets.length ≤ bound + 1 := by
  have hsub : offsets ⊆ List.range (bound + 1) := by
    intro k hk
    exact List.mem_range.mpr (Nat.lt_succ_of_le (hle k hk))
  have := (h.subperm hsub).length_le
  rwa [List.length_range] at this

/-- The worklist of `reach_group_repeated` part-way: `seen` holds what was reached so
    far, `ends` the part of it whose own ends were asked for. -/
structure Closing (R : Nat → Nat → Prop) (i : Nat) (pending seen ends : List Nat) (w : Walk) :
    Prop where
  sound : ∀ k ∈ seen, TransGen R i k
  known : ∀ k, k ∈ seen ↔ k ∈ pending ∨ k ∈ ends
  nodup : seen.Nodup
  first : w.Live → ∀ j, R i j → j ∈ seen
  closed : w.Live → ∀ k ∈ ends, i < k → ∀ j, R k j → j ∈ seen

theorem Closing.complete {R : Nat → Nat → Prop} {seen ends : List Nat}
    (h : Closing R i [] seen ends w) (hlive : w.Live)
    (hle : ∀ k, TransGen R i k → i ≤ k) {j : Nat} (hj : TransGen R i j) : j ∈ seen := by
  induction hj with
  | single hstep => exact h.first hlive _ hstep
  | @tail k j hk hstep ih =>
    have hends : k ∈ ends := by simpa using (h.known k).mp ih
    rcases Nat.eq_or_lt_of_le (hle k hk) with rfl | hlt
    · exact h.first hlive j hstep
    · exact h.closed hlive k hends hlt j hstep

/-- What `closeEnds` leaves behind. -/
structure Closed (A : m.Licence) (R : Nat → Nat → Prop) (i : Nat) (w : Walk)
    (out : List Nat × List Nat × Walk) : Prop where
  good : A.Good out.2.2
  ends : out.2.2.ends = w.ends
  live : out.2.2.Live → w.Live
  closing : Closing R i [] out.2.1 out.1 out.2.2

theorem closed_nil {group : ExtendedGroup} {R : Nat → Nat → Prop} {seen ends : List Nat}
    (hgood : A.Good w) (h : Closing R i [] seen ends w) :
    Closed A R i w (closeEnds step m group i fuel [] seen ends w) := by
  cases fuel with
  | zero => exact ⟨hgood, rfl, id, h⟩
  | succ fuel => exact ⟨hgood, rfl, id, h⟩

theorem closeEnds_closed (fuel : Nat) {group : ExtendedGroup} {R : Nat → Nat → Prop}
    (hfound : ∀ k w, k ≤ m.subject.bytes.length → A.Good w →
      Found A (R k) w (alternativeEnds step m group k w).1 (alternativeEnds step m group k w).2)
    (hR : ∀ k j, k ≤ m.subject.bytes.length → R k j → k ≤ j ∧ j ≤ m.subject.bytes.length)
    (hi : i ≤ m.subject.bytes.length) {pending seen ends : List Nat} (hgood : A.Good w)
    (h : Closing R i pending seen ends w)
    (hfuel : (m.subject.bytes.length + 1 - seen.length) + pending.length ≤ fuel) :
    Closed A R i w (closeEnds step m group i fuel pending seen ends w) := by
  have hbounds {k : Nat} (hk : TransGen R i k) : i ≤ k ∧ k ≤ m.subject.bytes.length :=
    reflTransGen_bounds hR hi hk.to_reflTransGen
  induction fuel generalizing pending seen ends w with
  | zero =>
    obtain rfl : pending = [] := List.length_eq_zero_iff.mp (by omega)
    exact closed_nil hgood h
  | succ fuel ih =>
    cases pending with
    | nil => exact closed_nil hgood h
    | cons k pending =>
      have hk : TransGen R i k := h.sound k ((h.known k).mpr (Or.inl List.mem_cons_self))
      rw [closeEnds]
      split
      · next hlt =>
        have hone := hfound k w (hbounds hk).2 hgood
        generalize alternativeEnds step m group k w = out at hone ⊢
        obtain ⟨reached, w₁⟩ := out
        dsimp only
        have hmem := mem_insertNew (reached.filter (k < ·)) seen
        have hlength := insertNew_length (reached.filter (k < ·)) seen
        have hnodup := insertNew_nodup (reached.filter (k < ·)) h.nodup
        generalize insertNew (reached.filter (k < ·)) seen = inserted at hmem hlength hnodup ⊢
        obtain ⟨fresh, seen'⟩ := inserted
        have hclosing : Closing R i (fresh.reverse ++ pending) seen' (ends ++ [k]) w₁ := by
          constructor
          · intro j hj
            rcases ((hmem j).2).mp hj with hj | hj
            · exact h.sound j hj
            · exact hk.tail (hone.sound j (List.mem_filter.mp hj).1)
          · intro j
            have hfresh := (hmem j).1
            rw [(hmem j).2, h.known j, List.mem_append, List.mem_reverse, List.mem_append,
              List.mem_singleton, List.mem_cons]
            rw [h.known j, List.mem_cons] at hfresh
            tauto
          · exact hnodup
          · intro hlive j hj
            exact ((hmem j).2).mpr (Or.inl (h.first (hone.live hlive) j hj))
          · intro hlive k' hk' hlt' j hj
            rcases List.mem_append.mp hk' with hk' | hk'
            · exact ((hmem j).2).mpr (Or.inl (h.closed (hone.live hlive) k' hk' hlt' j hj))
            · obtain rfl := List.mem_singleton.mp hk'
              have hreached := hone.complete hlive j hj
              rcases Nat.eq_or_lt_of_le (hR k' j (hbounds hk).2 hj).1 with rfl | hkj
              · exact ((hmem k').2).mpr (Or.inl ((h.known k').mpr (Or.inl List.mem_cons_self)))
              · exact ((hmem j).2).mpr (Or.inr (by simp [hreached, hkj]))
        have hseen : seen'.length ≤ m.subject.bytes.length + 1 :=
          length_le_of_nodup hnodup fun j hj => (hbounds (hclosing.sound j hj)).2
        have hrest := ih hone.good hclosing (by
          rw [List.length_append, List.length_reverse]
          rw [List.length_cons] at hfuel
          simp only at hlength
          omega)
        exact
          { hrest with
            ends := hrest.ends.trans hone.ends
            live := fun hlive => hone.live (hrest.live hlive) }
      · next hnot =>
        have hclosing : Closing R i pending seen (ends ++ [k]) w := by
          constructor
          · exact h.sound
          · intro j
            rw [h.known j, List.mem_append, List.mem_singleton, List.mem_cons]
            tauto
          · exact h.nodup
          · exact h.first
          · intro hlive k' hk' hlt' j hj
            rcases List.mem_append.mp hk' with hk' | hk'
            · exact h.closed hlive k' hk' hlt' j hj
            · obtain rfl := List.mem_singleton.mp hk'
              exact absurd hlt' hnot
        apply ih hgood hclosing
        rw [List.length_cons] at hfuel
        omega

/-! ### Leaving a group -/

theorem reaches_of_next {group : ExtendedGroup} (hgroup : m.pattern.extendedGroup p = some group)
    {k : Nat} (hk : GroupSpans group.kind m.subject.offsets (m.GroupReaches group) i k) (j : Nat)
    (hj : m.Reaches group.next k j) : m.Reaches p i j :=
  (reaches_group hgroup).mpr ⟨k, hk, hj⟩

/-- The pattern behind a group goes on from the offsets the group left the subject at,
    all of which are right ones, or the group is a `!(…)`. -/
theorem leaveGroup_segment (hstep : Faithful step fuel) {group : ExtendedGroup}
    (hgroup : m.pattern.extendedGroup p = some group)
    (hfuel : m.pattern.length - group.next < fuel) (hentered : A.entered p i)
    {w₁ : Walk} {offsets : List Nat} (hgood : A.Good w₁) (hends : w₁.ends = w.ends)
    (hlive : w₁.Live → w.Live)
    (hle : ∀ k ∈ offsets, k ≤ m.subject.bytes.length)
    (hsound : ∀ k ∈ offsets, group.kind = chr '!' ∨
      GroupSpans group.kind m.subject.offsets (m.GroupReaches group) i k)
    (hexact : w₁.Live → ∀ k, k ∈ offsets ↔
      GroupSpans group.kind m.subject.offsets (m.GroupReaches group) i k) :
    Segment A {j | m.Reaches p i j} (A.allowed p i) w
      (bestReach step m group.next offsets none w₁).1
      (bestReach step m group.next offsets none w₁).2 := by
  have hwithin := Pattern.extendedGroup_within hgroup
  have hsuffix : m.items true group.next <:+ m.items true p := by
    rw [items_group hgroup]
    exact List.suffix_cons _ _
  have right {k : Nat}
      (hk : GroupSpans group.kind m.subject.offsets (m.GroupReaches group) i k) :
      A.entered group.next k ∧ A.allowed group.next k ⊆ A.allowed p i :=
    A.step hsuffix (reaches_of_next hgroup hk) hentered
  have hoffsets : ∀ k ∈ offsets, k ≤ m.subject.bytes.length ∧
      A.allowed group.next k ⊆ A.allowed p i ∧ (w₁.Live → A.entered group.next k) := by
    intro k hk
    refine ⟨hle k hk, ?_, fun hlive => (right ((hexact hlive k).mp hk)).1⟩
    rcases hsound k hk with hkind | hk
    · exact A.excluded k hentered hgroup hkind
    · exact (right hk).2
  have hquiet : Segment A ∅ (A.allowed p i) w none w₁ := Segment.quiet hgood hlive hends
  have h := bestReach_segment hstep hfuel hwithin.next_le hoffsets (Segment.refl hgood)
    settles_none
  have hset : (bestReach step m group.next offsets none w₁).2.Live →
      ∅ ∪ {j | ∃ k ∈ offsets, m.Reaches group.next k j} = {j | m.Reaches p i j} := by
    intro hlive
    rw [Set.empty_union]
    ext j
    rw [Set.mem_ofPred_eq, Set.mem_ofPred_eq, reaches_group hgroup]
    constructor
    · rintro ⟨k, hk, hj⟩
      exact ⟨k, (hexact (h.live hlive) k).mp hk, hj⟩
    · rintro ⟨k, hk, hj⟩
      exact ⟨k, (hexact (h.live hlive) k).mpr hk, hj⟩
  exact hquiet.after_quiet (h.congr hset)

theorem groupSpans_once {kind : UInt8} {candidates : Nat → List Nat} {R : Nat → Nat → Prop}
    {optional : Bool} (hkind : kind = if optional then chr '?' else chr '@') {k : Nat} :
    GroupSpans kind candidates R i k ↔ R i k ∨ (optional = true ∧ i = k) := by
  subst hkind
  cases optional with
  | false => simp [GroupSpans, show chr '@' ≠ chr '!' by decide, show chr '@' ≠ chr '?' by decide]
  | true => simp [GroupSpans, show chr '?' ≠ chr '!' by decide]

theorem groupSpans_repeated {kind : UInt8} (candidates : Nat → List Nat) {R : Nat → Nat → Prop}
    {optional : Bool} (hexcluded : kind ≠ chr '!') (hone : kind ≠ chr '?') (hat : kind ≠ chr '@')
    (hkind : optional = decide (kind = chr '*')) {k : Nat} :
    GroupSpans kind candidates R i k ↔ TransGen R i k ∨ (optional = true ∧ i = k) := by
  rw [GroupSpans, if_neg hexcluded, if_neg hone, if_neg hat]
  split
  · next hstar =>
    rw [Relation.reflTransGen_iff_eq_or_transGen]
    simp only [hkind, hstar, decide_true, true_and, eq_comm, or_comm]
  · next hstar => simp [hkind, hstar]

/-- The offset the group was entered at, added to its ends when no iteration is one. -/
theorem mem_optional {ends seen : List Nat} (hsame : ∀ k, k ∈ ends ↔ k ∈ seen) (optional : Bool)
    (k : Nat) : k ∈ (if optional && !seen.contains i then ends ++ [i] else ends) ↔
      k ∈ seen ∨ (optional = true ∧ i = k) := by
  rw [← hsame]
  by_cases hi : i ∈ seen
  · have : seen.contains i = true := by simpa using hi
    rw [this]
    simp only [Bool.not_true, Bool.and_false, Bool.false_eq_true, if_false]
    constructor
    · exact Or.inl
    · rintro (hk | ⟨-, rfl⟩)
      · exact hk
      · exact (hsame i).mpr hi
  · have : seen.contains i = false := by simpa using hi
    rw [this]
    cases optional with
    | false => simp
    | true => simp [eq_comm]

theorem reachGroupOnce_segment (hstep : Faithful step fuel) {group : ExtendedGroup}
    (hgroup : m.pattern.extendedGroup p = some group) {optional : Bool}
    (hkind : group.kind = if optional then chr '?' else chr '@')
    (hfuel : m.pattern.length - group.next < fuel)
    (hi : i ≤ m.subject.bytes.length) (hentered : A.entered p i)
    (hfound : Found A (m.GroupReaches group i) w
      (alternativeEnds step m group i w).1 (alternativeEnds step m group i w).2) :
    Segment A {j | m.Reaches p i j} (A.allowed p i) w
      (reachGroupOnce step m group i optional w).1
      (reachGroupOnce step m group i optional w).2 := by
  unfold reachGroupOnce
  generalize alternativeEnds step m group i w = out at hfound ⊢
  obtain ⟨found, w₁⟩ := out
  dsimp only
  have hmem := mem_optional (i := i) (fun k => Iff.rfl : ∀ k, k ∈ found ↔ k ∈ found) optional
  have hsound : ∀ k, k ∈ found ∨ (optional = true ∧ i = k) →
      GroupSpans group.kind m.subject.offsets (m.GroupReaches group) i k := by
    intro k hk
    rw [groupSpans_once hkind]
    exact hk.imp_left (hfound.sound k)
  apply leaveGroup_segment hstep hgroup hfuel hentered hfound.good hfound.ends hfound.live
  · intro k hk
    rcases (hmem k).mp hk with hk | ⟨-, rfl⟩
    · exact ((hfound.sound k hk).bounds hi).2
    · exact hi
  · intro k hk
    exact Or.inr (hsound k ((hmem k).mp hk))
  · intro hlive k
    rw [hmem k]
    constructor
    · exact hsound k
    · intro hk
      rw [groupSpans_once hkind] at hk
      exact hk.imp_left (hfound.complete hlive k)

theorem reachGroupRepeated_segment (hstep : Faithful step fuel) {group : ExtendedGroup}
    (hgroup : m.pattern.extendedGroup p = some group) {optional : Bool}
    (hspans : ∀ k, GroupSpans group.kind m.subject.offsets (m.GroupReaches group) i k ↔
      TransGen (m.GroupReaches group) i k ∨ (optional = true ∧ i = k))
    (hfuel : m.pattern.length - group.next < fuel)
    (hi : i ≤ m.subject.bytes.length) (hentered : A.entered p i) (hgood : A.Good w)
    (hfound : ∀ k w, k ≤ m.subject.bytes.length → A.Good w →
      Found A (m.GroupReaches group k) w
        (alternativeEnds step m group k w).1 (alternativeEnds step m group k w).2) :
    Segment A {j | m.Reaches p i j} (A.allowed p i) w
      (reachGroupRepeated step m group i optional w).1
      (reachGroupRepeated step m group i optional w).2 := by
  have hR : ∀ k j, k ≤ m.subject.bytes.length → m.GroupReaches group k j →
      k ≤ j ∧ j ≤ m.subject.bytes.length := fun k j hk h => h.bounds hk
  have hbounds {k : Nat} (hk : TransGen (m.GroupReaches group) i k) :=
    reflTransGen_bounds hR hi hk.to_reflTransGen
  unfold reachGroupRepeated
  have hfirst := hfound i w hi hgood
  generalize alternativeEnds step m group i w = out at hfirst ⊢
  obtain ⟨first, w₁⟩ := out
  dsimp only
  have hmem := mem_insertNew first []
  have hlength := insertNew_length first []
  have hnodup := insertNew_nodup first List.nodup_nil
  generalize insertNew first [] = inserted at hmem hlength hnodup ⊢
  obtain ⟨fresh, seen⟩ := inserted
  dsimp only
  have hclosing : Closing (m.GroupReaches group) i fresh.reverse seen [] w₁ := by
    constructor
    · intro k hk
      have : k ∈ first := by simpa using ((hmem k).2).mp hk
      exact TransGen.single (hfirst.sound k this)
    · intro k
      rw [(hmem k).2, List.mem_reverse, (hmem k).1]
      simp
    · exact hnodup
    · intro hlive j hj
      exact ((hmem j).2).mpr (Or.inr (hfirst.complete hlive j hj))
    · intro _ k hk
      cases hk
  have hseen : seen.length ≤ m.subject.bytes.length + 1 :=
    length_le_of_nodup hnodup fun k hk => (hbounds (hclosing.sound k hk)).2
  have hclosed := closeEnds_closed (m.subject.bytes.length + 2) hfound hR hi hfirst.good
    hclosing (by
      rw [List.length_reverse]
      simp only [List.length_nil, Nat.zero_add] at hlength
      omega)
  generalize closeEnds step m group i (m.subject.bytes.length + 2) fresh.reverse seen [] w₁ = out
    at hclosed ⊢
  obtain ⟨ends, seen, w₂⟩ := out
  dsimp only
  have hsame (k : Nat) : k ∈ ends ↔ k ∈ seen := by
    rw [hclosed.closing.known k]
    simp
  have hmem := mem_optional (i := i) hsame optional
  have hsound : ∀ k, k ∈ seen ∨ (optional = true ∧ i = k) →
      GroupSpans group.kind m.subject.offsets (m.GroupReaches group) i k := by
    intro k hk
    rw [hspans]
    exact hk.imp_left (hclosed.closing.sound k)
  apply leaveGroup_segment hstep hgroup hfuel hentered hclosed.good
    (hclosed.ends.trans hfirst.ends) fun hlive => hfirst.live (hclosed.live hlive)
  · intro k hk
    rcases (hmem k).mp hk with hk | ⟨-, rfl⟩
    · exact (hbounds (hclosed.closing.sound k hk)).2
    · exact hi
  · intro k hk
    exact Or.inr (hsound k ((hmem k).mp hk))
  · intro hlive k
    rw [hmem k]
    constructor
    · exact hsound k
    · intro hk
      rw [hspans] at hk
      exact hk.imp_left (hclosed.closing.complete hlive fun k hk => (hbounds hk).1)

theorem reachGroupExcluded_segment (hstep : Faithful step fuel) {group : ExtendedGroup}
    (hgroup : m.pattern.extendedGroup p = some group) (hkind : group.kind = chr '!')
    (hfuel : m.pattern.length - group.next < fuel)
    (hi : i ≤ m.subject.bytes.length) (hentered : A.entered p i)
    (hfound : Found A (m.GroupReaches group i) w
      (alternativeEnds step m group i w).1 (alternativeEnds step m group i w).2) :
    Segment A {j | m.Reaches p i j} (A.allowed p i) w
      (reachGroupExcluded step m group i w).1 (reachGroupExcluded step m group i w).2 := by
  unfold reachGroupExcluded
  generalize alternativeEnds step m group i w = out at hfound ⊢
  obtain ⟨excluded, w₁⟩ := out
  dsimp only
  apply leaveGroup_segment hstep hgroup hfuel hentered hfound.good hfound.ends hfound.live
  · intro k hk
    exact (Subject.offsets_bounds hi (List.mem_filter.mp hk).1).2
  · intro k _
    exact Or.inl hkind
  · intro hlive k
    have hexcluded : k ∈ excluded ↔ m.GroupReaches group i k :=
      ⟨hfound.sound k, hfound.complete hlive k⟩
    rw [GroupSpans, if_pos hkind, ← hexcluded, List.mem_filter]
    simp

/-- **A group answers for its ends**, whatever its kind. -/
theorem reachGroup_segment (hstep : Faithful step fuel) {group : ExtendedGroup}
    (hgroup : m.pattern.extendedGroup p = some group)
    (hfuel : m.pattern.length - p ≤ fuel)
    (hi : i ≤ m.subject.bytes.length) (hgood : A.Good w) (hentered : A.entered p i) :
    Segment A {j | m.Reaches p i j} (A.allowed p i) w
      (reachGroup step m group i w).1 (reachGroup step m group i w).2 := by
  have hwithin := Pattern.extendedGroup_within hgroup
  have hlt : p < m.pattern.length := lt_of_lt_of_le hwithin.lt_next hwithin.next_le
  have hnext : m.pattern.length - group.next < fuel := by
    have := hwithin.lt_next
    omega
  have hranges : ∀ range ∈ group.alternatives, (m.alternative range).pattern.length < fuel := by
    intro range hrange
    have := m.alternative_length_lt (hwithin.alternatives range hrange) hlt
    omega
  have hfound (k : Nat) (w : Walk) (hk : k ≤ m.subject.bytes.length) (hgood : A.Good w) :=
    alternativeEnds_found hstep hgroup hranges hk hgood
  have hone := hfound i w hi hgood
  unfold reachGroup
  split
  · next hkind => exact reachGroupExcluded_segment hstep hgroup hkind hnext hi hentered hone
  next hexcluded =>
  split
  · next hkind => exact reachGroupOnce_segment hstep hgroup hkind hnext hi hentered hone
  next honce =>
  split
  · next hkind => exact reachGroupOnce_segment hstep hgroup hkind hnext hi hentered hone
  next hat =>
  have hspans (optional : Bool) (hkind : optional = decide (group.kind = chr '*')) (k : Nat) :=
    groupSpans_repeated (i := i) (k := k) m.subject.offsets (R := m.GroupReaches group)
      hexcluded honce hat hkind
  split
  · next hstar =>
    exact reachGroupRepeated_segment hstep hgroup (hspans true (by simp [hstar])) hnext hi hentered
      hgood hfound
  · next hstar =>
    exact reachGroupRepeated_segment hstep hgroup (hspans false (by simp [hstar])) hnext hi hentered
      hgood hfound

end Matcher

end Nsh.Patterns
