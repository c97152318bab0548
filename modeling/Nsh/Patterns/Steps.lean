import Nsh.Patterns.Segment

/-!
# The segments of a walk

One lemma for each function of the walk, all of them about an arbitrary `step` that
is `Faithful` while its fuel exceeds the pattern still to be read.
-/

namespace Nsh.Patterns

namespace Matcher

variable {m : Matcher} {A : m.Licence} {S T U : Set Nat} {w w₀ w₁ w' : Walk}
  {r best aside : Option Nat} {p i fuel : Nat} {step : Step}

/-- A step that, going on from a segment, answers for the ends of its own state too. -/
def Faithful (step : Step) (fuel : Nat) : Prop :=
  ∀ {m : Matcher} {A : m.Licence} {p i : Nat} {aside : Option Nat} {w w₀ : Walk} {T U : Set Nat},
    m.pattern.length - p < fuel → p ≤ m.pattern.length → i ≤ m.subject.bytes.length →
    A.entered p i → A.allowed p i ⊆ U → Segment A T U w₀ aside w → m.settles aside = false →
    Segment A (T ∪ {j | m.Reaches p i j}) U w₀ (step m p i aside w).1 (step m p i aside w).2

/-! ### Answers that settle -/

theorem settles_none : m.settles none = false := rfl

theorem max_of_settles (hbest : m.settles best = false) (hr : m.settles r = true) :
    max best r = r := by
  obtain ⟨-, hgoal⟩ : r.isSome = true ∧ m.goal = .whole := by simpa [settles] using hr
  have : best = none := by
    cases best with
    | none => rfl
    | some v => simp [settles, hgoal] at hbest
  rw [this]
  cases r with
  | none => rfl
  | some v => rfl

theorem settles_max (hbest : m.settles best = false) (hr : m.settles r = false) :
    m.settles (max best r) = false := by
  cases best with
  | none =>
    cases r with
    | none => rfl
    | some v => exact hr
  | some u =>
    cases r with
    | none => exact hbest
    | some v => simpa [settles] using hr

/-! ### One state -/

/-- What the memo knows is a segment of its own. -/
theorem Segment.known (h : A.Good w) (hmemo : w.memo.reaches (p, i) = some r) :
    Segment A {j | m.Reaches p i j} (A.allowed p i) w r w where
  good := h
  live hlive := hlive
  kept _ hj := hj
  best hlive := (h.honest hlive).best p i r hmemo
  recorded hlive := (h.honest hlive).recorded p i r hmemo
  exact _ _ hj := Or.inl hj
  reach v hv := h.reaches p i v (by rw [hmemo, hv])
  ends _ hj := Or.inl hj

theorem Segment.dead (h : A.Good w) (hdead : ¬ w.Live) : Segment A S U w none w where
  good := h
  live hlive := hlive
  kept _ hj := hj
  best hlive := absurd hlive hdead
  recorded hlive := absurd hlive hdead
  exact hlive := absurd hlive hdead
  reach v hv := by cases hv
  ends _ hj := Or.inl hj

theorem reachFromWith_segment (hstep : Faithful step fuel) (hfuel : m.pattern.length - p < fuel)
    (hp : p ≤ m.pattern.length) (hi : i ≤ m.subject.bytes.length) (hgood : A.Good w)
    (hentered : w.Live → A.entered p i) :
    Segment A {j | m.Reaches p i j} (A.allowed p i) w
      (reachFromWith step m p i w).1 (reachFromWith step m p i w).2 := by
  unfold reachFromWith
  split
  · next hmemo => exact Segment.known hgood hmemo
  · split
    · next hexhausted =>
      exact Segment.dead hgood (by simp [Walk.Live, hexhausted])
    · next hlive =>
      have hlive : w.Live := by simpa [Walk.Live] using hlive
      have h := hstep hfuel hp hi (hentered hlive) subset_rfl
        (Segment.spend (U := A.allowed p i) hgood hlive) settles_none
      rw [Set.empty_union] at h
      exact h.remember

theorem bestReach_segment (hstep : Faithful step fuel) {next : Nat}
    (hfuel : m.pattern.length - next < fuel) (hnext : next ≤ m.pattern.length)
    {offsets : List Nat}
    (hoffsets : ∀ o ∈ offsets, o ≤ m.subject.bytes.length ∧ A.allowed next o ⊆ U ∧
      (w.Live → A.entered next o))
    (h : Segment A T U w₀ best w) (hbest : m.settles best = false) :
    Segment A (T ∪ {j | ∃ o ∈ offsets, m.Reaches next o j}) U w₀
      (bestReach step m next offsets best w).1 (bestReach step m next offsets best w).2 := by
  induction offsets generalizing T best w with
  | nil => simpa [bestReach] using h
  | cons o offsets ih =>
    obtain ⟨hle, hallowed, hentered⟩ := hoffsets o List.mem_cons_self
    have hone := (reachFromWith_segment hstep hfuel hnext hle h.good hentered).mono hallowed
    have hsets : T ∪ {j | ∃ o' ∈ o :: offsets, m.Reaches next o' j} =
        (T ∪ {j | m.Reaches next o j}) ∪ {j | ∃ o' ∈ offsets, m.Reaches next o' j} := by
      rw [Set.union_assoc]
      congr 1
      ext j
      simp
    rw [hsets, bestReach]
    have htrans := h.trans hone
    simp only
    split
    · next hsettles =>
      rw [max_of_settles hbest hsettles] at htrans
      exact htrans.settled hsettles
    · next hsettles =>
      have hsettles := Bool.eq_false_iff.mpr hsettles
      refine ih ?_ htrans (settles_max hbest hsettles)
      intro o' ho'
      obtain ⟨hle', hallowed', hentered'⟩ := hoffsets o' (List.mem_cons_of_mem o ho')
      exact ⟨hle', hallowed', fun hlive => hentered' (hone.live hlive)⟩

/-! ### The pattern runs out -/

theorem Segment.record (hgood : A.Good w) (hgoal : m.goal = .every) (hU : i ∈ U) :
    Segment A {i} U w none (w.record i) := by
  have hends : ∀ j, j ∈ (w.record i).ends ↔ j ∈ w.ends ∨ j = i := by
    intro j
    unfold Walk.record
    split
    · next hcontains =>
      have hi : i ∈ w.ends := by simpa using hcontains
      constructor
      · exact Or.inl
      · rintro (hj | rfl)
        · exact hj
        · exact hi
    · simp
  have hmemo : (w.record i).memo = w.memo ∧ (w.record i).budget = w.budget := by
    unfold Walk.record
    split
    · exact ⟨rfl, rfl⟩
    · exact ⟨rfl, rfl⟩
  have hlive : (w.record i).Live ↔ w.Live := by rw [Walk.Live, hmemo.2]; exact Iff.rfl
  have hfinals : m.finals = ∅ := by rw [finals, hgoal]
  constructor
  · constructor
    · intro h
      have honest := hgood.honest (hlive.mp h)
      constructor
      · rw [hmemo.1]; exact honest.best
      · rw [hmemo.1]
        intro p' i' r' hknown hevery j hj
        exact (hends j).mpr (Or.inl (honest.recorded p' i' r' hknown hevery j hj))
      · rw [hmemo.1]; exact honest.groups
    · rw [hmemo.1]; exact hgood.reaches
    · rw [hmemo.1]; exact hgood.groups
  · exact hlive.mp
  · intro j hj
    exact (hends j).mpr (Or.inl hj)
  · intro _
    simp [hfinals]
  · intro _ _ j hj
    exact (hends j).mpr (Or.inr hj)
  · intro _ j hj
    exact (hends j).mp hj
  · intro v hv
    cases hv
  · intro j hj
    rcases (hends j).mp hj with hj | rfl
    · exact Or.inl hj
    · exact Or.inr hU

/-- An answer read off without walking: the greatest of the ends that count. -/
theorem Segment.answer (hgood : A.Good w) (hgoal : m.goal ≠ .every) (hbest : Best r (S ∩ m.finals))
    (hU : S ⊆ U) : Segment A S U w r w where
  good := hgood
  live hlive := hlive
  kept _ hj := hj
  best _ := hbest
  recorded _ hevery := absurd hevery hgoal
  exact _ _ hj := Or.inl hj
  reach _ hv := ⟨hU (hbest.mem hv).1, (hbest.mem hv).2⟩
  ends _ hj := Or.inl hj

theorem best_singleton {P : Prop} [Decidable P] {F : Set Nat} (h : P ↔ i ∈ F) :
    Best (if P then some i else none) ({i} ∩ F) := by
  split
  · next hP =>
    have hset : ({i} ∩ F : Set Nat) = {i} := by
      rw [Set.inter_eq_left, Set.singleton_subset_iff]
      exact h.mp hP
    rw [hset, best_some]
    exact isGreatest_singleton
  · next hP =>
    rw [best_none, Set.singleton_inter_eq_empty]
    exact fun hi => hP (h.mpr hi)

theorem ranOut_segment (hgood : A.Good w) (hp : p = m.pattern.length) (hentered : A.entered p i) :
    Segment A {j | m.Reaches p i j} (A.allowed p i) w (m.ranOut i w).1 (m.ranOut i w).2 := by
  have hset : {j | m.Reaches p i j} = {i} := by
    ext j
    rw [Set.mem_ofPred_eq, reaches_end hp, Set.mem_singleton_iff, eq_comm]
  have hallowed : i ∈ A.allowed p i := A.reaches hentered ((reaches_end hp).mpr rfl)
  rw [hset]
  unfold ranOut
  cases hgoal : m.goal with
  | whole =>
    apply Segment.answer hgood (by rw [hgoal]; decide) ?_ (by simpa using hallowed)
    apply best_singleton
    rw [finals, hgoal]
    exact Iff.rfl
  | furthest =>
    apply Segment.answer hgood (by rw [hgoal]; decide) ?_ (by simpa using hallowed)
    apply best_singleton
    rw [finals, hgoal]
    exact Iff.rfl
  | every => exact Segment.record hgood hgoal hallowed

theorem Segment.withAside (h : Segment A T U w₀ aside w) {answer : Option Nat × Walk}
    (h' : Segment A S U w answer.1 answer.2) :
    Segment A (T ∪ S) U w₀ (Matcher.withAside aside answer).1 (Matcher.withAside aside answer).2 :=
  (h.trans h').max_comm

/-! ### `*` -/

/-- A run of `*` that ends the pattern reaches the end of the subject. -/
theorem trailingStar_segment (hgood : A.Good w) (hgroup : m.pattern.extendedGroup p = none)
    (hstar : m.pattern.active p (chr '*') = true)
    (hafter : m.pattern.starRunEnd p = m.pattern.length) (hgoal : m.goal ≠ .every)
    (hi : i ≤ m.subject.bytes.length) (hentered : A.entered p i) :
    Segment A {j | m.Reaches p i j} (A.allowed p i) w (some m.subject.bytes.length) w := by
  have hreaches (j : Nat) : m.Reaches p i j ↔ j ∈ m.subject.offsets i := by
    rw [reaches_star hgroup hstar]
    constructor
    · rintro ⟨k, hk, hj⟩
      rw [reaches_end hafter] at hj
      exact hj ▸ hk
    · intro hj
      exact ⟨j, hj, (reaches_end hafter).mpr rfl⟩
  have hfinal : m.subject.bytes.length ∈ m.finals := by
    unfold finals
    cases hgoal' : m.goal with
    | whole => exact Set.mem_singleton _
    | furthest =>
      exact List.elem_eq_true_of_mem m.characters.subject.length_mem_boundaries
    | every => exact absurd hgoal' hgoal
  apply Segment.answer hgood hgoal ?_ fun j hj => A.reaches hentered hj
  constructor
  · exact ⟨(hreaches _).mpr (Subject.length_mem_offsets hi), hfinal⟩
  · rintro j ⟨hj, -⟩
    exact (Subject.offsets_bounds hi ((hreaches j).mp hj)).2

theorem reachStar_segment (hstep : Faithful step fuel) (hgroup : m.pattern.extendedGroup p = none)
    (hstar : m.pattern.active p (chr '*') = true)
    (hfuel : m.pattern.length - m.pattern.starRunEnd p < fuel)
    (hi : i ≤ m.subject.bytes.length) (hgood : A.Good w) (hentered : A.entered p i) :
    Segment A {j | m.Reaches p i j} (A.allowed p i) w
      (reachStar step m p (m.pattern.starRunEnd p) (m.subject.offsets i) w).1
      (reachStar step m p (m.pattern.starRunEnd p) (m.subject.offsets i) w).2 := by
  have hafter := m.pattern.starRunEnd_le (le_of_lt (Pattern.lt_of_active hstar))
  have hsuffix : m.items true (m.pattern.starRunEnd p) <:+ m.items true p := by
    rw [items_star hgroup hstar]
    exact List.suffix_cons _ _
  -- one candidate `c`, the candidates behind it having answered for the set `T`
  have candidate {c : Nat} {rest : List Nat} {T : Set Nat} {w : Walk}
      (hc : c ≤ m.subject.bytes.length) (hgood : A.Good w) (hentered : A.entered p c)
      (hset : {j | m.Reaches p c j} = {j | m.Reaches (m.pattern.starRunEnd p) c j} ∪ T)
      (htail : ∀ w, A.Good w → Segment A T (A.allowed p c) w
        (reachStar step m p (m.pattern.starRunEnd p) rest w).1
        (reachStar step m p (m.pattern.starRunEnd p) rest w).2) :
      Segment A {j | m.Reaches p c j} (A.allowed p c) w
        (reachStar step m p (m.pattern.starRunEnd p) (c :: rest) w).1
        (reachStar step m p (m.pattern.starRunEnd p) (c :: rest) w).2 := by
    rw [reachStar]
    split
    · next hmemo => exact Segment.known hgood hmemo
    · obtain ⟨henter, hallowed⟩ := A.step hsuffix
        (fun j (hj : m.Reaches (m.pattern.starRunEnd p) c j) => by
          have : j ∈ {j | m.Reaches p c j} := by rw [hset]; exact Or.inl hj
          exact this) hentered
      have hone := (reachFromWith_segment hstep hfuel hafter hc hgood fun _ => henter).mono hallowed
      simp only
      split
      · next hsettles =>
        rw [hset]
        exact hone.settled hsettles
      · have h := (hone.trans (htail _ hone.good)).max_comm
        rw [← hset] at h
        split
        · exact h
        · exact h.remember
  induction i, hi using Subject.offsets_induction generalizing w with
  | hend =>
    rw [Subject.offsets_end]
    apply candidate (le_refl _) hgood hentered (T := ∅) ?_ fun w hw => Segment.refl hw
    ext j
    rw [Set.mem_ofPred_eq, reaches_star hgroup hstar, Subject.offsets_end]
    simp
  | hstep c hlt ih =>
    have hset : {j | m.Reaches p c j} =
        {j | m.Reaches (m.pattern.starRunEnd p) c j} ∪ {j | m.Reaches p (m.subject.endAt c) j} := by
      ext j
      rw [Set.mem_union, Set.mem_ofPred_eq, Set.mem_ofPred_eq, Set.mem_ofPred_eq,
        reaches_star hgroup hstar, reaches_star hgroup hstar, Subject.offsets_cons hlt]
      simp
    rw [Subject.offsets_cons hlt]
    obtain ⟨henter, hallowed⟩ := A.step (List.suffix_refl _)
      (fun j (hj : m.Reaches p (m.subject.endAt c) j) => by
        have : j ∈ {j | m.Reaches p c j} := by rw [hset]; exact Or.inr hj
        exact this) hentered
    exact candidate (le_of_lt hlt) hgood hentered hset fun w hw => (ih hw henter).mono hallowed

end Matcher

end Nsh.Patterns
