import Nsh.Lib.Best
import Nsh.Patterns.Matcher
import Nsh.Patterns.Spans

/-!
# Stretches of a walk

A walk is cut into segments.  A `Segment` says what one of them did: the set of
ends it answered for, exactly while budget is left, and a set its answer and the
ends it recorded stay inside whether or not budget is left.  Segments compose, and
their answers with them.

While budget is left the memo is `Honest`: it holds the best end of every state it
knows.  Once the budget is gone entries may be too small, and behind a `!(…)` group
even ends that are not there may be tried; what a walk may then still answer is
its `Licence`.
-/

namespace Nsh.Patterns

/-- Budget is left. -/
def Walk.Live (w : Walk) : Prop := w.budget.exhausted = false

namespace Matcher

/-- The ends the goal counts; collecting them all counts none as an answer. -/
def finals (m : Matcher) : Set Nat :=
  match m.goal with
  | .whole => {m.subject.bytes.length}
  | .furthest => {j | m.characters.subjectBeginsCharacter j = true}
  | .every => ∅

/-- Everything the memo knows is the plain answer. -/
structure Honest (m : Matcher) (w : Walk) : Prop where
  best : ∀ p i r, w.memo.reaches (p, i) = some r → Best r ({j | m.Reaches p i j} ∩ m.finals)
  recorded : ∀ p i r, w.memo.reaches (p, i) = some r → m.goal = .every →
    ∀ j, m.Reaches p i j → j ∈ w.ends
  groups : ∀ p i ends group, w.memo.groupEnds (p, i) = some ends →
    m.pattern.extendedGroup p = some group → ∀ j, j ∈ ends ↔ m.GroupReaches group i j

/-- What a walk may answer at each state, whatever happens to its budget.  `entered`
    holds of the states it enters with budget left. -/
structure Licence (m : Matcher) where
  allowed : Nat → Nat → Set Nat
  entered : Nat → Nat → Prop
  reaches : ∀ {p i j}, entered p i → m.Reaches p i j → j ∈ allowed p i
  step : ∀ {p i p' i'}, m.items true p' <:+ m.items true p →
    (∀ j, m.Reaches p' i' j → m.Reaches p i j) → entered p i →
      entered p' i' ∧ allowed p' i' ⊆ allowed p i
  excluded : ∀ {p i group} (j : Nat), entered p i → m.pattern.extendedGroup p = some group →
    group.kind = chr '!' → allowed group.next j ⊆ allowed p i

variable {m : Matcher}

/-- What the memo satisfies all along a walk. -/
structure Licence.Good (A : m.Licence) (w : Walk) : Prop where
  honest : w.Live → m.Honest w
  reaches : ∀ p i v, w.memo.reaches (p, i) = some (some v) → v ∈ A.allowed p i ∧ v ∈ m.finals
  groups : ∀ p i ends group, w.memo.groupEnds (p, i) = some ends →
    m.pattern.extendedGroup p = some group → ∀ j ∈ ends, m.GroupReaches group i j

/-- A stretch of a walk from `w` to `w'` that answered `r` for the ends `S`, staying
    inside `U`. -/
structure Segment (A : m.Licence) (S U : Set Nat) (w : Walk) (r : Option Nat) (w' : Walk) :
    Prop where
  good : A.Good w'
  live : w'.Live → w.Live
  kept : ∀ j ∈ w.ends, j ∈ w'.ends
  best : w'.Live → Best r (S ∩ m.finals)
  recorded : w'.Live → m.goal = .every → ∀ j ∈ S, j ∈ w'.ends
  exact : w'.Live → ∀ j ∈ w'.ends, j ∈ w.ends ∨ j ∈ S
  reach : ∀ v, r = some v → v ∈ U ∧ v ∈ m.finals
  ends : ∀ j ∈ w'.ends, j ∈ w.ends ∨ j ∈ U

/-! ### The three licences -/

/-- Nothing is forbidden. -/
def Licence.free (m : Matcher) : m.Licence where
  allowed _ _ := Set.univ
  entered _ _ := True
  reaches _ _ := trivial
  step _ _ _ := ⟨trivial, subset_rfl⟩
  excluded _ _ _ _ := subset_rfl

/-- Every state answers inside the ends of the state the walk began with. -/
def Licence.rooted (m : Matcher) (start : Nat) : m.Licence where
  allowed _ _ := {j | m.Reaches 0 start j}
  entered p i := ∀ j, m.Reaches p i j → m.Reaches 0 start j
  reaches hentered h := hentered _ h
  step _ hsub hentered := ⟨fun j h => hentered j (hsub j h), subset_rfl⟩
  excluded _ _ _ _ := subset_rfl

/-- No `!(…)` group among the items of the pattern itself. -/
def NoExclusion (m : Matcher) : Prop :=
  ∀ alternatives, Item.group (chr '!') alternatives ∉ m.items true 0

/-- Without `!(…)` groups every state answers inside its own ends. -/
def Licence.exact (m : Matcher) (h : m.NoExclusion) : m.Licence where
  allowed p i := {j | m.Reaches p i j}
  entered p _ := m.items true p <:+ m.items true 0
  reaches _ hreaches := hreaches
  step hsuffix hsub hentered := ⟨hsuffix.trans hentered, hsub⟩
  excluded _ hentered hgroup hkind := by
    exfalso
    rw [items_group hgroup, hkind] at hentered
    exact h _ (hentered.mem List.mem_cons_self)

/-! ### Segments compose -/

namespace Segment

variable {A : m.Licence} {S T U V : Set Nat} {w w₁ w' : Walk} {r r' : Option Nat}

/-- A stretch that answers nothing and runs the pattern out nowhere. -/
theorem quiet (good : A.Good w') (live : w'.Live → w.Live) (ends : w'.ends = w.ends) :
    Segment A ∅ U w none w' where
  good := good
  live := live
  kept j hj := by rw [ends]; exact hj
  best _ := by simp
  recorded _ _ j hj := absurd hj (Set.notMem_empty j)
  exact _ j hj := by rw [ends] at hj; exact Or.inl hj
  reach v hv := by cases hv
  ends j hj := by rw [ends] at hj; exact Or.inl hj

theorem refl (h : A.Good w) : Segment A ∅ U w none w := quiet h id rfl

theorem mono (h : Segment A S U w r w') (hUV : U ⊆ V) : Segment A S V w r w' :=
  { h with
    reach := fun v hv => ⟨hUV (h.reach v hv).1, (h.reach v hv).2⟩
    ends := fun j hj => (h.ends j hj).imp_right fun hU => hUV hU }

theorem congr (h : Segment A S U w r w') (hST : w'.Live → S = T) : Segment A T U w r w' :=
  { h with
    best := fun hlive => hST hlive ▸ h.best hlive
    recorded := fun hlive => hST hlive ▸ h.recorded hlive
    exact := fun hlive => hST hlive ▸ h.exact hlive }

/-- One segment after another: the better answer, for both sets. -/
theorem trans (h : Segment A S U w r w₁) (h' : Segment A T U w₁ r' w') :
    Segment A (S ∪ T) U w (max r r') w' where
  good := h'.good
  live hlive := h.live (h'.live hlive)
  kept j hj := h'.kept j (h.kept j hj)
  best hlive := by
    rw [Set.union_inter_distrib_right]
    exact (h.best (h'.live hlive)).union (h'.best hlive)
  recorded hlive hgoal j hj := by
    rcases hj with hj | hj
    · exact h'.kept j (h.recorded (h'.live hlive) hgoal j hj)
    · exact h'.recorded hlive hgoal j hj
  exact hlive j hj := by
    rcases h'.exact hlive j hj with hj | hj
    · exact (h.exact (h'.live hlive) j hj).imp_right Or.inl
    · exact Or.inr (Or.inr hj)
  reach v hv := by
    rcases eq_some_of_max hv with hv | hv
    · exact h.reach v hv
    · exact h'.reach v hv
  ends j hj := by
    rcases h'.ends j hj with hj | hj
    · exact h.ends j hj
    · exact Or.inr hj

theorem after_quiet (h : Segment A ∅ U w none w₁) (h' : Segment A T U w₁ r w') :
    Segment A T U w r w' := by
  have := h.trans h'
  rw [Set.empty_union] at this
  cases r with
  | none => exact this
  | some v => exact this

theorem max_comm (h : Segment A S U w (max r r') w') : Segment A S U w (max r' r) w' := by
  have : max r' r = max r r' := by
    cases r with
    | none => cases r' with
      | none => rfl
      | some v => rfl
    | some v => cases r' with
      | none => rfl
      | some v' => exact congrArg some (Nat.max_comm v' v)
  rw [this]
  exact h

/-- An answer that settles the question is the answer for anything more. -/
theorem settled (h : Segment A S U w r w') (hr : m.settles r = true) :
    Segment A (S ∪ T) U w r w' := by
  obtain ⟨hsome, hgoal⟩ : r.isSome = true ∧ m.goal = .whole := by simpa [settles] using hr
  obtain ⟨v, rfl⟩ := Option.isSome_iff_exists.mp hsome
  have hfinals : m.finals = {m.subject.bytes.length} := by rw [finals, hgoal]
  have hv : v = m.subject.bytes.length := by simpa [hfinals] using (h.reach v rfl).2
  exact
    { h with
      best := fun hlive => by
        rw [Set.union_inter_distrib_right]
        apply (h.best hlive).union_of_le
        intro w hw
        rw [hfinals] at hw
        rw [hv]
        exact le_of_eq hw.2
      recorded := fun _ hevery => by rw [hgoal] at hevery; cases hevery
      exact := fun hlive j hj => (h.exact hlive j hj).imp_right Or.inl }

/-- Remembering the answer for a state. -/
theorem remember {p i : Nat} (h : Segment A {j | m.Reaches p i j} (A.allowed p i) w r w') :
    Segment A {j | m.Reaches p i j} (A.allowed p i) w r (w'.remember (p, i) r) := by
  have entry {p' i' : Nat} {r' : Option Nat}
      (hmemo : (w'.remember (p, i) r).memo.reaches (p', i') = some r') :
      (p' = p ∧ i' = i ∧ r' = r) ∨ w'.memo.reaches (p', i') = some r' := by
    rw [Walk.remember] at hmemo
    simp only [Function.update_apply] at hmemo
    split at hmemo
    · next heq =>
      cases hmemo
      exact Or.inl ⟨congrArg Prod.fst heq, congrArg Prod.snd heq, rfl⟩
    · exact Or.inr hmemo
  refine { h with good := ?_ }
  constructor
  · intro hlive
    have honest := h.good.honest hlive
    constructor
    · intro p' i' r' hmemo
      rcases entry hmemo with ⟨rfl, rfl, rfl⟩ | hmemo
      · exact h.best hlive
      · exact honest.best p' i' r' hmemo
    · intro p' i' r' hmemo hgoal j hj
      rcases entry hmemo with ⟨rfl, rfl, rfl⟩ | hmemo
      · exact h.recorded hlive hgoal j hj
      · exact honest.recorded p' i' r' hmemo hgoal j hj
    · exact honest.groups
  · intro p' i' v hmemo
    rcases entry hmemo with ⟨rfl, rfl, hr⟩ | hmemo
    · exact h.reach v hr.symm
    · exact h.good.reaches p' i' v hmemo
  · exact h.good.groups

/-- Paying for a state answers nothing. -/
theorem spend (h : A.Good w) (hlive : w.Live) : Segment A ∅ U w none w.spend := by
  have hgood : A.Good w.spend := by
    constructor
    · intro _
      have honest := h.honest hlive
      exact ⟨honest.best, honest.recorded, honest.groups⟩
    · exact h.reaches
    · exact h.groups
  exact quiet hgood (fun _ => hlive) rfl

end Segment

end Matcher

end Nsh.Patterns
