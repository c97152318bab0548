import Nsh.Patterns.Correct
import Nsh.Patterns.Trial

/-!
# Questions put to a trial

A question to a `Trial` is one walk from the first pattern byte.  A trial is `Ready`
when what it carries from the questions before is the plain answer; every question
leaves it so, because one that ran out of budget leaves nothing behind.
-/

namespace Nsh.Patterns

/-- The pattern matches the subject between `i` and `j`, read as the walk reads it. -/
def Pattern.Spans (p : Pattern) (locale : Locale) (subject : Bytes) (i j : Nat) : Prop :=
  ItemsSpan ⟨⟨locale, subject⟩, p.options.ignoreCase⟩ (p.items locale true) i j

/-- A question and the offset it is asked from. -/
inductive Question where
  | wholeFrom (start : Nat)
  | endsFrom (start : Nat)
  | furthestFrom (start : Nat)
deriving DecidableEq

inductive Answer where
  | whole (matched : Bool)
  | ends (offsets : List Nat)
  | furthest (offset : Option Nat)
deriving DecidableEq

def Question.start : Question → Nat
  | .wholeFrom start => start
  | .endsFrom start => start
  | .furthestFrom start => start

namespace Trial

def put (t : Trial) (limit : Nat) : Question → Answer × Trial
  | .wholeFrom start => (.whole (t.matchesFrom limit start).1, (t.matchesFrom limit start).2)
  | .endsFrom start => (.ends (t.endsFrom limit start).1, (t.endsFrom limit start).2)
  | .furthestFrom start => (.furthest (t.furthestEnd limit start).1, (t.furthestEnd limit start).2)

/-- The answers to a sequence of questions. -/
def answers (limit : Nat) : Trial → List Question → List Answer
  | _, [] => []
  | t, q :: qs => (t.put limit q).1 :: (t.put limit q).2.answers limit qs

/-- The trial is about this pattern and subject, and its memos hold plain answers. -/
structure Ready (p : Pattern) (locale : Locale) (subject : Bytes) (t : Trial) : Prop where
  pattern : t.pattern = p
  characters : t.characters = ⟨⟨locale, p.bytes⟩, ⟨locale, subject⟩⟩
  memo : ∀ budget, (t.matcher .whole).Honest ⟨t.memo, budget, []⟩
  spans : ∀ budget, (t.matcher .furthest).Honest ⟨t.spans, budget, []⟩

end Trial

namespace Matcher

variable {m : Matcher} {w : Walk} {p i : Nat}

theorem honest_empty (budget : Budget) : m.Honest ⟨Memo.empty, budget, []⟩ := by
  constructor
  · intro p i r h
    cases h
  · intro p i r h
    cases h
  · intro p i ends group h
    cases h

/-- The memo of a walk that does not collect ends, for another walk. -/
theorem Honest.carry (h : m.Honest w) (hgoal : m.goal ≠ .every) (budget : Budget) :
    m.Honest ⟨w.memo, budget, []⟩ :=
  ⟨h.best, fun _ _ _ _ hevery => absurd hevery hgoal, h.groups⟩

theorem Honest.good_free (h : m.Honest w) : (Licence.free m).Good w where
  honest _ := h
  reaches p i _ hmemo := ⟨trivial, ((h.best p i _ hmemo).mem rfl).2⟩
  groups p i ends group hmemo hgroup j hj := (h.groups p i ends group hmemo hgroup j).mp hj

theorem Honest.good_exact (h : m.Honest w) (hno : m.NoExclusion) :
    (Licence.exact m hno).Good w where
  honest _ := h
  reaches p i _ hmemo := (h.best p i _ hmemo).mem rfl
  groups p i ends group hmemo hgroup j hj := (h.groups p i ends group hmemo hgroup j).mp hj

end Matcher

/-- The memo answers no state with an end. -/
def Memo.NoPositive (memo : Memo) : Prop := ∀ key v, memo.reaches key ≠ some (some v)

theorem Matcher.Honest.good_rooted {m : Matcher} {w : Walk} (h : m.Honest w)
    (hno : w.memo.NoPositive) (start : Nat) : (Licence.rooted m start).Good w where
  honest _ := h
  reaches p i v hmemo := absurd hmemo (hno (p, i) v)
  groups p i ends group hmemo hgroup j hj := (h.groups p i ends group hmemo hgroup j).mp hj

namespace Trial

variable {p : Pattern} {locale : Locale} {subject : Bytes} {t : Trial} {limit i j : Nat}

theorem ready_trial (p : Pattern) (locale : Locale) (subject : Bytes) :
    Ready p locale subject (p.trial locale subject) :=
  ⟨rfl, rfl, Matcher.honest_empty, Matcher.honest_empty⟩

theorem Ready.reaches_iff (h : t.Ready p locale subject) (goal : Goal) :
    (t.matcher goal).Reaches 0 i j ↔ p.Spans locale subject i j := by
  unfold Matcher.Reaches Pattern.Spans matcher Matcher.subject
  rw [h.pattern, h.characters, Pattern.items_eq]

theorem Ready.subject_eq (h : t.Ready p locale subject) (goal : Goal) :
    (t.matcher goal).subject.bytes = subject := by
  unfold matcher Matcher.subject Subject.bytes
  rw [h.characters]

theorem Ready.setOf_reaches (h : t.Ready p locale subject) (goal : Goal) (i : Nat) :
    {j | (t.matcher goal).Reaches 0 i j} = {j | p.Spans locale subject i j} := by
  ext j
  exact h.reaches_iff goal

/-- One question is one segment. -/
theorem ask_segment (limit : Nat) (goal : Goal) {memo : Memo} {A : (t.matcher goal).Licence}
    (hi : i ≤ (t.matcher goal).subject.bytes.length)
    (hgood : A.Good ⟨memo, t.pattern.budget limit, []⟩) (hentered : A.entered 0 i) :
    Matcher.Segment A {j | (t.matcher goal).Reaches 0 i j} (A.allowed 0 i)
      ⟨memo, t.pattern.budget limit, []⟩ (t.ask limit memo i goal).1 (t.ask limit memo i goal).2 :=
  Matcher.reachFrom_segment (Nat.zero_le _) hi hgood fun _ => hentered

/-! ### Every question leaves the trial ready -/

theorem Ready.matchesFrom (h : t.Ready p locale subject) (hi : i ≤ subject.length) :
    (t.matchesFrom limit i).2.Ready p locale subject := by
  have hsegment := ask_segment limit .whole (i := i) (by rw [h.subject_eq]; exact hi)
    (h.memo (t.pattern.budget limit)).good_free trivial
  constructor
  · exact h.pattern
  · exact h.characters
  · intro budget
    show (t.matcher .whole).Honest ⟨if (t.ask limit t.memo i .whole).2.budget.exhausted
      then Memo.empty else (t.ask limit t.memo i .whole).2.memo, budget, []⟩
    split
    · exact Matcher.honest_empty budget
    · next hlive =>
      exact (hsegment.good.honest (by simpa [Walk.Live] using hlive)).carry nofun budget
  · exact h.spans

theorem Ready.endsFrom (h : t.Ready p locale subject) :
    (t.endsFrom limit i).2.Ready p locale subject :=
  ⟨h.pattern, h.characters, h.memo, h.spans⟩

theorem Ready.furthestEnd (h : t.Ready p locale subject) (hi : i ≤ subject.length) :
    (t.furthestEnd limit i).2.Ready p locale subject := by
  have hsegment := ask_segment limit .furthest (i := i) (by rw [h.subject_eq]; exact hi)
    (h.spans (t.pattern.budget limit)).good_free trivial
  constructor
  · exact h.pattern
  · exact h.characters
  · exact h.memo
  · intro budget
    show (t.matcher .furthest).Honest ⟨if (t.ask limit t.spans i .furthest).2.budget.exhausted
      then Memo.empty else (t.ask limit t.spans i .furthest).2.memo, budget, []⟩
    split
    · exact Matcher.honest_empty budget
    · next hlive =>
      exact (hsegment.good.honest (by simpa [Walk.Live] using hlive)).carry nofun budget

/-- **Every question leaves the trial ready** for the next, also one that ran out of
    budget. -/
theorem Ready.put (h : t.Ready p locale subject) (q : Question) (hq : q.start ≤ subject.length) :
    (t.put limit q).2.Ready p locale subject := by
  cases q with
  | wholeFrom start => exact h.matchesFrom hq
  | endsFrom start => exact h.endsFrom
  | furthestFrom start => exact h.furthestEnd hq

/-! ### What a question answers with budget left -/

theorem Ready.matchesFrom_iff (h : t.Ready p locale subject) (hi : i ≤ subject.length)
    (hlive : (t.matchesFrom limit i).2.budget.exhausted = false) :
    (t.matchesFrom limit i).1 = true ↔ p.Spans locale subject i subject.length := by
  have hsegment := ask_segment limit .whole (i := i) (by rw [h.subject_eq]; exact hi)
    (h.memo (t.pattern.budget limit)).good_free trivial
  have hbest := hsegment.best hlive
  have hfinals : (t.matcher .whole).finals = {subject.length} := by
    show {(t.matcher .whole).subject.bytes.length} = _
    rw [h.subject_eq]
  rw [h.setOf_reaches, hfinals] at hbest
  show (t.ask limit t.memo i .whole).1.isSome = true ↔ _
  rw [hbest.isSome_iff]
  constructor
  · rintro ⟨j, hj, hend⟩
    rw [Set.mem_singleton_iff] at hend
    rw [← hend]
    exact hj
  · intro hspans
    exact ⟨subject.length, hspans, Set.mem_singleton _⟩

theorem Ready.mem_endsFrom (h : t.Ready p locale subject) (hi : i ≤ subject.length)
    (hlive : (t.endsFrom limit i).2.budget.exhausted = false) :
    j ∈ (t.endsFrom limit i).1 ↔ p.Spans locale subject i j := by
  have hsegment := ask_segment limit .every (i := i)
    (by rw [h.subject_eq]; exact hi)
    (Matcher.honest_empty (t.pattern.budget limit)).good_free trivial
  show j ∈ sortDedup (t.ask limit Memo.empty i .every).2.ends ↔ _
  rw [Matcher.mem_sortDedup]
  constructor
  · intro hj
    rcases hsegment.exact hlive j hj with hj | hj
    · cases hj
    · exact (h.reaches_iff .every).mp hj
  · intro hj
    exact hsegment.recorded hlive rfl j ((h.reaches_iff .every).mpr hj)

theorem sortDedup_pairwise (ends : List Nat) : (sortDedup ends).Pairwise (· < ·) := by
  have hsorted : (sortDedup ends).Pairwise (· ≤ ·) :=
    (List.pairwise_insertionSort (· ≤ ·) ends).sublist (List.dedup_sublist _)
  have hnodup : (sortDedup ends).Nodup := List.nodup_dedup _
  exact hsorted.imp₂ (fun _ _ hle hne => lt_of_le_of_ne hle hne) hnodup

theorem endsFrom_pairwise (t : Trial) (limit i : Nat) :
    (t.endsFrom limit i).1.Pairwise (· < ·) := sortDedup_pairwise _

theorem Ready.furthestEnd_best (h : t.Ready p locale subject) (hi : i ≤ subject.length)
    (hlive : (t.furthestEnd limit i).2.budget.exhausted = false) :
    Best (t.furthestEnd limit i).1
      {j | p.Spans locale subject i j ∧ j ∈ (⟨locale, subject⟩ : Nsh.Characters).boundaries} := by
  have hsegment := ask_segment limit .furthest (i := i) (by rw [h.subject_eq]; exact hi)
    (h.spans (t.pattern.budget limit)).good_free trivial
  have hbest := hsegment.best hlive
  rw [h.setOf_reaches] at hbest
  have hset : {j | p.Spans locale subject i j} ∩ (t.matcher .furthest).finals =
      {j | p.Spans locale subject i j ∧
        j ∈ (⟨locale, subject⟩ : Nsh.Characters).boundaries} := by
    ext j
    apply and_congr_right
    intro _
    show t.characters.subject.boundaries.contains j = true ↔ _
    rw [h.characters]
    exact List.contains_iff_mem
  rw [← hset]
  exact hbest

end Trial

end Nsh.Patterns
