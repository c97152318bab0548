import Nsh.Patterns.Matches

/-!
# Sequences of questions

The questions put to one trial share its memos.  As long as budget is left every answer
is the one a match of its own would give; a question that runs out may answer too little,
and behind a `!(…)` it may meet a remembered answer it should never have asked for.
-/

namespace Nsh.Patterns

namespace Trial

/-- No question of the sequence runs out of budget. -/
def Unexhausted (limit : Nat) : Trial → List Question → Prop
  | _, [] => True
  | t, q :: qs =>
    (t.put limit q).2.budget.exhausted = false ∧ (t.put limit q).2.Unexhausted limit qs

end Trial

namespace Pattern

variable (p : Pattern) (locale : Locale) (subject : Bytes)

/-- Matching the whole of `subject` by itself leaves budget. -/
def Affordable : Prop :=
  ((p.trial locale subject).matchesFrom extendedMatchBudget 0).2.budget.exhausted = false

/-- What `Pattern::matches` says about the slices of the subject that a question asks
    about, each slice matched by itself within its budget. -/
def Plain : Question → Answer → Prop
  | .wholeFrom i, .whole matched =>
    p.Affordable locale (subject.extract i subject.length) →
      matched = p.matches locale (subject.extract i subject.length)
  | .endsFrom i, .ends offsets =>
    offsets.Pairwise (· < ·) ∧ (∀ e ∈ offsets, i ≤ e ∧ e ≤ subject.length) ∧
      ∀ e, i ≤ e → e ≤ subject.length → p.Affordable locale (subject.extract i e) →
        (e ∈ offsets ↔ p.matches locale (subject.extract i e) = true)
  | .furthestFrom i, .furthest offset =>
    (∀ e, i ≤ e → e ≤ subject.length → p.Affordable locale (subject.extract i e)) →
      Best offset {e | i ≤ e ∧ e ≤ subject.length ∧ p.matches locale (subject.extract i e) = true}
  | _, _ => False

/-- The answer is the one a trial of its own would give. -/
def Alone (limit : Nat) (q : Question) (a : Answer) : Prop :=
  ((p.trial locale subject).put limit q).2.budget.exhausted = false →
    a = ((p.trial locale subject).put limit q).1

end Pattern

section

variable {p : Pattern} {locale : Locale} {subject : Bytes} {t : Trial} {limit i j : Nat}

/-! ### With budget left -/

theorem Pattern.spans_iff_matches (h : locale.SingleByte) (hij : i ≤ j) (hj : j ≤ subject.length)
    (hlive : p.Affordable locale (subject.extract i j)) :
    p.Spans locale subject i j ↔ p.matches locale (subject.extract i j) = true := by
  rw [p.spans_iff h subject (le_trans hij hj), p.matches_iff_runLanguage h _ hlive]
  exact ⟨fun hspells => hspells.2.2, fun hmem => ⟨hij, hj, hmem⟩⟩

theorem Pattern.Spans.bounds (h : locale.SingleByte) (hi : i ≤ subject.length)
    (hspans : p.Spans locale subject i j) : i ≤ j ∧ j ≤ subject.length :=
  ⟨((p.spans_iff h subject hi).mp hspans).1, ((p.spans_iff h subject hi).mp hspans).2.1⟩

/-- In a single-byte locale every end begins a character. -/
theorem Trial.Ready.furthestEnd_best_singleByte (hready : t.Ready p locale subject)
    (h : locale.SingleByte) (hi : i ≤ subject.length)
    (hlive : (t.furthestEnd limit i).2.budget.exhausted = false) :
    Best (t.furthestEnd limit i).1 {j | p.Spans locale subject i j} := by
  have hbest := hready.furthestEnd_best hi hlive
  have hset : {j | p.Spans locale subject i j ∧
      j ∈ (⟨locale, subject⟩ : Nsh.Characters).boundaries} = {j | p.Spans locale subject i j} := by
    ext j
    apply and_iff_left_of_imp
    intro hspans
    exact Characters.mem_boundaries h (hspans.bounds h hi).2
  rw [← hset]
  exact hbest

/-- The answer of one question that ends with budget left. -/
theorem Trial.Ready.plain (hready : t.Ready p locale subject) (h : locale.SingleByte)
    (q : Question) (hq : q.start ≤ subject.length)
    (hlive : (t.put limit q).2.budget.exhausted = false) :
    p.Plain locale subject q (t.put limit q).1 := by
  cases q with
  | wholeFrom i =>
    intro haffordable
    have hi : i ≤ subject.length := hq
    rw [Bool.eq_iff_iff, hready.matchesFrom_iff hi hlive]
    exact Pattern.spans_iff_matches h hi (le_refl _) haffordable
  | endsFrom i =>
    have hi : i ≤ subject.length := hq
    refine ⟨Trial.endsFrom_pairwise t limit i, ?_, ?_⟩
    · intro e he
      exact ((hready.mem_endsFrom hi hlive).mp he).bounds h hi
    · intro e hie he haffordable
      rw [hready.mem_endsFrom hi hlive]
      exact Pattern.spans_iff_matches h hie he haffordable
  | furthestFrom i =>
    intro haffordable
    have hset : {e | i ≤ e ∧ e ≤ subject.length ∧
        p.matches locale (subject.extract i e) = true} = {e | p.Spans locale subject i e} := by
      ext e
      constructor
      · rintro ⟨hie, he, hmatches⟩
        exact (Pattern.spans_iff_matches h hie he (haffordable e hie he)).mpr hmatches
      · intro hspans
        obtain ⟨hie, he⟩ := hspans.bounds h hq
        exact ⟨hie, he,
          (Pattern.spans_iff_matches h hie he (haffordable e hie he)).mp hspans⟩
    rw [hset]
    exact hready.furthestEnd_best_singleByte h hq hlive

/-- Two trials that are ready answer a question alike. -/
theorem Trial.Ready.put_eq {t' : Trial} (hready : t.Ready p locale subject)
    (hready' : t'.Ready p locale subject) (h : locale.SingleByte) (q : Question)
    (hq : q.start ≤ subject.length) (hlive : (t.put limit q).2.budget.exhausted = false)
    (hlive' : (t'.put limit q).2.budget.exhausted = false) :
    (t.put limit q).1 = (t'.put limit q).1 := by
  cases q with
  | wholeFrom i =>
    have hi : i ≤ subject.length := hq
    apply congrArg Answer.whole
    rw [Bool.eq_iff_iff, hready.matchesFrom_iff hi hlive, hready'.matchesFrom_iff hi hlive']
  | endsFrom i =>
    have hi : i ≤ subject.length := hq
    apply congrArg Answer.ends
    have hmem (e : Nat) : e ∈ (t.endsFrom limit i).1 ↔ e ∈ (t'.endsFrom limit i).1 := by
      rw [hready.mem_endsFrom hi hlive, hready'.mem_endsFrom hi hlive']
    exact List.Perm.eq_of_pairwise' (Trial.endsFrom_pairwise t limit i)
      (Trial.endsFrom_pairwise t' limit i)
      ((List.perm_ext_iff_of_nodup (Trial.endsFrom_pairwise t limit i).nodup
        (Trial.endsFrom_pairwise t' limit i).nodup).mpr hmem)
  | furthestFrom i =>
    have hbest := hready.furthestEnd_best_singleByte h hq hlive
    have hbest' := hready'.furthestEnd_best_singleByte h hq hlive'
    exact congrArg Answer.furthest (Best.unique hbest hbest')

/-- **Sharing a memo never changes an answer.** -/
theorem Trial.answers_plain (h : locale.SingleByte) (p : Pattern) (subject : Bytes) (limit : Nat)
    (qs : List Question) (hstarts : ∀ q ∈ qs, q.start ≤ subject.length)
    (hlive : (p.trial locale subject).Unexhausted limit qs) :
    List.Forall₂ (fun q a => p.Plain locale subject q a ∧ p.Alone locale subject limit q a) qs
      ((p.trial locale subject).answers limit qs) := by
  -- by induction on the questions, the trial being ready before each
  have run : ∀ (qs : List Question) (t : Trial), (∀ q ∈ qs, q.start ≤ subject.length) →
      t.Ready p locale subject → t.Unexhausted limit qs →
      List.Forall₂ (fun q a => p.Plain locale subject q a ∧ p.Alone locale subject limit q a) qs
        (t.answers limit qs) := by
    intro qs
    induction qs with
    | nil =>
      intro t _ _ _
      exact List.Forall₂.nil
    | cons q qs ih =>
      intro t hstarts hready hlive
      have hq := hstarts q List.mem_cons_self
      have hplain := hready.plain h q hq hlive.1
      have halone : p.Alone locale subject limit q (t.put limit q).1 :=
        fun hown => hready.put_eq (Trial.ready_trial p locale subject) h q hq hlive.1 hown
      have hrest := ih (t.put limit q).2
        (fun q' hmem => hstarts q' (List.mem_cons_of_mem q hmem)) (hready.put q hq) hlive.2
      exact List.Forall₂.cons ⟨hplain, halone⟩ hrest
  exact run qs _ hstarts (Trial.ready_trial p locale subject) hlive

/-- Four questions about one value, its ends among them. -/
theorem Trial.answers_plain_four :
    List.Forall₂
      (fun q a => (Pattern.unquoted (text "@(a|b)*") ⟨true, false⟩).Plain Locale.c (text "ab") q a ∧
        (Pattern.unquoted (text "@(a|b)*") ⟨true, false⟩).Alone Locale.c (text "ab") 40 q a)
      [.wholeFrom 1, .endsFrom 0, .furthestFrom 0, .wholeFrom 0]
      (((Pattern.unquoted (text "@(a|b)*") ⟨true, false⟩).trial Locale.c (text "ab")).answers 40
        [.wholeFrom 1, .endsFrom 0, .furthestFrom 0, .wholeFrom 0]) :=
  Trial.answers_plain Locale.c_singleByte _ _ 40 _ (by decide)
    ⟨by decide +kernel, by decide +kernel, by decide +kernel, by decide +kernel, trivial⟩

/-! ### Out of budget -/

namespace Pattern

/-- No `!(…)` among the items of the pattern; one inside another group does no harm. -/
def NoExclusion (p : Pattern) (locale : Locale) : Prop :=
  ∀ alternatives, Item.group (chr '!') alternatives ∉ p.items locale true

/-- What the answer says matches does match. -/
def Real (p : Pattern) (locale : Locale) (subject : Bytes) : Question → Answer → Prop
  | .wholeFrom i, .whole matched => matched = true → p.Spans locale subject i subject.length
  | .endsFrom i, .ends offsets => ∀ e ∈ offsets, p.Spans locale subject i e
  | .furthestFrom i, .furthest offset => ∀ e, offset = some e → p.Spans locale subject i e
  | _, _ => False

end Pattern

namespace Trial

/-- The memo a question reads. -/
def memoFor (t : Trial) : Question → Memo
  | .wholeFrom _ => t.memo
  | .endsFrom _ => Memo.empty
  | .furthestFrom _ => t.spans

/-- The question ends with budget left, or there is no `!(…)` whose complement could be
    too large, or no remembered match that such a complement could meet. -/
def Trusted (limit : Nat) (t : Trial) (q : Question) : Prop :=
  (t.put limit q).2.budget.exhausted = false ∨
    t.pattern.NoExclusion t.characters.pattern.locale ∨ (t.memoFor q).NoPositive

def AllTrusted (limit : Nat) : Trial → List Question → Prop
  | _, [] => True
  | t, q :: qs => t.Trusted limit q ∧ (t.put limit q).2.AllTrusted limit qs

/-- What one question may claim: the ends of its own start. -/
theorem Ready.ask_real (hready : t.Ready p locale subject) (limit : Nat) (goal : Goal) {memo : Memo}
    (hi : i ≤ subject.length)
    (hhonest : ∀ budget, (t.matcher goal).Honest ⟨memo, budget, []⟩)
    (htrusted : (t.ask limit memo i goal).2.budget.exhausted = false ∨
      p.NoExclusion locale ∨ memo.NoPositive) :
    (∀ v, (t.ask limit memo i goal).1 = some v →
      p.Spans locale subject i v ∧ v ∈ (t.matcher goal).finals) ∧
    ∀ v ∈ (t.ask limit memo i goal).2.ends, p.Spans locale subject i v := by
  have hlength : i ≤ (t.matcher goal).subject.bytes.length := by
    rw [hready.subject_eq]
    exact hi
  have honest := hhonest (t.pattern.budget limit)
  -- a licence that allows no more than the ends of the start settles both
  have within (A : (t.matcher goal).Licence) (hgood : A.Good ⟨memo, t.pattern.budget limit, []⟩)
      (hentered : A.entered 0 i) (hallowed : A.allowed 0 i ⊆ {j | (t.matcher goal).Reaches 0 i j}) :
      (∀ v, (t.ask limit memo i goal).1 = some v →
        p.Spans locale subject i v ∧ v ∈ (t.matcher goal).finals) ∧
      ∀ v ∈ (t.ask limit memo i goal).2.ends, p.Spans locale subject i v := by
    have hsegment := ask_segment limit goal hlength hgood hentered
    constructor
    · intro v hv
      obtain ⟨hin, hfinal⟩ := hsegment.reach v hv
      exact ⟨(hready.reaches_iff goal).mp (hallowed hin), hfinal⟩
    · intro v hv
      rcases hsegment.ends v hv with hv | hv
      · cases hv
      · exact (hready.reaches_iff goal).mp (hallowed hv)
  rcases htrusted with hlive | hnone | hno
  · have hsegment := ask_segment limit goal hlength honest.good_free trivial
    constructor
    · intro v hv
      have hmem := (hsegment.best hlive).mem hv
      exact ⟨(hready.reaches_iff goal).mp hmem.1, hmem.2⟩
    · intro v hv
      rcases hsegment.exact hlive v hv with hv | hv
      · cases hv
      · exact (hready.reaches_iff goal).mp hv
  · have hnone' : (t.matcher goal).NoExclusion := by
      intro alternatives
      have heq : (t.matcher goal).items true 0 = p.items locale true := by
        unfold matcher
        rw [hready.pattern, hready.characters, Pattern.items_eq]
      rw [heq]
      exact hnone alternatives
    exact within _ (honest.good_exact hnone') (List.suffix_refl _) subset_rfl
  · exact within _ (honest.good_rooted hno i) (fun _ hreaches => hreaches) subset_rfl

theorem noPositive_empty : Memo.empty.NoPositive := by
  intro key v h
  cases h

/-- A question that may be trusted claims nothing that is not so. -/
theorem Ready.real (hready : t.Ready p locale subject) (q : Question)
    (hq : q.start ≤ subject.length) (htrusted : t.Trusted limit q) :
    p.Real locale subject q (t.put limit q).1 := by
  unfold Trusted at htrusted
  rw [hready.pattern, hready.characters] at htrusted
  cases q with
  | wholeFrom i =>
    intro hmatched
    obtain ⟨hreal, -⟩ := hready.ask_real limit .whole hq hready.memo htrusted
    obtain ⟨v, hv⟩ := Option.isSome_iff_exists.mp hmatched
    obtain ⟨hspans, hfinal⟩ := hreal v hv
    have hend : v = (t.matcher .whole).subject.bytes.length := hfinal
    rw [hready.subject_eq] at hend
    rw [← hend]
    exact hspans
  | endsFrom i =>
    intro e he
    obtain ⟨-, hreal⟩ := hready.ask_real limit .every hq
      (fun budget => Matcher.honest_empty budget) (Or.inr (Or.inr noPositive_empty))
    exact hreal e (Matcher.mem_sortDedup.mp he)
  | furthestFrom i =>
    intro e he
    obtain ⟨hreal, -⟩ := hready.ask_real limit .furthest hq hready.spans htrusted
    exact (hreal e he).1

/-- **Running out of budget invents no match** as long as every question may be
    trusted. -/
theorem answers_real (p : Pattern) (locale : Locale) (subject : Bytes) (limit : Nat)
    (qs : List Question) (hstarts : ∀ q ∈ qs, q.start ≤ subject.length)
    (htrusted : (p.trial locale subject).AllTrusted limit qs) :
    List.Forall₂ (p.Real locale subject) qs ((p.trial locale subject).answers limit qs) := by
  have run : ∀ (qs : List Question) (t : Trial), (∀ q ∈ qs, q.start ≤ subject.length) →
      t.Ready p locale subject → t.AllTrusted limit qs →
      List.Forall₂ (p.Real locale subject) qs (t.answers limit qs) := by
    intro qs
    induction qs with
    | nil =>
      intro t _ _ _
      exact List.Forall₂.nil
    | cons q qs ih =>
      intro t hstarts hready htrusted
      have hq := hstarts q List.mem_cons_self
      have hreal := hready.real q hq htrusted.1
      have hrest := ih (t.put limit q).2
        (fun q' hmem => hstarts q' (List.mem_cons_of_mem q hmem)) (hready.put q hq) htrusted.2
      exact List.Forall₂.cons hreal hrest
  exact run qs _ hstarts (ready_trial p locale subject) htrusted

/-- A question that is cut short before an empty memo. -/
theorem answers_real_cutShort :
    List.Forall₂ ((Pattern.unquoted (text "!(a@(|))b") ⟨true, false⟩).Real Locale.c (text "ab"))
      [.wholeFrom 0, .wholeFrom 1]
      (((Pattern.unquoted (text "!(a@(|))b") ⟨true, false⟩).trial Locale.c (text "ab")).answers 4
        [.wholeFrom 0, .wholeFrom 1]) :=
  answers_real _ _ _ 4 _ (by decide)
    ⟨Or.inr (Or.inr noPositive_empty), Or.inl (by decide +kernel), trivial⟩

/-- The match of `b` remembered from the first question meets the complement that the
    second question did not finish. -/
theorem not_answers_real :
    ¬ ∀ (p : Pattern) (subject : Bytes) (limit : Nat) (qs : List Question),
      (∀ q ∈ qs, q.start ≤ subject.length) →
      List.Forall₂ (p.Real Locale.c subject) qs ((p.trial Locale.c subject).answers limit qs) := by
  intro h
  have hreal := h (Pattern.unquoted (text "!(a@(|))b") ⟨true, false⟩) (text "ab") 4
    [.wholeFrom 1, .wholeFrom 0] (by decide)
  have hanswers : ((Pattern.unquoted (text "!(a@(|))b") ⟨true, false⟩).trial Locale.c
      (text "ab")).answers 4 [.wholeFrom 1, .wholeFrom 0] = [.whole true, .whole true] := by
    decide +kernel
  rw [hanswers] at hreal
  obtain ⟨-, hsecond⟩ := List.forall₂_cons.mp hreal
  obtain ⟨hsecond, -⟩ := List.forall₂_cons.mp hsecond
  -- with enough budget the walk says that the pattern does not match
  have hno : (((Pattern.unquoted (text "!(a@(|))b") ⟨true, false⟩).trial Locale.c
      (text "ab")).matchesFrom 40 0).1 = false := by
    decide +kernel
  have hyes : (((Pattern.unquoted (text "!(a@(|))b") ⟨true, false⟩).trial Locale.c
      (text "ab")).matchesFrom 40 0).1 = true :=
    ((ready_trial _ Locale.c (text "ab")).matchesFrom_iff (by decide) (by decide +kernel)).mpr
      (hsecond rfl)
  rw [hno] at hyes
  cases hyes

end Trial

end

end Nsh.Patterns
