import Nsh.Patterns.Language
import Nsh.Patterns.Questions

/-!
# What a pattern matches

In a single-byte locale a pattern matches the strings of a language.  The walk reads
a run of `*` as one star and goes on behind the run; read star by star, a later `*` of
the run may open a group.  Where none does the two readings have one language.
-/

namespace Nsh.Patterns

open Computability

/-! ### The two readings -/

namespace Pattern

/-- The language of the pattern, read from left to right one item at a time. -/
def language (p : Pattern) (locale : Locale) : Language UInt8 :=
  itemsLanguage locale p.options.ignoreCase (Bracket.language locale p.options.ignoreCase)
    (p.items locale false)

/-- The language of the pattern when a bracket expression stands for one byte only. -/
def byteLanguage (p : Pattern) (locale : Locale) : Language UInt8 :=
  itemsLanguage locale p.options.ignoreCase (Bracket.byteLanguage locale p.options.ignoreCase)
    (p.items locale false)

/-- The language of the pattern, every run of `*` read as one star. -/
def runLanguage (p : Pattern) (locale : Locale) : Language UInt8 :=
  itemsLanguage locale p.options.ignoreCase (Bracket.language locale p.options.ignoreCase)
    (p.items locale true)

end Pattern

theorem Pattern.spans_iff {locale : Locale} (h : locale.SingleByte) (p : Pattern) (subject : Bytes)
    {i j : Nat} (hi : i ≤ subject.length) :
    p.Spans locale subject i j ↔ Spells subject (p.runLanguage locale) i j :=
  itemsSpan_iff (s := ⟨⟨locale, subject⟩, p.options.ignoreCase⟩) h _ i j hi

/-- **A question that ends with budget left** is answered by the language of the walk's
    reading. -/
theorem Pattern.matches_iff_runLanguage {locale : Locale} (h : locale.SingleByte) (p : Pattern)
    (subject : Bytes)
    (hlive : ((p.trial locale subject).matchesFrom extendedMatchBudget 0).2.budget.exhausted =
      false) :
    p.matches locale subject = true ↔ subject ∈ p.runLanguage locale := by
  unfold Pattern.matches
  rw [(Trial.ready_trial p locale subject).matchesFrom_iff (Nat.zero_le _) hlive,
    p.spans_iff h subject (Nat.zero_le _), spells_whole]

/-! ### Runs of stars -/

def Item.isStar : Item → Bool
  | .star => true
  | _ => false

mutual

/-- No `*` that follows a `*` opens a group, here and in every alternative; `afterStar`
    says whether a `*` stands just before. -/
def Item.starsApart (afterStar : Bool) : Item → Bool
  | .group kind alternatives =>
    !(afterStar && kind == chr '*') && alternativesStarsApart alternatives
  | _ => true

def itemsStarsApart (afterStar : Bool) : List Item → Bool
  | [] => true
  | item :: items => item.starsApart afterStar && itemsStarsApart item.isStar items

def alternativesStarsApart : List (List Item) → Bool
  | [] => true
  | items :: alternatives => itemsStarsApart false items && alternativesStarsApart alternatives

end

theorem alternativesStarsApart_iff {alternatives : List (List Item)} :
    alternativesStarsApart alternatives = true ↔
      ∀ items ∈ alternatives, itemsStarsApart false items = true := by
  induction alternatives with
  | nil => simp [alternativesStarsApart]
  | cons items alternatives ih => simp [alternativesStarsApart, ih]

theorem alternativesLanguage_congr {locale : Locale} {ignoreCase : Bool}
    {brackets : Bracket → Language UInt8} {ranges : List (Nat × Nat)}
    {f g : Nat × Nat → List Item}
    (h : ∀ range ∈ ranges, itemsLanguage locale ignoreCase brackets (f range) =
      itemsLanguage locale ignoreCase brackets (g range)) :
    alternativesLanguage locale ignoreCase brackets (ranges.map f) =
      alternativesLanguage locale ignoreCase brackets (ranges.map g) := by
  induction ranges with
  | nil => rfl
  | cons range ranges ih =>
    rw [List.map_cons, List.map_cons, alternativesLanguage, alternativesLanguage,
      h range List.mem_cons_self, ih fun range' hmem => h range' (List.mem_cons_of_mem range hmem)]

theorem top_mul_top : (⊤ : Language UInt8) * ⊤ = ⊤ := by
  ext word
  constructor
  · intro _
    trivial
  · intro _
    exact Language.mem_mul.mpr ⟨[], trivial, word, trivial, rfl⟩

theorem Pattern.starRunEnd_succ {p : Pattern} {offset : Nat}
    (h : p.active offset (chr '*') = true) :
    p.starRunEnd offset = if p.active (offset + 1) (chr '*') then p.starRunEnd (offset + 1)
      else offset + 1 := by
  have hlt := lt_of_active h
  have hmark : p.marks[offset]? = some ⟨chr '*', false⟩ := by simpa [active] using h
  have hget : p.marks[offset] = ⟨chr '*', false⟩ := (List.getElem?_eq_some_iff.mp hmark).2
  have hrun : p.starRunEnd offset = p.starRunEnd (offset + 1) := by
    unfold starRunEnd
    rw [List.drop_eq_getElem_cons hlt, hget]
    simp
    omega
  split
  · exact hrun
  · next hnot =>
    rw [hrun]
    unfold starRunEnd
    have hhead : ((p.marks.drop (offset + 1)).takeWhile (· == ⟨chr '*', false⟩)).length = 0 := by
      cases hdrop : p.marks.drop (offset + 1) with
      | nil => rfl
      | cons mark rest =>
        have hfirst : p.marks[offset + 1]? = some mark := by
          rw [← List.head?_drop, hdrop]
          rfl
        have hmark : (mark == (⟨chr '*', false⟩ : Mark)) = false := by
          rw [active, hfirst] at hnot
          simpa using hnot
        rw [List.takeWhile_cons, hmark]
        rfl
    rw [hhead, Nat.add_zero]

/-- A group that begins with an unquoted `*` is a `*(…)`. -/
theorem Pattern.kind_of_active {p : Pattern} {offset : Nat} {group : ExtendedGroup} {byte : UInt8}
    (h : p.extendedGroup offset = some group) (hactive : p.active offset byte = true) :
    group.kind = byte := by
  have hmark : p.marks[offset]? = some ⟨byte, false⟩ := by simpa [active] using hactive
  unfold extendedGroup at h
  rw [hmark] at h
  split at h
  · cases h
  · simp only at h
    split at h
    · cases h
    · obtain ⟨read, -, rfl⟩ := Option.map_eq_some_iff.mp h
      rfl

/-- Read as runs or star by star, the language is the same where no later star of a run
    opens a group. -/
theorem itemsLanguage_collapse {locale : Locale} {ignoreCase : Bool}
    {brackets : Bracket → Language UInt8} (m : Matcher) (offset : Nat) (afterStar : Bool)
    (h : itemsStarsApart afterStar (m.items false offset) = true) :
    itemsLanguage locale ignoreCase brackets (m.items true offset) =
      itemsLanguage locale ignoreCase brackets (m.items false offset) := by
  obtain ⟨left, hleft⟩ : ∃ left, m.pattern.length - offset ≤ left := ⟨_, le_refl _⟩
  induction left generalizing m offset afterStar with
  | zero =>
    have hend : m.pattern.length ≤ offset := by omega
    rw [Matcher.items_end true hend, Matcher.items_end false hend]
  | succ left ih =>
    by_cases hend : m.pattern.length ≤ offset
    · rw [Matcher.items_end true hend, Matcher.items_end false hend]
    have hlt := Nat.not_le.mp hend
    have onward {next : Nat} {afterStar : Bool} (hnext : offset < next)
        (h : itemsStarsApart afterStar (m.items false next) = true) :
        itemsLanguage locale ignoreCase brackets (m.items true next) =
          itemsLanguage locale ignoreCase brackets (m.items false next) :=
      ih m next afterStar h (by omega)
    rcases m.read_cases offset with
      ⟨group, hgroup⟩ | ⟨hgroup, hstar | ⟨hstar, hone | ⟨hone, hread⟩⟩⟩
    · have hwithin := Pattern.extendedGroup_within hgroup
      rw [Matcher.items_group hgroup, itemsStarsApart, Item.starsApart, Bool.and_eq_true,
        Bool.and_eq_true, alternativesStarsApart_iff] at h
      have halternatives : ∀ range ∈ group.alternatives,
          itemsLanguage locale ignoreCase brackets ((m.alternative range).items true 0) =
            itemsLanguage locale ignoreCase brackets ((m.alternative range).items false 0) := by
        intro range hrange
        have := m.alternative_length_lt (hwithin.alternatives range hrange) hlt
        exact ih _ 0 false (h.1.2 _ (List.mem_map_of_mem hrange)) (by omega)
      rw [Matcher.items_group hgroup, Matcher.items_group hgroup, itemsLanguage, itemsLanguage,
        Item.language, Item.language, alternativesLanguage_congr halternatives,
        onward hwithin.lt_next h.2]
    · rw [Matcher.items_star hgroup hstar] at h
      simp only [Bool.false_eq_true, if_false, itemsStarsApart, Item.starsApart, Item.isStar,
        Bool.true_and] at h
      rw [Matcher.items_star hgroup hstar, Matcher.items_star hgroup hstar]
      simp only [Bool.false_eq_true, if_false, if_true]
      rw [itemsLanguage, itemsLanguage, Item.language, ← onward (Nat.lt_succ_self offset) h,
        Pattern.starRunEnd_succ hstar]
      split
      · next hmore =>
        -- the next star opens no group, so it is read as a star of the run
        have hnone : m.pattern.extendedGroup (offset + 1) = none := by
          cases hgroup' : m.pattern.extendedGroup (offset + 1) with
          | none => rfl
          | some group =>
            rw [Matcher.items_group hgroup', itemsStarsApart, Item.starsApart,
              Pattern.kind_of_active hgroup' hmore] at h
            simp at h
        rw [Matcher.items_star hnone hmore]
        simp only [if_true]
        rw [itemsLanguage, Item.language, ← mul_assoc, top_mul_top]
      · rfl
    · rw [Matcher.items_one hgroup hstar hone, itemsStarsApart, Bool.and_eq_true] at h
      rw [Matcher.items_one hgroup hstar hone, Matcher.items_one hgroup hstar hone, itemsLanguage,
        itemsLanguage, onward (Nat.lt_succ_self offset) h.2]
    · rcases hread with ⟨⟨expression, next⟩, hread⟩ | hread
      · rw [Matcher.items_bracket hgroup hstar hone hread, itemsStarsApart, Bool.and_eq_true] at h
        rw [Matcher.items_bracket hgroup hstar hone hread,
          Matcher.items_bracket hgroup hstar hone hread, itemsLanguage, itemsLanguage,
          onward (Matcher.bracketAt_within hread).1 h.2]
      · rw [Matcher.items_literal hlt hgroup hstar hone hread, itemsStarsApart,
          Bool.and_eq_true] at h
        rw [Matcher.items_literal hlt hgroup hstar hone hread,
          Matcher.items_literal hlt hgroup hstar hone hread, itemsLanguage, itemsLanguage,
          onward (m.lt_patternEnd hlt) h.2]

/-- Without extended groups there is nothing a star could open. -/
theorem itemsStarsApart_plain (m : Matcher) (hplain : m.pattern.options.extended = false)
    (offset : Nat) (afterStar : Bool) :
    itemsStarsApart afterStar (m.items false offset) = true := by
  have hnone (offset : Nat) : m.pattern.extendedGroup offset = none := by
    unfold Pattern.extendedGroup
    rw [hplain]
    rfl
  obtain ⟨left, hleft⟩ : ∃ left, m.pattern.length - offset ≤ left := ⟨_, le_refl _⟩
  induction left generalizing offset afterStar with
  | zero =>
    rw [Matcher.items_end false (by omega), itemsStarsApart]
  | succ left ih =>
    by_cases hend : m.pattern.length ≤ offset
    · rw [Matcher.items_end false hend, itemsStarsApart]
    have hlt := Nat.not_le.mp hend
    rcases m.read_cases offset with
      ⟨group, hgroup⟩ | ⟨hgroup, hstar | ⟨hstar, hone | ⟨hone, hread⟩⟩⟩
    · rw [hnone offset] at hgroup
      cases hgroup
    · rw [Matcher.items_star hgroup hstar, itemsStarsApart, Bool.and_eq_true]
      exact ⟨rfl, ih _ true (by simp only [Bool.false_eq_true, if_false]; omega)⟩
    · rw [Matcher.items_one hgroup hstar hone, itemsStarsApart, Bool.and_eq_true]
      exact ⟨rfl, ih _ false (by omega)⟩
    · rcases hread with ⟨⟨expression, next⟩, hread⟩ | hread
      · have := (Matcher.bracketAt_within hread).1
        rw [Matcher.items_bracket hgroup hstar hone hread, itemsStarsApart, Bool.and_eq_true]
        exact ⟨rfl, ih _ false (by omega)⟩
      · have := m.lt_patternEnd hlt
        rw [Matcher.items_literal hlt hgroup hstar hone hread, itemsStarsApart, Bool.and_eq_true]
        exact ⟨rfl, ih _ false (by omega)⟩

/-! ### Patterns without groups -/

/-- A pattern without extended groups never pays its budget off. -/
def Step.Unlimited (step : Step) (m : Matcher) : Prop :=
  ∀ patternAt subjectAt aside (w : Walk), w.budget = .unlimited →
    (step m patternAt subjectAt aside w).2.budget = .unlimited

namespace Matcher

variable {step : Step} {m : Matcher}

theorem reachFromWith_unlimited (hstep : step.Unlimited m) (patternAt subjectAt : Nat) (w : Walk)
    (hw : w.budget = .unlimited) :
    (reachFromWith step m patternAt subjectAt w).2.budget = .unlimited := by
  unfold reachFromWith
  split
  · exact hw
  · split
    · exact hw
    · exact hstep patternAt subjectAt none w.spend (by simp [Walk.spend, hw, Budget.spend])

theorem bestReach_unlimited (hstep : step.Unlimited m) (next : Nat) (offsets : List Nat)
    (best : Option Nat) (w : Walk) (hw : w.budget = .unlimited) :
    (bestReach step m next offsets best w).2.budget = .unlimited := by
  induction offsets generalizing best w with
  | nil => exact hw
  | cons offset offsets ih =>
    have hone := reachFromWith_unlimited hstep next offset w hw
    unfold bestReach
    simp only
    split
    · exact hone
    · exact ih _ _ hone

theorem reachStar_unlimited (hstep : step.Unlimited m) (starAt after : Nat) (candidates : List Nat)
    (w : Walk) (hw : w.budget = .unlimited) :
    (reachStar step m starAt after candidates w).2.budget = .unlimited := by
  induction candidates generalizing w with
  | nil => exact hw
  | cons candidate candidates ih =>
    have hone := reachFromWith_unlimited hstep after candidate w hw
    have hrest := ih _ hone
    unfold reachStar
    split
    · exact hw
    · simp only
      split
      · exact hone
      · split
        · exact hrest
        · exact hrest

theorem ranOut_budget (m : Matcher) (subjectAt : Nat) (w : Walk) :
    (m.ranOut subjectAt w).2.budget = w.budget := by
  unfold ranOut Walk.record
  split
  · rfl
  · rfl
  · simp only
    split <;> rfl

end Matcher

theorem Pattern.extendedGroup_plain {p : Pattern} (hplain : p.options.extended = false)
    (offset : Nat) : p.extendedGroup offset = none := by
  unfold extendedGroup
  rw [hplain]
  rfl

theorem reachUncached_unlimited {m : Matcher} (hplain : m.pattern.options.extended = false)
    (fuel : Nat) : (reachUncached fuel).Unlimited m := by
  induction fuel with
  | zero =>
    intro patternAt subjectAt aside w hw
    exact hw
  | succ fuel ih =>
    intro patternAt subjectAt aside w hw
    unfold reachUncached
    rw [Pattern.extendedGroup_plain hplain]
    simp only
    split
    · rw [Matcher.withAside, Matcher.ranOut_budget]
      exact hw
    split
    · split
      · exact hw
      · exact Matcher.reachStar_unlimited ih patternAt _ _ w hw
    split
    · split
      · exact hw
      · exact ih _ _ aside w hw
    split
    · exact hw
    · next next first others hread =>
      have hothers := Matcher.bestReach_unlimited ih next (others.map (subjectAt + ·)) aside w hw
      split
      · exact hothers
      · exact ih _ _ _ _ hothers
    · split
      · exact hw
      · split
        · exact ih _ _ aside w hw
        · exact hw

theorem Trial.matchesFrom_unlimited {p : Pattern} (hplain : p.options.extended = false)
    (locale : Locale) (subject : Bytes) (limit start : Nat) :
    ((p.trial locale subject).matchesFrom limit start).2.budget.exhausted = false := by
  have hbudget : p.budget limit = .unlimited := by
    unfold Pattern.budget
    rw [hplain]
    rfl
  have hstep : (reachUncached (p.length + 1)).Unlimited ((p.trial locale subject).matcher .whole) :=
    reachUncached_unlimited hplain _
  have hlast : ((p.trial locale subject).matchesFrom limit start).2.budget = .unlimited :=
    Matcher.reachFromWith_unlimited hstep 0 start ⟨Memo.empty, p.budget limit, []⟩ hbudget
  rw [hlast]
  rfl

/-- **Matching without extended groups is the shell-pattern relation.** -/
theorem Pattern.matches_plain {locale : Locale} (h : locale.SingleByte) (p : Pattern)
    (hplain : p.options.extended = false) (subject : Bytes) :
    p.matches locale subject = true ↔ subject ∈ p.language locale := by
  rw [p.matches_iff_runLanguage h subject (Trial.matchesFrom_unlimited hplain locale subject _ 0)]
  have hstars : itemsStarsApart false (p.items locale false) = true :=
    itemsStarsApart_plain _ hplain 0 false
  unfold runLanguage language Pattern.items at *
  rw [itemsLanguage_collapse _ 0 false hstars]

/-- A list with a class is read on any byte of the class, a star on anything. -/
theorem Pattern.matches_plain_class :
    (Pattern.unquoted (text "*[[:digit:]]") ⟨false, false⟩).matches Locale.c (text "a7") = true ↔
      text "a7" ∈ (Pattern.unquoted (text "*[[:digit:]]") ⟨false, false⟩).language Locale.c :=
  Pattern.matches_plain Locale.c_singleByte _ rfl _

/-- An equivalence class of two bytes takes two. -/
theorem Pattern.not_matches_oneByte :
    ¬ ∀ (p : Pattern) (subject : Bytes), p.options.extended = false →
      (p.matches Locale.c subject = true ↔ subject ∈ p.byteLanguage Locale.c) := by
  intro h
  have hmatches : (Pattern.unquoted (text "[[=ab=]]") ⟨false, false⟩).matches Locale.c (text "a]") =
      true := by
    decide +kernel
  have hmem := (h _ _ rfl).mp hmatches
  have hitems : (Pattern.unquoted (text "[[=ab=]]") ⟨false, false⟩).items Locale.c false =
      [.bracket ⟨false, [.collating (chr '=') (text "ab")]⟩] := by
    rfl
  unfold byteLanguage at hmem
  rw [hitems, itemsLanguage, itemsLanguage, mul_one, Item.language] at hmem
  obtain ⟨byte, hbyte, -⟩ := hmem
  have hlength := congrArg List.length hbyte
  cases hlength

/-! ### Patterns with groups -/

/-- **Extended matching, with budget left**, is the language of the pattern where no `*`
    behind a `*` opens a group, and everywhere exactly for the subjects that are on one
    side of both readings. -/
theorem Pattern.matches_extended {locale : Locale} (h : locale.SingleByte) (p : Pattern)
    (subject : Bytes)
    (hlive : ((p.trial locale subject).matchesFrom extendedMatchBudget 0).2.budget.exhausted =
      false) :
    (itemsStarsApart false (p.items locale false) = true →
      (p.matches locale subject = true ↔ subject ∈ p.language locale)) ∧
    ((p.matches locale subject = true ↔ subject ∈ p.language locale) ↔
      (subject ∈ p.runLanguage locale ↔ subject ∈ p.language locale)) := by
  have hrun := p.matches_iff_runLanguage h subject hlive
  constructor
  · intro hstars
    rw [hrun]
    unfold runLanguage language Pattern.items at *
    rw [itemsLanguage_collapse _ 0 false hstars]
  · rw [hrun]

theorem Pattern.matches_extended_alternatives :
    ((Pattern.unquoted (text "@(a|b)*") ⟨true, false⟩).matches Locale.c (text "ba") = true ↔
      text "ba" ∈ (Pattern.unquoted (text "@(a|b)*") ⟨true, false⟩).language Locale.c) :=
  (Pattern.matches_extended Locale.c_singleByte _ _ (by decide +kernel)).1 (by decide +kernel)

/-- `**(a)` is `*` and any number of `a`, so it matches the empty string; the walk goes
    on behind both stars and looks for `(a)`. -/
theorem Pattern.not_matches_starsTogether :
    ¬ ∀ (p : Pattern) (subject : Bytes), p.options.extended = true →
      ((p.trial Locale.c subject).matchesFrom extendedMatchBudget 0).2.budget.exhausted = false →
      (p.matches Locale.c subject = true ↔ subject ∈ p.language Locale.c) := by
  intro h
  have hmatches : (Pattern.unquoted (text "**(a)") ⟨true, false⟩).matches Locale.c [] = false := by
    decide +kernel
  have hitems : (Pattern.unquoted (text "**(a)") ⟨true, false⟩).items Locale.c false =
      [.star, .group (chr '*') [[.literal (text "a")]]] := by
    rfl
  have hiff := h (Pattern.unquoted (text "**(a)") ⟨true, false⟩) [] rfl (by decide +kernel)
  rw [hmatches] at hiff
  have hmem : [] ∈ (Pattern.unquoted (text "**(a)") ⟨true, false⟩).language Locale.c := by
    unfold language
    rw [hitems, itemsLanguage, itemsLanguage, itemsLanguage, mul_one, Item.language, Item.language]
    exact Language.mem_mul.mpr ⟨[], trivial, [], Language.nil_mem_kstar _, rfl⟩
  exact Bool.false_ne_true (hiff.mpr hmem)

end Nsh.Patterns
