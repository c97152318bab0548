import Nsh.Expand.Pathname
import Nsh.Expand.Trim

/-!
# `${name/pattern/replacement}`

An unanchored substitution asks one trial for the furthest end from one offset after the
other.  What it writes is described by a relation that reads the text from left to right:
at each offset the longest match that is not empty is replaced, and where there is none
a character is copied.
-/

namespace Nsh.Expand

open Nsh.Patterns

/-! ### The replacement -/

/-- A replacement word, cut at every `&` that stands for the match: one more run than there
    are references. -/
structure Replacement where
  runs : List Bytes
deriving DecidableEq, Repr

namespace Replacement

/-- The bytes of the field with their quotedness. -/
def marksOf (field : Field) : List Mark :=
  field.bytes.zipIdx.map fun entry => ⟨entry.1, field.quotedAt entry.2⟩

/-- The loop of `Replacement::read`, `run` being what the last run holds so far. -/
def readFrom : List Mark → Bytes → List Bytes
  | [], run => [run]
  | [mark], run => if mark = ⟨chr '&', false⟩ then [run, []] else [run ++ [mark.byte]]
  | mark :: next :: rest, run =>
    if mark = ⟨chr '\\', false⟩ ∧ (next = ⟨chr '&', false⟩ ∨ next = ⟨chr '\\', false⟩) then
      readFrom rest (run ++ [next.byte])
    else if mark = ⟨chr '&', false⟩ then run :: readFrom (next :: rest) []
    else readFrom (next :: rest) (run ++ [mark.byte])

def read (field : Field) : Replacement := ⟨readFrom (marksOf field) []⟩

def write (replacement : Replacement) (matched : Bytes) : Bytes :=
  List.intercalate matched replacement.runs

end Replacement

/-! ### The loop -/

/-- What the pattern opens with (`anchor_of`). -/
inductive Anchor where
  | none
  | start
  | stop
deriving DecidableEq, Repr

def anchorOf (pattern : Field) : Anchor :=
  if pattern.quotedAt 0 then .none
  else if pattern.bytes.head? = some (chr '#') then .start
  else if pattern.bytes.head? = some (chr '%') then .stop
  else .none

/-- What one turn of the loop of `replace` writes and where the next begins. -/
structure Turn where
  written : Bytes
  next : Nat
  replaced : Bool
  trial : Trial

/-- One turn: the match at the offset is replaced, if it is looked for and is not empty, and
    otherwise a character is copied. -/
def turn (limit : Nat) (c : Nsh.Characters) (replacement : Replacement) (all : Bool) (t : Trial)
    (offset : Nat) (replaced : Bool) : Turn :=
  let seeks := !replaced || all
  let found := if seeks then (t.furthestEnd limit offset).1 else none
  let t := if seeks then (t.furthestEnd limit offset).2 else t
  let copied : Turn :=
    ⟨c.bytes.extract offset (c.endAt offset), c.endAt offset, replaced, t⟩
  match found with
  | some stop =>
    if offset < stop then ⟨replacement.write (c.bytes.extract offset stop), stop, true, t⟩
    else copied
  | none => copied

/-- The loop of `replace` from an offset on; `replaced` says whether a match has been
    written.  Every turn takes the offset on, so the fuel is never used up. -/
def replaceFrom (limit : Nat) (c : Nsh.Characters) (replacement : Replacement) (all : Bool)
    (anchor : Anchor) : Nat → Trial → Nat → Bool → Bytes
  | 0, _, offset, _ => c.bytes.drop offset
  | fuel + 1, t, offset, replaced =>
    if c.bytes.length ≤ offset then []
    else
      let turn := turn limit c replacement all t offset replaced
      if anchor = .start ∧ all = false then turn.written ++ c.bytes.drop turn.next
      else
        turn.written ++
          replaceFrom limit c replacement all anchor fuel turn.trial turn.next turn.replaced

def replace (locale : Locale) (value : Bytes) (p : Pattern) (limit : Nat)
    (replacement : Replacement) (all : Bool) (anchor : Anchor) : Bytes :=
  let c : Nsh.Characters := ⟨locale, value⟩
  if anchor = .stop then
    match findMatch limit (p.trial locale value) c.boundaries with
    | some start => value.take start ++ replacement.write (value.drop start)
    | none => value
  else replaceFrom limit c replacement all anchor value.length (p.trial locale value) 0 false

/-- `substitute` on one value, the pattern and the replacement being expanded; a pattern
    without bytes writes the replacement where its anchor stands. -/
def substitute (locale : Locale) (value : Bytes) (options : PatternOptions) (limit : Nat)
    (expanded replacement : Field) (all : Bool) : Bytes :=
  let anchor := if all then .none else anchorOf expanded
  let p := (if anchor = .none then expanded
    else expanded.slice 1 expanded.bytes.length).pattern options
  let replacement := Replacement.read replacement
  if p.bytes = [] then
    match anchor with
    | .none => value
    | .start => replacement.write [] ++ value
    | .stop => value ++ replacement.write []
  else replace locale value p limit replacement all anchor

/-! ### Templates -/

/-- One place of a replacement template. -/
inductive TemplatePart where
  | byte (b : UInt8)
  /-- An `&`, which stands for the match. -/
  | matched
deriving DecidableEq, Repr

/-- The template an expanded replacement spells: `&` stands for the match unless it is
    quoted, and a backslash that is not quoted takes the meaning from a `&` or a backslash
    behind it. -/
def template : List Mark → List TemplatePart
  | [] => []
  | [mark] => [if mark = ⟨chr '&', false⟩ then .matched else .byte mark.byte]
  | mark :: next :: rest =>
    if mark = ⟨chr '\\', false⟩ ∧ (next = ⟨chr '&', false⟩ ∨ next = ⟨chr '\\', false⟩) then
      .byte next.byte :: template rest
    else if mark = ⟨chr '&', false⟩ then .matched :: template (next :: rest)
    else .byte mark.byte :: template (next :: rest)

/-- The template written out for a match. -/
def fill (parts : List TemplatePart) (matched : Bytes) : Bytes :=
  parts.flatMap fun
    | .byte b => [b]
    | .matched => matched

theorem Replacement.readFrom_ne_nil : ∀ (marks : List Mark) (run : Bytes),
    Replacement.readFrom marks run ≠ []
  | [], run => by simp [readFrom]
  | [mark], run => by
    rw [readFrom]
    split
    · simp
    · simp
  | mark :: next :: rest, run => by
    rw [readFrom]
    split
    · exact readFrom_ne_nil rest _
    · split
      · simp
      · exact readFrom_ne_nil (next :: rest) _

/-- Joining the runs with the match is writing the template out. -/
theorem Replacement.intercalate_readFrom (matched : Bytes) : ∀ (marks : List Mark) (run : Bytes),
    List.intercalate matched (Replacement.readFrom marks run) =
      run ++ fill (template marks) matched
  | [], run => by simp [readFrom, template, fill]
  | [mark], run => by
    rw [readFrom, template]
    split
    · simp [fill, List.intercalate_cons_cons]
    · simp [fill]
  | mark :: next :: rest, run => by
    rw [readFrom, template]
    split
    · rw [intercalate_readFrom matched rest]
      simp [fill]
    · split
      · rw [List.intercalate_cons_of_ne_nil (readFrom_ne_nil _ _),
          intercalate_readFrom matched (next :: rest)]
        simp [fill]
      · rw [intercalate_readFrom matched (next :: rest)]
        simp [fill]

theorem Replacement.write_read (field : Field) (matched : Bytes) :
    (Replacement.read field).write matched = fill (template (marksOf field)) matched :=
  (intercalate_readFrom matched (marksOf field) []).trans (List.nil_append _)

/-! ### What a substitution writes -/

/-- The ends of the matches from the offset that are not empty and end on a boundary. -/
def matchEnds (p : Pattern) (locale : Locale) (value : Bytes) (offset : Nat) : Set Nat :=
  {stop | p.Spans locale value offset stop ∧ stop ∈ (Nsh.Characters.mk locale value).boundaries ∧
    offset < stop}

/-- The value from an offset on, read from left to right: the longest match is written out by
    `out` and reading goes on behind it, or ends with the first match where not `all` are
    replaced; where nothing matches a character is copied. -/
inductive Rewritten (p : Pattern) (locale : Locale) (value : Bytes) (out : Bytes → Bytes)
    (all : Bool) : Nat → Bytes → Prop where
  | done {offset : Nat} (hend : value.length ≤ offset) : Rewritten p locale value out all offset []
  | every {offset stop : Nat} {rest : Bytes} (hall : all = true)
      (hlongest : IsGreatest (matchEnds p locale value offset) stop)
      (hrest : Rewritten p locale value out all stop rest) :
      Rewritten p locale value out all offset (out (value.extract offset stop) ++ rest)
  | first {offset stop : Nat} (hall : all = false)
      (hlongest : IsGreatest (matchEnds p locale value offset) stop) :
      Rewritten p locale value out all offset
        (out (value.extract offset stop) ++ value.drop stop)
  | copy {offset : Nat} {rest : Bytes} (hlt : offset < value.length)
      (hnone : matchEnds p locale value offset = ∅)
      (hrest : Rewritten p locale value out all ((Nsh.Characters.mk locale value).endAt offset)
        rest) :
      Rewritten p locale value out all offset
        (value.extract offset ((Nsh.Characters.mk locale value).endAt offset) ++ rest)

/-- Every question the loop asks ends with budget left. -/
def ReplacesWithin (limit : Nat) (c : Nsh.Characters) (replacement : Replacement) (all : Bool) :
    Nat → Trial → Nat → Bool → Prop
  | 0, _, _, _ => True
  | fuel + 1, t, offset, replaced =>
    c.bytes.length ≤ offset ∨
      (((!replaced || all) = true → (t.furthestEnd limit offset).2.budget.exhausted = false) ∧
        ReplacesWithin limit c replacement all fuel
          (turn limit c replacement all t offset replaced).trial
          (turn limit c replacement all t offset replaced).next
          (turn limit c replacement all t offset replaced).replaced)

instance decidableReplacesWithin (limit : Nat) (c : Nsh.Characters) (replacement : Replacement)
    (all : Bool) : (fuel : Nat) → (t : Trial) → (offset : Nat) → (replaced : Bool) →
      Decidable (ReplacesWithin limit c replacement all fuel t offset replaced)
  | 0, _, _, _ => isTrue trivial
  | fuel + 1, t, offset, replaced =>
    have := decidableReplacesWithin limit c replacement all fuel
      (turn limit c replacement all t offset replaced).trial
      (turn limit c replacement all t offset replaced).next
      (turn limit c replacement all t offset replaced).replaced
    inferInstanceAs (Decidable (_ ∨ (_ ∧ _)))

section

variable {p : Pattern} {locale : Locale} {value : Bytes} {t : Trial} {limit offset : Nat}
variable {out : Bytes → Bytes} {replacement : Replacement} {all replaced : Bool}

theorem matchEnds_bounds {stop : Nat} (h : stop ∈ matchEnds p locale value offset) :
    offset < stop ∧ stop ≤ value.length :=
  ⟨h.2.2, (Nsh.Characters.mk locale value).le_of_mem_boundaries h.2.1⟩

/-- The text reads in one way only. -/
theorem Rewritten.unique {result : Bytes} (h : Rewritten p locale value out all offset result) :
    ∀ {other}, Rewritten p locale value out all offset other → result = other := by
  induction h with
  | done hend =>
    intro other hother
    cases hother with
    | done _ => rfl
    | every _ hlongest _ =>
      have := matchEnds_bounds hlongest.1
      omega
    | first _ hlongest =>
      have := matchEnds_bounds hlongest.1
      omega
    | copy hlt _ _ => omega
  | every hall hlongest hrest ih =>
    intro other hother
    cases hother with
    | done hend =>
      have := matchEnds_bounds hlongest.1
      omega
    | every _ hlongest' hrest' =>
      obtain rfl := hlongest.unique hlongest'
      rw [ih hrest']
    | first hall' _ =>
      rw [hall] at hall'
      cases hall'
    | copy _ hnone _ =>
      rw [hnone] at hlongest
      exact absurd hlongest.1 (Set.notMem_empty _)
  | first hall hlongest =>
    intro other hother
    cases hother with
    | done hend =>
      have := matchEnds_bounds hlongest.1
      omega
    | every hall' _ _ =>
      rw [hall] at hall'
      cases hall'
    | first _ hlongest' =>
      obtain rfl := hlongest.unique hlongest'
      rfl
    | copy _ hnone _ =>
      rw [hnone] at hlongest
      exact absurd hlongest.1 (Set.notMem_empty _)
  | copy hlt hnone hrest ih =>
    intro other hother
    cases hother with
    | done hend => omega
    | every _ hlongest _ =>
      rw [hnone] at hlongest
      exact absurd hlongest.1 (Set.notMem_empty _)
    | first _ hlongest =>
      rw [hnone] at hlongest
      exact absurd hlongest.1 (Set.notMem_empty _)
    | copy _ _ hrest' => rw [ih hrest']

theorem extract_append_drop {start stop : Nat} (h : start ≤ stop) :
    value.extract start stop ++ value.drop stop = value.drop start := by
  rw [List.extract_eq_take_drop, ← Nat.add_sub_cancel' h, ← List.drop_drop,
    Nat.add_sub_cancel_left, List.take_append_drop]

/-- Writing every match out as itself writes the text. -/
theorem Rewritten.identity {result : Bytes} (h : Rewritten p locale value out all offset result)
    (hout : ∀ matched, out matched = matched) : result = value.drop offset := by
  induction h with
  | done hend => exact (List.drop_eq_nil_of_le hend).symm
  | every _ hlongest _ ih =>
    rw [hout, ih, extract_append_drop (Nat.le_of_lt (matchEnds_bounds hlongest.1).1)]
  | first _ hlongest =>
    rw [hout, extract_append_drop (Nat.le_of_lt (matchEnds_bounds hlongest.1).1)]
  | copy hlt _ _ ih => rw [ih, extract_append_drop ((Nsh.Characters.mk locale value).le_endAt _)]

/-! ### One turn -/

/-- What a turn does that looks for a match. -/
theorem turn_seeks (hready : t.Ready p locale value) (hle : offset ≤ value.length)
    (hseeks : (!replaced || all) = true)
    (hlive : (t.furthestEnd limit offset).2.budget.exhausted = false) :
    (turn limit ⟨locale, value⟩ replacement all t offset replaced).trial.Ready p locale value ∧
      ((∃ stop, IsGreatest (matchEnds p locale value offset) stop ∧
          turn limit ⟨locale, value⟩ replacement all t offset replaced =
            ⟨replacement.write (value.extract offset stop), stop, true,
              (t.furthestEnd limit offset).2⟩) ∨
        (matchEnds p locale value offset = ∅ ∧
          turn limit ⟨locale, value⟩ replacement all t offset replaced =
            ⟨value.extract offset ((Nsh.Characters.mk locale value).endAt offset),
              (Nsh.Characters.mk locale value).endAt offset, replaced,
              (t.furthestEnd limit offset).2⟩)) := by
  have hbest := hready.furthestEnd_best hle hlive
  have htrial : (t.furthestEnd limit offset).2.Ready p locale value := hready.furthestEnd hle
  cases hfound : (t.furthestEnd limit offset).1 with
  | none =>
    have hturn : turn limit ⟨locale, value⟩ replacement all t offset replaced =
        ⟨value.extract offset ((Nsh.Characters.mk locale value).endAt offset),
          (Nsh.Characters.mk locale value).endAt offset, replaced,
          (t.furthestEnd limit offset).2⟩ := by
      simp [turn, hseeks, hfound]
    rw [hfound, best_none] at hbest
    refine ⟨by rw [hturn]; exact htrial, Or.inr ⟨?_, hturn⟩⟩
    refine Set.eq_empty_iff_forall_notMem.mpr fun stop hstop => ?_
    have hmem : stop ∈ ({j | p.Spans locale value offset j ∧
        j ∈ (Nsh.Characters.mk locale value).boundaries} : Set Nat) := ⟨hstop.1, hstop.2.1⟩
    rw [hbest] at hmem
    exact hmem
  | some stop =>
    rw [hfound, best_some] at hbest
    by_cases hlt : offset < stop
    · have hturn : turn limit ⟨locale, value⟩ replacement all t offset replaced =
          ⟨replacement.write (value.extract offset stop), stop, true,
            (t.furthestEnd limit offset).2⟩ := by
        simp [turn, hseeks, hfound, hlt]
      refine ⟨by rw [hturn]; exact htrial,
        Or.inl ⟨stop, ⟨⟨hbest.1.1, hbest.1.2, hlt⟩, ?_⟩, hturn⟩⟩
      intro other hother
      exact hbest.2 ⟨hother.1, hother.2.1⟩
    · have hturn : turn limit ⟨locale, value⟩ replacement all t offset replaced =
          ⟨value.extract offset ((Nsh.Characters.mk locale value).endAt offset),
          (Nsh.Characters.mk locale value).endAt offset, replaced,
          (t.furthestEnd limit offset).2⟩ := by
        simp [turn, hseeks, hfound, hlt]
      refine ⟨by rw [hturn]; exact htrial, Or.inr ⟨?_, hturn⟩⟩
      refine Set.eq_empty_iff_forall_notMem.mpr fun other hother => ?_
      have hle := hbest.2 (show other ∈ _ from ⟨hother.1, hother.2.1⟩)
      have := hother.2.2
      omega

/-- What a turn does behind the first match, when only that is replaced. -/
theorem turn_copies (hseeks : (!replaced || all) = false) :
    turn limit ⟨locale, value⟩ replacement all t offset replaced =
      ⟨value.extract offset ((Nsh.Characters.mk locale value).endAt offset),
        (Nsh.Characters.mk locale value).endAt offset, replaced, t⟩ := by
  simp [turn, hseeks]

/-! ### The loop -/

/-- Behind the first match the rest is copied, when only that is replaced. -/
theorem replaceFrom_copies (fuel : Nat) (hseeks : (!replaced || all) = false) :
    ∀ offset, replaceFrom limit ⟨locale, value⟩ replacement all .none fuel t offset replaced =
      value.drop offset := by
  induction fuel with
  | zero =>
    intro offset
    rfl
  | succ fuel ih =>
    intro offset
    rw [replaceFrom]
    split
    · next hend => exact (List.drop_eq_nil_of_le hend).symm
    · rw [if_neg (by simp), turn_copies hseeks, ih,
        extract_append_drop ((Nsh.Characters.mk locale value).le_endAt offset)]

/-- The loop writes what the text reads to. -/
theorem replaceFrom_rewritten (fuel : Nat) : ∀ {t : Trial} {offset : Nat} {replaced : Bool},
    t.Ready p locale value → offset ≤ value.length → value.length - offset ≤ fuel →
    (!replaced || all) = true →
    ReplacesWithin limit ⟨locale, value⟩ replacement all fuel t offset replaced →
    Rewritten p locale value replacement.write all offset
      (replaceFrom limit ⟨locale, value⟩ replacement all .none fuel t offset replaced) := by
  induction fuel with
  | zero =>
    intro t offset replaced _ hle hfuel _ _
    have hend : value.length ≤ offset := by omega
    rw [replaceFrom, List.drop_eq_nil_of_le hend]
    exact .done hend
  | succ fuel ih =>
    intro t offset replaced hready hle hfuel hseeks hlive
    rw [replaceFrom]
    by_cases hend : value.length ≤ offset
    · rw [if_pos hend]
      exact .done hend
    · rw [if_neg hend, if_neg (by simp)]
      have hlt := Nat.not_le.mp hend
      obtain ⟨hlive, hrest⟩ := hlive.resolve_left hend
      obtain ⟨htrial, ⟨stop, hlongest, hturn⟩ | ⟨hnone, hturn⟩⟩ :=
        turn_seeks hready hle hseeks (hlive hseeks)
      · rw [hturn] at htrial hrest ⊢
        obtain ⟨hafter, hstop⟩ := matchEnds_bounds hlongest.1
        cases hall : all with
        | true =>
          subst hall
          exact .every rfl hlongest (ih htrial hstop (by omega) rfl hrest)
        | false =>
          subst hall
          rw [replaceFrom_copies fuel rfl stop]
          exact .first rfl hlongest
      · rw [hturn] at htrial hrest ⊢
        have hstep : offset < (Nsh.Characters.mk locale value).endAt offset :=
          (Nsh.Characters.mk locale value).lt_endAt hlt
        have hbound : (Nsh.Characters.mk locale value).endAt offset ≤ value.length :=
          (Nsh.Characters.mk locale value).endAt_le hle
        exact .copy hlt hnone (ih htrial hbound (by omega) hseeks hrest)

/-- **A substitution rewrites disjoint leftmost longest matches and nothing else**; with the
    template `&` the result is the text itself. -/
theorem replace_rewritten (p : Pattern) (locale : Locale) (value : Bytes) (limit : Nat)
    (field : Field) (all : Bool)
    (hlive : ReplacesWithin limit ⟨locale, value⟩ (.read field) all value.length
      (p.trial locale value) 0 false) :
    (∀ result, Rewritten p locale value (fill (template (Replacement.marksOf field))) all 0 result ↔
      result = replace locale value p limit (.read field) all .none) ∧
    (Replacement.marksOf field = [⟨chr '&', false⟩] →
      replace locale value p limit (.read field) all .none = value) := by
  have hout : (Replacement.read field).write = fill (template (Replacement.marksOf field)) :=
    funext fun matched => Replacement.write_read field matched
  have hrun := replaceFrom_rewritten value.length (Trial.ready_trial p locale value)
    (Nat.zero_le _) (Nat.sub_le _ _) rfl hlive
  rw [hout] at hrun
  have hreplace : replace locale value p limit (.read field) all .none =
      replaceFrom limit ⟨locale, value⟩ (.read field) all .none value.length
        (p.trial locale value) 0 false := rfl
  rw [hreplace]
  constructor
  · intro result
    constructor
    · intro h
      exact h.unique hrun
    · rintro rfl
      exact hrun
  · intro hmarks
    have hself : ∀ matched, fill (template (Replacement.marksOf field)) matched = matched := by
      intro matched
      rw [hmarks]
      simp [template, fill]
    exact hrun.identity hself

/-- Two matches of `a*(b)` in `abcab`, each put in brackets. -/
theorem replace_rewritten_brackets :
    (∀ result, Rewritten (Pattern.unquoted (text "a*(b)") ⟨true, false⟩) Locale.c (text "abcab")
        (fill (template (Replacement.marksOf (.fromBytes (text "<&>") false false false)))) true 0
        result ↔
      result = replace Locale.c (text "abcab") (Pattern.unquoted (text "a*(b)") ⟨true, false⟩) 40
        (.read (.fromBytes (text "<&>") false false false)) true .none) ∧
    (Replacement.marksOf (.fromBytes (text "<&>") false false false) = [⟨chr '&', false⟩] →
      replace Locale.c (text "abcab") (Pattern.unquoted (text "a*(b)") ⟨true, false⟩) 40
        (.read (.fromBytes (text "<&>") false false false)) true .none = text "abcab") :=
  replace_rewritten _ _ _ 40 _ true (by decide +kernel)

end

end Nsh.Expand
