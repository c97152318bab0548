import Mathlib.Data.List.Sort
import Mathlib.Data.List.Dedup
import Nsh.Patterns.Pattern

/-!
# The memoised walk

`reachFrom` asks what the pattern read from one offset reaches over the subject
read from another, remembers the answer, and pays one unit of budget for it.  The
memo is keyed on the two offsets; a group's ends are remembered by where the group
begins and where it was entered.  Every walk takes the `step` it recurses with as
an argument; `reachUncached` closes the circle, its fuel being the pattern still to
be read.
-/

namespace Nsh.Patterns

/-- What the extended walk may still spend.  A pattern without extended groups is
    walked under `u64::MAX`, more states than any two strings have: `unlimited`. -/
inductive Budget where
  | unlimited
  | units (left : Nat)
deriving DecidableEq

def Budget.exhausted : Budget → Bool
  | .unlimited => false
  | .units left => left == 0

def Budget.spend : Budget → Budget
  | .unlimited => .unlimited
  | .units left => .units (left - 1)

/-- What one walk has already decided. -/
structure Memo where
  reaches : Nat × Nat → Option (Option Nat)
  groupEnds : Nat × Nat → Option (List Nat)

def Memo.empty : Memo where
  reaches _ := none
  groupEnds _ := none

/-- What a walk changes: the memo, the budget, and where the pattern ran out. -/
structure Walk where
  memo : Memo
  budget : Budget
  ends : List Nat

namespace Walk

def start (budget : Budget) : Walk := ⟨Memo.empty, budget, []⟩

def spend (w : Walk) : Walk := { w with budget := w.budget.spend }

def remember (w : Walk) (key : Nat × Nat) (reach : Option Nat) : Walk :=
  { w with memo := { w.memo with reaches := Function.update w.memo.reaches key (some reach) } }

def rememberGroup (w : Walk) (key : Nat × Nat) (ends : List Nat) : Walk :=
  { w with memo := { w.memo with groupEnds := Function.update w.memo.groupEnds key (some ends) } }

def record (w : Walk) (offset : Nat) : Walk :=
  if w.ends.contains offset then w else { w with ends := w.ends ++ [offset] }

end Walk

/-- A walk from a pattern offset and a subject offset, given what the branches
    stepped past have reached. -/
abbrev Step := Matcher → Nat → Nat → Option Nat → Walk → Option Nat × Walk

/-- `sort_unstable` and `dedup`. -/
def sortDedup (ends : List Nat) : List Nat := (ends.insertionSort (· ≤ ·)).dedup

namespace Matcher

/-- Whether an answer settles the question. -/
def settles (m : Matcher) (reach : Option Nat) : Bool :=
  reach.isSome && m.goal == .whole

/-- What the pattern running out at `subjectAt` is worth. -/
def ranOut (m : Matcher) (subjectAt : Nat) (w : Walk) : Option Nat × Walk :=
  match m.goal with
  | .whole => (if subjectAt = m.subject.bytes.length then some subjectAt else none, w)
  | .furthest =>
    (if m.characters.subjectBeginsCharacter subjectAt then some subjectAt else none, w)
  | .every => (none, w.record subjectAt)

def reachFromWith (step : Step) (m : Matcher) (patternAt subjectAt : Nat) (w : Walk) :
    Option Nat × Walk :=
  match w.memo.reaches (patternAt, subjectAt) with
  | some reach => (reach, w)
  | none =>
    if w.budget.exhausted then (none, w)
    else
      let (reach, w) := step m patternAt subjectAt none w.spend
      (reach, w.remember (patternAt, subjectAt) reach)

/-- The best the pattern from `next` on reaches from any of the offsets. -/
def bestReach (step : Step) (m : Matcher) (next : Nat) :
    List Nat → Option Nat → Walk → Option Nat × Walk
  | [], best, w => (best, w)
  | offset :: offsets, best, w =>
    let (reach, w) := reachFromWith step m next offset w
    if m.settles reach then (reach, w)
    else bestReach step m next offsets (max best reach) w

/-- The walk of `*` over its candidates, and the answers it writes for them on the
    way back. -/
def reachStar (step : Step) (m : Matcher) (starAt after : Nat) :
    List Nat → Walk → Option Nat × Walk
  | [], w => (none, w)
  | candidate :: candidates, w =>
    match w.memo.reaches (starAt, candidate) with
    | some known => (known, w)
    | none =>
      let (reach, w) := reachFromWith step m after candidate w
      if m.settles reach then (reach, w)
      else
        let (best, w) := reachStar step m starAt after candidates w
        let best := max best reach
        (best, if w.budget.exhausted then w else w.remember (starAt, candidate) best)

/-- `Pattern::ends_within`: a walk with a memo of its own on the same budget. -/
def endsWithin (step : Step) (alternative : Matcher) (subjectAt : Nat) (w : Walk) :
    List Nat × Walk :=
  let (_, inner) := reachFromWith step alternative 0 subjectAt (Walk.start w.budget)
  (inner.ends, { w with budget := inner.budget })

def endsWithinAll (step : Step) (m : Matcher) (subjectAt : Nat) :
    List (Nat × Nat) → List Nat → Walk → List Nat × Walk
  | [], ends, w => (ends, w)
  | range :: ranges, ends, w =>
    let (found, w) := endsWithin step (m.alternative range) subjectAt w
    endsWithinAll step m subjectAt ranges (ends ++ found) w

/-- Every subject position one alternative of the group can reach from `subjectAt`. -/
def alternativeEnds (step : Step) (m : Matcher) (group : ExtendedGroup) (subjectAt : Nat)
    (w : Walk) : List Nat × Walk :=
  match w.memo.groupEnds (group.start, subjectAt) with
  | some ends => (ends, w)
  | none =>
    let (ends, w) := endsWithinAll step m subjectAt group.alternatives [] w
    (sortDedup ends, w.rememberGroup (group.start, subjectAt) (sortDedup ends))

def reachGroupOnce (step : Step) (m : Matcher) (group : ExtendedGroup) (subjectAt : Nat)
    (optional : Bool) (w : Walk) : Option Nat × Walk :=
  let (ends, w) := alternativeEnds step m group subjectAt w
  bestReach step m group.next
    (if optional && !ends.contains subjectAt then ends ++ [subjectAt] else ends) none w

/-- `filter(|end| seen.insert(*end))`: the offsets not seen before, and all seen now. -/
def insertNew : List Nat → List Nat → List Nat × List Nat
  | [], seen => ([], seen)
  | offset :: offsets, seen =>
    if seen.contains offset then insertNew offsets seen
    else
      let (fresh, seen) := insertNew offsets (offset :: seen)
      (offset :: fresh, seen)

/-- The loop of `reach_group_repeated`; the head of `pending` is popped first. -/
def closeEnds (step : Step) (m : Matcher) (group : ExtendedGroup) (subjectAt : Nat) :
    Nat → List Nat → List Nat → List Nat → Walk → List Nat × List Nat × Walk
  | 0, _, seen, ends, w => (ends, seen, w)
  | _ + 1, [], seen, ends, w => (ends, seen, w)
  | fuel + 1, offset :: pending, seen, ends, w =>
    if subjectAt < offset then
      let (reached, w) := alternativeEnds step m group offset w
      let (fresh, seen) := insertNew (reached.filter (offset < ·)) seen
      closeEnds step m group subjectAt fuel (fresh.reverse ++ pending) seen (ends ++ [offset]) w
    else closeEnds step m group subjectAt fuel pending seen (ends ++ [offset]) w

def reachGroupRepeated (step : Step) (m : Matcher) (group : ExtendedGroup) (subjectAt : Nat)
    (optional : Bool) (w : Walk) : Option Nat × Walk :=
  let (first, w) := alternativeEnds step m group subjectAt w
  let (fresh, seen) := insertNew first []
  let (ends, seen, w) :=
    closeEnds step m group subjectAt (m.subject.bytes.length + 2) fresh.reverse seen [] w
  bestReach step m group.next
    (if optional && !seen.contains subjectAt then ends ++ [subjectAt] else ends) none w

/-- `!(list)` consumes any run of subject characters that no alternative matches. -/
def reachGroupExcluded (step : Step) (m : Matcher) (group : ExtendedGroup) (subjectAt : Nat)
    (w : Walk) : Option Nat × Walk :=
  let (excluded, w) := alternativeEnds step m group subjectAt w
  bestReach step m group.next
    ((m.subject.offsets subjectAt).filter fun offset => !excluded.contains offset) none w

def reachGroup (step : Step) (m : Matcher) (group : ExtendedGroup) (subjectAt : Nat) (w : Walk) :
    Option Nat × Walk :=
  if group.kind = chr '!' then reachGroupExcluded step m group subjectAt w
  else if group.kind = chr '?' then reachGroupOnce step m group subjectAt true w
  else if group.kind = chr '@' then reachGroupOnce step m group subjectAt false w
  else if group.kind = chr '*' then reachGroupRepeated step m group subjectAt true w
  else reachGroupRepeated step m group subjectAt false w

/-- Fold the branches stepped past back into an answer. -/
def withAside (aside : Option Nat) (answer : Option Nat × Walk) : Option Nat × Walk :=
  (max answer.1 aside, answer.2)

end Matcher

/-- The walk itself.  The fuel is never used up while it exceeds the length of the
    pattern still to be read. -/
def reachUncached : Nat → Step
  | 0, _, _, _, aside, w => (aside, w)
  | fuel + 1, m, patternAt, subjectAt, aside, w =>
    if patternAt = m.pattern.length then Matcher.withAside aside (m.ranOut subjectAt w)
    else match m.pattern.extendedGroup patternAt with
    | some group =>
      Matcher.withAside aside (Matcher.reachGroup (reachUncached fuel) m group subjectAt w)
    | none =>
      if m.pattern.active patternAt (chr '*') then
        let after := m.pattern.starRunEnd patternAt
        if after = m.pattern.length ∧ m.goal ≠ .every then
          (max (some m.subject.bytes.length) aside, w)
        else
          Matcher.withAside aside
            (Matcher.reachStar (reachUncached fuel) m patternAt after
              (m.subject.offsets subjectAt) w)
      else if m.pattern.active patternAt (chr '?') then
        if subjectAt = m.subject.bytes.length then (aside, w)
        else reachUncached fuel m (patternAt + 1) (m.subject.endAt subjectAt) aside w
      else match (if m.pattern.active patternAt (chr '[')
          then m.bracket (patternAt + 1) subjectAt else none) with
        | some (_, []) => (aside, w)
        | some (next, first :: others) =>
          -- the loop over the further widths is `best_reach` going on from `aside`
          let (aside, w) := Matcher.bestReach (reachUncached fuel) m next
            (others.map (subjectAt + ·)) aside w
          if m.settles aside then (aside, w)
          else reachUncached fuel m next (subjectAt + first) aside w
        | none =>
          if subjectAt = m.subject.bytes.length then (aside, w)
          else
            let patternEnd := m.patternEnd patternAt
            let subjectEnd := m.subject.endAt subjectAt
            if sameCharacter m.subject.locale m.subject.ignoreCase
                (m.pattern.bytes.extract patternAt patternEnd)
                (m.subject.bytes.extract subjectAt subjectEnd) then
              reachUncached fuel m patternEnd subjectEnd aside w
            else (aside, w)

/-- `reach_from`, with enough fuel for the whole of the matcher's pattern. -/
def Matcher.reachFrom (m : Matcher) (patternAt subjectAt : Nat) (w : Walk) : Option Nat × Walk :=
  reachFromWith (reachUncached (m.pattern.length + 1)) m patternAt subjectAt w

end Nsh.Patterns
