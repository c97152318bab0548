import Nsh.Regexes.Expr

/-!
# The matcher

`matchesExpr` explores an expression from one position and hands every end it finds to
a continuation.  The one `matchAt` passes keeps the furthest end and always answers
`false`, so that the whole expression is explored.  `matchesExpr` recurses through the
continuations as well: each runs inside the call it was given to, at a greater depth
than the call that made it, so `maxDepth` levels of fuel are never all used up by a
search the depth bound has not stopped.  A search is in one `State`, what `match_at`
keeps beside its matcher included; `refused` is the one field that the source does not
have and that nothing reads: whether a bound has turned an expression away.
-/

namespace Nsh.Regexes

open Nsh.Patterns (Subject sameCharacter collatingExpression)

abbrev Span := Nat × Nat

/-- The capturing groups of one attempt, the whole match standing for group 0. -/
abbrev Captures := List (Option Span)

structure State where
  groups : Captures
  steps : Nat
  longest : Option Captures
  bestEnd : Nat
  refused : Bool
deriving DecidableEq

/-- What is done with an end: it gets the depth, the state and the end. -/
abbrev Continue := Nat → State → Nat → Bool × State

/-- An exploration of an expression from a position on, at a depth and in a state. -/
abbrev Visit := Expr → Nat → Continue → Nat → State → Bool × State

namespace State

def group (st : State) (index : Nat) : Option Span := st.groups.getD index none

def setGroup (st : State) (index : Nat) (span : Option Span) : State :=
  { st with groups := st.groups.set index span }

def charge (st : State) : State := { st with steps := st.steps + 1 }

def refuse (st : State) : State := { st with refused := true }

end State

/-! ### Single characters -/

/-- The forms one character takes when case is folded. -/
def foldedForms (ignoreCase : Bool) (character : Bytes) : List Bytes :=
  if ignoreCase then
    [character.map toAsciiLowercase, character.map toAsciiUppercase].foldl
      (fun forms folded => if forms.contains folded then forms else forms ++ [folded]) [character]
  else [character]

/-- Whether `low..=high` holds the byte a form begins with. -/
def rangeHoldsForm (low high : UInt8) (form : Bytes) : Bool :=
  match form with
  | first :: _ => decide (low ≤ first) && decide (first ≤ high)
  | [] => false

/-- Whether the member holds the character of the subject that these bytes are. -/
def Member.holds (s : Subject) (character : Bytes) : Member → Bool
  | .character bytes => sameCharacter s.locale s.ignoreCase bytes character
  | .range low high =>
    decide (character.length = 1) &&
      (foldedForms s.ignoreCase character).any (rangeHoldsForm low high)
  | .class name =>
    s.locale.wideClassMatches name character == some true ||
      (s.ignoreCase && (foldedForms s.ignoreCase character).any fun form =>
        s.locale.wideClassMatches name form == some true)
  | .collating body =>
    s.locale.collatingBracketMatches (collatingExpression (chr '=') body) character

def Bracket.holds (s : Subject) (character : Bytes) (b : Bracket) : Bool :=
  b.members.any (·.holds s character) != b.negated

/-- Whether the literal stands at `pos`. -/
def literalAt (s : Subject) (bytes : Bytes) (pos : Nat) : Bool :=
  decide (pos + bytes.length ≤ s.bytes.length) &&
    sameCharacter s.locale s.ignoreCase (s.bytes.extract pos (pos + bytes.length)) bytes

/-- Match one single-character atom, returning where it ends. -/
def single (s : Subject) (e : Expr) (pos : Nat) : Option Nat :=
  if s.bytes.length ≤ pos then none
  else
    match e with
    | .anyCharacter => some (s.endAt pos)
    | .literal bytes => if literalAt s bytes pos then some (pos + bytes.length) else none
    | .bracket b =>
      if b.holds s (s.bytes.extract pos (s.endAt pos)) then some (s.endAt pos) else none
    | _ => none

/-! ### Expressions -/

def matchSequence (visit : Visit) : List Expr → Nat → Continue → Nat → State → Bool × State
  | [], pos, next => fun depth st => next depth st pos
  | head :: tail, pos, next =>
    visit head pos fun depth st end' => matchSequence visit tail end' next depth st

def matchBranches (visit : Visit) : List Expr → Nat → Continue → Nat → State → Bool × State
  | [], _, _ => fun _ st => (false, st)
  | branch :: branches, pos, next => fun depth st =>
    let (matched, st) := visit branch pos next depth st
    if matched then (true, st) else matchBranches visit branches pos next depth st

/-- The continuation `match_group` gives to the group's body. -/
def closeGroup (index pos : Nat) (next : Continue) : Continue := fun depth st end' =>
  let previous := st.group index
  let (matched, st) := next depth (st.setGroup index (some (pos, end'))) end'
  if matched then (true, st) else (false, st.setGroup index previous)

def matchGroup (visit : Visit) (index : Nat) (body : Expr) (pos : Nat) (next : Continue)
    (depth : Nat) (st : State) : Bool × State :=
  let saved := st.group index
  let (matched, st) := visit body pos (closeGroup index pos next) depth st
  (matched, if matched then st else st.setGroup index saved)

/-- Whether one more repetition is allowed after so many. -/
def allows (max : Option Nat) (count : Nat) : Bool := max.all fun max => decide (count < max)

/-- The offsets behind so many repetitions of a single-character atom and more; the
    fuel is the subject still to be read. -/
def laterOffsets (s : Subject) (body : Expr) (max : Option Nat) : Nat → Nat → Nat → List Nat
  | 0, _, _ => []
  | fuel + 1, count, pos =>
    if allows max count then
      match single s body pos with
      | some end' => end' :: laterOffsets s body max fuel (count + 1) end'
      | none => []
    else []

/-- Hand each of the ends on, until one is taken. -/
def tryEnds (next : Continue) : List Nat → Nat → State → Bool × State
  | [], _, st => (false, st)
  | end' :: ends, depth, st =>
    let (matched, st) := next depth st end'
    if matched then (true, st) else tryEnds next ends depth st

/-- Whether `repeat_single` repeats the expression. -/
def isSingle : Expr → Bool
  | .anyCharacter => true
  | .bracket _ => true
  | .literal _ => true
  | _ => false

/-- Repeat a single-character atom without recursing once per repetition. -/
def repeatSingle (s : Subject) (body : Expr) (min : Nat) (max : Option Nat) (pos : Nat)
    (next : Continue) (depth : Nat) (st : State) : Bool × State :=
  let offsets := pos :: laterOffsets s body max (s.bytes.length - pos) 0 pos
  if offsets.length ≤ min then (false, st) else tryEnds next (offsets.drop min).reverse depth st

/-- The repetitions of a body that is not a single character, after so many of them. -/
def matchRepeat (visit : Visit) (body : Expr) (min : Nat) (max : Option Nat) :
    Nat → Nat → Nat → Continue → Nat → State → Bool × State
  | 0, _, _, _, _, st => (false, st.refuse)
  | rounds + 1, count, pos, next, depth, st =>
    if count < min then
      visit body pos
        (fun depth st end' => matchRepeat visit body min max rounds (count + 1) end' next depth st)
        depth st
    else
      let (matched, st) :=
        if allows max count then
          visit body pos
            (fun depth st end' =>
              if end' = pos then (false, st)
              else matchRepeat visit body min max rounds (count + 1) end' next depth st)
            depth st
        else (false, st)
      if matched then (true, st) else next depth st pos

/-- The case of a one-character match: its end is handed on. -/
def handOn (end' : Option Nat) (next : Continue) (depth : Nat) (st : State) : Bool × State :=
  match end' with
  | some end' => next depth st end'
  | none => (false, st)

def explore (s : Subject) (visit : Visit) (rounds : Nat) (e : Expr) (pos : Nat)
    (next : Continue) (depth : Nat) (st : State) : Bool × State :=
  match e with
  | .empty => next depth st pos
  | .literal bytes => handOn (if literalAt s bytes pos then some (pos + bytes.length) else none)
      next depth st
  | .anyCharacter => handOn (single s .anyCharacter pos) next depth st
  | .bracket b => handOn (single s (.bracket b) pos) next depth st
  | .start => if pos = 0 then next depth st pos else (false, st)
  | .finish => if pos = s.bytes.length then next depth st pos else (false, st)
  | .sequence parts => matchSequence visit parts pos next depth st
  | .alternation branches => matchBranches visit branches pos next depth st
  | .repeated body min max =>
    if isSingle body then repeatSingle s body min max pos next depth st
    else matchRepeat visit body min max rounds 0 pos next depth st
  | .group index body => matchGroup visit index body pos next depth st

/-- Charge one step, take one frame, and explore the expression (`matches`). -/
def matchesExpr (s : Subject) : Nat → Visit
  | 0, _, _, _, _, st => (false, st.charge.refuse)
  | fuel + 1, e, pos, next, depth, st =>
    if decide (stepBudget < st.charge.steps) || decide (maxDepth ≤ depth) then
      (false, st.charge.refuse)
    else explore s (matchesExpr s fuel) (fuel + 1) e pos next (depth + 1) st.charge

/-! ### Searching -/

/-- The continuation of `match_at`: keep the furthest end, and go on. -/
def keepLongest (start : Nat) : Continue := fun _ st end' =>
  (false,
    if st.longest.isNone || decide (st.bestEnd < end') then
      { st with longest := some (st.groups.set 0 (some (start, end'))), bestEnd := end' }
    else st)

namespace Regex

/-- The subject as every attempt of one search reads it. -/
def subject (regex : Regex) (locale : Locale) (bytes : Bytes) : Subject where
  characters := ⟨locale, bytes⟩
  ignoreCase := regex.ignoreCase

/-- The state an attempt begins in: the steps are those of the whole search. -/
def attempt (regex : Regex) (steps : Nat) (refused : Bool) : State where
  groups := List.replicate (regex.groupCount + 1) none
  steps := steps
  longest := none
  bestEnd := 0
  refused := refused

/-- The state `match_at` ends in. -/
def matchAt (regex : Regex) (s : Subject) (start steps : Nat) (refused : Bool) : State :=
  (matchesExpr s maxDepth regex.root start (keepLongest start) 0 (regex.attempt steps refused)).2

/-- The loop of `search`, and the state of its last attempt. -/
def searchFrom (regex : Regex) (s : Subject) : Nat → Nat → Nat → Bool → State
  | 0, start, steps, refused => regex.matchAt s start steps refused
  | fuel + 1, start, steps, refused =>
    let st := regex.matchAt s start steps refused
    if st.longest.isSome || decide (s.bytes.length ≤ start) then st
    else regex.searchFrom s fuel (s.endAt start) st.steps st.refused

/-- The whole search, the state of its last attempt. -/
def run (regex : Regex) (locale : Locale) (bytes : Bytes) : State :=
  regex.searchFrom (regex.subject locale bytes) bytes.length 0 0 false

/-- Search the subject for the leftmost-longest match. -/
def search (regex : Regex) (locale : Locale) (bytes : Bytes) : Option Captures :=
  (regex.run locale bytes).longest

/-- Neither bound has turned an expression away. -/
def Unbounded (regex : Regex) (locale : Locale) (bytes : Bytes) : Prop :=
  (regex.run locale bytes).refused = false

instance (regex : Regex) (locale : Locale) (bytes : Bytes) :
    Decidable (regex.Unbounded locale bytes) :=
  inferInstanceAs (Decidable (_ = _))

end Regex

end Nsh.Regexes
