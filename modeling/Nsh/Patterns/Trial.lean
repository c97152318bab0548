import Nsh.Patterns.Matcher

/-!
# One pattern's answers about one subject

A `Trial` keeps a memo across the questions an operation over a whole value asks.
Each question gets the whole of the pattern's budget, and a question that used it
up leaves no memo behind.
-/

namespace Nsh.Patterns

/-- How many pattern positions one extended-glob match may visit
    (`EXTENDED_MATCH_BUDGET`). -/
def extendedMatchBudget : Nat := 4000000

/-- What one question about this pattern may cost, `limit` being the budget of an
    extended one. -/
def Pattern.budget (p : Pattern) (limit : Nat) : Budget :=
  if p.options.extended then .units limit else .unlimited

/-- One pattern's answers about one subject, kept across questions. -/
structure Trial where
  pattern : Pattern
  characters : Characters
  memo : Memo
  spans : Memo
  budget : Budget

def Pattern.trial (p : Pattern) (locale : Locale) (subject : Bytes) : Trial where
  pattern := p
  characters := ⟨⟨locale, p.bytes⟩, ⟨locale, subject⟩⟩
  memo := Memo.empty
  spans := Memo.empty
  budget := .units 0

namespace Trial

def matcher (t : Trial) (goal : Goal) : Matcher where
  characters := t.characters
  pattern := t.pattern
  patternStart := 0
  goal := goal

def ask (t : Trial) (limit : Nat) (memo : Memo) (start : Nat) (goal : Goal) : Option Nat × Walk :=
  (t.matcher goal).reachFrom 0 start ⟨memo, t.pattern.budget limit, []⟩

/-- Whether the pattern matches the whole of the subject from `start` on. -/
def matchesFrom (t : Trial) (limit start : Nat) : Bool × Trial :=
  let (reach, w) := t.ask limit t.memo start .whole
  (reach.isSome,
    { t with memo := if w.budget.exhausted then Memo.empty else w.memo, budget := w.budget })

/-- Every offset at which the pattern runs out over the subject from `start` on. -/
def endsFrom (t : Trial) (limit start : Nat) : List Nat × Trial :=
  let (_, w) := t.ask limit Memo.empty start .every
  (sortDedup w.ends, { t with budget := w.budget })

/-- The furthest such offset that begins a character. -/
def furthestEnd (t : Trial) (limit start : Nat) : Option Nat × Trial :=
  let (reach, w) := t.ask limit t.spans start .furthest
  (reach,
    { t with spans := if w.budget.exhausted then Memo.empty else w.memo, budget := w.budget })

end Trial

def Pattern.matches (p : Pattern) (locale : Locale) (subject : Bytes) : Bool :=
  ((p.trial locale subject).matchesFrom extendedMatchBudget 0).1

end Nsh.Patterns
