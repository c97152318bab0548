import Nsh.Arithmetic.Parser

/-!
# Evaluation

One evaluation tokenises its text and runs the parser over it.  It opens others:
the value of a name is evaluated one deeper, against the depth the expression
stands at, while a subscript, a declared value and the arithmetic an expansion
holds are evaluated from depth zero.  `evaluations` ties that second knot, again
allowing a number of nested evaluations.
-/

namespace Nsh.Arithmetic

open Variables

variable {W : Type}

/-- One evaluation: its text, and the depth it starts at. -/
structure Job where
  input : Bytes
  depth : Nat
deriving DecidableEq, Repr

/-- More activations of rules than a text of so many tokens can open at once. -/
def nestingBound (tokens : List Token) : Nat := 8 * tokens.length + 8

section Evaluation

variable (host : Host W)

/-- Parse a whole text: the comma list, and nothing behind it. -/
def whole (p : Setting W) (rules : Call → Walk W Int64) (depth : Nat) : Walk W Int64 := do
  let result ← comma rules true depth
  lookahead (fun token => token == .eof) (pure result) (complain p .expectingEof)

/-- What an evaluation keeps fixed. -/
def setting (nested restart : Job → ShellRun W Int64) (shell : Shell W) (input : Bytes) :
    Setting W where
  host := host
  input := input
  bash := decide (shell.options.dialect = .bash)
  nested text depth := nested ⟨text, depth⟩
  restart text := restart ⟨text, 0⟩

/-- The tokens of a text, in the shell's dialect and locale. -/
def shellTokens (shell : Shell W) (input : Bytes) : List Token :=
  tokens shell.locale (decide (shell.options.dialect = .bash)) input

/-- `evaluate_at_depth`, over the evaluations it opens and the calls of rules. -/
def evaluateUnder (rules : Setting W → Call → Walk W Int64)
    (nested restart : Job → ShellRun W Int64)
    (job : Job) : ShellRun W Int64 := fun shell =>
  let tokens := shellTokens shell job.input
  let p := setting host nested restart shell job.input
  -- The empty expression is zero in the Bash dialect.
  if p.bash ∧ tokens.headD .eof = .eof then .done 0 shell
  else
    Run.within (fun shell => { shell := shell, rest := tokens }) (fun s _ => s.shell)
      (whole p (rules p) job.depth) shell

/-- `evaluate_at_depth` with at most `nesting` activations of rules open at once. -/
def evaluateWithin (nesting : Nat) : (nested restart : Job → ShellRun W Int64) → Job →
    ShellRun W Int64 :=
  evaluateUnder host fun p => walk p nesting

/-- `evaluate_at_depth`, over the evaluations it opens. -/
def evaluateBody (nested restart : Job → ShellRun W Int64) (job : Job) : ShellRun W Int64 :=
  fun shell =>
    evaluateWithin host (nestingBound (shellTokens shell job.input)) nested restart job shell

/-- An evaluation with at most `n` evaluations open at once. -/
def evaluations (n : Nat) : Job → ShellRun W Int64 := Nested.unrolled (evaluateBody host) n

/-- `evaluate`, with at most `n` evaluations open at once. -/
def evaluate (n : Nat) (input : Bytes) : ShellRun W Int64 := evaluations host n ⟨input, 0⟩

end Evaluation

end Nsh.Arithmetic
