import Nsh.Shell.Bytes

/-!
# Failures

A failure is a value: it carries the text the shell reported and says what the
frames above it do next.  `shellError` ends a non-interactive shell with status
two.  `dialectError` is that in the POSIX dialect; in the Bash dialect it
abandons the input record instead and the shell lives on.
-/

namespace Nsh

/-- The dialect the shell reads and evaluates. -/
inductive Dialect where
  | posix
  | bash
deriving DecidableEq, Repr

/-- A failure, with the text reported for it. -/
inductive Error where
  | other (line : Int) (status : Nat) (message : Bytes)
  | abandoned (line : Int) (message : Bytes)
      (fromAssignment fromArithmetic unwindsToTheInputLoop : Bool)
deriving DecidableEq, Repr

namespace Error

/-- The text reported for the failure. -/
def message : Error → Bytes
  | .other _ _ message => message
  | .abandoned _ message _ _ _ => message

/-- The status the shell takes from the failure. -/
def status : Error → Nat
  | .other _ status _ => status
  | .abandoned _ _ _ _ _ => 1

/-- `Error::abandoned`: the record is given up and nothing is left to say. -/
def abandonedAt (line : Int) : Error := .abandoned line [] false false false

/-- Mark an abandonment as raised by arithmetic. -/
def markArithmetic : Error → Error
  | .abandoned line message assigned _ unwinds => .abandoned line message assigned true unwinds
  | fatal => fatal

/-- Mark an abandonment as raised by a declared value. -/
def markAssignment : Error → Error
  | .abandoned line message _ arithmetic unwinds => .abandoned line message true arithmetic unwinds
  | fatal => fatal

/-- Mark an abandonment as unwinding to the loop reading the shell's input. -/
def markUnwinding : Error → Error
  | .abandoned line message assigned arithmetic _ =>
    .abandoned line message assigned arithmetic true
  | fatal => fatal

@[simp] theorem message_markArithmetic (e : Error) : e.markArithmetic.message = e.message := by
  cases e <;> rfl

end Error

/-- `Diagnostics::shell_error`. -/
def shellError (line : Int) (message : Bytes) : Error := .other line 2 message

/-- `Diagnostics::dialect_error`: the dialect decides the boundary. -/
def dialectError (dialect : Dialect) (line : Int) (message : Bytes) : Error :=
  match dialect with
  | .posix => shellError line message
  | .bash => .abandoned line message false false false

@[simp] theorem message_dialectError (dialect : Dialect) (line : Int) (m : Bytes) :
    (dialectError dialect line m).message = m := by
  cases dialect <;> rfl

end Nsh
