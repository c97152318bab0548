import Nsh.Shell.Bytes

/-!
# Control flow

What an evaluation hands back when it did not fail: a status, or a transfer of
control that some frame above it consumes.
-/

namespace Nsh

abbrev ExitStatus := Int

namespace ExitStatus

def ofSuccess : ExitStatus := 0

def ofFailure : ExitStatus := 1

def success (status : ExitStatus) : Bool := decide (status = 0)

end ExitStatus

inductive Flow where
  | done (status : ExitStatus)
  /-- The shell is exiting; `exit` selected a status or nothing did. -/
  | exit (status : Option ExitStatus)
  | breakLoops (levels : Nat) (status : ExitStatus)
  | continueLoop (levels : Nat) (status : ExitStatus)
  /-- Leave the nearest function or sourced command. -/
  | returning (status : ExitStatus) (explicit : Bool)
deriving DecidableEq, Repr

namespace Flow

/-- `Flow::END`: the shell ends without a status having been named. -/
def end_ : Flow := .exit none

def status : Flow → Option ExitStatus
  | .done status | .breakLoops _ status | .continueLoop _ status | .returning status _ =>
    some status
  | .exit status => status

def withStatus (flow : Flow) (status : ExitStatus) : Flow :=
  match flow with
  | .done _ => .done status
  | .breakLoops levels _ => .breakLoops levels status
  | .continueLoop levels _ => .continueLoop levels status
  | .returning _ explicit => .returning status explicit
  | .exit selected => .exit selected

end Flow

end Nsh
