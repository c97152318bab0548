import Nsh.Evaluation.Tree
import Nsh.Signals.Traps

/-!
# The pseudo-conditions `DEBUG`, `ERR` and `RETURN`

The evaluator reaches these itself, so they have a table of their own.  A function body
starts without the actions it does not inherit: a call saves the table, clears it and puts
it back.  The commands here are those that touch the table, `trap` and calls, and others
that leave it as it is.
-/

namespace Nsh.Pseudo

open Evaluation (calling evaluateJoins taking)
open Signals (TrapAction)

inductive BashCondition where
  | debug
  | err
  | return_
deriving DecidableEq, Repr

def conditions : List BashCondition := [.debug, .err, .return_]

theorem mem_conditions (condition : BashCondition) : condition ∈ conditions := by
  cases condition <;> decide

/-- The options that carry a condition into a nested evaluation. -/
inductive TraceOption where
  | functrace
  | errtrace
deriving DecidableEq, Repr

namespace BashCondition

def name : BashCondition → Bytes
  | .debug => text "DEBUG"
  | .err => text "ERR"
  | .return_ => text "RETURN"

def inheritanceOption : BashCondition → TraceOption
  | .err => .errtrace
  | .debug | .return_ => .functrace

end BashCondition

structure Options where
  dialect : Dialect
  functrace : Bool
  errtrace : Bool
  errexit : Bool
deriving DecidableEq, Repr

def Options.enabled (options : Options) : TraceOption → Bool
  | .functrace => options.functrace
  | .errtrace => options.errtrace

def eqIgnoreAsciiCase (left right : Bytes) : Bool :=
  left.map toAsciiLowercase == right.map toAsciiLowercase

/-- `decode`: the pseudo-condition a word names. -/
def decode (name : Bytes) : Option BashCondition :=
  conditions.find? fun condition => eqIgnoreAsciiCase name condition.name

/-! ### The table -/

/-- The three actions. -/
abbrev Actions : Type := BashCondition → TrapAction

def isCommand (action : TrapAction) : Bool := action.commandText.isSome

def anyAction (action : Actions) : Bool :=
  conditions.any fun condition => isCommand (action condition)

structure BashTraps where
  action : Actions
  /-- Whether the action of a condition is running right now. -/
  running : BashCondition → Bool

/-- What a nested evaluation starts with. -/
def inherited (options : Options) (action : Actions) : Actions := fun condition =>
  if options.enabled condition.inheritanceOption then action condition else .default

/-- `suppress_uninherited`: what to restore, and the table of the nested evaluation. -/
def suppressUninherited (options : Options) (traps : BashTraps) : Option Actions × BashTraps :=
  if options.dialect ≠ .bash ∨ anyAction traps.action = false then (none, traps)
  else (some traps.action, { traps with action := inherited options traps.action })

def restore (saved : Option Actions) (traps : BashTraps) : BashTraps :=
  match saved with
  | none => traps
  | some action => { traps with action := action }

/-! ### Commands -/

inductive Command where
  /-- `trap` with the operands of a command that lists nothing. -/
  | trap (operands : List Bytes)
  /-- A call of a function. -/
  | call (name : Bytes)
  /-- A command that leaves the table as it is. -/
  | other (word : Bytes)
deriving DecidableEq, Repr

structure Shell where
  traps : BashTraps
  status : ExitStatus
  /-- How many calls, dot scripts and `eval`s are open. -/
  evaluationDepth : ℕ

structure Host where
  /-- The records of an action's text. -/
  parse : Bytes → List (List Command)
  /-- The bodies of the functions. -/
  functions : Bytes → List Command
  /-- What another command comes to, from the status before it. -/
  other : Bytes → ExitStatus → Except Error Flow
  diagnosticLine : Int

/-- What happens to the table: an action is installed, or a call is over, which found one
    table, did what it did and left another. -/
inductive Event where
  | installed (condition : BashCondition) (action : TrapAction)
  | called (entry : Actions) (inside : List Event) (left : Actions)

abbrev Running (α : Type) : Type := Traced Shell Error Event α

def Shell.setRunning (shell : Shell) (condition : BashCondition) (running : Bool) : Shell :=
  { shell with
    traps := { shell.traps with
      running := Function.update shell.traps.running condition running } }

def Shell.setAction (shell : Shell) (condition : BashCondition) (action : TrapAction) : Shell :=
  { shell with
    traps := { shell.traps with action := Function.update shell.traps.action condition action } }

def setStatus (status : ExitStatus) : Running Unit :=
  Traced.silently (Run.modify fun shell => { shell with status := status })

/-! ### `trap` -/

/-- `trap::bash::set`. -/
def set (condition : BashCondition) (action : TrapAction) : Running Unit := do
  Traced.silently (Run.modify fun shell => shell.setAction condition action)
  Traced.tell (.installed condition action)

/-- `parse_decimal`, which saturates. -/
def parseDecimal (input : Bytes) : Option ℕ :=
  if input ≠ [] ∧ input.all isAsciiDigit = true then
    some (input.foldl (fun value byte =>
      min (min (value * 10) (2 ^ 64 - 1) + (byte.toNat - (chr '0').toNat)) (2 ^ 64 - 1)) 0)
  else none

def parseSignalNumber (word : Bytes) : Option ℕ :=
  (parseDecimal word).filter fun number => decide (number < Signals.signalSlotCount)

/-- The names of the slots, `EXIT` first. -/
def signalNames : List Bytes :=
  ["EXIT", "HUP", "INT", "QUIT", "ILL", "TRAP", "ABRT", "BUS", "FPE", "KILL", "USR1", "SEGV",
    "USR2", "PIPE", "ALRM", "TERM", "16", "CHLD", "CONT", "STOP", "TSTP", "TTIN", "TTOU", "URG",
    "XCPU", "XFSZ", "VTALRM", "PROF", "WINCH", "IO", "PWR", "SYS", "32", "33", "RTMIN", "RTMIN+1",
    "RTMIN+2", "RTMIN+3", "RTMIN+4", "RTMIN+5", "RTMIN+6", "RTMIN+7", "RTMIN+8", "RTMIN+9",
    "RTMIN+10", "RTMIN+11", "RTMIN+12", "RTMIN+13", "RTMIN+14", "RTMIN+15", "RTMAX-14", "RTMAX-13",
    "RTMAX-12", "RTMAX-11", "RTMAX-10", "RTMAX-9", "RTMAX-8", "RTMAX-7", "RTMAX-6", "RTMAX-5",
    "RTMAX-4", "RTMAX-3", "RTMAX-2", "RTMAX-1", "RTMAX"].map text

def decodeSignal (word : Bytes) : Option ℕ :=
  (parseSignalNumber word).orElse fun _ => signalNames.findIdx? (eqIgnoreAsciiCase word)

/-- The action an operand word selects, and the word the next one is selected by. -/
def selectedAction : Option Bytes → TrapAction × Option Bytes
  | none => (.default, none)
  | some action =>
    if action = text "-" then (.default, none)
    else if action = [] then (.ignore, some action)
    else (.command action, some action)

section Evaluator

variable (host : Host) (options : Options)

def bashCondition (word : Bytes) : Option BashCondition :=
  if options.dialect ≠ .bash then none else decode word

/-- The loop of `trap` over the conditions it is given. -/
def trapWords : Option Bytes → List Bytes → Running ExitStatus
  | _, [] => pure ExitStatus.ofSuccess
  | action, word :: words =>
    let selected := selectedAction action
    match bashCondition options word with
    | some condition => do
      set condition selected.1
      trapWords selected.2 words
    | none =>
      if (decodeSignal word).isSome then trapWords selected.2 words
      else pure ExitStatus.ofFailure

/-- `trap::run` behind its options. -/
def trap (operands : List Bytes) : Running ExitStatus :=
  match operands with
  | [] => pure ExitStatus.ofSuccess
  | first :: words =>
    if words = [] ∨ (parseSignalNumber first).isSome then trapWords options none operands
    else trapWords options (some first) words

/-! ### Actions -/

/-- `dispatch`: run the action of a condition, unless it is running. -/
def dispatch (run : Bytes → Running Flow) (condition : BashCondition) : Running Flow := do
  let shell ← Traced.silently Run.get
  if options.dialect ≠ .bash ∨ shell.traps.running condition = true then
    pure (.done shell.status)
  else
    match (shell.traps.action condition).commandText with
    | some command => do
      let outcome ← (Traced.silently (Run.modify fun shell => shell.setRunning condition true) >>=
        fun _ => run command).leaving fun _ after => after.setRunning condition false
      match outcome with
      | .exit status => pure (.exit status)
      | _ => do
        setStatus shell.status
        pure (.done shell.status)
    | none => pure (.done shell.status)

/-- A list all of whose joins are sequences. -/
def evaluateList {κ : Type} (element : κ → Running Flow) (elements : List κ)
    (status : ExitStatus) : Running Flow :=
  evaluateJoins element (elements.map fun next => (.sequence, next)) status

/-- Whether the loop over a text goes on behind a failure. -/
def recovers : Error → Bool
  | .abandoned _ _ _ fromArithmetic unwinds => (fromArithmetic || !options.errexit) && !unwinds
  | .other _ _ _ => false

/-- `evaluate_record`. -/
def evaluateRecord (run : Running Flow) : Running Flow :=
  run.rescuing fun error =>
    if recovers options error then do
      setStatus error.status
      pure (.done error.status)
    else Traced.silently (Run.fail error)

/-- `parse_and_execute`: the records of a text follow one another as commands do. -/
def executeText (tree : Command → Running Flow) (command : Bytes) : Running Flow :=
  evaluateList
    (fun record => evaluateRecord options (evaluateList tree record ExitStatus.ofSuccess))
    (host.parse command) ExitStatus.ofSuccess

/-! ### Calls -/

/-- The state a body starts from. -/
def Shell.enterFunction (shell : Shell) : Shell :=
  { shell with
    traps := (suppressUninherited options shell.traps).2
    evaluationDepth := shell.evaluationDepth + 1 }

/-- The state a caller goes on with. -/
def Shell.leaveFunction (before after : Shell) : Shell :=
  { after with
    traps := restore (suppressUninherited options before.traps).1 after.traps
    evaluationDepth := after.evaluationDepth - 1 }

/-- What is told of a call that is over. -/
def callEvent (before : Shell) (told : Told Shell Error Event Flow) : List Event :=
  match told.outcome with
  | .done _ after | .failed _ after => [.called before.traps.action told.events after.traps.action]
  | .unfinished => told.events

/-- The body, and the `RETURN` action in the frame that is finishing. -/
def finishing (body runReturn : Running Flow) : Running Flow := do
  let flow ← body
  let action ← runReturn
  pure (match action with
    | .done _ => flow
    | control => control)

/-- A call, and the table put back however it ends. -/
def callBody (body runReturn : Running Flow) : Running Flow :=
  ((Traced.silently (Run.modify (Shell.enterFunction options)) >>=
    fun _ => finishing body runReturn).leaving (Shell.leaveFunction options)).telling callEvent

/-- `evaluate_function`. -/
def evaluateFunction (body runReturn : Running Flow) : Running Flow :=
  calling Shell.evaluationDepth (fun _ => host.diagnosticLine) fun _ =>
    callBody options body runReturn

/-! ### The commands -/

/-- Where `errexit` reads a status `ERR` is raised. -/
def conclude (raise : Running Flow) (tested : Bool) : Running Flow := do
  let shell ← Traced.silently Run.get
  if !tested && !shell.status.success then
    raise >>= taking fun status => pure (if options.errexit then .end_ else .done status)
  else pure (.done shell.status)

/-- What a command does, behind its `DEBUG` action. -/
def runCommand (tree : Bool → Command → Running Flow) (tested : Bool) :
    Command → Running Flow
  | .trap operands => do
    let status ← trap options operands
    pure (.done status)
  | .call name =>
    evaluateFunction host options
      (evaluateList (tree tested) (host.functions name) ExitStatus.ofSuccess)
      (dispatch options (executeText host options (tree false)) .return_)
  | .other word => do
    let shell ← Traced.silently Run.get
    match host.other word shell.status with
    | .ok flow => pure flow
    | .error error => Traced.silently (Run.fail error)

def evaluateCommand (tree : Bool → Command → Running Flow) (tested : Bool) (command : Command) :
    Running Flow :=
  dispatch options (executeText host options (tree false)) .debug >>= taking fun _ =>
    runCommand host options tree tested command >>= taking fun status => do
      setStatus status
      conclude options (dispatch options (executeText host options (tree false)) .err) tested

/-- The evaluation of a command, with at most so many open at once. -/
def evaluateTree : ℕ → Bool → Command → Running Flow
  | 0 => fun _ _ => Traced.unfinished
  | n + 1 => evaluateCommand host options (evaluateTree n)

end Evaluator

end Nsh.Pseudo
