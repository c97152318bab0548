import Nsh.Variables.Compound

/-!
# Local scopes

A call keeps, in the scope it pushes, a record of every name it makes local, and
returning plays the records back from the last one.  POSIX `local` and the
assignments before a command write into the scope on top (`makeLocalBytes`);
Bash's declarations write into the scope the running function owns
(`makeLocal`), which need not be the one on top.
-/

namespace Nsh.Variables

variable {W : Type}

/-- Whether a fresh local declaration keeps the outer value. -/
inductive LocalValue where
  /-- The name starts out unset. -/
  | discard
  /-- The caller assigns immediately afterwards. -/
  | assigned
deriving DecidableEq, Repr

/-- Whether a record restores `name`. -/
def restores (name : Bytes) : LocalVariable → Bool
  | .options _ => false
  | .created held => held == name
  | .saved held _ => held == name

/-- Add a record to the scope at `frame`. -/
def recordLocal (frame : Nat) (saved : LocalVariable) (shell : Shell W) : Shell W :=
  { shell with table := { shell.table with
      locals := shell.table.locals.modify frame (· ++ [saved]) } }

/-- `VariableTable::push_local`: add a record to the scope on top. -/
def pushLocal (saved : LocalVariable) (shell : Shell W) : Shell W :=
  recordLocal (shell.table.locals.length - 1) saved shell

/-- Record a declared name so its attributes have an entry to live on. -/
def ensureEntry (name : Bytes) (shell : Shell W) : Shell W :=
  if validName shell.locale name then
    match shell.entry name with
    | none => shell.insert name (Variable.fresh (.declared .scalar) VariableAttributes.none .none)
    | some { state := .unset, attributes, bashAttributes, callback, dynamicLineno } =>
      shell.insert name ⟨attributes, .declared .scalar, bashAttributes, callback, dynamicLineno⟩
    | some _ => shell
  else shell

/-- Whether the scope at `frame` already restores `name`. -/
def recorded (shell : Shell W) (frame : Nat) (name : Bytes) : Bool :=
  ((shell.table.locals[frame]?).getD []).any (restores name)

/-- The scope a declaration in the running body writes into. -/
def runningFrame (shell : Shell W) : Option Nat :=
  shell.table.functionFrames.getLast?.filter fun frame => decide (frame < shell.table.locals.length)

/-- Make `name` local to the running function body. -/
def makeLocal (host : Host W) (name : Bytes) (value : LocalValue) (shell : Shell W) : Shell W :=
  match runningFrame shell with
  | none => shell
  | some frame =>
    if recorded shell frame name then shell
    else
      match shell.entry name with
      | none =>
        (recordLocal frame (.created name) shell).insert name
          (Variable.fresh .unset VariableAttributes.none .none)
      | some previous =>
        let next := (recordLocal frame (.saved name previous) shell).insert name
          (Variable.fresh .unset VariableAttributes.none previous.callback)
        if value = .discard then runCallback host name previous.callback none next else next

/-- POSIX `local`, and an assignment written before a command. -/
def makeLocalBytes (host : Host W) (evaluate : Bytes → ShellRun W Int64) (assignment : Bytes)
    (attributes : VariableAttributes) : ShellRun W Unit := do
  let shell ← Run.get
  if assignment = text "-" then Run.modify (pushLocal (.options shell.options))
  else
    let name := (splitAssignment assignment).1
    match shell.entry name with
    | some previous => do
      Run.modify (pushLocal (.saved name previous))
      if (splitAssignment assignment).2.isSome then
        setAssignmentBytes host evaluate assignment attributes
    | none => do
      setAssignmentBytes host evaluate assignment { attributes with fixed := true }
      Run.modify (pushLocal (.created name))

def pushLocalScope (shell : Shell W) : Shell W :=
  { shell with table := { shell.table with locals := shell.table.locals ++ [[]] } }

/-- Play one record back. -/
def restoreLocal (host : Host W) (saved : LocalVariable) (shell : Shell W) : Shell W :=
  match saved with
  | .options options => host.optionsChanged { shell with options := options }
  | .created name =>
    let callback := ((shell.entry name).map (·.callback)).getD .none
    let shell := shell.setEntries (shell.table.entries.erase name)
    if callback = .locale then runCallback host name callback none shell else shell
  | .saved name previous =>
    runCallback host name previous.callback previous.scalarOwned (shell.insert name previous)

/-- Play the records of a scope back, from the last. -/
def restoreLocals (host : Host W) (scope : List LocalVariable) (shell : Shell W) : Shell W :=
  scope.foldr (restoreLocal host) shell

def popLocalScope (host : Host W) (shell : Shell W) : Shell W :=
  restoreLocals host (shell.table.locals.getLast?.getD [])
    { shell with table := { shell.table with locals := shell.table.locals.dropLast } }

/-- Pop the scopes above the first `stop`. -/
def unwindLocalScopes (host : Host W) (stop : Nat) (shell : Shell W) : Shell W :=
  (popLocalScope host)^[shell.table.locals.length - stop] shell

/-- Entering `with_function_scope`: the body owns the scope on top. -/
def enterFunction (shell : Shell W) : Shell W :=
  { shell with table := { shell.table with
      functionFrames := shell.table.functionFrames ++ [shell.table.locals.length - 1] } }

/-- Leaving `with_function_scope`. -/
def leaveFunction (shell : Shell W) : Shell W :=
  { shell with table := { shell.table with
      functionFrames := shell.table.functionFrames.dropLast } }

/-- `unwind_local_variables`. -/
def unwindLocalVariables (host : Host W) (shell : Shell W) : Shell W :=
  unwindLocalScopes host 0
    { shell with table := { shell.table with functionFrames := [] } }

end Nsh.Variables
