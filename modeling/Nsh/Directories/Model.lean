import Nsh.Commands.Search
import Nsh.Shell.Flow

/-!
# The working directory and the directory stack

`cd` moves the process and says so in `PWD`, `OLDPWD` and `DIRSTACK`; `pushd` and
`popd` move the shell with it and keep what lies below the current directory.
The operating system's part is a `Platform`: its directories are of any type `C`
and what has been written of any type `O`.
-/

namespace Nsh.Directories

open Nsh.Variables Nsh.Run

variable {W C O : Type}

inductive OutputDestination where
  | stdout
  | stderr
deriving DecidableEq, Repr

/-- Why a directory cannot be entered. -/
inductive PathError where
  | nameTooLong
  | other
deriving DecidableEq, Repr

/-- What is asked of the operating system. -/
structure Platform (C O : Type) where
  /-- `path_is_directory`, a relative path being read from the current directory. -/
  isDirectory : C → Bytes → Bool
  /-- `set_current_directory`. -/
  enter : C → Bytes → Except PathError C
  /-- `current_directory`, or the text of its error. -/
  currentDirectory : C → Except Bytes Bytes
  /-- `write_output`, which may write and fail. -/
  write : OutputDestination → Bytes → O → Option Error × O

structure Shell (W C O : Type) where
  table : Nsh.Shell W
  /-- `working_directory.logical` -/
  logical : Option Bytes
  /-- `working_directory.physical` -/
  physical : Option Bytes
  /-- Where the process is. -/
  directory : C
  /-- The directories below the current one, innermost first. -/
  below : List Bytes
  /-- Whether the special variables are published. -/
  published : Bool
  output : O
  status : Nat

abbrev DirectoryRun (W C O α : Type) := Run (Shell W C O) Error α

/-- A computation on the variables. -/
def onVariables {α : Type} (m : ShellRun W α) : DirectoryRun W C O α :=
  Run.within Shell.table (fun table shell => { shell with table := table }) m

def shellError {α : Type} (message : Bytes) : DirectoryRun W C O α :=
  onVariables (Nsh.Shell.shellError message)

/-- Where the shell thinks it is, or nothing. -/
def Shell.here (shell : Shell W C O) : Bytes := shell.logical.getD []

/-! ### `DIRSTACK` -/

/-- An indexed array of these elements. -/
def indexedArray (elements : List Bytes) : VariableValue :=
  elements.zipIdx.foldl (fun value element => value.setIndexed (UInt64.ofNat element.2) element.1)
    (VariableValue.empty .indexed)

variable (host : Host W)

def storeArray (name : Bytes) (elements : List Bytes) : DirectoryRun W C O Unit := fun shell =>
  match store host name (indexedArray elements) VariableAttributes.none .declaration
      shell.table with
  | .done _ table | .failed _ table => .done () { shell with table := table }
  | .unfinished => .unfinished

def publishDirectoryStack : DirectoryRun W C O Unit := fun shell =>
  if shell.table.options.dialect ≠ .bash ∨ shell.published = false then .done () shell
  else storeArray host (text "DIRSTACK") (shell.here :: shell.below) shell

/-! ### The current directory -/

inductive DirectoryUpdate where
  | unknown
  | current
  | new (path : Bytes)
deriving DecidableEq, Repr

variable (evaluate : Bytes → ShellRun W Int64) (platform : Platform C O)

/-- `set_bytes` of an exported name. -/
def setExported (name value : Bytes) : DirectoryRun W C O Unit :=
  onVariables (setBytes host evaluate name (some value) { exported := true })

def writeOutput (destination : OutputDestination) (bytes : Bytes) : DirectoryRun W C O Unit :=
  fun shell =>
    match platform.write destination bytes shell.output with
    | (none, output) => .done () { shell with output := output }
    | (some e, output) => .failed e { shell with output := output }

/-- Ask the operating system where the process is. -/
def askCurrentDirectory : DirectoryRun W C O (Option Bytes) := fun shell =>
  match platform.currentDirectory shell.directory with
  | .ok current => .done (some current) shell
  | .error message =>
    (do
      onVariables (Nsh.Shell.warn (text "getcwd() failed: " ++ message))
      pure none) shell

/-- The part of `update_current_directory` that interrupts are held back for. -/
def adoptDirectory (update : DirectoryUpdate) : DirectoryRun W C O Unit := do
  Run.modify fun shell => { shell with physical := none }
  match update with
  | .new path => Run.modify fun shell => { shell with logical := some path }
  | .unknown => do
    let current ← askCurrentDirectory platform
    Run.modify fun shell => { shell with logical := current, physical := current }
  | .current => do
    let current ← askCurrentDirectory platform
    Run.modify fun shell => { shell with physical := current }

def updateCurrentDirectory (update : DirectoryUpdate) (setOld : Bool) :
    DirectoryRun W C O Unit := do
  if setOld then do
    let shell ← Run.get
    setExported host evaluate (text "OLDPWD") shell.here
  adoptDirectory platform update
  let shell ← Run.get
  setExported host evaluate (text "PWD") shell.here
  publishDirectoryStack host

/-! ### `cd` -/

structure CdOptions where
  physical : Bool
  print : Bool
  errorIfUnknown : Bool
deriving DecidableEq, Repr

inductive CdResult where
  | changed
  | changedPwdUnknown
  | failed
deriving DecidableEq, Repr

def cdLetters (options : CdOptions) : Bytes → DirectoryRun W C O CdOptions
  | [] => pure options
  | letter :: rest =>
    if letter = chr 'e' then cdLetters { options with errorIfUnknown := true } rest
    else if letter = chr 'P' then cdLetters { options with physical := true } rest
    else if letter = chr 'L' then cdLetters { options with physical := false } rest
    else shellError (text "Illegal option -" ++ [letter])

/-- The options and the operands of `cd`'s words. -/
def parseCdOptions (options : CdOptions) : List Bytes → DirectoryRun W C O (CdOptions × List Bytes)
  | [] => pure (options, [])
  | word :: rest =>
    if word.head? ≠ some (chr '-') ∨ word.length < 2 then pure (options, word :: rest)
    else if word = text "--" then pure (options, rest)
    else do
      let options ← cdLetters options (word.drop 1)
      parseCdOptions options rest

def pathIsAbsolute (path : Bytes) : Bool := path.head? == some (chr '/')

/-- Take the last component off a path that ends in a slash, back to the limit. -/
def popComponent (limit : Nat) (path : Bytes) : Bytes :=
  if path.length ≤ limit then path
  else
    let shorter := path.dropLast
    if shorter.getLast? = some (chr '/') then shorter else popComponent limit shorter
termination_by path.length
decreasing_by
  rw [List.length_dropLast]
  omega

/-- One component of `logical_path`. -/
def appendComponent (isDirectory : Bytes → Bool) (limit : Nat) (path component : Bytes) :
    Option Bytes :=
  if component = [] ∨ component = text "." then some path
  else if component = text ".." then
    if limit < path.length ∧ isDirectory path = false then none else some (popComponent limit path)
  else some (path ++ component ++ [chr '/'])

/-- `nsh_platform::logical_path` -/
def logicalPath (isDirectory : Bytes → Bool) (current : Option Bytes) (dir : Bytes) :
    Option Bytes := do
  let (start, limit) ←
    if pathIsAbsolute dir then
      if dir[1]? = some (chr '/') ∧ dir[2]? ≠ some (chr '/') then some (text "//", 2)
      else some (text "/", 1)
    else
      current.map fun current =>
        let start := if current.getLast? = some (chr '/') then current else current ++ [chr '/']
        (start, if start[1]? = some (chr '/') then 2 else 1)
  let path ← (dir.splitOn (chr '/')).foldlM (appendComponent isDirectory limit) start
  some (if limit < path.length then path.dropLast else path)

def updateLogicalDirectory (shell : Shell W C O) (dir : Bytes) : Option Bytes :=
  logicalPath (platform.isDirectory shell.directory) shell.logical dir

/-- The `chdir` of `change_directory`: to the logical path, or to the operand as it was
written where the logical path is too long. -/
def enterDirectory (shell : Shell W C O) (logical : Option Bytes) (dest : Bytes) : Option C :=
  match platform.enter shell.directory (logical.getD dest) with
  | .ok directory => some directory
  | .error .nameTooLong =>
    if logical.isSome ∧ pathIsAbsolute dest = false then
      (platform.enter shell.directory dest).toOption
    else none
  | .error .other => none

def changeDirectory (dest : Bytes) (options : CdOptions) : DirectoryRun W C O CdResult := do
  let shell ← Run.get
  let logical := if options.physical then none else updateLogicalDirectory platform shell dest
  match enterDirectory platform shell logical dest with
  | none => pure .failed
  | some directory => do
    Run.modify fun shell => { shell with directory := directory }
    updateCurrentDirectory host evaluate platform
      (match logical with | some dir => .new dir | none => .unknown) true
    let shell ← Run.get
    pure (if logical = none ∧ shell.logical = none then .changedPwdUnknown else .changed)

def cannotChange {α : Type} (dest : Bytes) : DirectoryRun W C O α :=
  shellError (text "can't cd to " ++ dest)

/-- `changeDirectory`, a failure being an error. -/
def changeDirectoryOrFail (dest : Bytes) (options : CdOptions) : DirectoryRun W C O CdResult := do
  match ← changeDirectory host evaluate platform dest options with
  | .failed => cannotChange dest
  | result => pure result

/-- `PathCursor::literal(..).advance` -/
def literalCandidate (component name : Bytes) : Bytes :=
  if component = [] then name else component ++ chr '/' :: name

/-- The walk along `CDPATH`: the first component under which the operand is a directory. -/
def searchDirectories (dest : Bytes) (options : CdOptions) :
    List Bytes → DirectoryRun W C O (Option (CdResult × CdOptions))
  | [] => pure none
  | component :: rest => do
    let shell ← Run.get
    if platform.isDirectory shell.directory (literalCandidate component dest) then do
      let options := if component = [] then options else { options with print := true }
      match ← changeDirectory host evaluate platform (literalCandidate component dest) options with
      | .failed => cannotChange dest
      | result => pure (some (result, options))
    else searchDirectories dest options rest

def lookupOrEmpty (name : Bytes) : DirectoryRun W C O Bytes := do
  let value ← onVariables (lookupBytes host name)
  pure (value.getD [])

/-- What the operand of `cd` asks for, and the options with `print` noted. -/
def cdDestination (options : CdOptions) : Option Bytes → DirectoryRun W C O (Bytes × CdOptions)
  | none => do
    let home ← lookupOrEmpty host (text "HOME")
    pure (home, options)
  | some operand =>
    if operand = [] then shellError (text "can't cd to an empty directory")
    else if operand = text "-" then do
      let old ← lookupOrEmpty host (text "OLDPWD")
      pure (old, { options with print := true })
    else pure (operand, options)

/-- Whether a destination is not looked for along `CDPATH`. -/
def skipsSearch (dest : Bytes) : Bool :=
  pathIsAbsolute dest || dest == text "." || (text "./").isPrefixOf dest || dest == text ".." ||
    (text "../").isPrefixOf dest

/-- Where the shell has been moved to, and the options with `print` noted. -/
def cdMove (dest : Bytes) (options : CdOptions) : DirectoryRun W C O (CdResult × CdOptions) :=
  if skipsSearch dest then do
    let result ← changeDirectoryOrFail host evaluate platform dest options
    pure (result, options)
  else do
    let dest := if dest = [] then text "." else dest
    let path ← lookupOrEmpty host (text "CDPATH")
    match ← searchDirectories host evaluate platform dest options (Commands.components path) with
    | some moved => pure moved
    | none => do
      let result ← changeDirectoryOrFail host evaluate platform dest options
      pure (result, options)

/-- `cd::run` on the words behind the command name. -/
def cd (words : List Bytes) : DirectoryRun W C O Flow := do
  let (options, operands) ← parseCdOptions ⟨false, false, false⟩ words
  let (dest, options) ← cdDestination host options operands.head?
  let (result, options) ← cdMove host evaluate platform dest options
  if options.print then do
    let shell ← Run.get
    writeOutput platform .stdout (shell.here ++ [0x0a])
  pure (.done (if result = .changedPwdUnknown ∧ options.physical ∧ options.errorIfUnknown then 1
    else 0))

/-! ### `pushd` and `popd` -/

/-- What `dirs` was asked to print. -/
structure Format where
  clear : Bool := false
  numbered : Bool := false
  perLine : Bool := false
  literal : Bool := false
deriving DecidableEq, Repr

/-- `$HOME` at the front of a path becomes `~`. -/
def abbreviate (path home : Bytes) : Bytes :=
  if home = [] then path
  else if path = home then text "~"
  else if home.isPrefixOf path ∧ (path.drop home.length).head? = some (chr '/') then
    chr '~' :: path.drop home.length
  else path

/-- A number in two columns at least. -/
def position2 (position : Nat) : Bytes :=
  List.replicate (2 - (decimalNat position).length) (chr ' ') ++ decimalNat position

/-- One entry of what `dirs` prints. -/
def stackEntry (format : Format) (home : Bytes) (position : Nat) (entry : Bytes) : Bytes :=
  (if format.numbered then position2 position ++ text "  "
    else if format.perLine then []
    else if 0 < position then text " " else []) ++
    (if format.literal then entry else abbreviate entry home) ++
    (if format.numbered ∨ format.perLine then [0x0a] else [])

def writeStack (format : Format) : DirectoryRun W C O Unit := do
  let home ← lookupOrEmpty host (text "HOME")
  let shell ← Run.get
  let line := (shell.here :: shell.below).zipIdx.flatMap fun entry =>
    stackEntry format home entry.2 entry.1
  writeOutput platform .stdout
    (if format.numbered ∨ format.perLine then line else line ++ [0x0a])

/-- `change_to`: whether the shell went. -/
def changeTo (target : Bytes) : DirectoryRun W C O Bool := fun shell =>
  match cd host evaluate platform [target] shell with
  | .done (.done status) shell => .done status.success shell
  | .done _ shell => .done false shell
  | .failed e shell => .done false { shell with status := e.status }
  | .unfinished => .unfinished

/-- The outcome of writing this message is dropped. -/
def refuseOption (name word : Bytes) : DirectoryRun W C O (Except ExitStatus (List Bytes)) :=
  fun shell =>
    let written := platform.write .stderr (name ++ text ": " ++ word ++ text ": invalid option\n")
      shell.output
    .done (.error 2) { shell with output := written.2 }

/-- `options_end`: the operands, or the status of a refusal. -/
def optionsEnd (name : Bytes) : List Bytes → DirectoryRun W C O (Except ExitStatus (List Bytes))
  | [] => pure (.ok [])
  | word :: rest =>
    if word = text "--" then pure (.ok rest)
    else if 2 ≤ word.length ∧ word.head? = some (chr '-') then refuseOption platform name word
    else pure (.ok (word :: rest))

def usage (message : Bytes) : DirectoryRun W C O Flow := do
  writeOutput platform .stderr message
  pure (.done 2)

/-- What `pushd` and `popd` do once they have changed the stack. -/
def publishAndWrite : DirectoryRun W C O Flow := do
  publishDirectoryStack host
  writeStack host platform {}
  pure (.done .ofSuccess)

/-- Move to a directory and make the old one part of the stack. -/
def moveAndKeep (target : Bytes) (keep : Bytes → List Bytes → List Bytes) :
    DirectoryRun W C O Flow := do
  let before ← Run.get
  let moved ← changeTo host evaluate platform target
  if moved then do
    Run.modify fun shell => { shell with below := keep before.here shell.below }
    publishAndWrite host platform
  else pure (.done .ofFailure)

/-- `pushd` with its operands. -/
def pushd : List Bytes → DirectoryRun W C O Flow
  | _ :: _ :: _ => usage platform (text "pushd: too many arguments\n")
  | [target] => moveAndKeep host evaluate platform target fun here below => here :: below
  | [] => fun shell =>
    match shell.below with
    | [] => usage platform (text "pushd: no other directory on the directory stack\n") shell
    | other :: _ =>
      moveAndKeep host evaluate platform other (fun here below => below.set 0 here) shell

def runPushd (words : List Bytes) : DirectoryRun W C O Flow := do
  match ← optionsEnd platform (text "pushd") words with
  | .error status => pure (.done status)
  | .ok operands => pushd host evaluate platform operands

/-- Move to an entry that has been taken off the stack. -/
def returnTo (target : Bytes) : DirectoryRun W C O Flow := do
  let moved ← changeTo host evaluate platform target
  if moved then publishAndWrite host platform else pure (.done .ofFailure)

/-- `popd` with nothing below the current directory. -/
def stackEmpty : DirectoryRun W C O Flow := do
  writeOutput platform .stderr (text "popd: directory stack empty\n")
  pure (.done .ofFailure)

/-- `popd` with its operands. -/
def popd : List Bytes → DirectoryRun W C O Flow
  | _ :: _ => usage platform (text "popd: too many arguments\n")
  | [] => fun shell =>
    match shell.below with
    | [] => stackEmpty platform shell
    | target :: below =>
      -- the entry is taken off the stack before the shell has moved to it
      returnTo host evaluate platform target { shell with below := below }

def runPopd (words : List Bytes) : DirectoryRun W C O Flow := do
  match ← optionsEnd platform (text "popd") words with
  | .error status => pure (.done status)
  | .ok operands => popd host evaluate platform operands

end Nsh.Directories
