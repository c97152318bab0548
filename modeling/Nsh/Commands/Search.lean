import Nsh.Lib.FirstAnswer
import Nsh.Variables.Operations

/-!
# Finding a command

What a name runs: a function, a built-in, or a file some component of `PATH`
names.  The command table remembers answers, and a search for a remembered name
that a `cd` put in doubt relies on the part of it that cannot have changed.
Functions share the table.
-/

namespace Nsh.Commands

open Nsh Nsh.FirstAnswer

/-! ### The built-ins -/

structure BuiltinAttributes where
  isSpecial : Bool
  isRegular : Bool
  takesAssignments : Bool
deriving DecidableEq, Repr

namespace BuiltinAttributes

def noAttributes : BuiltinAttributes := ⟨false, false, false⟩

def regular : BuiltinAttributes := ⟨false, true, false⟩

def regularAssignment : BuiltinAttributes := ⟨false, true, true⟩

def special : BuiltinAttributes := ⟨true, true, false⟩

def specialAssignment : BuiltinAttributes := ⟨true, true, true⟩

end BuiltinAttributes

/-- A row of the registry; its name tells it from the others. -/
structure BuiltinSpec where
  name : Bytes
  attributes : BuiltinAttributes
deriving DecidableEq, Repr

def builtins : List BuiltinSpec :=
  [⟨text ".", .special⟩, ⟨text ":", .special⟩, ⟨text "[", .noAttributes⟩,
    ⟨text "alias", .regularAssignment⟩, ⟨text "bg", .regular⟩, ⟨text "break", .special⟩,
    ⟨text "cd", .regular⟩, ⟨text "chdir", .noAttributes⟩, ⟨text "command", .regular⟩,
    ⟨text "continue", .special⟩, ⟨text "echo", .noAttributes⟩, ⟨text "eval", .special⟩,
    ⟨text "exec", .special⟩, ⟨text "exit", .special⟩, ⟨text "export", .specialAssignment⟩,
    ⟨text "false", .regular⟩, ⟨text "fc", .regular⟩, ⟨text "fg", .regular⟩,
    ⟨text "getopts", .regular⟩, ⟨text "hash", .regular⟩, ⟨text "history", .regular⟩,
    ⟨text "jobs", .regular⟩, ⟨text "kill", .regular⟩, ⟨text "local", .specialAssignment⟩,
    ⟨text "printf", .noAttributes⟩, ⟨text "pwd", .regular⟩, ⟨text "read", .regular⟩,
    ⟨text "readonly", .specialAssignment⟩, ⟨text "return", .special⟩, ⟨text "set", .special⟩,
    ⟨text "shift", .special⟩, ⟨text "source", .special⟩, ⟨text "test", .noAttributes⟩,
    ⟨text "times", .special⟩, ⟨text "trap", .special⟩, ⟨text "true", .regular⟩,
    ⟨text "type", .regular⟩, ⟨text "ulimit", .regular⟩, ⟨text "umask", .regular⟩,
    ⟨text "unalias", .regular⟩, ⟨text "unset", .special⟩, ⟨text "wait", .regular⟩]

def bashBuiltins : List BuiltinSpec :=
  [⟨text "builtin", .special⟩, ⟨text "caller", .regular⟩, ⟨text "declare", .regularAssignment⟩,
    ⟨text "dirs", .regular⟩, ⟨text "enable", .regular⟩, ⟨text "help", .regular⟩,
    ⟨text "let", .regular⟩, ⟨text "mapfile", .regular⟩, ⟨text "popd", .regular⟩,
    ⟨text "pushd", .regular⟩, ⟨text "readarray", .regular⟩, ⟨text "shopt", .noAttributes⟩,
    ⟨text "typeset", .regularAssignment⟩]

/-- The row of a name, as the dialect has it. -/
def registered (dialect : Dialect) (name : Bytes) : Option BuiltinSpec :=
  let bash := if dialect = .bash then bashBuiltins.find? (fun spec => spec.name = name) else none
  bash.orElse fun _ => builtins.find? (fun spec => spec.name = name)

/-- The names `enable -n` has switched off. -/
abbrev DisabledBuiltins := List Bytes

section

local instance lawfulBEqName : LawfulBEq Bytes := inferInstance

/-- The built-in of a name, unless it is switched off. -/
def builtinOf (disabled : DisabledBuiltins) (dialect : Dialect) (name : Bytes) :
    Option BuiltinSpec :=
  if name ∈ disabled then none else registered dialect name

end

/-! ### Files -/

/-- What asking for the metadata of a path comes to. -/
inductive FileStatus where
  | notFound
  | failed (error : ℕ)
  | found (isRegular : Bool) (mode : ℕ)
deriving DecidableEq, Repr

/-- A file system that does not change, seen from the directories of `P`. -/
structure FileSystem (P : Type) where
  metadata : P → Bytes → FileStatus
  /-- `test_file_access` for execution -/
  mayExecute : P → Bytes → Bool
  metadata_absolute : ∀ p q path, path.head? = some (chr '/') → metadata p path = metadata q path
  mayExecute_absolute : ∀ p q path, path.head? = some (chr '/') →
    mayExecute p path = mayExecute q path

variable {F P : Type}

def isAbsolute (path : Bytes) : Bool := path.head? == some (chr '/')

def hasSeparator (path : Bytes) : Bool := path.contains (chr '/')

def isExecutableCandidate (fs : FileSystem P) (place : P) (path : Bytes) (isRegular : Bool)
    (mode : ℕ) : Bool :=
  isRegular && (mode &&& 0o111 == 0o111 || fs.mayExecute place path)

/-! ### The search path -/

/-- One candidate of the search path, and the `%option` its component carried. -/
structure PathAdvance where
  path : Bytes
  option : Option Bytes
deriving DecidableEq, Repr

def legalPathOption (option : Bytes) : Bool :=
  (text "builtin").isPrefixOf option || (text "func").isPrefixOf option

/-- The directory of a component, and its option. -/
def componentParts (component : Bytes) : Bytes × Option Bytes :=
  match component.idxOf? (chr '%') with
  | none => (component, none)
  | some 0 =>
    let stripped := component.drop 1
    if legalPathOption stripped then
      (stripped.drop (if (text "builtin").isPrefixOf stripped then 7 else 4), some stripped)
    else (component, none)
  | some percent =>
    let candidate := component.drop (percent + 1)
    if legalPathOption candidate then (component.take percent, some candidate)
    else (component, none)

/-- `PathCursor::advance` -/
def advance (name component : Bytes) : PathAdvance :=
  let (directory, option) := componentParts component
  { path := if directory = [] then name else directory ++ chr '/' :: name, option }

def components (path : Bytes) : List Bytes := path.splitOn (chr ':')

def candidates (path name : Bytes) : List PathAdvance := (components path).map (advance name)

/-- Where `%builtin` stands in a search path. -/
def builtinLocation (path : Bytes) : Option ℕ :=
  (components path).findIdx? fun component => (text "%builtin").isPrefixOf component

/-! ### The table -/

inductive Command (F : Type) where
  | unknown
  | external (pathIndex : Option ℕ)
  | function (definition : F)
  | builtin (spec : BuiltinSpec)
deriving DecidableEq, Repr

def Command.isFunction : Command F → Bool
  | .function _ => true
  | _ => false

def Command.isBuiltin : Command F → Bool
  | .builtin _ => true
  | _ => false

structure CommandEntry (F : Type) where
  command : Command F
  rehash : Bool
  hits : ℕ
  /-- The path `hash -p` gave the name, used in place of a search. -/
  pinned : Option Bytes

/-- Whether `%builtin` stands behind the first component. -/
def behindFirst (location : Option ℕ) : Bool := location.any fun index => decide (0 < index)

def CommandEntry.pathDependent (entry : CommandEntry F) (location : Option ℕ) : Bool :=
  match entry.command with
  | .external _ => true
  | .builtin spec => !spec.attributes.isRegular && behindFirst location
  | _ => false

structure CommandTable (F : Type) where
  map : Bytes → Option (CommandEntry F)
  builtinLocation : Option ℕ
  /-- The dialect under which cached built-ins were classified. -/
  dispatchDialect : Dialect

namespace CommandTable

def set (table : CommandTable F) (name : Bytes) (entry : Option (CommandEntry F)) :
    CommandTable F :=
  { table with map := fun other => if other = name then entry else table.map other }

/-- Keep the entries `keep` says. -/
def retain (table : CommandTable F) (keep : CommandEntry F → Bool) : CommandTable F :=
  { table with map := fun name => (table.map name).filter keep }

def cacheCommand (table : CommandTable F) (name : Bytes) (command : Command F) : CommandTable F :=
  table.set name (some { command, rehash := false, hits := 0, pinned := none })

def removeCommandEntry (table : CommandTable F) (name : Bytes) : CommandTable F :=
  table.set name none

def u32Max : ℕ := 2 ^ 32 - 1

/-- Only an external counts its hits. -/
def noteHit (table : CommandTable F) (name : Bytes) : CommandTable F :=
  match table.map name with
  | some { command := .external index, rehash, hits, pinned } =>
    table.set name
      (some { command := .external index, rehash, hits := min (hits + 1) u32Max, pinned })
  | _ => table

def defineFunction (table : CommandTable F) (name : Bytes) (definition : F) : CommandTable F :=
  table.cacheCommand name (.function definition)

def unsetFunction (table : CommandTable F) (name : Bytes) : CommandTable F :=
  if (table.map name).any fun entry => entry.command.isFunction then table.removeCommandEntry name
  else table

def clearCommandCache (table : CommandTable F) : CommandTable F :=
  table.retain fun entry => !entry.pathDependent table.builtinLocation

def updateSearchPath (table : CommandTable F) (path : Bytes) : CommandTable F :=
  { table with builtinLocation := Commands.builtinLocation path }.clearCommandCache

def invalidateCacheAfterDirectoryChange (table : CommandTable F) : CommandTable F :=
  { table with map := fun name => (table.map name).map fun entry =>
      if entry.pathDependent table.builtinLocation then { entry with rehash := true } else entry }

def invalidateDispatch (table : CommandTable F) (dialect : Dialect) : CommandTable F :=
  { table.retain fun entry => !entry.command.isBuiltin with dispatchDialect := dialect }

def ensureDispatch (table : CommandTable F) (dialect : Dialect) : CommandTable F :=
  if table.dispatchDialect ≠ dialect then table.invalidateDispatch dialect else table

end CommandTable

/-- What the shell keeps for finding commands, and where it stands. -/
structure World (F P : Type) where
  commands : CommandTable F
  disabledBuiltins : DisabledBuiltins
  directory : P

def pathName : Bytes := text "PATH"

def pathValue (shell : Shell (World F P)) : Bytes :=
  ((shell.entry pathName).bind Variable.scalarOwned).getD []

/-- `execution::builtin` -/
def builtin (shell : Shell (World F P)) (name : Bytes) : Option BuiltinSpec :=
  builtinOf shell.world.disabledBuiltins shell.options.dialect name

/-! ### The search -/

structure CommandSearch where
  reportErrors : Bool := false
  checkAbsolute : Bool := false
  skipFunctions : Bool := false
  alternatePath : Bool := false
  regularBuiltinsOnly : Bool := false
  countHit : Bool := true
deriving DecidableEq, Repr

/-- What one component answers. -/
inductive Answer where
  | builtin (spec : BuiltinSpec)
  /-- The remembered command stands. -/
  | remembered
  | commandFile (path : Bytes)
  | external (index : ℕ)
deriving DecidableEq, Repr

def isFile : FileStatus → Bool
  | .found _ _ => true
  | _ => false

/-- What the file a candidate names answers. -/
def askFile (fs : FileSystem P) (place : P) (index : ℕ) (candidate : PathAdvance) :
    Option Answer :=
  match fs.metadata place candidate.path with
  | .notFound | .failed _ => none
  | .found isRegular mode =>
    if candidate.option.isSome then some (.commandFile candidate.path)
    else if isExecutableCandidate fs place candidate.path isRegular mode then
      some (.external index)
    else none

/-- One component, in the search for a name whose built-in is `spec`.  `previous` is
    where an earlier search found it: in front of that nothing absolute is asked
    again. -/
def askComponent (fs : FileSystem P) (place : P) (spec : Option BuiltinSpec)
    (skipFunctions : Bool) (previous : Option ℕ) (index : ℕ) (candidate : PathAdvance) :
    Option Answer :=
  if (candidate.option.bind List.head?) = some (chr 'b') then spec.map .builtin
  else if candidate.option.isSome && skipFunctions then none
  else if isAbsolute candidate.path && previous.any (fun previous => decide (index ≤ previous)) then
    if previous.any (fun previous => decide (index < previous)) then none else some .remembered
  else askFile fs place index candidate

/-- Why a search that found nothing failed, for the report. -/
inductive SearchError where
  | notFound
  | permissionDenied
  | other (error : ℕ)
deriving DecidableEq, Repr

/-- The error a candidate leaves behind that was asked and is not the answer. -/
def candidateError (fs : FileSystem P) (place : P) (skipFunctions : Bool) (previous : Option ℕ)
    (index : ℕ) (candidate : PathAdvance) : Option SearchError :=
  if candidate.option.isSome &&
      ((candidate.option.bind List.head?) = some (chr 'b') || skipFunctions) then none
  else if isAbsolute candidate.path && previous.any (fun previous => decide (index < previous)) then
    none
  else
    match fs.metadata place candidate.path with
    | .notFound => none
    | .failed error => some (.other error)
    | .found _ _ => some .permissionDenied

def searchError (fs : FileSystem P) (place : P) (skipFunctions : Bool) (previous : Option ℕ)
    (path name : Bytes) : SearchError :=
  ((candidates path name).zipIdx.filterMap fun (candidate, index) =>
    candidateError fs place skipFunctions previous index candidate).getLastD .notFound

/-- What a search ends with: a command, or a file to read that has to define it. -/
inductive Found (F : Type) where
  | command (command : Command F)
  | commandFile (path : Bytes)
deriving DecidableEq, Repr

/-- How a search ends, and the table it leaves. -/
structure Lookup (F : Type) where
  found : Found F
  table : CommandTable F
  report : Option SearchError := none

/-- Whether a remembered command is not what the search asks for. -/
def Command.conflicts (search : CommandSearch) : Command F → Bool
  | .function _ => search.skipFunctions
  | .builtin spec => !spec.attributes.isRegular && search.regularBuiltinsOnly
  | .external _ | .unknown => search.alternatePath || search.regularBuiltinsOnly

/-- Whether a built-in is found before the search path is walked. -/
def foundDirectly (spec : BuiltinSpec) (alternatePath : Bool) (location : Option ℕ) : Bool :=
  spec.attributes.isRegular || alternatePath || !behindFirst location

/-- Where an earlier search found a command that is now in doubt. -/
def previousIndex (location : Option ℕ) : Option (Command F) → Option ℕ
  | some (.builtin _) => location
  | some (.external index) => index
  | _ => none

/-- Keep an answer, if the table is to be updated. -/
def keepAnswer (table : CommandTable F) (name : Bytes) (updateTable : Bool) (command : Command F) :
    Lookup F :=
  { found := .command command
    table := if updateTable then table.cacheCommand name command else table }

/-- The remembered command stands after all. -/
def standsAgain (table : CommandTable F) (name : Bytes) (search : CommandSearch)
    (command : Command F) : Lookup F :=
  let table := match table.map name with
    | some entry => table.set name (some { entry with rehash := false })
    | none => table
  { found := .command command, table := if search.countHit then table.noteHit name else table }

/-- The search behind the table.  `cached` is the remembered command, if it is in
    doubt. -/
def searchOn (fs : FileSystem P) (shell : Shell (World F P)) (table : CommandTable F)
    (name : Bytes) (search : CommandSearch) (path : Bytes) (cached : Option (Command F))
    (updateTable : Bool) : Lookup F :=
  let spec := builtin shell name
  match spec.filter fun spec => foundDirectly spec search.alternatePath table.builtinLocation with
  | some spec => keepAnswer table name updateTable (.builtin spec)
  | none =>
    if search.regularBuiltinsOnly then { found := .command .unknown, table }
    else
      let previous := previousIndex table.builtinLocation cached
      match firstAnswer
          (askComponent fs shell.world.directory spec search.skipFunctions previous) 0
          (candidates path name) with
      | some (.builtin spec) => keepAnswer table name updateTable (.builtin spec)
      | some .remembered => standsAgain table name search (cached.getD .unknown)
      | some (.commandFile path) => { found := .commandFile path, table }
      | some (.external index) =>
        let kept := keepAnswer table name updateTable (.external (some index))
        if updateTable && search.countHit then { kept with table := kept.table.noteHit name }
        else kept
      | none =>
        { found := .command .unknown
          table := if cached.isSome && updateTable then table.removeCommandEntry name else table
          report := if search.reportErrors then
            some (searchError fs shell.world.directory search.skipFunctions previous path name)
            else none }

/-- A Bash function whose name a POSIX shell would read as a pathname. -/
def bashPathNamedFunction (shell : Shell (World F P)) (table : CommandTable F) (name : Bytes)
    (search : CommandSearch) : Option (Command F) :=
  if shell.options.dialect ≠ .bash ∨ search.skipFunctions ∨ search.regularBuiltinsOnly ∨
      ¬hasSeparator name then none
  else ((table.map name).map (·.command)).filter Command.isFunction

/-- The file a name with a slash is. -/
def pathNamedFile (fs : FileSystem P) (place : P) (name : Bytes) (checkAbsolute : Bool) :
    Command F :=
  let executable := match fs.metadata place name with
    | .found isRegular mode => isExecutableCandidate fs place name isRegular mode
    | _ => false
  if checkAbsolute && !executable then .unknown else .external none

def findCommand (fs : FileSystem P) (shell : Shell (World F P)) (name : Bytes)
    (search : CommandSearch) (path : Bytes) : Lookup F :=
  let table := shell.world.commands.ensureDispatch shell.options.dialect
  match bashPathNamedFunction shell table name search with
  | some function => { found := .command function, table }
  | none =>
    if hasSeparator name then
      { found := .command (pathNamedFile fs shell.world.directory name search.checkAbsolute)
        table }
    else
      let updateTable := decide (path = pathValue shell)
      let search := if updateTable then search else { search with alternatePath := true }
      match table.map name with
      | none => searchOn fs shell table name search path none updateTable
      | some entry =>
        if entry.command.conflicts search then
          if search.regularBuiltinsOnly && !entry.command.isFunction then
            { found := .command .unknown, table }
          else searchOn fs shell table name search path none false
        else if entry.rehash then
          searchOn fs shell table name search path (some entry.command) updateTable
        else
          { found := .command entry.command
            table := if search.countHit then table.noteHit name else table }

end Nsh.Commands
