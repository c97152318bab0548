import Nsh.Commands.Search

/-!
# Pinned names

`hash -p` writes an entry of the command table by hand, and a name that has one is run by the
path it was given.  The entry is an external one like any other: a directory change puts it in
doubt, and the next search for the name writes over it or drops it.
-/

namespace Nsh.Commands

open Nsh Nsh.FirstAnswer

variable {F P : Type}

namespace CommandTable

def pin (table : CommandTable F) (name path : Bytes) : CommandTable F :=
  table.set name
    (some { command := .external none, rehash := false, hits := 0, pinned := some path })

def pinnedPath (table : CommandTable F) (name : Bytes) : Option Bytes :=
  (table.map name).bind (·.pinned)

def restartHitCount (table : CommandTable F) (name : Bytes) : CommandTable F :=
  match table.map name with
  | some entry => table.set name (some { entry with hits := 0 })
  | none => table

/-- What follows the reading of a command file: the function it defined is not in doubt. -/
def commandFileRead (table : CommandTable F) (name : Bytes) : CommandTable F :=
  match table.map name with
  | some entry =>
    if entry.command.isFunction then table.set name (some { entry with rehash := false }) else table
  | none => table

end CommandTable

/-- The path an entry stands for, or none where it is no external. -/
def entryPath (entry : CommandEntry F) (name path : Bytes) : Option Bytes :=
  match entry.pinned with
  | some pinned => some pinned
  | none =>
    match entry.command with
    | .external (some index) => ((candidates path name)[index]?).map (·.path)
    | _ => none

/-! ### `hash` and the run of a name -/

def withCommands (shell : Shell (World F P)) (commands : CommandTable F) : Shell (World F P) :=
  { shell with world := { shell.world with commands } }

/-- `hash name` -/
def populate (fs : FileSystem P) (shell : Shell (World F P)) (name : Bytes) : CommandTable F :=
  let commands := shell.world.commands
  let stale := (commands.map name).any fun entry => entry.pathDependent commands.builtinLocation
  let shell := if stale then withCommands shell (commands.removeCommandEntry name) else shell
  let lookup := findCommand fs shell name { reportErrors := true, countHit := false }
    (pathValue shell)
  match lookup.found with
  | .command .unknown | .commandFile _ => lookup.table
  | .command _ => lookup.table.restartHitCount name

/-- `hash -d name` -/
def forget (shell : Shell (World F P)) (name : Bytes) : CommandTable F :=
  let commands := shell.world.commands
  match (commands.map name).bind fun entry => entryPath entry name (pathValue shell) with
  | some _ => commands.removeCommandEntry name
  | none => commands

/-- `hash -t name` -/
def consult (shell : Shell (World F P)) (name : Bytes) : CommandTable F :=
  let commands := shell.world.commands
  match (commands.map name).bind fun entry => entryPath entry name (pathValue shell) with
  | some _ => commands.noteHit name
  | none => commands

/-- The file a command is executed from. -/
inductive Program where
  | pinned (path : Bytes)
  | file (path : Bytes)
  | search (pathIndex : Option ℕ)
deriving DecidableEq, Repr

/-- `execute_external_command`: a pinned path is executed as it is. -/
def executeExternalCommand (table : CommandTable F) (name : Bytes) (pathIndex : Option ℕ) :
    Program :=
  if hasSeparator name then .file name
  else
    match table.pinnedPath name with
    | some path => .pinned path
    | none => .search pathIndex

/-- What a simple command runs. -/
inductive Ran (F : Type) where
  | unknown
  | builtin (spec : BuiltinSpec)
  | function (definition : F)
  | external (program : Program)
  | commandFile (path : Bytes)
deriving DecidableEq, Repr

/-- `run_resolved_command` -/
def runResolvedCommand (lookup : Lookup F) (name : Bytes) : Ran F :=
  match lookup.found with
  | .command .unknown => .unknown
  | .command (.builtin spec) => .builtin spec
  | .command (.function definition) => .function definition
  | .command (.external index) => .external (executeExternalCommand lookup.table name index)
  | .commandFile path => .commandFile path

/-- A simple command of this name, with no assignment in front: what it runs, and the table
its searches leave.  A regular built-in is found before the redirections, and everything else
is looked for behind them. -/
def runCommand (fs : FileSystem P) (shell : Shell (World F P)) (name : Bytes) :
    Ran F × CommandTable F :=
  let first := findCommand fs shell name { regularBuiltinsOnly := true } (pathValue shell)
  let regular := match first.found with
    | .command (.builtin spec) => spec.attributes.isRegular
    | _ => false
  if regular then (runResolvedCommand first name, first.table)
  else
    let shell := withCommands shell first.table
    let second := findCommand fs shell name { reportErrors := true } (pathValue shell)
    (runResolvedCommand second name, second.table)

/-! ### What is done between two runs -/

inductive Operation (F P : Type) where
  /-- A search for a name along a path, as `type`, `command` and a definition under `set -h`
  make one. -/
  | lookup (fs : FileSystem P) (name : Bytes) (search : CommandSearch) (path : Bytes)
  | run (fs : FileSystem P) (name : Bytes)
  | changeDirectory (place : P)
  | define (name : Bytes) (definition : F)
  | unset (name : Bytes)
  | hash (fs : FileSystem P) (name : Bytes)
  | pin (name path : Bytes)
  | forget (name : Bytes)
  | consult (name : Bytes)
  | clear
  | commandFileRead (name : Bytes) (hashed : Bool)
  | enable (disabled : DisabledBuiltins)
  /-- An option was set and the dialect is what it was. -/
  | dispatchChanged

def perform (shell : Shell (World F P)) : Operation F P → Shell (World F P)
  | .lookup fs name search path =>
    withCommands shell (findCommand fs shell name search path).table
  | .run fs name => withCommands shell (runCommand fs shell name).2
  | .changeDirectory place =>
    let commands := shell.world.commands.invalidateCacheAfterDirectoryChange
    { shell with world := { shell.world with commands, directory := place } }
  | .define name definition =>
    withCommands shell (shell.world.commands.defineFunction name definition)
  | .unset name => withCommands shell (shell.world.commands.unsetFunction name)
  | .hash fs name => withCommands shell (populate fs shell name)
  | .pin name path => withCommands shell (shell.world.commands.pin name path)
  | .forget name => withCommands shell (forget shell name)
  | .consult name => withCommands shell (consult shell name)
  | .clear => withCommands shell shell.world.commands.clearCommandCache
  | .commandFileRead name hashed =>
    let table := shell.world.commands.commandFileRead name
    withCommands shell (if hashed then table.restartHitCount name else table)
  | .enable disabled => { shell with world := { shell.world with disabledBuiltins := disabled } }
  | .dispatchChanged =>
    withCommands shell (shell.world.commands.invalidateDispatch shell.options.dialect)

def performAll (shell : Shell (World F P)) (ops : List (Operation F P)) : Shell (World F P) :=
  ops.foldl perform shell

namespace Operation

/-- Operations that leave the pin of a name to itself: all but those that hash, forget or pin
it again, clear the table, or define or unset its function. -/
def Spares (name : Bytes) : Operation F P → Prop
  | .define other _ | .unset other | .hash _ other | .pin other _ | .forget other => other ≠ name
  | .clear => False
  | _ => True

/-- Operations that ask the table, or else `PATH`, what a name runs. -/
def Asks (name path : Bytes) : Operation F P → Prop
  | .run _ other => other = name
  | .lookup _ other search along =>
    other = name ∧ along = path ∧ search.alternatePath = false ∧ search.regularBuiltinsOnly = false
  | _ => False

def changesDirectory : Operation F P → Bool
  | .changeDirectory _ => true
  | _ => false

end Operation

/-- In every state a run of operations reaches, the entry of the name keeps the path, and a
run of the name executes it. -/
def KeepsPin (shell : Shell (World F P)) (name path : Bytes) (ops : List (Operation F P)) : Prop :=
  ∀ before after, ops = before ++ after →
    (performAll shell before).world.commands.pinnedPath name = some path ∧
    ∀ fs rest, after = .run fs name :: rest →
      (runCommand fs (performAll shell before) name).1 = .external (.pinned path)

/-! ### The search of the table -/

/-- What a search asks once `PATH` is told from another path. -/
def CommandSearch.along (search : CommandSearch) (path configured : Bytes) : CommandSearch :=
  if decide (path = configured) then search else { search with alternatePath := true }

/-- The part of `find_command` behind the names that are paths. -/
def askTable (fs : FileSystem P) (shell : Shell (World F P)) (table : CommandTable F)
    (name : Bytes) (search : CommandSearch) (path : Bytes) (update : Bool) : Lookup F :=
  match table.map name with
  | none => searchOn fs shell table name search path none update
  | some entry =>
    if entry.command.conflicts search then
      if search.regularBuiltinsOnly && !entry.command.isFunction then
        { found := .command .unknown, table }
      else searchOn fs shell table name search path none false
    else if entry.rehash then searchOn fs shell table name search path (some entry.command) update
    else
      { found := .command entry.command
        table := if search.countHit then table.noteHit name else table }

theorem findCommand_eq (fs : FileSystem P) (shell : Shell (World F P)) (name : Bytes)
    (search : CommandSearch) (path : Bytes) :
    findCommand fs shell name search path =
      let table := shell.world.commands.ensureDispatch shell.options.dialect
      match bashPathNamedFunction shell table name search with
      | some function => { found := .command function, table }
      | none =>
        if hasSeparator name then
          { found := .command (pathNamedFile fs shell.world.directory name search.checkAbsolute)
            table }
        else askTable fs shell table name (search.along path (pathValue shell)) path
          (decide (path = pathValue shell)) := rfl

/-! ### Operations on other names -/

section Other

variable {name other : Bytes} (table : CommandTable F)

theorem set_of_ne (h : name ≠ other) (entry : Option (CommandEntry F)) :
    (table.set other entry).map name = table.map name := if_neg h

theorem noteHit_of_ne (h : name ≠ other) : (table.noteHit other).map name = table.map name := by
  unfold CommandTable.noteHit
  split
  · exact set_of_ne table h _
  · rfl

theorem restartHitCount_of_ne (h : name ≠ other) :
    (table.restartHitCount other).map name = table.map name := by
  unfold CommandTable.restartHitCount
  split
  · exact set_of_ne table h _
  · rfl

theorem commandFileRead_of_ne (h : name ≠ other) :
    (table.commandFileRead other).map name = table.map name := by
  unfold CommandTable.commandFileRead
  split
  · split
    · exact set_of_ne table h _
    · rfl
  · rfl

theorem keepAnswer_of_ne (h : name ≠ other) (update : Bool) (command : Command F) :
    (keepAnswer table other update command).table.map name = table.map name := by
  unfold keepAnswer
  cases update with
  | false => rfl
  | true => exact set_of_ne table h _

theorem standsAgain_of_ne (h : name ≠ other) (search : CommandSearch) (command : Command F) :
    (standsAgain table other search command).table.map name = table.map name := by
  unfold standsAgain
  cases table.map other with
  | none =>
    dsimp only
    split
    · exact noteHit_of_ne table h
    · rfl
  | some entry =>
    dsimp only
    split
    · exact (noteHit_of_ne _ h).trans (set_of_ne table h _)
    · exact set_of_ne table h _

variable (fs : FileSystem P) (shell : Shell (World F P)) (search : CommandSearch) (path : Bytes)

theorem searchOn_of_ne (h : name ≠ other) (cached : Option (Command F)) (update : Bool) :
    (searchOn fs shell table other search path cached update).table.map name = table.map name := by
  unfold searchOn
  dsimp only
  split
  · exact keepAnswer_of_ne table h _ _
  · split
    · rfl
    · split
      · exact keepAnswer_of_ne table h _ _
      · exact standsAgain_of_ne table h _ _
      · rfl
      · split
        · rw [noteHit_of_ne _ h, keepAnswer_of_ne table h]
        · exact keepAnswer_of_ne table h _ _
      · dsimp only
        split
        · exact set_of_ne table h none
        · rfl

theorem askTable_of_ne (h : name ≠ other) (update : Bool) :
    (askTable fs shell table other search path update).table.map name = table.map name := by
  unfold askTable
  split
  · exact searchOn_of_ne table fs shell search path h _ _
  · split
    · split
      · rfl
      · exact searchOn_of_ne table fs shell search path h _ _
    · split
      · exact searchOn_of_ne table fs shell search path h _ _
      · dsimp only
        split
        · exact noteHit_of_ne table h
        · rfl

/-- A search for another name leaves the entry, unless the dialect drops it. -/
theorem findCommand_of_ne (h : name ≠ other) :
    (findCommand fs shell other search path).table.map name =
      (shell.world.commands.ensureDispatch shell.options.dialect).map name := by
  rw [findCommand_eq]
  dsimp only
  split
  · rfl
  · split
    · rfl
    · exact askTable_of_ne _ fs shell _ path h _

end Other

/-! ### The entry of a pinned name -/

/-- The entry `hash -p` writes, in doubt or not, after some hits. -/
def Pinned (table : CommandTable F) (name path : Bytes) (rehash : Bool) : Prop :=
  ∃ hits, table.map name =
    some { command := .external none, rehash, hits, pinned := some path }

section

variable {table : CommandTable F} {name path : Bytes} {rehash : Bool}

theorem pin_pinned (table : CommandTable F) (name path : Bytes) :
    Pinned (table.pin name path) name path false := ⟨0, if_pos rfl⟩

theorem Pinned.pinnedPath_eq (h : Pinned table name path rehash) :
    table.pinnedPath name = some path := by
  obtain ⟨hits, hentry⟩ := h
  unfold CommandTable.pinnedPath
  rw [hentry]
  rfl

theorem Pinned.of_map_eq {table' : CommandTable F} (h : Pinned table name path rehash)
    (hmap : table'.map name = table.map name) : Pinned table' name path rehash := by
  obtain ⟨hits, hentry⟩ := h
  exact ⟨hits, hmap.trans hentry⟩

theorem Pinned.noteHit (h : Pinned table name path rehash) :
    Pinned (table.noteHit name) name path rehash := by
  obtain ⟨hits, hentry⟩ := h
  refine ⟨min (hits + 1) CommandTable.u32Max, ?_⟩
  unfold CommandTable.noteHit
  rw [hentry]
  exact if_pos rfl

theorem Pinned.restartHitCount (h : Pinned table name path rehash) :
    Pinned (table.restartHitCount name) name path rehash := by
  obtain ⟨hits, hentry⟩ := h
  refine ⟨0, ?_⟩
  unfold CommandTable.restartHitCount
  rw [hentry]
  exact if_pos rfl

theorem Pinned.commandFileRead (h : Pinned table name path rehash) :
    Pinned (table.commandFileRead name) name path rehash := by
  obtain ⟨hits, hentry⟩ := h
  refine ⟨hits, ?_⟩
  unfold CommandTable.commandFileRead
  rw [hentry]
  exact hentry

theorem Pinned.invalidateDispatch (h : Pinned table name path rehash) (dialect : Dialect) :
    Pinned (table.invalidateDispatch dialect) name path rehash := by
  obtain ⟨hits, hentry⟩ := h
  refine ⟨hits, ?_⟩
  show (table.map name).filter _ = _
  rw [hentry]
  rfl

theorem Pinned.ensureDispatch (h : Pinned table name path rehash) (dialect : Dialect) :
    Pinned (table.ensureDispatch dialect) name path rehash := by
  unfold CommandTable.ensureDispatch
  split
  · exact h.invalidateDispatch dialect
  · exact h

/-- A directory change puts the pin in doubt. -/
theorem Pinned.changeDirectory (h : Pinned table name path rehash) :
    Pinned table.invalidateCacheAfterDirectoryChange name path true := by
  obtain ⟨hits, hentry⟩ := h
  refine ⟨hits, ?_⟩
  show (table.map name).map _ = _
  rw [hentry]
  rfl

theorem Pinned.unset (h : Pinned table name path rehash) (other : Bytes) :
    Pinned (table.unsetFunction other) name path rehash := by
  by_cases hother : name = other
  · subst hother
    obtain ⟨hits, hentry⟩ := h
    refine ⟨hits, ?_⟩
    unfold CommandTable.unsetFunction
    rw [hentry]
    exact hentry
  · refine h.of_map_eq ?_
    unfold CommandTable.unsetFunction
    split
    · exact set_of_ne table hother none
    · rfl

end

/-! ### Searches for a pinned name -/

section

variable (fs : FileSystem P) {shell : Shell (World F P)} {table : CommandTable F}
  {name path : Bytes} {rehash : Bool} (search : CommandSearch) (along : Bytes)

/-- Without an earlier answer no component is passed over for it. -/
theorem askComponent_ne_remembered (place : P) (spec : Option BuiltinSpec) (skip : Bool)
    (index : ℕ) (candidate : PathAdvance) :
    askComponent fs place spec skip none index candidate ≠ some .remembered := by
  unfold askComponent
  split
  · cases spec with
    | none => exact nofun
    | some spec => exact nofun
  · split
    · exact nofun
    · rw [if_neg fun hand => by cases (Bool.and_eq_true_iff.mp hand).2]
      unfold askFile
      split
      · exact nofun
      · exact nofun
      · split
        · exact nofun
        · split <;> exact nofun

/-- A search that is not to update the table leaves it. -/
theorem searchOn_table (shell : Shell (World F P)) (table : CommandTable F) (name : Bytes) :
    (searchOn fs shell table name search along none false).table = table := by
  unfold searchOn
  dsimp only
  split
  · rfl
  · split
    · rfl
    · split
      · rfl
      · next hfirst =>
        obtain ⟨i, a, _, hask, _⟩ := firstAnswer_eq_some hfirst
        exact absurd hask (askComponent_ne_remembered fs _ _ _ _ _)
      · rfl
      · rfl
      · rfl

/-- The table's answer to a search for a name whose pin is not in doubt, or that the search is
not for. -/
theorem askTable_pinned (h : Pinned table name path rehash) (update : Bool)
    (hsettled : rehash = true →
      search.alternatePath = true ∨ search.regularBuiltinsOnly = true) :
    Pinned (askTable fs shell table name search along update).table name path rehash := by
  obtain ⟨hits, hentry⟩ := id h
  unfold askTable
  rw [hentry]
  dsimp only
  split
  · split
    · exact h
    · rw [searchOn_table]
      exact h
  · next hconflicts =>
    split
    · next hrehash =>
      refine absurd ?_ hconflicts
      show (search.alternatePath || search.regularBuiltinsOnly) = true
      rw [Bool.or_eq_true]
      exact hsettled hrehash
    · dsimp only
      split
      · exact h.noteHit
      · exact h

/-- **A search keeps the pin** unless it asks for the name while the pin is in doubt. -/
theorem findCommand_pinned (h : Pinned shell.world.commands name path rehash)
    (hsettled : rehash = true → along = pathValue shell →
      search.alternatePath = true ∨ search.regularBuiltinsOnly = true) :
    Pinned (findCommand fs shell name search along).table name path rehash := by
  have htable := h.ensureDispatch shell.options.dialect
  rw [findCommand_eq]
  dsimp only
  split
  · exact htable
  · split
    · exact htable
    · refine askTable_pinned fs _ along htable _ fun hrehash => ?_
      unfold CommandSearch.along
      by_cases hpath : along = pathValue shell
      · rw [if_pos (decide_eq_true hpath)]
        exact hsettled hrehash hpath
      · rw [if_neg (by rwa [decide_eq_true_iff])]
        exact .inl rfl

/-- A name without a slash is looked for in the table. -/
theorem findCommand_plain (shell : Shell (World F P)) (hname : hasSeparator name = false) :
    findCommand fs shell name search along =
      askTable fs shell (shell.world.commands.ensureDispatch shell.options.dialect) name
        (search.along along (pathValue shell)) along (decide (along = pathValue shell)) := by
  have hbash : ∀ table : CommandTable F,
      bashPathNamedFunction shell table name search = none := by
    intro table
    unfold bashPathNamedFunction
    apply if_pos
    rw [hname]
    exact .inr (.inr (.inr Bool.false_ne_true))
  rw [findCommand_eq]
  dsimp only
  rw [hbash, hname]
  rfl

theorem along_self (path : Bytes) : search.along path path = search := if_pos (decide_eq_true rfl)

theorem set_pinnedPath (table : CommandTable F) (name : Bytes) (entry : Option (CommandEntry F)) :
    (table.set name entry).pinnedPath name = entry.bind (·.pinned) := by
  unfold CommandTable.pinnedPath CommandTable.set
  dsimp only
  rw [if_pos rfl]

/-- What is kept in the table is not pinned. -/
theorem keepAnswer_loses (table : CommandTable F) (name : Bytes) (command : Command F) :
    (keepAnswer table name true command).table.pinnedPath name = none :=
  set_pinnedPath table name _

theorem noteHit_pinnedPath (table : CommandTable F) (name : Bytes) :
    (table.noteHit name).pinnedPath name = table.pinnedPath name := by
  unfold CommandTable.noteHit
  split
  · next hentry =>
    rw [set_pinnedPath]
    unfold CommandTable.pinnedPath
    rw [hentry]
    rfl
  · rfl

/-- A pin that is not in doubt is what the search finds. -/
theorem findCommand_found (h : Pinned shell.world.commands name path false)
    (hname : hasSeparator name = false) (halternate : search.alternatePath = false)
    (hregular : search.regularBuiltinsOnly = false) :
    (findCommand fs shell name search (pathValue shell)).found = .command (.external none) := by
  obtain ⟨hits, hentry⟩ := h.ensureDispatch shell.options.dialect
  have hasks : ¬ Command.conflicts search (.external none : Command F) = true := by
    show ¬ (search.alternatePath || search.regularBuiltinsOnly) = true
    rw [halternate, hregular]
    exact Bool.false_ne_true
  rw [findCommand_plain fs search _ shell hname, along_self]
  unfold askTable
  rw [hentry]
  dsimp only
  rw [if_neg hasks]
  rfl

/-- The search for a regular built-in passes a pinned name over. -/
theorem findCommand_regular (h : Pinned shell.world.commands name path rehash)
    (hname : hasSeparator name = false) (hregular : search.regularBuiltinsOnly = true) :
    (findCommand fs shell name search (pathValue shell)).found = .command .unknown := by
  obtain ⟨hits, hentry⟩ := h.ensureDispatch shell.options.dialect
  have hpasses : Command.conflicts search (.external none : Command F) = true := by
    show (search.alternatePath || search.regularBuiltinsOnly) = true
    rw [hregular, Bool.or_true]
  rw [findCommand_plain fs search _ shell hname, along_self]
  unfold askTable
  rw [hentry]
  dsimp only
  rw [if_pos hpasses, hregular]
  rfl

/-- A search loses a pin that is in doubt, unless it ends in a file that is to define the
name. -/
theorem findCommand_loses (h : Pinned shell.world.commands name path true)
    (hname : hasSeparator name = false) (halternate : search.alternatePath = false)
    (hregular : search.regularBuiltinsOnly = false)
    (hfile : ∀ file, (findCommand fs shell name search (pathValue shell)).found ≠
      .commandFile file) :
    (findCommand fs shell name search (pathValue shell)).table.pinnedPath name = none := by
  obtain ⟨hits, hentry⟩ := h.ensureDispatch shell.options.dialect
  have hasks : ¬ Command.conflicts search (.external none : Command F) = true := by
    show ¬ (search.alternatePath || search.regularBuiltinsOnly) = true
    rw [halternate, hregular]
    exact Bool.false_ne_true
  rw [findCommand_plain fs search _ shell hname, along_self] at hfile ⊢
  unfold askTable at hfile ⊢
  rw [hentry] at hfile ⊢
  dsimp only at hfile ⊢
  rw [if_neg hasks, if_pos rfl, decide_eq_true rfl] at hfile ⊢
  generalize shell.world.commands.ensureDispatch shell.options.dialect = table at *
  unfold searchOn at hfile ⊢
  dsimp only at hfile ⊢
  rw [hregular, if_neg Bool.false_ne_true] at hfile ⊢
  split
  · exact keepAnswer_loses table name _
  · next hdirect =>
    rw [hdirect] at hfile
    dsimp only at hfile
    split
    · exact keepAnswer_loses table name _
    · next hfirst =>
      obtain ⟨i, a, _, hask, _⟩ := firstAnswer_eq_some hfirst
      exact absurd hask (askComponent_ne_remembered fs _ _ _ _ _)
    · next file hfirst =>
      rw [hfirst] at hfile
      exact absurd rfl (hfile file)
    · split
      · exact (noteHit_pinnedPath _ name).trans (keepAnswer_loses table name _)
      · exact keepAnswer_loses table name _
    · exact set_pinnedPath table name none

/-! ### Runs of a pinned name -/

/-- A search for another name keeps the pin, in doubt or not. -/
theorem findCommand_pinned_of_ne {other : Bytes}
    (h : Pinned shell.world.commands name path rehash) (hother : name ≠ other) :
    Pinned (findCommand fs shell other search along).table name path rehash :=
  (h.ensureDispatch shell.options.dialect).of_map_eq
    (findCommand_of_ne fs shell search along hother)

theorem runCommand_pinned_of_ne {other : Bytes}
    (h : Pinned shell.world.commands name path rehash) (hother : name ≠ other) :
    Pinned (runCommand fs shell other).2 name path rehash := by
  have hfirst := findCommand_pinned_of_ne fs { regularBuiltinsOnly := true } (pathValue shell)
    h hother
  unfold runCommand
  dsimp only
  generalize findCommand fs shell other { regularBuiltinsOnly := true } (pathValue shell) = first
    at *
  have hsecond := findCommand_pinned_of_ne fs { reportErrors := true } (pathValue shell)
    (show Pinned (withCommands shell first.table).world.commands name path rehash from hfirst)
    hother
  generalize (match first.found with
    | .command (.builtin spec) => spec.attributes.isRegular
    | _ => false) = regular
  cases regular with
  | true => exact hfirst
  | false => exact hsecond

theorem populate_pinned {other : Bytes} (h : Pinned shell.world.commands name path rehash)
    (hother : name ≠ other) : Pinned (populate fs shell other) name path rehash := by
  have hstale : Pinned (if (shell.world.commands.map other).any fun entry =>
        entry.pathDependent shell.world.commands.builtinLocation
      then withCommands shell (shell.world.commands.removeCommandEntry other)
      else shell).world.commands name path rehash := by
    split
    · exact h.of_map_eq (set_of_ne _ hother none)
    · exact h
  unfold populate
  dsimp only
  generalize (if (shell.world.commands.map other).any fun entry =>
      entry.pathDependent shell.world.commands.builtinLocation
    then withCommands shell (shell.world.commands.removeCommandEntry other) else shell) = cleared
    at *
  have hfound := findCommand_pinned_of_ne fs { reportErrors := true, countHit := false }
    (pathValue cleared) hstale hother
  split
  · exact hfound
  · exact hfound
  · exact hfound.of_map_eq (restartHitCount_of_ne _ hother)

/-- **A run of a pinned name executes its path**, and keeps the pin, where it is not in
doubt. -/
theorem runCommand_pinned (h : Pinned shell.world.commands name path false)
    (hname : hasSeparator name = false) :
    (runCommand fs shell name).1 = .external (.pinned path) ∧
      Pinned (runCommand fs shell name).2 name path false := by
  have hfirst := findCommand_pinned fs { regularBuiltinsOnly := true } (pathValue shell) h nofun
  have hunknown := findCommand_regular fs { regularBuiltinsOnly := true } h hname rfl
  unfold runCommand
  dsimp only
  generalize findCommand fs shell name { regularBuiltinsOnly := true } (pathValue shell) = first
    at *
  rw [hunknown]
  dsimp only
  rw [if_neg Bool.false_ne_true]
  have hkept : Pinned (withCommands shell first.table).world.commands name path false := hfirst
  have hsecond := findCommand_pinned fs { reportErrors := true } (pathValue shell) hkept nofun
  have hfound := findCommand_found fs { reportErrors := true } hkept hname rfl rfl
  refine ⟨?_, hsecond⟩
  unfold runResolvedCommand
  rw [hfound]
  dsimp only
  unfold executeExternalCommand
  rw [hname, if_neg Bool.false_ne_true, show pathValue (withCommands shell first.table) =
    pathValue shell from rfl, hsecond.pinnedPath_eq]

end

/-! ### Every run of operations -/

section

variable {shell : Shell (World F P)} {name path : Bytes} {rehash : Bool}

theorem pathValue_perform (shell : Shell (World F P)) (op : Operation F P) :
    pathValue (perform shell op) = pathValue shell := by
  cases op <;> rfl

theorem perform_changeDirectory {op : Operation F P}
    (h : Pinned shell.world.commands name path rehash) (hchanges : op.changesDirectory = true) :
    Pinned (perform shell op).world.commands name path true := by
  cases op with
  | changeDirectory place => exact h.changeDirectory
  | _ => cases hchanges

/-- **One operation keeps the pin**, as much in doubt as it was, in the directory it is in. -/
theorem perform_pinned {op : Operation F P} (h : Pinned shell.world.commands name path rehash)
    (hname : hasSeparator name = false) (hspares : op.Spares name)
    (hsettled : rehash = true → ¬ op.Asks name (pathValue shell))
    (hstays : op.changesDirectory = false) :
    Pinned (perform shell op).world.commands name path rehash := by
  cases op with
  | lookup fs other search along =>
    show Pinned (findCommand fs shell other search along).table name path rehash
    by_cases hother : name = other
    · subst hother
      refine findCommand_pinned fs search along h fun hrehash hpath => ?_
      by_contra hnone
      rw [not_or, Bool.not_eq_true, Bool.not_eq_true] at hnone
      exact hsettled hrehash ⟨rfl, hpath, hnone⟩
    · exact findCommand_pinned_of_ne fs search along h hother
  | run fs other =>
    show Pinned (runCommand fs shell other).2 name path rehash
    by_cases hother : name = other
    · subst hother
      cases rehash with
      | false => exact (runCommand_pinned fs h hname).2
      | true => exact absurd rfl (hsettled rfl)
    · exact runCommand_pinned_of_ne fs h hother
  | changeDirectory place =>
    cases hstays
  | define other definition =>
    exact h.of_map_eq (set_of_ne _ (Ne.symm hspares) _)
  | unset other =>
    exact h.unset other
  | hash fs other =>
    exact populate_pinned fs h (Ne.symm hspares)
  | pin other along =>
    exact h.of_map_eq (set_of_ne _ (Ne.symm hspares) _)
  | forget other =>
    refine h.of_map_eq ?_
    show (forget shell other).map name = _
    unfold forget
    dsimp only
    split
    · exact set_of_ne _ (Ne.symm hspares) none
    · rfl
  | consult other =>
    show Pinned (consult shell other) name path rehash
    unfold consult
    dsimp only
    split
    · by_cases hother : name = other
      · subst hother
        exact h.noteHit
      · exact h.of_map_eq (noteHit_of_ne _ hother)
    · exact h
  | clear => exact hspares.elim
  | commandFileRead other hashed =>
    by_cases hother : name = other
    · subst hother
      cases hashed with
      | false => exact h.commandFileRead
      | true => exact h.commandFileRead.restartHitCount
    · refine h.of_map_eq ?_
      cases hashed with
      | false => exact commandFileRead_of_ne _ hother
      | true => exact (restartHitCount_of_ne _ hother).trans (commandFileRead_of_ne _ hother)
  | enable disabled =>
    exact h
  | dispatchChanged =>
    exact h.invalidateDispatch shell.options.dialect

/-- **A run of operations keeps the pin** that does not ask for the name behind a directory
change. -/
theorem performAll_pinned {ops : List (Operation F P)}
    (h : Pinned shell.world.commands name path rehash) (hname : hasSeparator name = false)
    (hspares : ∀ op ∈ ops, op.Spares name)
    (hdoubt : rehash = true → ∀ op ∈ ops, ¬ op.Asks name (pathValue shell))
    (hsettled : ops.Pairwise fun earlier later => earlier.changesDirectory = true →
      ¬ later.Asks name (pathValue shell)) :
    Pinned (performAll shell ops).world.commands name path
      (rehash || ops.any Operation.changesDirectory) := by
  induction ops generalizing shell rehash with
  | nil =>
    rw [List.any_nil, Bool.or_false]
    exact h
  | cons op rest ih =>
    obtain ⟨hbehind, hrest⟩ := List.pairwise_cons.mp hsettled
    have hsparesRest : ∀ op ∈ rest, op.Spares name :=
      fun other hother => hspares other (List.mem_cons_of_mem op hother)
    have hpath := pathValue_perform shell op
    rw [List.any_cons, ← Bool.or_assoc]
    cases hchanges : op.changesDirectory with
    | false =>
      rw [Bool.or_false]
      have hstep := perform_pinned h hname (hspares op List.mem_cons_self)
        (fun hrehash => hdoubt hrehash op List.mem_cons_self) hchanges
      refine ih hstep hsparesRest (fun hrehash other hother => ?_) (by rwa [hpath])
      rw [hpath]
      exact hdoubt hrehash other (List.mem_cons_of_mem op hother)
    | true =>
      rw [Bool.or_true]
      have hstep := perform_changeDirectory h hchanges
      refine ih hstep hsparesRest (fun _ other hother => ?_) (by rwa [hpath])
      rw [hpath]
      exact hbehind other hother hchanges

/-- A pinned name keeps its path for as long as nothing asks for it behind a directory
change. -/
theorem keepsPin_settled (shell : Shell (World F P)) (name path : Bytes)
    (ops : List (Operation F P))
    (hname : hasSeparator name = false) (hspares : ∀ op ∈ ops, op.Spares name)
    (hsettled : ops.Pairwise fun earlier later => earlier.changesDirectory = true →
      ¬ later.Asks name (pathValue shell)) :
    KeepsPin (perform shell (.pin name path)) name path ops := by
  intro before after hsplit
  subst hsplit
  obtain ⟨hbefore, _, hacross⟩ := List.pairwise_append.mp hsettled
  have hpinned : Pinned (perform shell (.pin name path)).world.commands name path false :=
    pin_pinned shell.world.commands name path
  have hreached := performAll_pinned hpinned hname
    (fun op hop => hspares op (List.mem_append_left after hop)) nofun hbefore
  refine ⟨hreached.pinnedPath_eq, fun fs rest hafter => ?_⟩
  have hstays : before.any Operation.changesDirectory = false := by
    rw [List.any_eq_false]
    intro op hop hchanges
    refine hacross op hop (.run fs name) ?_ hchanges rfl
    rw [hafter]
    exact List.mem_cons_self
  rw [hstays] at hreached
  exact (runCommand_pinned fs hreached hname).1

/-- **A pinned name keeps its path** for as long as nothing asks for it behind a directory
change.  The first search that does loses the pin, unless it ends in a file that is to define
the name. -/
theorem pin_kept (shell : Shell (World F P)) (name path : Bytes) (ops : List (Operation F P))
    (hname : hasSeparator name = false) (hspares : ∀ op ∈ ops, op.Spares name)
    (hsettled : ops.Pairwise fun earlier later => earlier.changesDirectory = true →
      ¬ later.Asks name (pathValue shell)) :
    KeepsPin (perform shell (.pin name path)) name path ops ∧
    (ops.any Operation.changesDirectory = true → ∀ (fs : FileSystem P) (search : CommandSearch),
      search.alternatePath = false → search.regularBuiltinsOnly = false →
      ∀ state, performAll (perform shell (.pin name path)) ops = state →
        (∀ file, (findCommand fs state name search (pathValue state)).found ≠ .commandFile file) →
        (findCommand fs state name search (pathValue state)).table.pinnedPath name = none) := by
  refine ⟨keepsPin_settled shell name path ops hname hspares hsettled, ?_⟩
  rintro hchanged fs search halternate hregular state rfl hfile
  have hpinned : Pinned (perform shell (.pin name path)).world.commands name path false :=
    pin_pinned shell.world.commands name path
  have hdoubt := performAll_pinned hpinned hname hspares nofun hsettled
  rw [hchanged, Bool.or_true] at hdoubt
  exact findCommand_loses fs search hdoubt hname halternate hregular hfile

/-- No file is found anywhere. -/
def noFiles : FileSystem Unit where
  metadata _ _ := .notFound
  mayExecute _ _ := false
  metadata_absolute _ _ _ _ := rfl
  mayExecute_absolute _ _ _ _ := rfl

/-- A shell with nothing remembered. -/
def freshShell : Shell (World Unit Unit) :=
  ⟨{ dialect := .bash }, Locale.c, { entries := ∅ }, {}, 0, [],
    ⟨⟨fun _ => none, none, .bash⟩, [], ()⟩⟩

theorem pin_kept_run :
    KeepsPin (perform freshShell (.pin (text "ls") (text "/bin/true"))) (text "ls")
      (text "/bin/true") [.run noFiles (text "ls"), .changeDirectory ()] := by
  refine (pin_kept freshShell (text "ls") (text "/bin/true")
    [.run noFiles (text "ls"), .changeDirectory ()] ?_ ?_ ?_).1
  · decide
  · intro op hop
    rcases List.mem_cons.mp hop with rfl | hop
    · trivial
    · rcases List.mem_singleton.mp hop with rfl
      trivial
  · refine List.pairwise_pair.mpr fun hchanges => ?_
    cases hchanges

/-- A run of the name behind a directory change drops the pin. -/
theorem not_pin_kept :
    ¬ ∀ (shell : Shell (World Unit Unit)) (name path : Bytes) (ops : List (Operation Unit Unit)),
      shell.options.dialect = .bash → hasSeparator name = false →
        (∀ op ∈ ops, op.Spares name) → KeepsPin (perform shell (.pin name path)) name path ops := by
  intro h
  have hkeeps := h freshShell (text "ls") (text "/bin/true")
    [.changeDirectory (), .run noFiles (text "ls")] rfl (by decide) (by
      intro op hop
      rcases List.mem_cons.mp hop with rfl | hop
      · trivial
      · rcases List.mem_singleton.mp hop with rfl
        trivial)
  obtain ⟨hpinned, _⟩ := hkeeps _ [] (List.append_nil _).symm
  have hdropped : (performAll (perform freshShell (.pin (text "ls") (text "/bin/true")))
      [.changeDirectory (), .run noFiles (text "ls")]).world.commands.pinnedPath (text "ls") =
        none := by decide
  rw [hdropped] at hpinned
  cases hpinned

end

end Nsh.Commands
