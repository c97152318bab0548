import Nsh.Shell.Number
import Nsh.Shell.State

/-!
# The variable table

Reading and writing one entry.  A write checks the name, refuses a read-only
entry, keeps the attributes the entry has, and runs the callback the name
carries.  A read first recomputes a name whose stored bytes are stale by
construction.
-/

namespace Nsh.Variables

variable {W : Type}

/-- Whether a write runs the callback of the name it writes. -/
inductive CallbackPolicy where
  | run
  | suppress
deriving DecidableEq, Repr

/-- Whether `set -a` marks the name a write creates. -/
inductive AllExport where
  | marks
  | declines
deriving DecidableEq, Repr

/-- Whether an existing read-only attribute refuses an assignment. -/
inductive ReadOnlyGuard where
  | enforce
  | declaration
deriving DecidableEq, Repr

def defaultIfs : Bytes := [0x20, 0x09, 0x0a]

def validName (locale : Locale) : Bytes → Bool
  | [] => false
  | first :: rest =>
    (first == chr '_' || locale.isAlpha first) &&
      rest.all (fun byte => byte == chr '_' || locale.isAlphanumeric byte)

/-! ### The locale and `IFS` -/

def localeCategories : List (LocaleCategory × Bytes) :=
  [(.collate, text "LC_COLLATE"), (.ctype, text "LC_CTYPE"), (.messages, text "LC_MESSAGES"),
    (.monetary, text "LC_MONETARY"), (.numeric, text "LC_NUMERIC"), (.time, text "LC_TIME")]

def isLocaleVariable (name : Bytes) : Bool :=
  name == text "LC_ALL" || name == text "LANG" ||
    localeCategories.any (fun category => name == category.2)

/-- The value of a name that is set and not empty. -/
def nonempty (shell : Shell W) (name : Bytes) : Option Bytes :=
  ((shell.entry name).bind Variable.scalarOwned).filter (fun value => value != [])

def selectedLocale (host : Host W) (shell : Shell W) : Option Locale :=
  host.newLocale (localeCategories.map fun category =>
    (category.1, ((nonempty shell (text "LC_ALL")).orElse fun _ =>
      (nonempty shell category.2).orElse fun _ => nonempty shell (text "LANG")).getD (text "C")))

/-- Every character `IFS` names, and whether the locale calls it a space. -/
def ifsSeparators (locale : Locale) (ifs : Bytes) : List IfsCharacter :=
  match ifs with
  | [] => []
  | first :: rest =>
    let width := locale.width (first :: rest)
    let bytes := (first :: rest).take width
    let whitespace := ((locale.decodeExact bytes).map locale.wideIsSpace).getD false
    { bytes := bytes, whitespace := whitespace } ::
      ifsSeparators locale ((first :: rest).drop width)
termination_by ifs.length
decreasing_by
  have := locale.width_pos (first :: rest)
  simp only [List.length_drop, List.length_cons]
  omega

def updateIfsCache (ifs : Bytes) (shell : Shell W) : Shell W :=
  let hasMultibyte := ifs.any (fun byte => decide (0x80 ≤ byte))
  let wide := shell.locale.wideChars ifs
  { shell with
    ifs := {
      bytes := ifs
      asciiMembership := fun byte => decide (byte < 0x80) && ifs.contains byte
      firstCharacterLength := if hasMultibyte then wide.1 else if ifs = [] then 0 else 1
      wideCharacters := if hasMultibyte then wide.2 else []
      separators := ifsSeparators shell.locale ifs } }

def ifsIsSet (shell : Shell W) : Bool :=
  match shell.entry (text "IFS") with
  | some { state := .set _, .. } => true
  | _ => false

def ifsValue (shell : Shell W) : Bytes :=
  ((shell.entry (text "IFS")).bind Variable.scalarOwned).getD []

/-! ### The initial table -/

/-- A name the shell enters for itself, with a callback of its own. -/
def builtin (name : Bytes) (value : Option Bytes) (callback : Callback) : Bytes × Variable :=
  let state := match value with
    | none => VariableState.unset
    | some value => .set (.scalar value)
  (name, Variable.fresh state { fixed := true } callback)

/-- The entries of `initialize_variables`. -/
def builtins (defaultPath prompt continuation : Bytes) : List (Bytes × Variable) :=
  [builtin (text "IFS") (some defaultIfs) .ifs,
    builtin (text "MAIL") none .mail,
    builtin (text "MAILPATH") none .mail,
    builtin (text "PATH") (some defaultPath) .path,
    builtin (text "PS1") (some prompt) .none,
    builtin (text "PS2") (some continuation) .none,
    builtin (text "PS4") (some (text "+ ")) .none,
    builtin (text "OPTIND") (some (text "1")) .getopts,
    ((text "LINENO"), { (builtin (text "LINENO") (some (text "0")) .none).2 with
      dynamicLineno := true }),
    builtin (text "TERM") none .none,
    builtin (text "HISTSIZE") none .history,
    builtin (text "LC_ALL") none .locale,
    builtin (text "LC_COLLATE") none .locale,
    builtin (text "LC_CTYPE") none .locale,
    builtin (text "LC_NUMERIC") none .locale,
    builtin (text "LANG") none .locale]

/-- `initialize_variables`, over a table that may already hold entries. -/
def initializeVariables (defaultPath prompt continuation : Bytes) (shell : Shell W) : Shell W :=
  shell.setEntries ((builtins defaultPath prompt continuation).foldl
    (fun entries builtin => entries.insertIfNew builtin.1 builtin.2) shell.table.entries)

/-- Entering names into a table adds no others. -/
theorem mem_of_entered {names : List (Bytes × Variable)} : ∀ {entries : ByteMap Variable}
    {name : Bytes} {entry : Variable},
    (names.foldl (fun entries builtin => entries.insertIfNew builtin.1 builtin.2) entries)[name]? =
      some entry → entries[name]? = some entry ∨ (name, entry) ∈ names := by
  induction names with
  | nil => intro entries name entry h; exact .inl h
  | cons builtin names ih =>
    intro entries name entry h
    rcases ih h with hfound | hmem
    · rw [Std.ExtTreeMap.getElem?_insertIfNew] at hfound
      split_ifs at hfound with hnew
      · obtain rfl := Std.LawfulEqCmp.compare_eq_iff_eq.mp hnew.1
        cases hfound
        exact .inr List.mem_cons_self
      · exact .inl hfound
    · exact .inr (List.mem_cons_of_mem _ hmem)

/-- A table that was empty holds the builtin names alone. -/
theorem initializeVariables_mem {shell : Shell W} (hentries : shell.table.entries = ∅)
    {defaultPath prompt continuation name : Bytes} {entry : Variable}
    (hentry : (initializeVariables defaultPath prompt continuation shell).entry name = some entry) :
    (name, entry) ∈ builtins defaultPath prompt continuation := by
  unfold initializeVariables Shell.setEntries Shell.entry at hentry
  rw [hentries] at hentry
  rcases mem_of_entered hentry with hempty | hmem
  · rw [Std.ExtTreeMap.getElem?_empty] at hempty
    cases hempty
  · exact hmem

/-! ### Writing an entry -/

def runCallback (host : Host W) (name : Bytes) (callback : Callback) (value : Option Bytes)
    (shell : Shell W) : Shell W :=
  match callback with
  | .none => shell
  | .ifs => updateIfsCache (if ifsIsSet shell then value.getD [] else defaultIfs) shell
  | .locale =>
    -- The choice depends on the whole table, not on the entry that set it off.
    match selectedLocale host shell with
    | Option.none => shell
    | some locale =>
      let shell := { shell with locale := locale }
      updateIfsCache (if ifsIsSet shell then ifsValue shell else defaultIfs) shell
  | .mail | .path | .getopts | .history | .special => host.react callback name value shell

/-- `declaration::is_local`: whether the running body made the name local. -/
def isLocal (shell : Shell W) (name : Bytes) : Bool :=
  match shell.table.functionFrames.getLast? with
  | none => false
  | some frame =>
    (shell.table.locals.drop frame).flatten.any fun saved =>
      match saved with
      | .options _ => false
      | .created held => held == name
      | .saved held _ => held == name

/-- The state an assignment leaves: a declared kind and an established one keep
    their shape. -/
def assignedState : VariableState → Option Bytes → VariableState
  | .set existing, some value => .set (existing.assignScalar value)
  | .declared kind, some value => .set ((VariableValue.empty kind).assignScalar value)
  | .unset, some value => .set (.scalar value)
  | _, none => .unset

/-- The entry a first write makes. -/
def createEntry (host : Host W) (name : Bytes) (value : Option Bytes)
    (attributes : VariableAttributes) (policy : CallbackPolicy) (shell : Shell W) : Shell W :=
  if value = none ∧ attributes = VariableAttributes.none then shell
  else
    let callback := if isLocaleVariable name then Callback.locale else Callback.none
    let state := match value with
      | none => VariableState.unset
      | some value => .set (.scalar value)
    let shell := shell.insert name (Variable.fresh state attributes callback)
    if policy = .run then runCallback host name callback value shell else shell

/-- What `unset` does to an entry the shell did not fix. -/
def removeEntry (host : Host W) (name : Bytes) (callback : Callback) (shell : Shell W) : Shell W :=
  let keep := decide (shell.options.dialect = .bash) && isLocal shell name
  let next :=
    if keep then shell.insert name (Variable.fresh .unset VariableAttributes.none callback)
    else shell.setEntries (shell.table.entries.erase name)
  if keep || callback == .locale then runCallback host name callback none next else next

/-- Write an entry in place: only its attributes and its value change. -/
def updateEntry (host : Host W) (name : Bytes) (old : Variable) (value : Option Bytes)
    (attributes : VariableAttributes) (policy : CallbackPolicy) (shell : Shell W) : Shell W :=
  let entry := { old with
    attributes := attributes
    dynamicLineno := false
    state := assignedState old.state value }
  let shell := shell.insert name entry
  if policy = .run then
    runCallback host name old.callback
      (if old.callback = .none then none else entry.scalarOwned) shell
  else shell

def setEntry (host : Host W) (name : Bytes) (value : Option Bytes)
    (attributes : VariableAttributes) (policy : CallbackPolicy) (guard : ReadOnlyGuard)
    (allExport : AllExport) : ShellRun W Unit := fun shell =>
  if validName shell.locale name then
    let attributes :=
      if allExport = .marks ∧ shell.options.allExport then { attributes with exported := true }
      else attributes
    match shell.entry name with
    | none => .done () (createEntry host name value attributes policy shell)
    | some old =>
      if old.attributes.readOnly ∧ guard = .enforce then
        Shell.dialectError (name ++ text ": is read only") shell
      else if value.isSome ∨ attributes ≠ VariableAttributes.none then
        .done () (updateEntry host name old value (attributes.union old.attributes) policy shell)
      else if old.attributes.fixed then
        .done () (updateEntry host name old value { fixed := true } policy shell)
      else .done () (removeEntry host name old.callback shell)
  else Shell.shellError (name ++ text ": bad variable name") shell

/-! ### Reading an entry -/

/-- `CALL_ARGUMENT_NAMES`. -/
def callArgumentNames : List Bytes := [text "BASH_ARGC", text "BASH_ARGV"]

/-- Land a recomputed value without disturbing the rest of the entry. -/
def writeBack (name value : Bytes) (shell : Shell W) : Shell W :=
  match shell.entry name with
  | none => shell
  | some old =>
    let state := match old.state with
      | .set current => VariableState.set (current.assignScalar value)
      | .unset | .declared _ => .set (.scalar value)
    shell.insert name { old with state := state }

/-- An `i32` in decimal. -/
def decimalLine (line : Int) : Bytes :=
  if line < 0 then chr '-' :: decimalNat line.natAbs else decimalNat line.natAbs

/-- Recompute a name whose stored bytes are stale by construction. -/
def refresh (host : Host W) (name : Bytes) (shell : Shell W) : Shell W :=
  match shell.entry name with
  | none => shell
  | some entry =>
    if entry.dynamicLineno then
      match entry.state with
      | .set _ => writeBack name (decimalLine shell.table.lineNumber) shell
      | _ => shell
    else if entry.callback = .special then
      if name ∈ callArgumentNames then host.publishCallArguments shell
      else
        match host.compute name shell with
        | (none, shell) => shell
        | (some value, shell) => writeBack name value shell
    else shell

/-- A name nothing recomputes reads what the table holds. -/
theorem refresh_plain (host : Host W) {name : Bytes} {shell : Shell W}
    (h : ∀ entry, shell.entry name = some entry →
      entry.dynamicLineno = false ∧ entry.callback ≠ .special) :
    refresh host name shell = shell := by
  unfold refresh
  cases he : shell.entry name with
  | none => rfl
  | some entry =>
    obtain ⟨hline, hspecial⟩ := h entry he
    simp only [hline, hspecial, if_false, Bool.false_eq_true]

def lookupBytes (host : Host W) (name : Bytes) : ShellRun W (Option Bytes) := fun shell =>
  let shell := refresh host name shell
  .done ((shell.entry name).bind Variable.scalarOwned) shell

def setIntegerBytes (host : Host W) (name : Bytes) (value : Int64)
    (attributes : VariableAttributes) (policy : CallbackPolicy) : ShellRun W Int64 := do
  setEntry host name (some (decimal value)) attributes policy .enforce .marks
  pure value

/-- Raise what `set -u` reports for a name that is not set. -/
def unsetParameter {α : Type} (name : Bytes) : ShellRun W α :=
  Shell.shellError (name ++ text ": parameter not set")

def lookupIntegerBytes (host : Host W) (name : Bytes) : ShellRun W Int64 := do
  let value ← lookupBytes host name
  let shell ← Run.get
  if value = none ∧ shell.options.nounset then unsetParameter name
  else
    match Number.parseInteger (value.getD []) 0 with
    | some number => pure number
    | none => Shell.shellError (Number.invalidNumber (value.getD []))

/-! ### What an entry holds -/

def variableValue (shell : Shell W) (name : Bytes) : Option VariableValue :=
  match shell.entry name with
  | some { state := .set value, .. } => some value
  | _ => none

/-- The kind a name has from the moment it is declared. -/
def variableKind (shell : Shell W) (name : Bytes) : Option VariableKind :=
  match shell.entry name with
  | some { state := .declared kind, .. } => some kind
  | some { state := .set value, .. } => some value.kind
  | _ => none

def variableAttributes (shell : Shell W) (name : Bytes) : Option VariableAttributes :=
  (shell.entry name).map (·.attributes)

def bashAttributes (shell : Shell W) (name : Bytes) : Option BashAttributes :=
  (shell.entry name).map (·.bashAttributes)

end Nsh.Variables
