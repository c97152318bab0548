import Nsh.Lib.Run
import Nsh.Shell.Error
import Nsh.Shell.Locale
import Nsh.Variables.Value

/-!
# The shell's state

The part of `Shell` that variables, arithmetic and field splitting read and
write, and the parts of it that live outside these modules.  The latter are a
`Host`: the clocks and generators behind the recomputed names, what the mail,
search-path, option and history modules do when one of their names is assigned,
the platform's locales, and word expansion.  A `Host` may keep state of its own,
of any type `W`.
-/

namespace Nsh

/-- The shell options these modules consult. -/
structure Options where
  dialect : Dialect
  nounset : Bool := false
  errexit : Bool := false
  allExport : Bool := false
deriving DecidableEq, Repr

/-- What a function call keeps to restore on return. -/
inductive LocalVariable where
  | options (saved : Options)
  | created (name : Bytes)
  | saved (name : Bytes) (previous : Variable)

structure VariableTable where
  entries : ByteMap Variable
  lineNumber : Int := 0
  /-- The local scopes, outermost first. -/
  locals : List (List LocalVariable) := []
  /-- Which scope each running function body owns, outermost first. -/
  functionFrames : List Nat := []

/-- One character of `IFS`. -/
structure IfsCharacter where
  bytes : Bytes
  whitespace : Bool
deriving DecidableEq, Repr

/-- What the splitter keeps of `IFS`. -/
structure IfsCache where
  bytes : Bytes := []
  /-- Which ASCII bytes `IFS` holds. -/
  asciiMembership : UInt8 → Bool := fun _ => false
  firstCharacterLength : Nat := 0
  wideCharacters : List Wide := []
  separators : List IfsCharacter := []

structure Shell (W : Type) where
  options : Options
  locale : Locale
  table : VariableTable
  ifs : IfsCache := {}
  /-- The line a diagnostic names. -/
  diagnosticLine : Int := 0
  /-- What was reported without being raised. -/
  warnings : List Bytes := []
  world : W

variable {W : Type}

/-- A computation on the shell that may fail. -/
abbrev ShellRun (W α : Type) := Run (Shell W) Error α

inductive LocaleCategory where
  | collate
  | ctype
  | messages
  | monetary
  | numeric
  | time
deriving DecidableEq, Repr

/-- The modules around this one. -/
structure Host (W : Type) where
  /-- `special::compute`, which draws from the generators it reads. -/
  compute : Bytes → Shell W → Option Bytes × Shell W
  /-- `publish_call_arguments`. -/
  publishCallArguments : Shell W → Shell W
  /-- What the module behind a callback does with the new value. -/
  react : Callback → Bytes → Option Bytes → Shell W → Shell W
  /-- `options_changed`, run when a call gives its options back. -/
  optionsChanged : Shell W → Shell W
  /-- `Locale::new` over the C locale. -/
  newLocale : List (LocaleCategory × Bytes) → Option Locale
  /-- `parser::expand_string`, which evaluates the arithmetic the text holds
      with the evaluator it is handed. -/
  expandString : (Bytes → ShellRun W Int64) → Bytes → ShellRun W Bytes
  /-- Expanding evaluates through the evaluator alone, so an evaluator that
      finishes more often expands more often. -/
  expandString_mono : ∀ e e' : Bytes → ShellRun W Int64, (∀ t, e t ≤ e' t) →
    ∀ t, expandString e t ≤ expandString e' t

/-- A host with nothing to recompute, whose modules ignore assignments, whose
    only locale is the C one, and whose words hold nothing to expand. -/
def Host.plain : Host Unit where
  compute _ shell := (none, shell)
  publishCallArguments shell := shell
  react _ _ _ shell := shell
  optionsChanged shell := shell
  newLocale _ := some Locale.c
  expandString _ word := pure word
  expandString_mono _ _ _ _ := le_refl _

namespace Shell

/-- Raise what `shell_error` reports. -/
def shellError {α : Type} (message : Bytes) : ShellRun W α := fun shell =>
  .failed (Nsh.shellError shell.diagnosticLine message) shell

/-- Raise what `dialect_error` reports. -/
def dialectError {α : Type} (message : Bytes) : ShellRun W α := fun shell =>
  .failed (Nsh.dialectError shell.options.dialect shell.diagnosticLine message) shell

/-- `shell_warning`. -/
def warn (message : Bytes) : ShellRun W Unit :=
  Run.modify fun shell => { shell with warnings := shell.warnings ++ [message] }

def entry (shell : Shell W) (name : Bytes) : Option Variable := shell.table.entries[name]?

def setEntries (shell : Shell W) (entries : ByteMap Variable) : Shell W :=
  { shell with table := { shell.table with entries := entries } }

def insert (shell : Shell W) (name : Bytes) (entry : Variable) : Shell W :=
  shell.setEntries (shell.table.entries.insert name entry)

@[simp] theorem entry_insert_self (shell : Shell W) (name : Bytes) (entry : Variable) :
    (shell.insert name entry).entry name = some entry :=
  Std.ExtTreeMap.getElem?_insert_self

theorem entry_insert_of_ne (shell : Shell W) {name other : Bytes} (h : name ≠ other)
    (entry : Variable) : (shell.insert name entry).entry other = shell.entry other := by
  unfold insert setEntries Shell.entry
  rw [Std.ExtTreeMap.getElem?_insert, if_neg]
  rwa [Std.LawfulEqCmp.compare_eq_iff_eq]

end Shell

end Nsh
