import Nsh.Getopts.Scan
import Nsh.Shell.Flow
import Nsh.Shell.Spaces
import Nsh.Variables.Kept
import Nsh.Variables.Operations

/-!
# The calls of `getopts`

A call writes what it found to the variables and keeps its place beside them.  As
long as nothing else moves that place, the calls report what the words hold, one
item a call, and then the end.
-/

namespace Nsh.Getopts

open Nsh.Variables

variable {W : Type}

/-- The shell, its positional parameters, and the place of `getopts` in them. -/
structure Scanning (W : Type) where
  shell : Shell W
  positional : List Bytes
  optionIndex : Nat
  optionOffset : Option Nat
  argumentZero : Option Bytes

def onShell {α : Type} (m : ShellRun W α) : Run (Scanning W) Error α :=
  Run.within Scanning.shell (fun shell s => { s with shell := shell }) m

/-- Whether `parse::<i64>` reads zero. -/
def readsZero : Bytes → Bool
  | [] => false
  | sign :: rest =>
    let digits := if sign = chr '+' ∨ sign = chr '-' then rest else sign :: rest
    digits != [] && digits.all (· == chr '0')

/-- `opterr_reports` -/
def opterrReports (shell : Shell W) : Bool :=
  match (shell.entry (text "OPTERR")).bind Variable.scalarOwned with
  | none => true
  | some value => !readsZero (trim value)

def reportsBadOptions (shell : Shell W) : Bool :=
  if shell.options.dialect ≠ .bash then true else opterrReports shell

/-- The index as `OPTIND` is set to it. -/
def indexValue (index : Nat) : Int64 := Int64.ofNat (min index (2 ^ 63 - 1))

section

variable (host : Host W) (evaluate : Bytes → ShellRun W Int64)

def complain (program : Option Bytes) (complaint : Option Bytes) : ShellRun W Unit := do
  let shell ← Run.get
  match complaint with
  | some complaint =>
    if reportsBadOptions shell then Shell.warn (program.getD (text "sh") ++ complaint) else pure ()
  | none => pure ()

def storeArgument : Option Bytes → ShellRun W Unit
  | some argument =>
    setBytes host evaluate (text "OPTARG") (some argument) VariableAttributes.none
  | none => unsetBytes host (text "OPTARG")

/-- What a call writes to the variables. -/
def publish (program : Option Bytes) (optvar : Bytes) (found : Found) : ShellRun W Unit := do
  complain program found.complaint
  storeArgument host evaluate found.argument
  let _ ← setIntegerBytes host (text "OPTIND") (indexValue (found.next + 1))
    VariableAttributes.none .suppress
  setBytes host evaluate optvar (some [found.option]) VariableAttributes.none

def getopts (optstr optvar : Bytes) (words : List Bytes) : Run (Scanning W) Error Bool := do
  let s ← Run.get
  let found := scan optstr words s.optionIndex s.optionOffset
  onShell (publish host evaluate s.argumentZero optvar found)
  Run.modify fun s =>
    { s with optionIndex := found.next + 1, optionOffset := found.cursor.map (·.2) }
  pure found.done

/-- The words a call scans. -/
def Scanning.words (s : Scanning W) (explicit : List Bytes) : List Bytes :=
  if explicit = [] then s.positional else explicit

/-- `reset_getopts` -/
def resetGetopts (s : Scanning W) : Scanning W := { s with optionIndex := 1, optionOffset := none }

/-- `run`, its own options being read. -/
def run (operands : List Bytes) : Run (Scanning W) Error ExitStatus :=
  match operands with
  | optstr :: optvar :: explicit => do
    Run.modify fun s =>
      if (s.words explicit).length + 1 < s.optionIndex then resetGetopts s else s
    let s ← Run.get
    let done ← getopts host evaluate optstr optvar (s.words explicit)
    pure (if done then 1 else 0)
  | _ => onShell (Shell.shellError (text "Usage: getopts optstring var [arg...]"))

end

/-! ### Names that hold what they are given -/

/-- What a name without a subscript reads. -/
def held (shell : Shell W) (name : Bytes) : Option Bytes :=
  (shell.entry name).bind Variable.scalarOwned

/-- A name that may be written, with nothing behind it. -/
structure Ordinary (name : Bytes) (shell : Shell W) : Prop where
  valid : validName shell.locale name = true
  category : isLocaleVariable name = false
  entry : ∀ entry, shell.entry name = some entry →
    entry.attributes.readOnly = false ∧ entry.bashAttributes = {} ∧ entry.callback = .none

/-- A write of one name, which leaves everything else. -/
structure Edits (name : Bytes) (s t : Shell W) : Prop where
  locale : t.locale = s.locale
  warnings : t.warnings = s.warnings
  entry : ∀ other, other ≠ name → t.entry other = s.entry other

theorem edits_insert (name : Bytes) (entry : Variable) (s : Shell W) :
    Edits name s (s.insert name entry) :=
  ⟨rfl, rfl, fun _ hne => s.entry_insert_of_ne hne.symm entry⟩

theorem Ordinary.edits {name other : Bytes} {s t : Shell W} (h : Ordinary other s)
    (hedits : Edits name s t) (hne : other ≠ name) : Ordinary other t := by
  refine ⟨?_, h.category, fun entry hentry => ?_⟩
  · rw [hedits.locale]
    exact h.valid
  · rw [hedits.entry other hne] at hentry
    exact h.entry entry hentry

/-- A name that was given a plain entry is ordinary still, and reads what the entry holds. -/
theorem Ordinary.inserted {name : Bytes} {s : Shell W} (h : Ordinary name s) {entry : Variable}
    (hentry : entry.attributes.readOnly = false ∧ entry.bashAttributes = {} ∧
      entry.callback = .none) :
    Ordinary name (s.insert name entry) ∧ Edits name s (s.insert name entry) ∧
      held (s.insert name entry) name = entry.scalarOwned := by
  refine ⟨⟨h.valid, h.category, fun other hother => ?_⟩, edits_insert name entry s, ?_⟩
  · rw [Shell.entry_insert_self] at hother
    cases hother
    exact hentry
  · unfold held
    rw [Shell.entry_insert_self]
    rfl

theorem markedAttributes_readOnly (shell : Shell W) (allExport : AllExport) :
    (markedAttributes shell VariableAttributes.none allExport).readOnly = false := by
  unfold markedAttributes
  split <;> rfl

theorem scalarOwned_assigned {entry : Variable} {state : VariableState} {value : Option Bytes}
    (h : entry.state = assignedState state value) : entry.scalarOwned = value := by
  unfold Variable.scalarOwned
  rw [h]
  cases value with
  | none => cases state <;> rfl
  | some value =>
    cases state with
    | unset => rfl
    | declared kind => exact VariableValue.scalarOwned_assignScalar value _
    | set existing => exact VariableValue.scalarOwned_assignScalar value _

section

variable {host : Host W} {evaluate : Bytes → ShellRun W Int64} {name : Bytes} {s : Shell W}

/-- An entry of an ordinary name, updated. -/
theorem Ordinary.updated (h : Ordinary name s) {old : Variable} (hold : s.entry name = some old)
    (value : Option Bytes) {attributes : VariableAttributes}
    (hwritable : attributes.readOnly = false) :
    Ordinary name (updateEntry host name old value attributes .run s) ∧
      Edits name s (updateEntry host name old value attributes .run s) ∧
      held (updateEntry host name old value attributes .run s) name = value := by
  obtain ⟨_, hletters, hcallback⟩ := h.entry old hold
  have hupdate : updateEntry host name old value attributes .run s =
      s.insert name { old with
        attributes := attributes
        dynamicLineno := false
        state := assignedState old.state value } := by
    unfold updateEntry
    rw [if_pos rfl, hcallback]
    rfl
  rw [hupdate]
  refine ⟨(h.inserted ?_).1, edits_insert name _ s, (h.inserted ?_).2.2.trans ?_⟩
  · exact ⟨hwritable, hletters, hcallback⟩
  · exact ⟨hwritable, hletters, hcallback⟩
  · exact scalarOwned_assigned rfl

/-- An entry made for an ordinary name. -/
theorem Ordinary.created (h : Ordinary name s) (hnone : s.entry name = none)
    (value : Option Bytes) {attributes : VariableAttributes}
    (hwritable : attributes.readOnly = false) :
    Ordinary name (createEntry host name value attributes .run s) ∧
      Edits name s (createEntry host name value attributes .run s) ∧
      held (createEntry host name value attributes .run s) name = value := by
  unfold createEntry
  split
  · next hnothing =>
    refine ⟨h, ⟨rfl, rfl, fun _ _ => rfl⟩, ?_⟩
    unfold held
    rw [hnone, hnothing.1]
    rfl
  · rw [h.category]
    cases value with
    | none => exact h.inserted ⟨hwritable, rfl, rfl⟩
    | some value => exact h.inserted ⟨hwritable, rfl, rfl⟩

/-- An entry of an ordinary name, taken away. -/
theorem Ordinary.removed (h : Ordinary name s) :
    Ordinary name (removeEntry host name .none s) ∧
      Edits name s (removeEntry host name .none s) ∧
      held (removeEntry host name .none s) name = none := by
  unfold removeEntry
  cases decide (s.options.dialect = .bash) && isLocal s name with
  | true => exact h.inserted ⟨rfl, rfl, rfl⟩
  | false =>
    have herased : (s.setEntries (s.table.entries.erase name)).entry name = none := by
      unfold Shell.setEntries Shell.entry
      exact Std.ExtTreeMap.getElem?_erase_self
    refine ⟨⟨h.valid, h.category, fun entry hentry => ?_⟩, ⟨rfl, rfl, fun other hne => ?_⟩, ?_⟩
    · have hsome : (s.setEntries (s.table.entries.erase name)).entry name = some entry := hentry
      rw [herased] at hsome
      cases hsome
    · show (s.setEntries (s.table.entries.erase name)).entry other = s.entry other
      unfold Shell.setEntries Shell.entry
      rw [Std.ExtTreeMap.getElem?_erase, if_neg]
      intro hcompare
      exact hne (Std.LawfulEqCmp.eq_of_compare hcompare).symm
    · show ((s.setEntries (s.table.entries.erase name)).entry name).bind Variable.scalarOwned = none
      rw [herased]
      rfl

variable (host) in
/-- What a write of an ordinary name comes to. -/
theorem Ordinary.setEntry (h : Ordinary name s) (value : Option Bytes) (allExport : AllExport) :
    ∃ t, Variables.setEntry host name value VariableAttributes.none .run .enforce allExport s
        = .done () t ∧ Ordinary name t ∧ Edits name s t ∧ held t name = value := by
  have hmarks := markedAttributes_readOnly s allExport
  unfold Variables.setEntry
  rw [if_pos h.valid]
  dsimp only
  rw [show (if allExport = .marks ∧ s.options.allExport then
    { VariableAttributes.none with exported := true } else VariableAttributes.none) =
      markedAttributes s VariableAttributes.none allExport from rfl]
  generalize markedAttributes s VariableAttributes.none allExport = attributes at hmarks ⊢
  cases hold : s.entry name with
  | none => exact ⟨_, rfl, h.created hold value hmarks⟩
  | some old =>
    obtain ⟨hreadOnly, _, hcallback⟩ := h.entry old hold
    have hunion : (attributes.union old.attributes).readOnly = false := by
      unfold VariableAttributes.union
      rw [hreadOnly, hmarks]
      rfl
    dsimp only
    rw [if_neg (by rw [hreadOnly]; simp)]
    by_cases hwrites : value.isSome = true ∨ attributes ≠ VariableAttributes.none
    · rw [if_pos hwrites]
      exact ⟨_, rfl, h.updated hold value hunion⟩
    · rw [not_or, Classical.not_not] at hwrites
      obtain rfl : value = none := Option.not_isSome_iff_eq_none.mp hwrites.1
      rw [if_neg (by rw [hwrites.2]; simp)]
      by_cases hfixed : old.attributes.fixed = true
      · rw [if_pos hfixed]
        exact ⟨_, rfl, h.updated hold none rfl⟩
      · rw [if_neg hfixed, hcallback]
        exact ⟨_, rfl, h.removed⟩

variable (host evaluate) in
/-- An ordinary name is set to what it is given. -/
theorem Ordinary.set (h : Ordinary name s) (value : Bytes) :
    ∃ t, setBytes host evaluate name (some value) VariableAttributes.none s = .done () t ∧
      Ordinary name t ∧ Edits name s t ∧ held t name = some value := by
  rw [setBytes_unlettered fun entry hentry => (h.entry entry hentry).2.1]
  exact h.setEntry host (some value) .marks

variable (host) in
/-- An ordinary name is unset. -/
theorem Ordinary.unset (h : Ordinary name s) :
    ∃ t, unsetBytes host name s = .done () t ∧ Ordinary name t ∧ Edits name s t ∧
      held t name = none :=
  h.setEntry host none _

variable (host) in
/-- The index is written past whatever stands behind `OPTIND`. -/
theorem setIndex_done (hvalid : validName s.locale name = true)
    (hwritable : ∀ entry, s.entry name = some entry → entry.attributes.readOnly = false)
    (value : Int64) :
    ∃ t, setIntegerBytes host name value VariableAttributes.none .suppress s = .done value t ∧
      (∀ entry, t.entry name = some entry → entry.attributes.readOnly = false) ∧ Edits name s t ∧
      held t name = some (decimal value) := by
  have hmarks := markedAttributes_readOnly s .marks
  have hinsert : ∀ entry : Variable, entry.attributes.readOnly = false →
      entry.scalarOwned = some (decimal value) →
      (∀ entry', (s.insert name entry).entry name = some entry' →
        entry'.attributes.readOnly = false) ∧ Edits name s (s.insert name entry) ∧
        held (s.insert name entry) name = some (decimal value) := by
    intro entry hreadOnly hheld
    refine ⟨fun entry' hentry' => ?_, edits_insert name entry s, ?_⟩
    · rw [Shell.entry_insert_self] at hentry'
      cases hentry'
      exact hreadOnly
    · unfold held
      rw [Shell.entry_insert_self]
      exact hheld
  have hset : ∃ t, Variables.setEntry host name (some (decimal value)) VariableAttributes.none
      .suppress .enforce .marks s = .done () t ∧
      (∀ entry, t.entry name = some entry → entry.attributes.readOnly = false) ∧ Edits name s t ∧
      held t name = some (decimal value) := by
    unfold Variables.setEntry
    rw [if_pos hvalid]
    dsimp only
    rw [show (if AllExport.marks = .marks ∧ s.options.allExport then
      { VariableAttributes.none with exported := true } else VariableAttributes.none) =
        markedAttributes s VariableAttributes.none .marks from rfl]
    generalize markedAttributes s VariableAttributes.none .marks = attributes at hmarks ⊢
    cases hold : s.entry name with
    | none => exact ⟨_, rfl, hinsert _ hmarks rfl⟩
    | some old =>
      have hreadOnly := hwritable old hold
      have hunion : (attributes.union old.attributes).readOnly = false := by
        unfold VariableAttributes.union
        rw [hreadOnly, hmarks]
        rfl
      dsimp only
      rw [if_neg (by rw [hreadOnly]; simp), if_pos (Or.inl Option.isSome_some)]
      exact ⟨_, rfl, hinsert _ hunion (scalarOwned_assigned rfl)⟩
  obtain ⟨t, hdone, hkept⟩ := hset
  refine ⟨t, ?_, hkept⟩
  unfold setIntegerBytes
  rw [Run.bind_done hdone]
  rfl

end

/-! ### The calls -/

/-- The names a call writes are ordinary, and apart. -/
structure Ready (optvar : Bytes) (shell : Shell W) : Prop where
  argument : Ordinary (text "OPTARG") shell
  letter : Ordinary optvar shell
  valid : validName shell.locale (text "OPTIND") = true
  writable : ∀ entry, shell.entry (text "OPTIND") = some entry → entry.attributes.readOnly = false
  notArgument : optvar ≠ text "OPTARG"
  notIndex : optvar ≠ text "OPTIND"

/-- What is reported of a bad option. -/
def complaints (shell : Shell W) (program complaint : Option Bytes) : List Bytes :=
  match complaint with
  | some complaint =>
    if reportsBadOptions shell then [program.getD (text "sh") ++ complaint] else []
  | none => []

section

variable {host : Host W} {evaluate : Bytes → ShellRun W Int64} {optvar : Bytes}

theorem complain_done (program complaint : Option Bytes) (s : Shell W) :
    complain program complaint s =
      .done () { s with warnings := s.warnings ++ complaints s program complaint } := by
  unfold complain complaints
  rw [Run.bind_done (Run.get_apply s)]
  cases complaint with
  | none =>
    rw [List.append_nil]
    rfl
  | some complaint =>
    dsimp only
    split
    · rfl
    · rw [List.append_nil]
      rfl

variable (host evaluate) in
/-- What a call writes is there to be read. -/
theorem publish_done {s : Shell W} (hready : Ready optvar s) (program : Option Bytes)
    (found : Found) :
    ∃ t, publish host evaluate program optvar found s = .done () t ∧ Ready optvar t ∧
      held t optvar = some [found.option] ∧ held t (text "OPTARG") = found.argument ∧
      held t (text "OPTIND") = some (decimal (indexValue (found.next + 1))) ∧
      t.warnings = s.warnings ++ complaints s program found.complaint := by
  have happart : text "OPTIND" ≠ text "OPTARG" := by decide
  obtain ⟨hargument, hletter, hvalid, hwritable, hnotArgument, hnotIndex⟩ := hready
  -- The report itself leaves the names alone.
  let a : Shell W := { s with warnings := s.warnings ++ complaints s program found.complaint }
  have hstored : ∃ b, storeArgument host evaluate found.argument a = .done () b ∧
      Ordinary (text "OPTARG") b ∧ Edits (text "OPTARG") a b ∧
      held b (text "OPTARG") = found.argument := by
    have hordinary : Ordinary (text "OPTARG") a :=
      ⟨hargument.valid, hargument.category, hargument.entry⟩
    cases found.argument with
    | none => exact hordinary.unset host
    | some argument => exact hordinary.set host evaluate argument
  obtain ⟨b, hstore, hargumentB, heditsB, hheldB⟩ := hstored
  have hletterA : Ordinary optvar a := ⟨hletter.valid, hletter.category, hletter.entry⟩
  have hletterB : Ordinary optvar b := hletterA.edits heditsB hnotArgument
  have hvalidB : validName b.locale (text "OPTIND") = true := by
    rw [heditsB.locale]
    exact hvalid
  have hwritableB : ∀ entry, b.entry (text "OPTIND") = some entry →
      entry.attributes.readOnly = false := by
    intro entry hentry
    rw [heditsB.entry _ happart] at hentry
    exact hwritable entry hentry
  obtain ⟨c, hindex, hwritableC, heditsC, hheldC⟩ :=
    setIndex_done host hvalidB hwritableB (indexValue (found.next + 1))
  obtain ⟨d, hset, hletterD, heditsD, hheldD⟩ :=
    (hletterB.edits heditsC hnotIndex).set host evaluate [found.option]
  refine ⟨d, ?_, ⟨?_, hletterD, ?_, ?_, hnotArgument, hnotIndex⟩, hheldD, ?_, ?_, ?_⟩
  · unfold publish
    rw [Run.bind_done (complain_done program found.complaint s), Run.bind_done hstore,
      Run.bind_done hindex]
    exact hset
  · exact (hargumentB.edits heditsC happart.symm).edits heditsD hnotArgument.symm
  · rw [heditsD.locale, heditsC.locale, heditsB.locale]
    exact hvalid
  · intro entry hentry
    rw [heditsD.entry _ hnotIndex.symm] at hentry
    exact hwritableC entry hentry
  · unfold held at hheldB ⊢
    rw [heditsD.entry _ hnotArgument.symm, heditsC.entry _ happart.symm]
    exact hheldB
  · unfold held at hheldC ⊢
    rw [heditsD.entry _ hnotIndex.symm]
    exact hheldC
  · rw [heditsD.warnings, heditsC.warnings, heditsB.warnings]

/-- `OPTIND` shows the index, which a list of words in memory keeps below the bound. -/
def IndexShown (s : Scanning W) : Prop :=
  s.optionIndex < 2 ^ 63 → held s.shell (text "OPTIND") = some (decimalNat s.optionIndex)

/-- A call that starts at `s` and ends at `t` reports this item. -/
structure Reports (quiet : Bool) (optvar : Bytes) (item : Item) (s t : Scanning W) : Prop where
  letter : held t.shell optvar = some [(item.reported quiet).1]
  argument : held t.shell (text "OPTARG") = (item.reported quiet).2.1
  complaint : t.shell.warnings =
    s.shell.warnings ++ complaints s.shell s.argumentZero (item.reported quiet).2.2
  index : IndexShown t

/-- A call reports the end. -/
structure ReportsEnd (optvar : Bytes) (s t : Scanning W) : Prop where
  letter : held t.shell optvar = some [chr '?']
  argument : held t.shell (text "OPTARG") = none
  complaint : t.shell.warnings = s.shell.warnings
  index : IndexShown t

variable (host evaluate) in
/-- Calls that report these items, one after the other. -/
inductive Calls (quiet : Bool) (operands : List Bytes) (optvar : Bytes) :
    List Item → Scanning W → Scanning W → Prop where
  | none (s : Scanning W) : Calls quiet operands optvar [] s s
  | more {item : Item} {items : List Item} {s t u : Scanning W} :
      run host evaluate operands s = .done 0 t → Reports quiet optvar item s t →
      Calls quiet operands optvar items t u → Calls quiet operands optvar (item :: items) s u

theorem decimal_indexValue {index : Nat} (h : index < 2 ^ 63) :
    decimal (indexValue index) = decimalNat index := by
  have hvalue : (indexValue index).toInt = index := by
    unfold indexValue
    rw [Nat.min_eq_left (by omega)]
    exact Int64.toInt_ofNat_of_lt h
  unfold decimal
  rw [hvalue, if_neg, Int.natAbs_natCast]
  rw [Int64.lt_iff_toInt_lt, hvalue]
  exact Int.not_lt.mpr (Int.natCast_nonneg index)

theorem run_operands (optstr : Bytes) (explicit : List Bytes) :
    run host evaluate (optstr :: optvar :: explicit) =
      (do
        Run.modify fun s =>
          if (s.words explicit).length + 1 < s.optionIndex then resetGetopts s else s
        let s ← Run.get
        let done ← getopts host evaluate optstr optvar (s.words explicit)
        pure (if done then 1 else 0) : Run (Scanning W) Error ExitStatus) := rfl

variable (host evaluate) in
/-- What one call does to the shell and to its place in the words. -/
theorem run_call {s : Scanning W} (optstr : Bytes) {explicit : List Bytes}
    (hready : Ready optvar s.shell)
    (hplaced : Placed (s.words explicit) s.optionIndex s.optionOffset) :
    ∃ t, run host evaluate (optstr :: optvar :: explicit) s =
        .done
          (if (scan optstr (s.words explicit) s.optionIndex s.optionOffset).done then 1 else 0) t ∧
      Ready optvar t.shell ∧ t.positional = s.positional ∧
      t.optionIndex = (scan optstr (s.words explicit) s.optionIndex s.optionOffset).next + 1 ∧
      t.optionOffset =
        (scan optstr (s.words explicit) s.optionIndex s.optionOffset).cursor.map (·.2) ∧
      held t.shell optvar =
        some [(scan optstr (s.words explicit) s.optionIndex s.optionOffset).option] ∧
      held t.shell (text "OPTARG") =
        (scan optstr (s.words explicit) s.optionIndex s.optionOffset).argument ∧
      t.shell.warnings = s.shell.warnings ++ complaints s.shell s.argumentZero
        (scan optstr (s.words explicit) s.optionIndex s.optionOffset).complaint ∧
      IndexShown t := by
  generalize hfound : scan optstr (s.words explicit) s.optionIndex s.optionOffset = found
  obtain ⟨shell, hpublish, hready', hletter, hargument, hindex, hwarnings⟩ :=
    publish_done host evaluate hready s.argumentZero found
  have hkept : ¬ (s.words explicit).length + 1 < s.optionIndex :=
    Nat.not_lt_of_le hplaced.bounded
  refine ⟨⟨shell, s.positional, found.next + 1, found.cursor.map (·.2), s.argumentZero⟩, ?_,
    hready', rfl, rfl, rfl, hletter, hargument, hwarnings, fun hbound => ?_⟩
  · have hshell : onShell (publish host evaluate s.argumentZero optvar found) s =
        .done () { s with shell := shell } := by
      unfold onShell Run.within
      rw [hpublish]
    have hgetopts : getopts host evaluate optstr optvar (s.words explicit) s =
        .done found.done
          ⟨shell, s.positional, found.next + 1, found.cursor.map (·.2), s.argumentZero⟩ := by
      unfold getopts
      rw [Run.bind_done (Run.get_apply s), hfound, Run.bind_done hshell]
      rfl
    rw [run_operands, Run.bind_done (Run.modify_apply _ s), if_neg hkept,
      Run.bind_done (Run.get_apply s),
      Run.bind_done hgetopts]
    rfl
  · rw [hindex, decimal_indexValue hbound]

variable (host evaluate) in
/-- **The calls report what the words hold**, item by item, and then the end, with the index
past the last word read. -/
theorem calls_from {quiet : Bool} {letters : List (UInt8 × Bool)}
    (hletters : ∀ l ∈ letters, l.1 ≠ chr ':') {words explicit left : List Bytes}
    {items : List Item} {s : Scanning W} (hready : Ready optvar s.shell)
    (hwords : s.words explicit = words) (hplaced : Placed words s.optionIndex s.optionOffset)
    (hitems : itemsOf letters (groupAt words s.optionIndex s.optionOffset)
      (words.drop (s.optionIndex - 1)) = (items, left)) :
    ∃ t u, Calls host evaluate quiet (optionString quiet letters :: optvar :: explicit) optvar
        items s t ∧
      run host evaluate (optionString quiet letters :: optvar :: explicit) t = .done 1 u ∧
      ReportsEnd optvar t u ∧
      ∃ read, words = read ++ left ∧ u.optionIndex = read.length + 1 := by
  induction items generalizing s with
  | nil =>
    have htakes := scan_takes quiet hletters hplaced
    rw [hitems] at htakes
    obtain ⟨hfound, hleft, hlength⟩ := htakes
    subst hwords
    obtain ⟨u, hrun, _, _, hnext, _, hletter, hargument, hwarnings, hshown⟩ :=
      run_call host evaluate (optionString quiet letters) hready hplaced
    rw [hfound] at hrun hletter hargument hwarnings
    refine ⟨s, u, .none s, hrun, ⟨hletter, hargument, ?_, hshown⟩,
      (s.words explicit).take (u.optionIndex - 1), ?_, ?_⟩
    · rw [hwarnings]
      exact List.append_nil _
    · rw [← hleft, hnext, Nat.add_sub_cancel, List.take_append_drop]
    · rw [List.length_take, hnext, Nat.add_sub_cancel, Nat.min_eq_left hlength]
  | cons item items ih =>
    have htakes := scan_takes quiet hletters hplaced
    rw [hitems] at htakes
    obtain ⟨hdone, hreported, hplaced', hrest⟩ := htakes
    subst hwords
    obtain ⟨t, hrun, hready', hpositional, hnext, hoffset, hletter, hargument, hwarnings, hshown⟩ :=
      run_call host evaluate (optionString quiet letters) hready hplaced
    rw [hdone] at hrun
    have hsame : t.words explicit = s.words explicit := by
      unfold Scanning.words
      rw [hpositional]
    rw [← hnext, ← hoffset] at hplaced'
    rw [← hoffset, ← hnext, show (scan (optionString quiet letters) (s.words explicit)
      s.optionIndex s.optionOffset).next = t.optionIndex - 1 by omega] at hrest
    obtain ⟨v, u, hcalls, hend⟩ := ih hready' hsame hplaced' hrest
    refine ⟨v, u, .more hrun ⟨?_, ?_, ?_, hshown⟩ hcalls, hend⟩
    · rw [hletter, hreported]
    · rw [hargument, hreported]
    · rw [hwarnings, hreported]

/-- **`getopts` yields the option sequence**: from the first word the calls report what the
words hold by the utility syntax rules, one item a call, and then the end, past the words that
were read and after no more items than the words have bytes. -/
theorem yields_sequence (host : Host W) (evaluate : Bytes → ShellRun W Int64) (quiet : Bool)
    {letters : List (UInt8 × Bool)} (hletters : ∀ l ∈ letters, l.1 ≠ chr ':')
    (explicit : List Bytes) {s : Scanning W} (hready : Ready optvar s.shell)
    (hindex : s.optionIndex = 1) (hoffset : s.optionOffset = none) :
    ∃ t u, Calls host evaluate quiet (optionString quiet letters :: optvar :: explicit) optvar
        (itemsOf letters [] (s.words explicit)).1 s t ∧
      run host evaluate (optionString quiet letters :: optvar :: explicit) t = .done 1 u ∧
      ReportsEnd optvar t u ∧
      (∃ read, s.words explicit = read ++ (itemsOf letters [] (s.words explicit)).2 ∧
        u.optionIndex = read.length + 1) ∧
      (itemsOf letters [] (s.words explicit)).1.length ≤
        ((s.words explicit).map List.length).sum := by
  have hplaced : Placed (s.words explicit) s.optionIndex s.optionOffset := by
    rw [hindex, hoffset]
    exact ⟨Nat.le_refl 1, Nat.le_add_left 1 _, fun _ ho => by cases ho⟩
  have hitems : itemsOf letters (groupAt (s.words explicit) s.optionIndex s.optionOffset)
      ((s.words explicit).drop (s.optionIndex - 1)) = itemsOf letters [] (s.words explicit) := by
    rw [hindex, hoffset]
    rfl
  have hlength := length_itemsOf letters [] (s.words explicit)
  rw [List.length_nil, Nat.zero_add] at hlength
  obtain ⟨t, u, hcalls, hrun, hend, hread⟩ :=
    calls_from host evaluate hletters hready rfl hplaced hitems
  exact ⟨t, u, hcalls, hrun, hend, hread, hlength⟩

end

/-- A shell that has called `getopts` for nothing yet. -/
def unscanned : Scanning Unit where
  shell := blankShell .bash
  positional := [text "-ab", text "x", text "-c", text "--", text "y"]
  optionIndex := 1
  optionOffset := none
  argumentZero := none

theorem ready_unscanned : Ready (text "o") unscanned.shell := by
  have hnone : ∀ name entry, unscanned.shell.entry name ≠ some entry := by
    intro name entry h
    have hempty : unscanned.shell.entry name = none := Std.ExtTreeMap.getElem?_empty
    rw [hempty] at h
    cases h
  exact ⟨⟨by rfl, by rfl, fun entry h => absurd h (hnone _ entry)⟩,
    ⟨by rfl, by rfl, fun entry h => absurd h (hnone _ entry)⟩, by rfl,
    fun entry h => absurd h (hnone _ entry), by decide, by decide⟩

/-- `getopts :ab: o`, over `-ab x -c -- y`. -/
theorem yields_sequence_unscanned :
    ∃ t u, Calls Host.plain (fun _ => pure 0) true
        [optionString true [(chr 'a', false), (chr 'b', true)], text "o"] (text "o")
        (itemsOf [(chr 'a', false), (chr 'b', true)] [] (unscanned.words [])).1 unscanned t ∧
      run Host.plain (fun _ => pure 0)
        [optionString true [(chr 'a', false), (chr 'b', true)], text "o"] t = .done 1 u ∧
      ReportsEnd (text "o") t u ∧
      (∃ read, unscanned.words [] =
          read ++ (itemsOf [(chr 'a', false), (chr 'b', true)] [] (unscanned.words [])).2 ∧
        u.optionIndex = read.length + 1) ∧
      (itemsOf [(chr 'a', false), (chr 'b', true)] [] (unscanned.words [])).1.length ≤
        ((unscanned.words []).map List.length).sum :=
  yields_sequence Host.plain (fun _ => pure 0) true (by decide +kernel) [] ready_unscanned rfl rfl

end Nsh.Getopts
