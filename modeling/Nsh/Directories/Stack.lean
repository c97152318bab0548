import Nsh.Directories.Model
import Nsh.Variables.Kept

/-!
# The directories below the current one

`DIRSTACK` shows the current directory and those below it, whenever it is published.
A `cd` never touches the directories below.
-/

namespace Nsh.Directories

open Nsh.Variables Nsh.Run

variable {W C O : Type} {host : Host W}

/-! ### Publishing -/

/-- `DIRSTACK` shows the current directory followed by the stack. -/
def Shows (shell : Shell W C O) : Prop :=
  variableValue shell.table (text "DIRSTACK") = some (indexedArray (shell.here :: shell.below))

/-- The shell is in the same place, with the same directories below it. -/
structure SamePlace (s t : Shell W C O) : Prop where
  directory : t.directory = s.directory
  logical : t.logical = s.logical
  physical : t.physical = s.physical
  below : t.below = s.below

theorem SamePlace.refl (s : Shell W C O) : SamePlace s s := ⟨rfl, rfl, rfl, rfl⟩

theorem SamePlace.trans {s t u : Shell W C O} (h : SamePlace s t) (h' : SamePlace t u) :
    SamePlace s u :=
  ⟨h'.directory.trans h.directory, h'.logical.trans h.logical, h'.physical.trans h.physical,
    h'.below.trans h.below⟩

theorem SamePlace.here {s t : Shell W C O} (h : SamePlace s t) : t.here = s.here := by
  unfold Shell.here
  rw [h.logical]

theorem Shows.of_entry {s t : Shell W C O} (h : Shows s) (hplace : SamePlace s t)
    (hentry : t.table.entry (text "DIRSTACK") = s.table.entry (text "DIRSTACK")) : Shows t := by
  unfold Shows at h ⊢
  unfold variableValue at h ⊢
  rw [hentry, hplace.here, hplace.below]
  exact h

/-- The logical path a move asks for. -/
def logicalFor (platform : Platform C O) (s : Shell W C O) (dest : Bytes) (options : CdOptions) :
    Option Bytes :=
  if options.physical then none else updateLogicalDirectory platform s dest

section

variable {evaluate : Bytes → ShellRun W Int64} {platform : Platform C O}

theorem changeDirectory_none {s : Shell W C O} {dest : Bytes} {options : CdOptions}
    (h : enterDirectory platform s (logicalFor platform s dest options) dest = none) :
    changeDirectory host evaluate platform dest options s = .done .failed s := by
  unfold logicalFor at h
  unfold changeDirectory
  rw [bind_apply]
  simp only [get_apply, h]
  rfl

/-- Where the process has moved, the move is noted. -/
theorem changeDirectory_some {s : Shell W C O} {dest : Bytes} {options : CdOptions}
    {directory : C}
    (h : enterDirectory platform s (logicalFor platform s dest options) dest = some directory) :
    ∃ result : Shell W C O → CdResult, (∀ shell, result shell ≠ .failed) ∧
      changeDirectory host evaluate platform dest options s =
        (updateCurrentDirectory host evaluate platform
          ((logicalFor platform s dest options).elim .unknown .new) true >>= fun _ =>
        Run.get >>= fun shell => pure (result shell)) { s with directory := directory } := by
  refine ⟨fun shell => if logicalFor platform s dest options = none ∧ shell.logical = none
    then .changedPwdUnknown else .changed, fun shell => ?_, ?_⟩
  · dsimp only
    split_ifs <;> simp
  · unfold logicalFor at h ⊢
    unfold changeDirectory
    rw [bind_apply, get_apply]
    dsimp only
    rw [h]
    cases (if options.physical = true then none else updateLogicalDirectory platform s dest) <;> rfl

end

/-! ### `cd` leaves what is below -/

/-- Reading the options moves nothing. -/
theorem parseCdOptions_stays {P : Shell W C O → Prop} (options : CdOptions)
    (words : List Bytes) :
    (parseCdOptions options words : DirectoryRun W C O _).Preserves P := by
  have hletters : ∀ (letters : Bytes) (options : CdOptions),
      (cdLetters options letters : DirectoryRun W C O CdOptions).Preserves P := by
    intro letters
    induction letters with
    | nil => intro options; exact preserves_pure _
    | cons letter rest ih =>
      intro options
      unfold cdLetters
      split_ifs
      · exact ih _
      · exact ih _
      · exact ih _
      · intro s hs
        exact hs
  induction words generalizing options with
  | nil => exact preserves_pure _
  | cons word rest ih =>
    unfold parseCdOptions
    split_ifs
    · exact preserves_pure _
    · exact preserves_pure _
    · exact (hletters _ _).bind fun _ => ih _

section Below

variable {below : List Bytes}

/-- These directories are below the current one. -/
def Below (below : List Bytes) (shell : Shell W C O) : Prop := shell.below = below

theorem onVariables_below {α : Type} (m : ShellRun W α) :
    (onVariables m : DirectoryRun W C O α).Preserves (Below below) := by
  intro s hs
  unfold onVariables Run.within
  cases m s.table with
  | done a table => exact ⟨trivial, hs⟩
  | failed e table => exact hs
  | unfinished => trivial

theorem modify_below {f : Shell W C O → Shell W C O} (h : ∀ s, (f s).below = s.below) :
    (Run.modify f : DirectoryRun W C O Unit).Preserves (Below below) :=
  preserves_modify fun s hs => (h s).trans hs

theorem shellError_below {α : Type} (message : Bytes) :
    (shellError message : DirectoryRun W C O α).Preserves (Below below) := onVariables_below _

theorem cannotChange_below {α : Type} (dest : Bytes) :
    (cannotChange dest : DirectoryRun W C O α).Preserves (Below below) := shellError_below _

theorem publishDirectoryStack_below :
    (publishDirectoryStack host : DirectoryRun W C O Unit).Preserves (Below below) := by
  intro s hs
  unfold publishDirectoryStack
  split
  · exact ⟨trivial, hs⟩
  · unfold storeArray
    cases store host (text "DIRSTACK") (indexedArray (s.here :: s.below)) VariableAttributes.none
        .declaration s.table with
    | done a table => exact ⟨trivial, hs⟩
    | failed e table => exact ⟨trivial, hs⟩
    | unfinished => trivial

variable {evaluate : Bytes → ShellRun W Int64} {platform : Platform C O}

theorem writeOutput_below (destination : OutputDestination) (bytes : Bytes) :
    (writeOutput platform destination bytes : DirectoryRun W C O Unit).Preserves (Below below) := by
  intro s hs
  unfold writeOutput
  rcases platform.write destination bytes s.output with ⟨_ | e, output⟩
  · exact ⟨trivial, hs⟩
  · exact hs

theorem askCurrentDirectory_below :
    (askCurrentDirectory platform : DirectoryRun W C O _).Preserves (Below below) := by
  intro s hs
  unfold askCurrentDirectory
  cases platform.currentDirectory s.directory with
  | ok current => exact ⟨trivial, hs⟩
  | error message => exact (onVariables_below _).bind (fun _ => preserves_pure _) s hs

theorem adoptDirectory_below (update : DirectoryUpdate) :
    (adoptDirectory platform update : DirectoryRun W C O Unit).Preserves (Below below) := by
  unfold adoptDirectory
  refine Preserves.bind (modify_below ?_) fun _ => ?_
  · intro shell
    rfl
  cases update with
  | new path => exact modify_below fun _ => rfl
  | unknown => exact askCurrentDirectory_below.bind fun _ => modify_below fun _ => rfl
  | current => exact askCurrentDirectory_below.bind fun _ => modify_below fun _ => rfl

theorem setExported_below (name value : Bytes) :
    (setExported host evaluate name value : DirectoryRun W C O Unit).Preserves (Below below) :=
  onVariables_below _

theorem updateCurrentDirectory_below (update : DirectoryUpdate) :
    (updateCurrentDirectory host evaluate platform update true : DirectoryRun W C O Unit).Preserves
      (Below below) := by
  unfold updateCurrentDirectory
  apply ensures_get.preserves.bind
  intro shell
  apply (setExported_below _ _).bind
  intro _
  apply (adoptDirectory_below update).bind
  intro _
  apply ensures_get.preserves.bind
  intro shell
  exact (setExported_below _ _).bind fun _ => publishDirectoryStack_below

theorem changeDirectory_below (dest : Bytes) (options : CdOptions) :
    (changeDirectory host evaluate platform dest options).Preserves (Below below) := by
  unfold changeDirectory
  apply ensures_get.preserves.bind
  intro shell
  dsimp only
  split
  · exact preserves_pure _
  · refine Preserves.bind (modify_below ?_) fun _ => ?_
    · intro shell
      rfl
    apply (updateCurrentDirectory_below _).bind
    intro _
    exact ensures_get.preserves.bind fun _ => preserves_pure _

theorem changeDirectoryOrFail_below (dest : Bytes) (options : CdOptions) :
    (changeDirectoryOrFail host evaluate platform dest options).Preserves (Below below) := by
  unfold changeDirectoryOrFail
  apply (changeDirectory_below dest options).bind
  intro result
  cases result with
  | failed => exact cannotChange_below dest
  | changed => exact preserves_pure _
  | changedPwdUnknown => exact preserves_pure _

theorem searchDirectories_below (dest : Bytes) (options : CdOptions) (components : List Bytes) :
    (searchDirectories host evaluate platform dest options components).Preserves (Below below) := by
  induction components with
  | nil => exact preserves_pure _
  | cons component rest ih =>
    unfold searchDirectories
    apply ensures_get.preserves.bind
    intro shell
    split
    · apply (changeDirectory_below _ _).bind
      intro result
      cases result with
      | failed => exact cannotChange_below dest
      | changed => exact preserves_pure _
      | changedPwdUnknown => exact preserves_pure _
    · exact ih

theorem lookupOrEmpty_below (name : Bytes) :
    (lookupOrEmpty host name : DirectoryRun W C O Bytes).Preserves (Below below) :=
  (onVariables_below _).bind fun _ => preserves_pure _

theorem cdMove_below (dest : Bytes) (options : CdOptions) :
    (cdMove host evaluate platform dest options).Preserves (Below below) := by
  unfold cdMove
  split
  · exact (changeDirectoryOrFail_below _ _).bind fun _ => preserves_pure _
  · apply (lookupOrEmpty_below _).bind
    intro path
    apply (searchDirectories_below _ _ _).bind
    intro moved
    cases moved with
    | some moved => exact preserves_pure _
    | none => exact (changeDirectoryOrFail_below _ _).bind fun _ => preserves_pure _

theorem cdDestination_below (options : CdOptions) (operand : Option Bytes) :
    (cdDestination host options operand : DirectoryRun W C O _).Preserves (Below below) := by
  cases operand with
  | none => exact (lookupOrEmpty_below _).bind fun _ => preserves_pure _
  | some operand =>
    unfold cdDestination
    dsimp only
    split
    · exact shellError_below _
    · split
      · exact (lookupOrEmpty_below _).bind fun _ => preserves_pure _
      · exact preserves_pure _

/-- Changing the directory leaves the directories below. -/
theorem cd_below (words : List Bytes) :
    (cd host evaluate platform words).Preserves (Below below) := by
  unfold cd
  apply (parseCdOptions_stays _ _).bind
  rintro ⟨options, operands⟩
  apply (cdDestination_below _ _).bind
  rintro ⟨dest, options⟩
  apply (cdMove_below _ _).bind
  rintro ⟨result, options⟩
  dsimp only
  split
  · apply ensures_get.preserves.bind
    intro shell
    exact (writeOutput_below _ _).bind fun _ => preserves_pure _
  · exact preserves_pure _

end Below

end Nsh.Directories
