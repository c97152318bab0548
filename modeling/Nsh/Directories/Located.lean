import Mathlib.Logic.Relation
import Nsh.Directories.Place
import Nsh.Directories.AllOrNothing

/-!
# The shell knows where it is

However `cd`, `pwd`, `pushd` and `popd` follow one another, the logical path is the
canonical spelling of a place and names the directory the process is in, and a
physical path that is remembered is the one the operating system reports.  What the
operating system owes is `Steady`: its tree does not change under the shell.  The
shell owes that `OLDPWD` may be assigned, since `cd` assigns it between moving the
process and noting the move.
-/

namespace Nsh.Directories

open Nsh.Variables Nsh.Run

variable {W C O : Type}

/-- A path is the spelling of a place. -/
def Canonical (path : Bytes) : Prop := ∃ place : Place, place.path = path

/-- A path leads to this directory from wherever it is entered, unless it is too long to be
entered at all. -/
def Names (platform : Platform C O) (path : Bytes) (directory : C) : Prop :=
  ∀ c, platform.enter c path = .ok directory ∨ platform.enter c path = .error .nameTooLong

/-- A tree of directories that stays as it is. -/
structure Steady (platform : Platform C O) : Prop where
  absolute : ∀ c c' path, pathIsAbsolute path = true →
    platform.enter c path = platform.enter c' path
  canonical : ∀ c path, platform.currentDirectory c = .ok path → Canonical path
  names : ∀ c path, platform.currentDirectory c = .ok path → Names platform path c

/-- The shell knows where it is. -/
structure Located (platform : Platform C O) (s : Shell W C O) : Prop where
  canonical : ∀ path, s.logical = some path → Canonical path
  names : ∀ path, s.logical = some path → Names platform path s.directory
  reported : ∀ path, s.physical = some path → platform.currentDirectory s.directory = .ok path

/-- Reading the names `cd` reads recomputes nothing, and an assignment to `OLDPWD` is not
refused. -/
structure Movable (host : Host W) (evaluate : Bytes → ShellRun W Int64) (s : Shell W C O) :
    Prop where
  plain : Plain s.table cdNames
  accepted : ∀ value e table, setBytes host evaluate (text "OLDPWD") (some value)
    { exported := true } s.table ≠ .failed e table

variable (host : Host W) (evaluate : Bytes → ShellRun W Int64) (platform : Platform C O)

/-- The directory `pwd` prints. -/
def pwdDirectory (options : CdOptions) : DirectoryRun W C O Bytes := do
  let shell ← Run.get
  if options.physical = false then pure shell.here
  else if shell.physical.isSome then pure (shell.physical.getD [])
  else do
    updateCurrentDirectory host evaluate platform .current false
    let shell ← Run.get
    pure (shell.physical.getD [])

/-- `pwd::run` on the words behind the command name. -/
def pwd (words : List Bytes) : DirectoryRun W C O Flow := do
  let (options, _) ← parseCdOptions ⟨false, false, false⟩ words
  let dir ← pwdDirectory host evaluate platform options
  writeOutput platform .stdout (dir ++ [0x0a])
  pure (.done 0)

/-- What moves the shell or asks where it is. -/
inductive Command where
  | cd (words : List Bytes)
  | pwd (words : List Bytes)
  | pushd (words : List Bytes)
  | popd (words : List Bytes)
deriving DecidableEq, Repr

def Command.perform : Command → DirectoryRun W C O Flow
  | .cd words => Directories.cd host evaluate platform words
  | .pwd words => Directories.pwd host evaluate platform words
  | .pushd words => runPushd host evaluate platform words
  | .popd words => runPopd host evaluate platform words

/-- The shell is where it was: anything may have happened to its variables, its output and
the directories below. -/
structure Stays (s t : Shell W C O) : Prop where
  directory : t.directory = s.directory
  logical : t.logical = s.logical
  physical : t.physical = s.physical

/-- One step of a session: a command that moves the shell, or something else. -/
def Moves (s t : Shell W C O) : Prop :=
  (∃ command : Command, Movable host evaluate s ∧
    (command.perform host evaluate platform).Ends s t) ∨ Stays s t

/-- A session. -/
def Session : Shell W C O → Shell W C O → Prop :=
  Relation.ReflTransGen (Moves host evaluate platform)

/-! ### What only depends on the place -/

variable {host evaluate platform}

theorem Located.of_stays {s t : Shell W C O} (h : Located platform s) (hstays : Stays s t) :
    Located platform t where
  canonical path hpath := h.canonical path (hstays.logical ▸ hpath)
  names path hpath := by
    rw [hstays.directory]
    exact h.names path (hstays.logical ▸ hpath)
  reported path hpath := by
    rw [hstays.directory]
    exact h.reported path (hstays.physical ▸ hpath)

theorem onVariables_located {α : Type} (m : ShellRun W α) :
    (onVariables m : DirectoryRun W C O α).Preserves (Located platform) := by
  intro s hs
  unfold onVariables Run.within
  cases m s.table with
  | done a table => exact ⟨trivial, hs.of_stays ⟨rfl, rfl, rfl⟩⟩
  | failed e table => exact hs.of_stays ⟨rfl, rfl, rfl⟩
  | unfinished => trivial

theorem publishDirectoryStack_located :
    (publishDirectoryStack host : DirectoryRun W C O Unit).Preserves (Located platform) := by
  intro s hs
  unfold publishDirectoryStack
  split
  · exact ⟨trivial, hs⟩
  · unfold storeArray
    cases store host (text "DIRSTACK") (indexedArray (s.here :: s.below)) VariableAttributes.none
        .declaration s.table with
    | done a table => exact ⟨trivial, hs.of_stays ⟨rfl, rfl, rfl⟩⟩
    | failed e table => exact ⟨trivial, hs.of_stays ⟨rfl, rfl, rfl⟩⟩
    | unfinished => trivial

theorem writeOutput_located (other : Platform C O) (destination : OutputDestination)
    (bytes : Bytes) :
    (writeOutput other destination bytes : DirectoryRun W C O Unit).Preserves
      (Located platform) := by
  intro s hs
  unfold writeOutput
  rcases other.write destination bytes s.output with ⟨_ | e, output⟩
  · exact ⟨trivial, hs.of_stays ⟨rfl, rfl, rfl⟩⟩
  · exact hs.of_stays ⟨rfl, rfl, rfl⟩

theorem writeStack_located (format : Format) :
    (writeStack host platform format : DirectoryRun W C O Unit).Preserves (Located platform) := by
  unfold writeStack lookupOrEmpty
  apply ((onVariables_located _).bind fun _ => preserves_pure _).bind
  intro home _
  exact ensures_get.preserves.bind fun _ => writeOutput_located _ _ _

theorem publishAndWrite_located :
    (publishAndWrite host platform : DirectoryRun W C O Flow).Preserves (Located platform) := by
  unfold publishAndWrite
  apply publishDirectoryStack_located.bind
  intro _
  exact (writeStack_located _).bind fun _ => preserves_pure _

theorem Located.place {s : Shell W C O} (h : Located platform s) :
    ∃ current : Option Place, s.logical = current.map Place.path := by
  cases hlogical : s.logical with
  | none => exact ⟨none, rfl⟩
  | some path =>
    obtain ⟨place, hplace⟩ := h.canonical path hlogical
    exact ⟨some place, congrArg some hplace.symm⟩

theorem updateLogicalDirectory_canonical {s : Shell W C O} {dest path : Bytes}
    (hs : Located platform s) (h : updateLogicalDirectory platform s dest = some path) :
    Canonical path := by
  obtain ⟨current, hcurrent⟩ := hs.place
  rw [updateLogicalDirectory, hcurrent, logicalPath_path, Option.map_eq_some_iff] at h
  obtain ⟨place, _, hpath⟩ := h
  exact ⟨place, hpath⟩

/-- An `OLDPWD` that is neither read-only nor given an attribute may be assigned. -/
theorem Movable.of_entry {s : Shell W C O}
    (hplain : ∀ name ∈ cdNames, ∀ entry, s.table.entry name = some entry →
      entry.dynamicLineno = false ∧ entry.callback ≠ .special)
    (hname : validName s.table.locale (text "OLDPWD") = true)
    (hentry : ∀ entry, s.table.entry (text "OLDPWD") = some entry →
      entry.attributes.readOnly = false ∧ entry.bashAttributes = {}) :
    Movable host evaluate s where
  plain := hplain
  accepted value e table h := by
    rw [setBytes_unlettered fun entry hold => (hentry entry hold).2, setEntry, if_pos hname] at h
    cases hold : s.table.entry (text "OLDPWD") with
    | none =>
      rw [hold] at h
      cases h
    | some old =>
      rw [hold] at h
      dsimp only at h
      rw [(hentry old hold).1, if_neg (by simp), if_pos (Or.inl Option.isSome_some)] at h
      cases h

/-! ### Noting a move -/

/-- Once a move is noted the shell knows where it is. -/
theorem adoptDirectory_located (hsteady : Steady platform) {update : DirectoryUpdate}
    {s : Shell W C O} (hcurrent : update = .current → Located platform s)
    (hnew : ∀ path, update = .new path → Canonical path ∧ Names platform path s.directory) :
    (adoptDirectory platform update s).Meets (Located platform) fun _ => True := by
  cases update with
  | new path =>
    obtain ⟨hcanonical, hnames⟩ := hnew path rfl
    refine ⟨trivial, ?_, ?_, ?_⟩
    · rintro _ ⟨⟩
      exact hcanonical
    · rintro _ ⟨⟩
      exact hnames
    · rintro _ ⟨⟩
  | unknown =>
    cases hasked : platform.currentDirectory s.directory with
    | ok path =>
      have hrun : adoptDirectory platform .unknown s =
          .done () { s with logical := some path, physical := some path } := by
        simp [adoptDirectory, askCurrentDirectory, bind_apply, hasked]
      rw [hrun]
      refine ⟨trivial, ?_, ?_, ?_⟩
      · rintro _ ⟨⟩
        exact hsteady.canonical _ _ hasked
      · rintro _ ⟨⟩
        exact hsteady.names _ _ hasked
      · rintro _ ⟨⟩
        exact hasked
    | error message =>
      have hrun : ∃ table, adoptDirectory platform .unknown s =
          .done () { s with table := table, logical := none, physical := none } := by
        refine ⟨{ s.table with
          warnings := s.table.warnings ++ [text "getcwd() failed: " ++ message] }, ?_⟩
        simp [adoptDirectory, askCurrentDirectory, bind_apply, hasked, onVariables, Run.within,
          Nsh.Shell.warn]
      obtain ⟨table, hrun⟩ := hrun
      rw [hrun]
      refine ⟨trivial, ?_, ?_, ?_⟩
      · rintro _ ⟨⟩
      · rintro _ ⟨⟩
      · rintro _ ⟨⟩
  | current =>
    have hs := hcurrent rfl
    cases hasked : platform.currentDirectory s.directory with
    | ok path =>
      have hrun : adoptDirectory platform .current s =
          .done () { s with physical := some path } := by
        simp [adoptDirectory, askCurrentDirectory, bind_apply, hasked]
      rw [hrun]
      refine ⟨trivial, hs.canonical, hs.names, ?_⟩
      rintro _ ⟨⟩
      exact hasked
    | error message =>
      have hrun : ∃ table, adoptDirectory platform .current s =
          .done () { s with table := table, physical := none } := by
        refine ⟨{ s.table with
          warnings := s.table.warnings ++ [text "getcwd() failed: " ++ message] }, ?_⟩
        simp [adoptDirectory, askCurrentDirectory, bind_apply, hasked, onVariables, Run.within,
          Nsh.Shell.warn]
      obtain ⟨table, hrun⟩ := hrun
      rw [hrun]
      refine ⟨trivial, hs.canonical, hs.names, ?_⟩
      rintro _ ⟨⟩

variable (hsteady : Steady platform)

include hsteady in
theorem updateCurrentDirectory_located {update : DirectoryUpdate} {s : Shell W C O}
    (hcurrent : update = .current → Located platform s)
    (hnew : ∀ path, update = .new path → Canonical path ∧ Names platform path s.directory) :
    (updateCurrentDirectory host evaluate platform update false s).Meets (Located platform)
      fun _ => True := by
  have hrun : updateCurrentDirectory host evaluate platform update false s =
      (adoptDirectory platform update >>= fun _ => Run.get >>= fun shell =>
        setExported host evaluate (text "PWD") shell.here >>= fun _ =>
          publishDirectoryStack host) s := rfl
  rw [hrun]
  apply meets_bind (adoptDirectory_located hsteady hcurrent hnew)
  intro _ _
  apply ensures_get.preserves.bind
  intro shell
  exact (onVariables_located _).bind fun _ => publishDirectoryStack_located

/-- `OLDPWD` is assigned without a refusal, and the shell is still where it was. -/
theorem setExported_accepted {s : Shell W C O} (hs : Movable host evaluate s) (value : Bytes) :
    setExported host evaluate (text "OLDPWD") value s = .unfinished ∨
      ∃ t, setExported host evaluate (text "OLDPWD") value s = .done () t ∧ Stays s t := by
  unfold setExported onVariables Run.within
  cases hset : setBytes host evaluate (text "OLDPWD") (some value) { exported := true } s.table with
  | done a table => exact .inr ⟨_, rfl, rfl, rfl, rfl⟩
  | failed e table => exact absurd hset (hs.accepted value e table)
  | unfinished => exact .inl rfl

include hsteady in
/-- A directory that was entered is named by the path it was entered by, or by a path that is
too long. -/
theorem enterDirectory_names {s : Shell W C O} {path dest : Bytes} {directory : C}
    (hpath : Canonical path)
    (h : enterDirectory platform s (some path) dest = some directory) :
    Names platform path directory := by
  intro c
  have habsolute : platform.enter c path = platform.enter s.directory path := by
    obtain ⟨place, rfl⟩ := hpath
    apply hsteady.absolute
    rw [pathIsAbsolute, place.path_head]
    rfl
  rw [habsolute]
  unfold enterDirectory at h
  rw [Option.getD_some] at h
  cases hentered : platform.enter s.directory path with
  | ok entered =>
    rw [hentered] at h
    cases h
    exact .inl rfl
  | error e =>
    rw [hentered] at h
    cases e with
    | nameTooLong => exact .inr rfl
    | other => cases h

/-- The move is noted after `OLDPWD` has been assigned. -/
theorem updateCurrentDirectory_setOld (update : DirectoryUpdate) (s : Shell W C O) :
    updateCurrentDirectory host evaluate platform update true s =
      (setExported host evaluate (text "OLDPWD") s.here >>= fun _ =>
        updateCurrentDirectory host evaluate platform update false) s := rfl

include hsteady in
/-- A move from a shell that knows where it is, to one that does. -/
theorem changeDirectory_located (dest : Bytes) (options : CdOptions) :
    Run.Leads (fun s => Located platform s ∧ Movable host evaluate s)
      (changeDirectory host evaluate platform dest options) (Located platform) := by
  rintro s ⟨hs, hmovable⟩
  have hcanonical : ∀ path, logicalFor platform s dest options = some path → Canonical path := by
    intro path hpath
    unfold logicalFor at hpath
    split_ifs at hpath
    exact updateLogicalDirectory_canonical hs hpath
  cases hentered : enterDirectory platform s (logicalFor platform s dest options) dest with
  | none =>
    rw [changeDirectory_none hentered]
    exact ⟨trivial, hs⟩
  | some directory =>
    obtain ⟨result, _, hrun⟩ := changeDirectory_some hentered
    rw [hrun]
    have hmoved : Movable host evaluate { s with directory := directory } :=
      ⟨hmovable.plain, hmovable.accepted⟩
    refine meets_bind (Q := fun _ => True) ?_ fun _ _ =>
      ensures_get.preserves.bind fun _ => preserves_pure _
    rw [updateCurrentDirectory_setOld]
    rcases setExported_accepted hmoved (Shell.here { s with directory := directory }) with
      hunfinished | ⟨t, hdone, hstays⟩
    · rw [bind_unfinished hunfinished]
      trivial
    · rw [bind_done hdone]
      apply updateCurrentDirectory_located hsteady
      · intro hcurrent
        cases hlogical : logicalFor platform s dest options with
        | none => rw [hlogical] at hcurrent; cases hcurrent
        | some path => rw [hlogical] at hcurrent; cases hcurrent
      · intro path hpath
        cases hlogical : logicalFor platform s dest options with
        | none => rw [hlogical] at hpath; cases hpath
        | some logical =>
          rw [hlogical] at hpath hentered
          cases hpath
          rw [hstays.directory]
          exact ⟨hcanonical _ hlogical,
            enterDirectory_names hsteady (hcanonical _ hlogical) hentered⟩

/-! ### The commands -/

/-- Reading a name `cd` reads changes nothing. -/
theorem lookupOrEmpty_plain {name : Bytes} (hname : name ∈ cdNames) :
    (lookupOrEmpty host name : DirectoryRun W C O Bytes).Preserves
      (fun s => Located platform s ∧ Movable host evaluate s) := by
  rintro s ⟨hs, hmovable⟩
  rw [lookupOrEmpty_held hmovable.plain hname]
  exact ⟨trivial, hs, hmovable⟩

theorem cdDestination_keeps (options : CdOptions) (operand : Option Bytes) :
    (cdDestination host options operand : DirectoryRun W C O _).Preserves
      (fun s => Located platform s ∧ Movable host evaluate s) := by
  cases operand with
  | none => exact (lookupOrEmpty_plain (by decide)).bind fun _ => preserves_pure _
  | some operand =>
    unfold cdDestination
    dsimp only
    split_ifs
    · intro s hs
      exact hs
    · exact (lookupOrEmpty_plain (by decide)).bind fun _ => preserves_pure _
    · exact preserves_pure _

include hsteady in
theorem changeDirectoryOrFail_located (dest : Bytes) (options : CdOptions) :
    Run.Leads (fun s => Located platform s ∧ Movable host evaluate s)
      (changeDirectoryOrFail host evaluate platform dest options) (Located platform) := by
  unfold changeDirectoryOrFail
  apply (changeDirectory_located hsteady dest options).bind
  intro result
  cases result with
  | failed =>
    intro s hs
    exact hs
  | changed => exact preserves_pure _
  | changedPwdUnknown => exact preserves_pure _

include hsteady in
theorem searchDirectories_located (dest : Bytes) (options : CdOptions) {β : Type}
    {f : Option (CdResult × CdOptions) → DirectoryRun W C O β}
    (hsome : ∀ moved, (f (some moved)).Preserves (Located platform))
    (hnone : Run.Leads (fun s => Located platform s ∧ Movable host evaluate s) (f none)
      (Located platform)) (components : List Bytes) :
    Run.Leads (fun s => Located platform s ∧ Movable host evaluate s)
      (searchDirectories host evaluate platform dest options components >>= f)
      (Located platform) := by
  induction components with
  | nil => exact hnone
  | cons component rest ih =>
    rintro s hs
    by_cases hdirectory : platform.isDirectory s.directory (literalCandidate component dest) = true
    · unfold searchDirectories
      rw [bind_assoc, bind_apply, get_apply]
      simp only [hdirectory, if_true]
      rw [bind_assoc]
      refine (changeDirectory_located hsteady _ _).bind ?_ s hs
      intro result
      cases result with
      | failed =>
        intro t ht
        exact ht
      | changed => exact hsome _
      | changedPwdUnknown => exact hsome _
    · unfold searchDirectories
      rw [bind_assoc, bind_apply, get_apply]
      simp only [hdirectory]
      exact ih s hs

include hsteady in
theorem cdMove_located (dest : Bytes) (options : CdOptions) :
    Run.Leads (fun s => Located platform s ∧ Movable host evaluate s)
      (cdMove host evaluate platform dest options) (Located platform) := by
  have hforget : ∀ s : Shell W C O, Located platform s ∧ Movable host evaluate s →
      Located platform s := fun _ hs => hs.1
  unfold cdMove
  split_ifs
  · exact (changeDirectoryOrFail_located hsteady _ _).bind fun _ => preserves_pure _
  all_goals
    apply Leads.after (lookupOrEmpty_plain (by decide)) hforget
    intro path
    apply searchDirectories_located hsteady
    · intro moved
      exact preserves_pure _
    · exact (changeDirectoryOrFail_located hsteady _ _).bind fun _ => preserves_pure _

include hsteady in
theorem cd_located (words : List Bytes) :
    Run.Leads (fun s => Located platform s ∧ Movable host evaluate s)
      (cd host evaluate platform words) (Located platform) := by
  have hforget : ∀ s : Shell W C O, Located platform s ∧ Movable host evaluate s →
      Located platform s := fun _ hs => hs.1
  unfold cd
  apply Leads.after (parseCdOptions_stays _ _) hforget
  rintro ⟨options, operands⟩
  apply Leads.after (cdDestination_keeps _ _) hforget
  rintro ⟨dest, options⟩
  apply (cdMove_located hsteady _ _).bind
  rintro ⟨result, options⟩
  dsimp only
  split
  · apply ensures_get.preserves.bind
    intro shell
    exact (writeOutput_located _ _ _).bind fun _ => preserves_pure _
  · exact preserves_pure _

include hsteady in
theorem pwd_located (words : List Bytes) :
    (pwd host evaluate platform words).Preserves (Located platform) := by
  have hupdate : (updateCurrentDirectory host evaluate platform .current false).Preserves
      (Located platform) := by
    intro s hs
    apply updateCurrentDirectory_located hsteady
    · intro _
      exact hs
    · rintro path ⟨⟩
  unfold pwd
  apply (parseCdOptions_stays _ _).bind
  rintro ⟨options, operands⟩
  have hdirectory : (pwdDirectory host evaluate platform options).Preserves
      (Located platform) := by
    unfold pwdDirectory
    apply ensures_get.preserves.bind
    intro shell
    split_ifs
    · exact preserves_pure _
    · exact preserves_pure _
    · apply hupdate.bind
      intro _
      exact ensures_get.preserves.bind fun _ => preserves_pure _
  apply hdirectory.bind
  intro dir
  exact (writeOutput_located _ _ _).bind fun _ => preserves_pure _

include hsteady in
theorem changeTo_located (target : Bytes) :
    Run.Leads (fun s => Located platform s ∧ Movable host evaluate s)
      (changeTo host evaluate platform target) (Located platform) := by
  intro s hs
  have hcd := cd_located hsteady [target] s hs
  rcases changeTo_cases host evaluate platform s target with
    hunfinished | ⟨u, hdone, hrun⟩ | ⟨u, status, hfails, hrun⟩
  · rw [hunfinished]
    trivial
  · rw [hdone] at hcd
    rw [hrun]
    exact ⟨trivial, hcd.2⟩
  · have hu : Located platform u := by
      rcases hfails with ⟨e, hfailed⟩ | ⟨flow, hdone, _⟩
      · rw [hfailed] at hcd
        exact hcd
      · rw [hdone] at hcd
        exact hcd.2
    rw [hrun]
    exact ⟨trivial, hu.of_stays ⟨rfl, rfl, rfl⟩⟩

theorem optionsEnd_keeps (name : Bytes) (words : List Bytes) :
    (optionsEnd platform name words : DirectoryRun W C O _).Preserves
      (fun s => Located platform s ∧ Movable host evaluate s) := by
  intro s hs
  unfold optionsEnd
  cases words with
  | nil => exact ⟨trivial, hs⟩
  | cons word rest =>
    dsimp only
    split_ifs
    · exact ⟨trivial, hs⟩
    · exact ⟨trivial, hs.1.of_stays ⟨rfl, rfl, rfl⟩, hs.2.plain, hs.2.accepted⟩
    · exact ⟨trivial, hs⟩

theorem usage_located (message : Bytes) :
    (usage platform message : DirectoryRun W C O Flow).Preserves (Located platform) :=
  (writeOutput_located _ _ _).bind fun _ => preserves_pure _

include hsteady in
theorem moveAndKeep_located (target : Bytes) (keep : Bytes → List Bytes → List Bytes) :
    Run.Leads (fun s => Located platform s ∧ Movable host evaluate s)
      (moveAndKeep host evaluate platform target keep) (Located platform) := by
  unfold moveAndKeep
  apply Leads.after ensures_get.preserves fun _ hs => hs.1
  intro before
  apply (changeTo_located hsteady target).bind
  intro moved
  split_ifs
  · apply Preserves.bind (preserves_modify fun s hs => hs.of_stays ⟨rfl, rfl, rfl⟩)
    intro _
    exact publishAndWrite_located
  · exact preserves_pure _

include hsteady in
theorem runPushd_located (words : List Bytes) :
    Run.Leads (fun s => Located platform s ∧ Movable host evaluate s)
      (runPushd host evaluate platform words) (Located platform) := by
  unfold runPushd
  apply Leads.after (optionsEnd_keeps _ _) fun _ hs => hs.1
  rintro (status | operands)
  · exact Leads.of_preserves (preserves_pure _) fun _ hs => hs.1
  · rintro s hs
    rcases operands with _ | ⟨target, _ | ⟨other, rest⟩⟩
    · change (pushd host evaluate platform [] s).Meets _ _
      cases hbelow : s.below with
      | nil =>
        simp only [pushd, hbelow]
        exact usage_located _ s hs.1
      | cons other below =>
        simp only [pushd, hbelow]
        exact moveAndKeep_located hsteady _ _ s hs
    · exact moveAndKeep_located hsteady _ _ s hs
    · exact usage_located _ s hs.1

include hsteady in
theorem runPopd_located (words : List Bytes) :
    Run.Leads (fun s => Located platform s ∧ Movable host evaluate s)
      (runPopd host evaluate platform words) (Located platform) := by
  unfold runPopd
  apply Leads.after (optionsEnd_keeps _ _) fun _ hs => hs.1
  rintro (status | operands)
  · exact Leads.of_preserves (preserves_pure _) fun _ hs => hs.1
  · rintro s hs
    rcases operands with _ | ⟨word, rest⟩
    · change (popd host evaluate platform [] s).Meets _ _
      cases hbelow : s.below with
      | nil =>
        simp only [popd, hbelow]
        exact ((writeOutput_located _ _ _).bind fun _ => preserves_pure _) s hs.1
      | cons target below =>
        simp only [popd, hbelow, returnTo]
        refine (changeTo_located hsteady target).bind ?_ _
          ⟨hs.1.of_stays ⟨rfl, rfl, rfl⟩, hs.2.plain, hs.2.accepted⟩
        intro moved
        split_ifs
        · exact publishAndWrite_located
        · exact preserves_pure _
    · exact usage_located _ s hs.1

include hsteady in
/-- One step of a session leaves the shell knowing where it is. -/
theorem Located.step {s t : Shell W C O} (hs : Located platform s)
    (h : Moves host evaluate platform s t) : Located platform t := by
  rcases h with ⟨command, hmovable, hends⟩ | hstays
  · cases command with
    | cd words => exact (cd_located hsteady words).ends ⟨hs, hmovable⟩ hends
    | pwd words => exact (pwd_located hsteady words).ends hs hends
    | pushd words => exact (runPushd_located hsteady words).ends ⟨hs, hmovable⟩ hends
    | popd words => exact (runPopd_located hsteady words).ends ⟨hs, hmovable⟩ hends
  · exact hs.of_stays hstays

/-- **The shell knows where it is**, after any session that began where it did. -/
theorem located_session (hsteady : Steady platform) {s t : Shell W C O}
    (hs : Located platform s) (h : Session host evaluate platform s t) : Located platform t := by
  induction h with
  | refl => exact hs
  | tail _ hmoves ih => exact ih.step hsteady hmoves

/-- A file system of a root and one directory in it. -/
def rootAndOne : Platform Bool Unit where
  isDirectory directory path :=
    path == text "/" || path == text "/a" || path == text "/a/" || path == text "." ||
      (path == text "a" && directory == false)
  enter directory path :=
    if path = text "/" then .ok false
    else if path = text "/a" then .ok true
    else if path = text "a" ∧ directory = false then .ok true
    else if path = text "." then .ok directory
    else .error .other
  currentDirectory directory := .ok (if directory then text "/a" else text "/")
  write _ _ output := (none, output)

theorem steady_rootAndOne : Steady rootAndOne where
  absolute c c' path h := by
    have hname : path ≠ text "a" := by
      rintro rfl
      cases h
    have hdot : path ≠ text "." := by
      rintro rfl
      cases h
    simp [rootAndOne, hname, hdot]
  canonical c path h := by
    cases h
    cases c with
    | false => exact ⟨⟨false, []⟩, rfl⟩
    | true => exact ⟨⟨false, [⟨text "a", by decide, by decide, by decide, by decide⟩]⟩, rfl⟩
  names c path h c' := by
    cases h
    cases c with
    | false => exact .inl rfl
    | true => exact .inl rfl

/-- A shell in the root. -/
def atRoot : Shell Unit Bool Unit where
  table := blankShell .bash
  logical := some (text "/")
  physical := none
  directory := false
  below := []
  published := true
  output := ()
  status := 0

theorem located_atRoot : Located rootAndOne atRoot where
  canonical := by
    rintro path ⟨⟩
    exact ⟨⟨false, []⟩, rfl⟩
  names := by
    rintro path ⟨⟩ c
    exact .inl rfl
  reported := by
    rintro path ⟨⟩

theorem movable_atRoot : Movable Host.plain (fun _ => pure 0) atRoot := by
  have hempty : ∀ name, atRoot.table.entry name = none := fun name => by
    simp [atRoot, blankShell, Nsh.Shell.entry]
  apply Movable.of_entry
  · intro name _ entry hentry
    rw [hempty] at hentry
    cases hentry
  · decide
  · intro entry hentry
    rw [hempty] at hentry
    cases hentry

theorem located_session_down :
    ∃ t : Shell Unit Bool Unit, t.directory = true ∧
      Session Host.plain (fun _ => pure 0) rootAndOne atRoot t ∧ Located rootAndOne t := by
  obtain ⟨flow, t, hrun, hdirectory⟩ : ∃ flow t,
      cd Host.plain (fun _ => pure 0) rootAndOne [text "a"] atRoot = .done flow t ∧
        t.directory = true := ⟨_, _, rfl, rfl⟩
  have hsession : Session Host.plain (fun _ => pure 0) rootAndOne atRoot t :=
    .single (.inl ⟨.cd [text "a"], movable_atRoot, .inl ⟨flow, hrun⟩⟩)
  exact ⟨t, hdirectory, hsession, located_session steady_rootAndOne located_atRoot hsession⟩

end Nsh.Directories
