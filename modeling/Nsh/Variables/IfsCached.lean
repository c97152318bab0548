import Nsh.Arithmetic.Kept
import Nsh.Variables.Operations

/-!
# The splitter's copy of `IFS`

Field splitting reads `IFS` from a cache, which a callback on the entry of `IFS`
refreshes.  The cache is the variable as long as the entry keeps its callback and
every write that changes what the entry holds runs it.  Three writes do not: an
`unset` that takes an unfixed entry away, a kind given to a name that has no
value, and an entry made local for an assignment that does not arrive.
-/

namespace Nsh.Variables

open Nsh.Run

variable {W : Type} {host : Host W}

/-- **The cache is the variable**: its value when `IFS` is set, and the default
    when it is not. -/
def ifsAgrees (shell : Shell W) : Prop :=
  shell.ifs.bytes = if ifsIsSet shell then ifsValue shell else defaultIfs

/-! ### What keeps the cache right -/

/-- An entry carries the splitter's callback exactly if it is the entry of `IFS`. -/
structure CarriesIfs (name : Bytes) (entry : Variable) : Prop where
  callback : entry.callback = .ifs ↔ name = text "IFS"
  literal : name = text "IFS" → entry.dynamicLineno = false

def savedCarriesIfs : LocalVariable → Prop
  | .options _ => True
  | .created name => name ≠ text "IFS"
  | .saved name previous => CarriesIfs name previous

/-- `IFS` has an entry, and no other name can reach the cache, now or on return. -/
structure IfsEntered (shell : Shell W) : Prop where
  held : (shell.entry (text "IFS")).isSome
  entries : ∀ name entry, shell.entry name = some entry → CarriesIfs name entry
  records : ∀ scope ∈ shell.table.locals, ∀ saved ∈ scope, savedCarriesIfs saved

/-- The entries carry the callbacks they should, and the cache is right where
    `needed` says so of whether `IFS` is set. -/
structure IfsKept (needed : Bool → Prop) (shell : Shell W) : Prop extends IfsEntered shell where
  agrees : needed (ifsIsSet shell) → ifsAgrees shell

theorem IfsEntered.kept {shell : Shell W} (h : IfsEntered shell) (hagrees : ifsAgrees shell)
    (needed : Bool → Prop) : IfsKept needed shell := ⟨h, fun _ => hagrees⟩

theorem IfsKept.mono {needed needed' : Bool → Prop} {shell : Shell W} (h : IfsKept needed shell)
    (hneeded : needed' (ifsIsSet shell) → needed (ifsIsSet shell)) : IfsKept needed' shell :=
  ⟨h.toIfsEntered, fun hn => h.agrees (hneeded hn)⟩

/-! ### Changes of one entry -/

theorem ifsIsSet_congr {s t : Shell W} (h : t.entry (text "IFS") = s.entry (text "IFS")) :
    ifsIsSet t = ifsIsSet s := by
  unfold ifsIsSet
  rw [h]

/-- Whether a state holds a value. -/
def isSetState : VariableState → Bool
  | .set _ => true
  | _ => false

theorem ifsIsSet_of_entry {shell : Shell W} {entry : Variable}
    (h : shell.entry (text "IFS") = some entry) : ifsIsSet shell = isSetState entry.state := by
  unfold ifsIsSet
  rw [h]
  obtain ⟨_, state, _, _, _⟩ := entry
  cases state <;> rfl

theorem ifsAgrees_congr {s t : Shell W} (hentry : t.entry (text "IFS") = s.entry (text "IFS"))
    (hifs : t.ifs = s.ifs) : ifsAgrees t ↔ ifsAgrees s := by
  unfold ifsAgrees ifsValue
  rw [ifsIsSet_congr hentry, hentry, hifs]

theorem IfsKept.congr {needed : Bool → Prop} {s t : Shell W} (h : IfsKept needed s)
    (htable : t.table = s.table) (hifs : t.ifs = s.ifs) : IfsKept needed t := by
  have hentry : t.entry = s.entry := by
    funext name
    unfold Shell.entry
    rw [htable]
  refine ⟨⟨?_, ?_, ?_⟩, ?_⟩
  · rw [hentry]; exact h.held
  · rw [hentry]; exact h.entries
  · rw [htable]; exact h.records
  · rw [ifsAgrees_congr (congrFun hentry _) hifs, ifsIsSet_congr (congrFun hentry _)]
    exact h.agrees

theorem IfsEntered.insert {shell : Shell W} (h : IfsEntered shell) {name : Bytes}
    {entry : Variable} (hcarries : CarriesIfs name entry) :
    IfsEntered (shell.insert name entry) where
  held := by
    by_cases hname : name = text "IFS"
    · rw [← hname, Shell.entry_insert_self]; rfl
    · rw [Shell.entry_insert_of_ne _ hname]; exact h.held
  entries other found hfound := by
    by_cases hother : name = other
    · subst hother
      rw [Shell.entry_insert_self, Option.some.injEq] at hfound
      exact hfound ▸ hcarries
    · rw [Shell.entry_insert_of_ne _ hother] at hfound
      exact h.entries other found hfound
  records := h.records

/-- An entry changed where it stands, and no set `IFS` changed. -/
theorem IfsKept.insert {needed : Bool → Prop} {shell : Shell W} (h : IfsKept needed shell)
    {name : Bytes} {entry : Variable} (hcarries : CarriesIfs name entry)
    (hsame : name = text "IFS" → ifsIsSet (shell.insert name entry) = ifsIsSet shell ∧
      (ifsIsSet shell = true → ifsValue (shell.insert name entry) = ifsValue shell)) :
    IfsKept needed (shell.insert name entry) := by
  refine ⟨h.toIfsEntered.insert hcarries, ?_⟩
  by_cases hname : name = text "IFS"
  · obtain ⟨hset, hvalue⟩ := hsame hname
    unfold ifsAgrees
    rw [hset]
    intro hneeded
    have hagrees : shell.ifs.bytes = _ := h.agrees hneeded
    show shell.ifs.bytes = _
    rw [hagrees]
    split_ifs with his
    · exact (hvalue his).symm
    · rfl
  · have hother := Shell.entry_insert_of_ne shell hname entry
    rw [ifsAgrees_congr hother rfl, ifsIsSet_congr hother]
    exact h.agrees

theorem IfsKept.erase {needed : Bool → Prop} {shell : Shell W} (h : IfsKept needed shell)
    {name : Bytes} (hname : name ≠ text "IFS") :
    IfsKept needed (shell.setEntries (shell.table.entries.erase name)) := by
  have herase : ∀ other, (shell.setEntries (shell.table.entries.erase name)).entry other =
      if name = other then none else shell.entry other := by
    intro other
    unfold Shell.setEntries Shell.entry
    rw [Std.ExtTreeMap.getElem?_erase]
    simp only [Std.LawfulEqCmp.compare_eq_iff_eq]
  have hifs := (herase (text "IFS")).trans (if_neg hname)
  refine ⟨⟨?_, fun other entry hentry => ?_, h.records⟩, ?_⟩
  · rw [hifs]; exact h.held
  · rw [herase] at hentry
    split_ifs at hentry
    exact h.entries other entry hentry
  · rw [ifsAgrees_congr hifs rfl, ifsIsSet_congr hifs]
    exact h.agrees

/-- A callback puts the cache right, if it is run with the value `IFS` now has. -/
theorem IfsEntered.afterCallback (hhost : Apart host) {needed : Bool → Prop} {shell : Shell W}
    (h : IfsEntered shell) (name : Bytes) {callback : Callback} {value : Option Bytes}
    (hagrees : callback ≠ .ifs → needed (ifsIsSet shell) → ifsAgrees shell)
    (hvalue : callback = .ifs → ifsIsSet shell = true → value.getD [] = ifsValue shell) :
    IfsKept needed (runCallback host name callback value shell) := by
  have htable := runCallback_table hhost name callback value shell
  have hentry : (runCallback host name callback value shell).entry = shell.entry := by
    funext other
    unfold Shell.entry
    rw [htable]
  have hentered : IfsEntered (runCallback host name callback value shell) := {
    held := by rw [hentry]; exact h.held
    entries := by rw [hentry]; exact h.entries
    records := by rw [htable]; exact h.records }
  have hkept : callback ≠ .ifs → (runCallback host name callback value shell).ifs = shell.ifs →
      IfsKept needed (runCallback host name callback value shell) := fun hne hifs =>
    IfsKept.congr ⟨h, hagrees hne⟩ htable hifs
  cases callback with
  | none => exact hkept nofun rfl
  | ifs =>
    refine hentered.kept ?_ needed
    show (if ifsIsSet shell then value.getD [] else defaultIfs) =
      if ifsIsSet shell then ifsValue shell else defaultIfs
    split_ifs with hset
    · exact hvalue rfl hset
    · rfl
  | locale =>
    cases hlocale : selectedLocale host shell with
    | none =>
      refine hkept nofun ?_
      unfold runCallback
      simp only [hlocale]
    | some locale =>
      refine hentered.kept ?_ needed
      unfold runCallback
      simp only [hlocale]
      rfl
  | mail => exact hkept nofun (hhost.react_ifs _ _ _ _)
  | path => exact hkept nofun (hhost.react_ifs _ _ _ _)
  | getopts => exact hkept nofun (hhost.react_ifs _ _ _ _)
  | history => exact hkept nofun (hhost.react_ifs _ _ _ _)
  | special => exact hkept nofun (hhost.react_ifs _ _ _ _)

/-! ### Writes -/

section Writes

variable (hhost : Apart host)

theorem carriesIfs_fresh (name : Bytes) (state : VariableState) (attributes : VariableAttributes)
    {callback : Callback} (h : callback = .ifs ↔ name = text "IFS") :
    CarriesIfs name (Variable.fresh state attributes callback) := ⟨h, fun _ => rfl⟩

include hhost in
theorem IfsKept.create {needed : Bool → Prop} {shell : Shell W} (h : IfsKept needed shell)
    {name : Bytes} (hnone : shell.entry name = none) (value : Option Bytes)
    (attributes : VariableAttributes) (policy : CallbackPolicy) :
    IfsKept needed (createEntry host name value attributes policy shell) := by
  have hname : name ≠ text "IFS" := by
    rintro rfl
    have hheld := h.held
    rw [hnone] at hheld
    cases hheld
  unfold createEntry
  split
  · exact h
  · have hne : (if isLocaleVariable name then Callback.locale else Callback.none) ≠ .ifs := by
      split_ifs <;> nofun
    simp only
    generalize (if isLocaleVariable name then Callback.locale else Callback.none) = callback
      at hne ⊢
    have hnext : ∀ state, IfsKept needed
        (shell.insert name (Variable.fresh state attributes callback)) := fun state =>
      h.insert (carriesIfs_fresh name state attributes
        ⟨fun hifs => absurd hifs hne, fun hifs => absurd hifs hname⟩) fun hifs => absurd hifs hname
    cases policy with
    | run =>
      exact (hnext _).toIfsEntered.afterCallback hhost name (fun _ => (hnext _).agrees)
        fun hifs => absurd hifs hne
    | suppress => exact hnext _

include hhost in
/-- A write in place runs the callback of the name it writes, so the cache is right
    after a write of `IFS` whatever it was before. -/
theorem IfsKept.update {needed : Bool → Prop} {shell : Shell W} (h : IfsKept needed shell)
    {name : Bytes} {old : Variable} (hold : shell.entry name = some old) (value : Option Bytes)
    (attributes : VariableAttributes) {needed' : Bool → Prop}
    (hneeded : name ≠ text "IFS" → needed' = needed) :
    IfsKept needed' (updateEntry host name old value attributes .run shell) := by
  have hcarries := h.entries name old hold
  unfold updateEntry
  simp only [if_true]
  generalize hentry : ({ old with
    attributes := attributes, dynamicLineno := false,
    state := assignedState old.state value } : Variable) = entry
  have hcallback : entry.callback = old.callback := by rw [← hentry]
  have hentered : IfsEntered (shell.insert name entry) := h.toIfsEntered.insert
    ⟨hcallback ▸ hcarries.callback, fun _ => by rw [← hentry]⟩
  refine hentered.afterCallback hhost name (fun hne hn => ?_) fun hifs _ => ?_
  · have hname := fun hname => hne (hcarries.callback.mpr hname)
    have hother := Shell.entry_insert_of_ne shell hname entry
    rw [ifsAgrees_congr hother rfl]
    rw [ifsIsSet_congr hother, hneeded hname] at hn
    exact h.agrees hn
  · have hname := hcarries.callback.mp hifs
    rw [if_neg (by rw [hifs]; nofun)]
    unfold ifsValue
    rw [← hname, Shell.entry_insert_self]
    rfl

include hhost in
theorem IfsKept.remove {needed : Bool → Prop} {shell : Shell W} (h : IfsKept needed shell)
    {name : Bytes} {old : Variable} (hold : shell.entry name = some old)
    (hsound : name = text "IFS" → shell.options.dialect = .bash ∧ isLocal shell name = true) :
    IfsKept needed (removeEntry host name old.callback shell) := by
  have hcarries := h.entries name old hold
  unfold removeEntry
  simp only
  cases hkeep : decide (shell.options.dialect = .bash) && isLocal shell name with
  | true =>
    have hentered : IfsEntered (shell.insert name
        (Variable.fresh .unset VariableAttributes.none old.callback)) :=
      h.toIfsEntered.insert (carriesIfs_fresh name _ _ hcarries.callback)
    refine hentered.afterCallback hhost name (fun hne hn => ?_) fun hifs hset => ?_
    · have hother := Shell.entry_insert_of_ne shell
        (fun hname => hne (hcarries.callback.mpr hname))
        (Variable.fresh .unset VariableAttributes.none old.callback)
      rw [ifsIsSet_congr hother] at hn
      rw [ifsAgrees_congr hother rfl]
      exact h.agrees hn
    · have hname := hcarries.callback.mp hifs
      subst hname
      rw [ifsIsSet_of_entry (Shell.entry_insert_self _ _ _)] at hset
      cases hset
  | false =>
    have hname : name ≠ text "IFS" := by
      intro hname
      obtain ⟨hbash, hlocal⟩ := hsound hname
      rw [hlocal, hbash] at hkeep
      cases hkeep
    have hnext := h.erase hname
    have hne : old.callback ≠ .ifs := fun hifs => hname (hcarries.callback.mp hifs)
    simp only [Bool.false_eq_true, if_false, Bool.false_or]
    split
    · exact hnext.toIfsEntered.afterCallback hhost name (fun _ => hnext.agrees)
        fun hifs => absurd hifs hne
    · exact hnext

include hhost in
/-- A write of a value keeps the cache right. -/
theorem setEntry_ifsKept (needed : Bool → Prop) (name value : Bytes)
    (attributes : VariableAttributes) (guard : ReadOnlyGuard) (allExport : AllExport) :
    (setEntry host name (some value) attributes .run guard allExport).Preserves
      (IfsKept needed) :=
  setEntry_preserves
    (fun _ attributes hs hnone => IfsKept.create hhost hs hnone (some value) attributes .run)
    (fun _ _ written hs hold => IfsKept.update hhost hs hold (some value) written fun _ => rfl)
    fun _ _ _ hvalue _ => nomatch hvalue

include hhost in
/-- A write of a value leaves the name set to it. -/
theorem setEntry_done {name value : Bytes} {attributes : VariableAttributes}
    {policy : CallbackPolicy} {guard : ReadOnlyGuard} {allExport : AllExport} {s t : Shell W}
    (h : setEntry host name (some value) attributes policy guard allExport s = .done () t) :
    ∃ entry held, t.entry name = some entry ∧ entry.state = .set held ∧
      held.scalarOwned = some value := by
  have hwritten : ∀ entry callback shown, (∃ held, entry.state = .set held ∧
      held.scalarOwned = some value) → t = (if policy = .run then
        runCallback host name callback shown (s.insert name entry) else s.insert name entry) →
      ∃ entry held, t.entry name = some entry ∧ entry.state = .set held ∧
        held.scalarOwned = some value := by
    rintro entry callback shown ⟨held, hstate, hheld⟩ rfl
    refine ⟨entry, held, ?_, hstate, hheld⟩
    split_ifs
    · unfold Shell.entry
      rw [runCallback_table hhost]
      exact Shell.entry_insert_self s name entry
    · exact Shell.entry_insert_self s name entry
  rcases setEntry_cases host name (some value) attributes policy guard allExport s with
    ⟨e, hfailed⟩ | ⟨_, hcreate⟩ | ⟨old, written, _, hupdate⟩ | ⟨_, _, hnone, _⟩
  · rw [hfailed] at h; cases h
  · rw [hcreate] at h
    cases h
    unfold createEntry
    rw [if_neg (by simp)]
    exact hwritten _ _ _ ⟨.scalar value, rfl, rfl⟩ rfl
  · rw [hupdate] at h
    cases h
    refine hwritten _ _ _ ?_ rfl
    cases hstate : old.state with
    | unset => exact ⟨.scalar value, rfl, rfl⟩
    | declared kind => exact ⟨_, rfl, VariableValue.scalarOwned_assignScalar value _⟩
    | set held => exact ⟨_, rfl, VariableValue.scalarOwned_assignScalar value _⟩
  · cases hnone

include hhost in
/-- What a structural write leaves in the table. -/
theorem store_done {name : Bytes} {value : VariableValue} {attributes : VariableAttributes}
    {guard : ReadOnlyGuard} {s t : Shell W}
    (h : store host name value attributes guard s = .done () t) :
    ∃ u entry held, setEntry host name (some (value.scalarOwned.getD [])) attributes .run guard
        .declines s = .done () u ∧
      u.entry name = some entry ∧ entry.state = .set held ∧
      held.scalarOwned = some (value.scalarOwned.getD []) ∧
      t = u.insert name { entry with state := .set value } := by
  obtain ⟨_, u, hset, hmodify⟩ := bind_eq_done h
  obtain ⟨entry, held, hentry, hstate, hheld⟩ := setEntry_done hhost hset
  refine ⟨u, entry, held, hset, hentry, hstate, hheld, ?_⟩
  rw [modify_apply] at hmodify
  simp only [hentry] at hmodify
  cases hmodify
  rfl

include hhost in
theorem store_ifsKept (needed : Bool → Prop) (name : Bytes) (value : VariableValue)
    (attributes : VariableAttributes) (guard : ReadOnlyGuard) :
    (store host name value attributes guard).Preserves (IfsKept needed) := by
  intro s hs
  have hset := setEntry_ifsKept hhost needed name (value.scalarOwned.getD []) attributes guard
    .declines
  unfold store
  rw [bind_apply]
  cases hu : setEntry host name (some (value.scalarOwned.getD [])) attributes .run guard
    .declines s with
  | done a u =>
    have hkept := (hset.done hs hu).2
    obtain ⟨entry, held, hentry, hstate, hheld⟩ := setEntry_done hhost hu
    simp only [modify_apply, hentry]
    refine ⟨trivial, hkept.insert ⟨(hkept.entries _ _ hentry).callback,
      (hkept.entries _ _ hentry).literal⟩ fun hname => ?_⟩
    subst hname
    refine ⟨?_, fun _ => ?_⟩
    · rw [ifsIsSet_of_entry (Shell.entry_insert_self _ _ _), ifsIsSet_of_entry hentry, hstate]
      rfl
    · unfold ifsValue Variable.scalarOwned
      rw [Shell.entry_insert_self, hentry]
      simp only [Option.bind_some, hstate]
      exact (congrArg (Option.getD · []) hheld).symm
  | failed e u => exact hset.failed hs hu
  | unfinished => trivial

end Writes

/-! ### What the other modules touch -/

/-- A change that cannot reach `IFS`. -/
theorem IfsKept.touched {needed : Bool → Prop} {s t : Shell W} (h : IfsKept needed s)
    {names : List Bytes} (hnames : text "IFS" ∉ names) (htouches : Touches names s t) :
    IfsKept needed t := by
  have hifs := htouches.entry _ hnames
  refine ⟨⟨?_, fun name entry hentry => ?_, ?_⟩, ?_⟩
  · rw [hifs]; exact h.held
  · by_cases hname : name = text "IFS"
    · rw [hname, hifs, ← hname] at hentry
      exact h.entries name entry hentry
    · refine ⟨⟨fun hcallback => ?_, fun hname' => absurd hname' hname⟩,
        fun hname' => absurd hname' hname⟩
      obtain ⟨before, hbefore, hcallback⟩ := htouches.callback name entry hentry hcallback
      exact (h.entries name before hbefore).callback.mp hcallback
  · rw [htouches.locals]; exact h.records
  · rw [ifsAgrees_congr hifs htouches.ifs, ifsIsSet_congr hifs]
    exact h.agrees

theorem IfsKept.insert_other {needed : Bool → Prop} {shell : Shell W} (h : IfsKept needed shell)
    {name : Bytes} (hname : name ≠ text "IFS") {entry : Variable}
    (hcallback : entry.callback ≠ .ifs) :
    IfsKept needed (shell.insert name entry) :=
  h.insert ⟨⟨fun hifs => absurd hifs hcallback, fun hifs => absurd hifs hname⟩,
    fun hifs => absurd hifs hname⟩ fun hifs => absurd hifs hname

theorem IfsKept.writeBack {needed : Bool → Prop} {shell : Shell W} (h : IfsKept needed shell)
    {name : Bytes} (hname : name ≠ text "IFS") (value : Bytes) :
    IfsKept needed (writeBack name value shell) := by
  unfold Variables.writeBack
  cases hentry : shell.entry name with
  | none => exact h
  | some old =>
    exact h.insert_other hname fun hifs => hname ((h.entries name old hentry).callback.mp hifs)

theorem IfsKept.refresh (hhost : Apart host) {needed : Bool → Prop} {shell : Shell W}
    (h : IfsKept needed shell) (name : Bytes) : IfsKept needed (refresh host name shell) := by
  unfold Variables.refresh
  cases hentry : shell.entry name with
  | none => exact h
  | some entry =>
    have hcarries := h.entries name entry hentry
    simp only
    split_ifs with hline hspecial hargument
    · have hname : name ≠ text "IFS" := fun hname => by
        rw [hcarries.literal hname] at hline
        cases hline
      split
      · exact h.writeBack hname _
      · exact h
    · exact h.touched (by decide) (hhost.publish shell)
    · have hname : name ≠ text "IFS" := fun hname => by
        rw [hcarries.callback.mpr hname] at hspecial
        cases hspecial
      have hcomputed := h.touched (by rw [List.mem_singleton]; exact hname.symm)
        (hhost.compute name shell)
      split
      · next heq => rw [heq] at hcomputed; exact hcomputed
      · next heq => rw [heq] at hcomputed; exact hcomputed.writeBack hname _
    · exact h

/-- Attributes change nothing the cache depends on. -/
theorem IfsKept.modifyEntry {needed : Bool → Prop} {shell : Shell W} (h : IfsKept needed shell)
    (name : Bytes) {change : Variable → Variable}
    (hstate : ∀ entry, (change entry).state = entry.state)
    (hcallback : ∀ entry, (change entry).callback = entry.callback)
    (hline : ∀ entry, (change entry).dynamicLineno = entry.dynamicLineno) :
    IfsKept needed (modifyEntry name change shell) := by
  unfold Variables.modifyEntry
  cases hentry : shell.entry name with
  | none => exact h
  | some entry =>
    have hcarries := h.entries name entry hentry
    refine h.insert ⟨hcallback entry ▸ hcarries.callback, hline entry ▸ hcarries.literal⟩
      fun hname => ?_
    subst hname
    have hvalue : (change entry).scalarOwned = entry.scalarOwned := by
      unfold Variable.scalarOwned
      rw [hstate]
    refine ⟨?_, fun _ => ?_⟩
    · rw [ifsIsSet_of_entry (Shell.entry_insert_self _ _ _), ifsIsSet_of_entry hentry, hstate]
    · unfold ifsValue
      rw [Shell.entry_insert_self, hentry]
      exact congrArg (Option.getD · []) hvalue

/-- A kind without a value leaves `IFS` unset. -/
theorem IfsKept.declared {needed : Bool → Prop} {shell : Shell W} (h : IfsKept needed shell)
    (name : Bytes) (kind : VariableKind) (hneeded : name = text "IFS" → ¬ needed false) :
    IfsKept needed
      (Variables.modifyEntry name (fun entry => { entry with state := .declared kind }) shell) := by
  unfold Variables.modifyEntry
  cases hentry : shell.entry name with
  | none => exact h
  | some entry =>
    have hcarries := h.entries name entry hentry
    by_cases hname : name = text "IFS"
    · refine ⟨h.toIfsEntered.insert ⟨hcarries.callback, hcarries.literal⟩, fun hn => ?_⟩
      subst hname
      rw [ifsIsSet_of_entry (Shell.entry_insert_self _ _ _)] at hn
      exact absurd hn (hneeded rfl)
    · exact h.insert_other hname fun hifs => hname (hcarries.callback.mp hifs)

/-- The cache as an invariant of assignments. -/
def ifsInvariant (needed : Bool → Prop) : Invariant W where
  holds := IfsKept needed
  value _ := True
  selector _ := True

theorem ifsInvariant_closed (hhost : Apart host) {needed : Bool → Prop}
    (hexpand : (ifsInvariant needed : Invariant W).Expands host) :
    (ifsInvariant needed).Closed host where
  warn _ _ hs := ⟨trivial, hs.congr rfl rfl⟩
  refresh name _ hs := hs.refresh hhost name
  write _ _ _ _ _ := setEntry_ifsKept hhost needed _ _ _ _ _
  store _ _ _ _ _ := store_ifsKept hhost needed _ _ _ _
  letter name _ _ _ hs := hs.modifyEntry name (fun _ => rfl) (fun _ => rfl) fun _ => rfl
  expand := hexpand
  held _ _ _ _ _ := trivial
  empty _ := trivial
  scalar _ := trivial
  convert _ _ := trivial
  setIndexed _ _ _ _ _ := trivial
  setAssociative _ _ _ _ := trivial
  without _ _ _ := trivial
  index name index shell hs := by
    have hwarned : ∀ message, IfsKept needed { shell with warnings := message } := fun _ =>
      hs.congr rfl rfl
    unfold normalizeIndex
    simp only
    split_ifs
    all_goals first
      | exact hs
      | exact hwarned _
      | exact ⟨trivial, hs⟩
      | exact ⟨trivial, hwarned _⟩
  other _ _ := trivial
  zero := trivial

end Nsh.Variables
