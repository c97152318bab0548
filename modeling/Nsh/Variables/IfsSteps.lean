import Nsh.Variables.IfsCached

/-!
# The cache along runs

Every operation keeps the splitter's cache right, apart from the three that may
not, and those where they do.  A declaration of `IFS` goes through states in
which the cache is right only where `IFS` is set; its own assignment then puts it
right, if it arrives.
-/

namespace Nsh.Variables

open Nsh.Run

variable {W : Type} {host : Host W} {needed : Bool → Prop}

/-! ### Scopes -/

theorem IfsKept.record {shell : Shell W} (h : IfsKept needed shell) (frame : Nat)
    {saved : LocalVariable} (hsaved : savedCarriesIfs saved) :
    IfsKept needed (recordLocal frame saved shell) where
  held := h.held
  entries := h.entries
  agrees := h.agrees
  records scope hscope held hheld := by
    obtain ⟨i, hi, rfl⟩ := List.mem_iff_getElem.mp hscope
    have hi' : i < shell.table.locals.length := by
      simpa only [recordLocal, List.length_modify] using hi
    have hget : (recordLocal frame saved shell).table.locals[i] =
        if frame = i then shell.table.locals[i] ++ [saved] else shell.table.locals[i] := by
      simp only [recordLocal, List.getElem_modify]
    rw [hget] at hheld
    have hold := h.records _ (List.getElem_mem hi')
    split_ifs at hheld
    · rcases List.mem_append.mp hheld with hmem | hmem
      · exact hold held hmem
      · rw [List.mem_singleton.mp hmem]; exact hsaved
    · exact hold held hheld

theorem IfsKept.pushLocalScope {shell : Shell W} (h : IfsKept needed shell) :
    IfsKept needed (pushLocalScope shell) where
  held := h.held
  entries := h.entries
  agrees := h.agrees
  records scope hscope := by
    rcases List.mem_append.mp hscope with hmem | hmem
    · exact h.records scope hmem
    · rw [List.mem_singleton.mp hmem]
      exact fun _ hnil => absurd hnil List.not_mem_nil

theorem IfsKept.frames {shell : Shell W} (h : IfsKept needed shell) (frames : List Nat) :
    IfsKept needed { shell with table := { shell.table with functionFrames := frames } } where
  held := h.held
  entries := h.entries
  agrees := h.agrees
  records := h.records

theorem IfsKept.carries {shell : Shell W} (h : IfsKept needed shell) {name : Bytes} :
    (shell.entry name = none → name ≠ text "IFS") := by
  rintro hnone rfl
  have hheld := h.held
  rw [hnone] at hheld
  cases hheld

/-- Whether a declaration in the running body makes `name` local afresh. -/
def freshLocal (shell : Shell W) (name : Bytes) : Prop :=
  ∃ frame, runningFrame shell = some frame ∧ recorded shell frame name = false

theorem IfsKept.makeLocal (hhost : Apart host) {shell : Shell W} (h : IfsKept needed shell)
    (name : Bytes) (value : LocalValue)
    (hneeded : name = text "IFS" → value = .assigned → freshLocal shell name → ¬ needed false) :
    IfsKept needed (makeLocal host name value shell) := by
  unfold Variables.makeLocal
  cases hframe : runningFrame shell with
  | none => exact h
  | some frame =>
    cases hrecorded : recorded shell frame name with
    | true => simp only [hrecorded, if_true]; exact h
    | false =>
      simp only [hrecorded, Bool.false_eq_true, if_false]
      cases hentry : shell.entry name with
      | none =>
        have hname := h.carries hentry
        exact (h.record frame (show savedCarriesIfs (.created name) from hname)).insert_other
          hname nofun
      | some previous =>
        have hcarries := h.entries name previous hentry
        have hrecord := h.record frame
          (show savedCarriesIfs (.saved name previous) from hcarries)
        have hentered := hrecord.toIfsEntered.insert
          (carriesIfs_fresh name .unset VariableAttributes.none hcarries.callback)
        have hnext : previous.callback ≠ .ifs → IfsKept needed
            ((recordLocal frame (.saved name previous) shell).insert name
              (Variable.fresh .unset VariableAttributes.none previous.callback)) := fun hne =>
          hrecord.insert_other (fun hname => hne (hcarries.callback.mpr hname)) hne
        simp only
        split_ifs with hvalue
        · refine hentered.afterCallback hhost name (fun hne => (hnext hne).agrees)
            fun hifs hset => ?_
          obtain rfl := hcarries.callback.mp hifs
          rw [ifsIsSet_of_entry (Shell.entry_insert_self _ _ _)] at hset
          cases hset
        · by_cases hname : name = text "IFS"
          · refine ⟨hentered, fun hn => ?_⟩
            subst hname
            rw [ifsIsSet_of_entry (Shell.entry_insert_self _ _ _)] at hn
            refine absurd hn (hneeded rfl ?_ ⟨frame, hframe, hrecorded⟩)
            cases value with
            | discard => exact absurd rfl hvalue
            | assigned => rfl
          · exact hnext fun hifs => hname (hcarries.callback.mp hifs)

theorem IfsKept.ensureEntry {shell : Shell W} (h : IfsKept needed shell) (name : Bytes) :
    IfsKept needed (ensureEntry name shell) := by
  unfold Variables.ensureEntry
  split
  · cases hentry : shell.entry name with
    | none => exact h.insert_other (h.carries hentry) nofun
    | some entry =>
      have hcarries := h.entries name entry hentry
      obtain ⟨attributes, state, bashAttributes, callback, dynamicLineno⟩ := entry
      cases state with
      | unset =>
        refine h.insert ⟨hcarries.callback, hcarries.literal⟩ fun hname => ?_
        subst hname
        refine ⟨?_, fun hset => ?_⟩
        · rw [ifsIsSet_of_entry (Shell.entry_insert_self _ _ _), ifsIsSet_of_entry hentry]
          rfl
        · rw [ifsIsSet_of_entry hentry] at hset
          cases hset
      | declared kind => exact h
      | set value => exact h
  · exact h

theorem IfsKept.declareEntry (hhost : Apart host) {shell : Shell W} (h : IfsKept needed shell)
    (base : Bytes) (scope : DeclarationScope) (value : LocalValue)
    (hneeded : base = text "IFS" → value = .assigned → scope = .runningBody →
      freshLocal shell base → ¬ needed false) :
    IfsKept needed (declareEntry host base scope value shell) := by
  unfold Variables.declareEntry
  refine (IfsKept.ensureEntry ?_ base).refresh hhost base
  split
  · next hscope =>
      exact h.makeLocal hhost base value fun hbase hvalue => hneeded hbase hvalue hscope
  · exact h

/-! ### Returning -/

theorem IfsKept.restoreLocal (hhost : Apart host) {shell : Shell W} (h : IfsKept needed shell)
    {saved : LocalVariable} (hsaved : savedCarriesIfs saved) :
    IfsKept needed (restoreLocal host saved shell) := by
  cases saved with
  | options saved =>
    exact (h.congr (t := { shell with options := saved }) rfl rfl).touched (by decide)
      (hhost.optionsChanged _)
  | created name =>
    have hname : name ≠ text "IFS" := hsaved
    have hnext := h.erase hname
    unfold Variables.restoreLocal
    simp only
    split_ifs with hlocale
    · refine hnext.toIfsEntered.afterCallback hhost name (fun _ => hnext.agrees) fun hifs => ?_
      rw [hlocale] at hifs
      cases hifs
    · exact hnext
  | saved name previous =>
    have hcarries : CarriesIfs name previous := hsaved
    have hentered := h.toIfsEntered.insert hcarries
    refine hentered.afterCallback hhost name (fun hne => ?_) fun hifs _ => ?_
    · exact (h.insert_other (fun hname => hne (hcarries.callback.mpr hname)) hne).agrees
    · obtain rfl := hcarries.callback.mp hifs
      unfold ifsValue
      rw [Shell.entry_insert_self]
      rfl

theorem IfsKept.restoreLocals (hhost : Apart host) {shell : Shell W} (h : IfsKept needed shell)
    {scope : List LocalVariable} (hscope : ∀ saved ∈ scope, savedCarriesIfs saved) :
    IfsKept needed (restoreLocals host scope shell) := by
  induction scope with
  | nil => exact h
  | cons saved scope ih =>
    exact (ih fun saved hsaved => hscope saved (List.mem_cons_of_mem _ hsaved)).restoreLocal hhost
      (hscope saved List.mem_cons_self)

theorem IfsKept.popLocalScope (hhost : Apart host) {shell : Shell W} (h : IfsKept needed shell) :
    IfsKept needed (popLocalScope host shell) := by
  have hnext : IfsKept needed { shell with table := { shell.table with
      locals := shell.table.locals.dropLast } } := {
    held := h.held
    entries := h.entries
    records := fun scope hscope => h.records scope (List.dropLast_subset _ hscope)
    agrees := h.agrees }
  have hlast : ∀ saved ∈ shell.table.locals.getLast?.getD [], savedCarriesIfs saved := by
    intro saved hsaved
    cases hlast : shell.table.locals.getLast? with
    | none => rw [hlast] at hsaved; cases hsaved
    | some scope =>
      rw [hlast] at hsaved
      exact h.records scope (List.mem_of_getLast? hlast) saved hsaved
  exact hnext.restoreLocals hhost hlast

theorem IfsKept.unwind (hhost : Apart host) {shell : Shell W} (h : IfsKept needed shell)
    (stop : Nat) : IfsKept needed (unwindLocalScopes host stop shell) := by
  have hiterate : ∀ n shell, IfsKept needed shell →
      IfsKept needed ((Variables.popLocalScope host)^[n] shell) := by
    intro n
    induction n with
    | zero => intro shell h; exact h
    | succ n ih =>
      intro shell h
      rw [Function.iterate_succ_apply]
      exact ih _ (h.popLocalScope hhost)
  exact hiterate _ shell h

/-! ### Unsets -/

/-- A write without a value would take the entry of `IFS` away, and with it the
    callback that has to hear of it. -/
def dropsIfs (shell : Shell W) (attributes : VariableAttributes) (allExport : AllExport) : Prop :=
  (∃ old, Removes shell (text "IFS") old attributes .enforce allExport) ∧
    ¬ (shell.options.dialect = .bash ∧ isLocal shell (text "IFS") = true)

theorem IfsKept.unset (hhost : Apart host) {shell : Shell W} (h : IfsKept needed shell)
    {name : Bytes} {attributes : VariableAttributes} {allExport : AllExport}
    (hsound : name = text "IFS" → ¬ dropsIfs shell attributes allExport) :
    (setEntry host name none attributes .run .enforce allExport shell).Meets (IfsKept needed)
      fun _ => True := by
  rcases setEntry_cases host name none attributes .run .enforce allExport shell with
    ⟨e, hrun⟩ | ⟨hnone, hrun⟩ | ⟨old, written, hold, hrun⟩ | ⟨old, hremoves, _, hrun⟩
  · rw [hrun]; exact h
  · rw [hrun]; exact ⟨trivial, h.create hhost hnone none _ .run⟩
  · rw [hrun]; exact ⟨trivial, h.update hhost hold none written fun _ => rfl⟩
  · rw [hrun]
    refine ⟨trivial, h.remove hhost hremoves.held fun hname => ?_⟩
    subst hname
    exact Classical.not_not.mp fun hloose => hsound rfl ⟨⟨old, hremoves⟩, hloose⟩

/-! ### Kinds -/

/-- Giving `IFS` a kind would go through an empty value and take it away again. -/
def emptiesIfs (shell : Shell W) (kind : VariableKind) (guard : ReadOnlyGuard) : Prop :=
  variableKind shell (text "IFS") ≠ some kind ∧ variableValue shell (text "IFS") = none ∧
    (guard = .enforce →
      ((variableAttributes shell (text "IFS")).map (·.readOnly)).getD false = false)

theorem rejectBadName_cases (name : Bytes) (shell : Shell W) :
    rejectBadName name shell = .done () shell ∨
      ∃ e, rejectBadName name shell = .failed e shell := by
  unfold rejectBadName
  split
  · exact .inl rfl
  · exact .inr ⟨_, rfl⟩

theorem rejectReadOnly_cases (name : Bytes) (guard : ReadOnlyGuard) (shell : Shell W) :
    (rejectReadOnly name guard shell = .done () shell ∧ (guard = .enforce →
        ((variableAttributes shell name).map (·.readOnly)).getD false = false)) ∨
      ∃ e, rejectReadOnly name guard shell = .failed e shell := by
  unfold rejectReadOnly
  split_ifs with hguard hreadOnly
  · exact .inl ⟨rfl, fun henforce => by rw [henforce] at hguard; cases hguard⟩
  · exact .inr ⟨_, rfl⟩
  · exact .inl ⟨rfl, fun _ => Bool.eq_false_iff.mpr hreadOnly⟩

theorem IfsKept.ensureKind (hhost : Apart host) {shell : Shell W} (h : IfsKept needed shell)
    {name : Bytes} {kind : VariableKind} {attributes : VariableAttributes} {guard : ReadOnlyGuard}
    (hsound : name = text "IFS" → needed false → ¬ emptiesIfs shell kind guard) :
    (ensureKind host name kind attributes guard shell).Meets (IfsKept needed) fun _ => True := by
  unfold Variables.ensureKind
  rcases rejectBadName_cases name shell with hname | ⟨e, hname⟩
  · rw [bind_done hname]
    rcases rejectReadOnly_cases name guard shell with ⟨hguard, hwritable⟩ | ⟨e, hguard⟩
    · rw [bind_done hguard, bind_done (get_apply shell)]
      split
      · exact ⟨trivial, h⟩
      · next hkind =>
        cases hvalue : variableValue shell name with
        | some value => exact store_ifsKept hhost needed name _ attributes guard shell h
        | none =>
          refine ((store_ifsKept hhost needed name _ attributes guard).bind fun _ =>
            preserves_modify fun shell hs => hs.declared name kind ?_) shell h
          rintro rfl hneeded
          exact hsound rfl hneeded ⟨hkind, hvalue, hwritable⟩
    · rw [bind_failed hguard]; exact h
  · rw [bind_failed hname]; exact h

/-! ### Declarations -/

section Declarations

variable {evaluate : Bytes → ShellRun W Int64}

theorem IfsKept.declareKind (hhost : Apart host) {shell : Shell W} (h : IfsKept needed shell)
    (builtin : Bytes) {base : Bytes} {kind : Option VariableKind}
    (hsound : base = text "IFS" → needed false → ∀ k, kind = some k →
      convertible shell base k = true → ¬ emptiesIfs shell k .enforce) :
    (declareKind host builtin base kind shell).Meets (IfsKept needed) fun _ => True := by
  unfold Variables.declareKind
  rw [bind_done (get_apply shell)]
  cases kind with
  | none => exact ⟨trivial, h⟩
  | some kind =>
    simp only
    split
    · next hconvertible =>
      exact meets_bind (h.ensureKind hhost fun hbase hneeded =>
        hsound hbase hneeded kind rfl hconvertible) fun _ _ => preserves_pure _
    · exact ⟨trivial, h.congr rfl rfl⟩

theorem IfsKept.declareLetters {shell : Shell W} (h : IfsKept needed shell)
    (requested : Requested) (base : Bytes) :
    IfsKept needed (declareLetters requested base shell) := by
  apply declareLetters_keeps requested ?_ h
  intro letter enabled shell h
  exact h.modifyEntry base (fun _ => rfl) (fun _ => rfl) fun _ => rfl

theorem IfsKept.declareAttributes {shell : Shell W} (h : IfsKept needed shell)
    (requested : Requested) (base : Bytes) (scope : DeclarationScope) (wasExported : Bool) :
    IfsKept needed (declareAttributes requested base scope wasExported shell) := by
  have heither : ∀ {c : Prop} {_ : Decidable c} {s t : Shell W},
      IfsKept needed s → IfsKept needed t → IfsKept needed (if c then s else t) := by
    intro c _ s t hs ht
    split_ifs
    · exact hs
    · exact ht
  have hadd : ∀ {attributes : VariableAttributes} {shell : Shell W}, IfsKept needed shell →
      IfsKept needed (addAttributes base attributes shell) := fun h =>
    h.modifyEntry base (fun _ => rfl) (fun _ => rfl) fun _ => rfl
  have hclear : ∀ {shell : Shell W}, IfsKept needed shell →
      IfsKept needed (clearExported base shell) := fun h =>
    h.modifyEntry base (fun _ => rfl) (fun _ => rfl) fun _ => rfl
  have hreferring : IfsKept needed (if requested.nameref = some true then
      setBashAttribute base .nameref true shell else shell) :=
    heither (h.modifyEntry base (fun _ => rfl) (fun _ => rfl) fun _ => rfl) h
  unfold Variables.declareAttributes
  exact heither (hclear (heither hreferring (hadd hreferring)))
    (heither (hclear (heither hreferring (hadd hreferring))) (heither hreferring (hadd hreferring)))

/-- A declaration keeps what its entry and its kind keep. -/
theorem declareName_ifsKept (hhost : Apart host)
    (hexpand : (ifsInvariant needed : Invariant W).Expands host)
    (he : ∀ t, (evaluate t).Preserves (IfsKept needed)) {builtin : Bytes} {requested : Requested}
    {name base : Bytes} {value : Option Bytes} {append : Bool} {scope : DeclarationScope}
    {shell : Shell W}
    (hentered : IfsKept needed (declareEntry host base scope
      (if value.isSome then .assigned else .discard) shell))
    (hsound : base = text "IFS" → needed false → ∀ kind, requested.kind = some kind →
      convertible (declareEntry host base scope
        (if value.isSome then .assigned else .discard) shell) base kind = true →
      ¬ emptiesIfs (declareEntry host base scope
        (if value.isSome then .assigned else .discard) shell) kind .enforce) :
    (declareName host evaluate builtin requested name base value append scope shell).Meets
      (IfsKept needed) fun _ => True := by
  have hclosed := ifsInvariant_closed hhost hexpand
  unfold declareName
  rw [bind_done (modify_apply _ shell), bind_done (get_apply _)]
  refine meets_bind (hentered.declareKind hhost builtin hsound) fun given _ => ?_
  split
  · refine Preserves.bind (preserves_modify fun _ hs => hs.declareLetters requested base)
      fun _ => ?_
    have hafter : ∀ wasExported, ((Run.modify (Variables.declareAttributes requested base scope
        wasExported) : ShellRun W Unit) >>= fun _ => (pure true : ShellRun W Bool)).Preserves
        (IfsKept needed) := fun wasExported =>
      Preserves.bind (preserves_modify fun _ hs => hs.declareAttributes requested base scope _)
        fun _ => preserves_pure _
    cases value with
    | none => exact (preserves_pure _).bind fun _ => hafter _
    | some value =>
      exact Preserves.bind (assignDeclared_preserves hclosed he (fun _ => trivial) name base value
        append) fun _ => hafter _
  · exact preserves_pure _

end Declarations

end Nsh.Variables
