import Nsh.Lib.Keeps
import Nsh.Variables.Declare

/-!
# What assignments keep

An `Invariant` is a property of the shell together with the values its table may
hold and the elements that may be selected.  It is `Closed` when the few writes
everything else is made of keep it: then so does every assignment, whatever the
evaluator it is handed does, as long as that keeps it too.
-/

namespace Nsh.Variables

open Nsh.Run

variable {W : Type}

structure Invariant (W : Type) where
  holds : Shell W → Prop
  value : VariableValue → Prop
  selector : ArraySelector → Prop

/-- Word expansion keeps an invariant, if the evaluations it makes do. -/
def Invariant.Expands (I : Invariant W) (host : Host W) : Prop :=
  ∀ evaluate : Bytes → ShellRun W Int64, (∀ t, (evaluate t).Preserves I.holds) →
    ∀ t, (host.expandString evaluate t).Preserves I.holds

/-- The writes that assignments and evaluations are made of keep an invariant. -/
structure Invariant.Closed (I : Invariant W) (host : Host W) : Prop where
  warn : ∀ message, (Shell.warn message : ShellRun W Unit).Preserves I.holds
  refresh : ∀ name shell, I.holds shell → I.holds (refresh host name shell)
  write : ∀ name value attributes guard allExport,
    (setEntry host name (some value) attributes .run guard allExport).Preserves I.holds
  store : ∀ name value attributes guard, I.value value →
    (store host name value attributes guard).Preserves I.holds
  letter : ∀ name letter enabled shell, I.holds shell →
    I.holds (setBashAttribute name letter enabled shell)
  expand : I.Expands host
  held : ∀ shell name value, I.holds shell → variableValue shell name = some value → I.value value
  empty : ∀ kind, I.value (.empty kind)
  scalar : ∀ bytes, I.value (.scalar bytes)
  convert : ∀ bytes kind, I.value ((VariableValue.scalar bytes).convert kind)
  setIndexed : ∀ value index element, I.value value → I.selector (.index index) →
    I.value (value.setIndexed index element)
  setAssociative : ∀ value key element, I.value value → I.value (value.setAssociative key element)
  without : ∀ value selector, I.value value → I.value (withoutElement value selector)
  index : ∀ name index, (normalizeIndex name index).Ensures I.holds I.selector
  other : ∀ selector, (∀ index, selector ≠ .index index) → I.selector selector
  zero : I.selector (.index 0)

/-- A change that touches some names at most: the other entries, the scopes and
    the splitter's cache stay, and no entry takes the splitter's callback over. -/
structure Touches (names : List Bytes) (s t : Shell W) : Prop where
  entry : ∀ name, name ∉ names → t.entry name = s.entry name
  callback : ∀ name entry, t.entry name = some entry → entry.callback = .ifs →
    ∃ before, s.entry name = some before ∧ before.callback = .ifs
  locals : t.table.locals = s.table.locals
  ifs : t.ifs = s.ifs

/-- The names an option change is followed through. -/
def optionNames : List Bytes := [text "SHELLOPTS", text "BASHOPTS", text "PS1", text "PS2"]

/-- What the modules around this one leave alone. -/
structure Apart (host : Host W) : Prop where
  react_table : ∀ callback name value shell,
    (host.react callback name value shell).table = shell.table
  react_ifs : ∀ callback name value shell, (host.react callback name value shell).ifs = shell.ifs
  compute : ∀ name shell, Touches [name] shell (host.compute name shell).2
  publish : ∀ shell, Touches callArgumentNames shell (host.publishCallArguments shell)
  optionsChanged : ∀ shell, Touches optionNames shell (host.optionsChanged shell)

theorem Touches.refl (names : List Bytes) (shell : Shell W) : Touches names shell shell :=
  ⟨fun _ _ => rfl, fun _ entry h hifs => ⟨entry, h, hifs⟩, rfl, rfl⟩

theorem apart_plain : Apart Host.plain where
  react_table _ _ _ _ := rfl
  react_ifs _ _ _ _ := rfl
  compute _ _ := Touches.refl _ _
  publish _ := Touches.refl _ _
  optionsChanged _ := Touches.refl _ _

theorem expands_plain (I : Invariant Unit) : I.Expands Host.plain :=
  fun _ _ t => preserves_pure t

theorem runCallback_table {host : Host W} (hhost : Apart host) (name : Bytes) (callback : Callback)
    (value : Option Bytes) (shell : Shell W) :
    (runCallback host name callback value shell).table = shell.table := by
  unfold runCallback
  cases callback with
  | none => rfl
  | ifs => rfl
  | locale => cases selectedLocale host shell <;> rfl
  | _ => exact hhost.react_table _ _ _ _

/-! ### Writing an entry -/

/-- The attributes a write adds, `set -a` consulted. -/
def markedAttributes (shell : Shell W) (attributes : VariableAttributes) (allExport : AllExport) :
    VariableAttributes :=
  if allExport = .marks ∧ shell.options.allExport then { attributes with exported := true }
  else attributes

/-- A write that takes an entry away. -/
structure Removes (shell : Shell W) (name : Bytes) (old : Variable)
    (attributes : VariableAttributes) (guard : ReadOnlyGuard) (allExport : AllExport) : Prop where
  held : shell.entry name = some old
  writable : ¬ (old.attributes.readOnly = true ∧ guard = .enforce)
  marks : markedAttributes shell attributes allExport = VariableAttributes.none
  loose : old.attributes.fixed = false

/-- What one write can do: fail, enter a name, write an entry in place, or take
    it away. -/
theorem setEntry_cases (host : Host W) (name : Bytes) (value : Option Bytes)
    (attributes : VariableAttributes) (policy : CallbackPolicy) (guard : ReadOnlyGuard)
    (allExport : AllExport) (shell : Shell W) :
    (∃ e, setEntry host name value attributes policy guard allExport shell = .failed e shell) ∨
    (shell.entry name = none ∧ setEntry host name value attributes policy guard allExport shell =
      .done () (createEntry host name value (markedAttributes shell attributes allExport) policy
        shell)) ∨
    (∃ old written, shell.entry name = some old ∧
      setEntry host name value attributes policy guard allExport shell =
        .done () (updateEntry host name old value written policy shell)) ∨
    (∃ old, Removes shell name old attributes guard allExport ∧ value = none ∧
      setEntry host name value attributes policy guard allExport shell =
        .done () (removeEntry host name old.callback shell)) := by
  unfold setEntry
  rw [show (if allExport = .marks ∧ shell.options.allExport then
      { attributes with exported := true } else attributes) =
        markedAttributes shell attributes allExport from rfl]
  split
  · cases hentry : shell.entry name with
    | none => exact .inr (.inl ⟨rfl, rfl⟩)
    | some old =>
      simp only
      split
      · exact .inl ⟨_, rfl⟩
      · next hwritable =>
        split
        · exact .inr (.inr (.inl ⟨old, _, rfl, rfl⟩))
        · next hplain =>
          split
          · exact .inr (.inr (.inl ⟨old, _, rfl, rfl⟩))
          · next hloose =>
            rw [not_or, Classical.not_not] at hplain
            refine .inr (.inr (.inr ⟨old, ⟨hentry, hwritable, hplain.2, ?_⟩, ?_, rfl⟩))
            · exact Bool.eq_false_iff.mpr hloose
            · exact Option.not_isSome_iff_eq_none.mp hplain.1
  · exact .inl ⟨_, rfl⟩

/-- A name without declared attributes is written as it is given. -/
theorem setBytes_unlettered {host : Host W} {evaluate : Bytes → ShellRun W Int64}
    {name value : Bytes} {attributes : VariableAttributes} {shell : Shell W}
    (h : ∀ entry, shell.entry name = some entry → entry.bashAttributes = {}) :
    setBytes host evaluate name (some value) attributes shell =
      setEntry host name (some value) attributes .run .enforce .marks shell := by
  have hletters : bashAttributes shell name = none ∨ bashAttributes shell name = some {} := by
    unfold bashAttributes
    cases hentry : shell.entry name with
    | none => exact .inl rfl
    | some entry => exact .inr (congrArg some (h entry hentry))
  have hthrough : assignThrough host evaluate name value attributes shell = .done false shell := by
    unfold assignThrough isReference
    rw [bind_done (get_apply shell)]
    rcases hletters with hnone | hnone <;> rw [hnone] <;> rfl
  have hdeclared : declaredElement evaluate name value shell = .done value shell := by
    unfold declaredElement declaredValue
    rw [bind_apply, bind_done (get_apply shell)]
    rcases hletters with hnone | hnone <;> rw [hnone] <;> rfl
  show (assignThrough host evaluate name value attributes >>= fun written =>
    if written then pure () else storeDeclared host evaluate name value attributes) shell = _
  rw [bind_done hthrough, if_neg (by decide)]
  exact bind_done hdeclared _

/-- A name that is no reference and no integer is written, in whatever case it asks for. -/
theorem setBytes_direct {host : Host W} {evaluate : Bytes → ShellRun W Int64}
    {name value : Bytes} {attributes : VariableAttributes} {shell : Shell W}
    (h : ∀ entry, shell.entry name = some entry →
      entry.bashAttributes.nameref = false ∧ entry.bashAttributes.integer = false) :
    ∃ written, setBytes host evaluate name (some value) attributes shell =
      setEntry host name (some written) attributes .run .enforce .marks shell := by
  have hletters : ∀ declared, bashAttributes shell name = some declared →
      declared.nameref = false ∧ declared.integer = false := by
    intro declared hdeclared
    obtain ⟨entry, hentry, rfl⟩ := Option.map_eq_some_iff.mp hdeclared
    exact h entry hentry
  have hthrough : assignThrough host evaluate name value attributes shell = .done false shell := by
    unfold assignThrough isReference
    rw [bind_done (get_apply shell)]
    cases hheld : bashAttributes shell name with
    | none => rfl
    | some declared =>
      rw [if_neg]
      · rfl
      · rw [Option.map_some, Option.getD_some, (hletters declared hheld).1]
        exact Bool.false_ne_true
  have hdeclared : ∃ written,
      declaredElement evaluate name value shell = .done written shell := by
    unfold declaredElement declaredValue
    rw [bind_apply, bind_done (get_apply shell)]
    cases hheld : bashAttributes shell name with
    | none => exact ⟨_, rfl⟩
    | some declared =>
      simp only [(hletters declared hheld).2, Bool.false_eq_true, if_false]
      split_ifs <;> exact ⟨_, rfl⟩
  obtain ⟨written, hwritten⟩ := hdeclared
  refine ⟨written, ?_⟩
  show (assignThrough host evaluate name value attributes >>= fun written =>
    if written then pure () else storeDeclared host evaluate name value attributes) shell = _
  rw [bind_done hthrough, if_neg (by decide)]
  exact bind_done hwritten _

/-- A write the entry allows leaves an entry of the name. -/
theorem setEntry_writes {host : Host W} (hhost : Apart host) {name : Bytes} {shell : Shell W}
    (hname : validName shell.locale name = true) (value : Bytes) {guard : ReadOnlyGuard}
    (hwritable : ∀ old, shell.entry name = some old →
      ¬ (old.attributes.readOnly = true ∧ guard = .enforce)) :
    ∃ t entry, setEntry host name (some value) VariableAttributes.none .run guard .declines shell
      = .done () t ∧ t.entry name = some entry := by
  have hrun : ∀ (table : Shell W) (entry : Variable) (callback : Callback) (held : Option Bytes),
      (runCallback host name callback held (table.insert name entry)).entry name
        = some entry := by
    intro table entry callback held
    unfold Shell.entry
    rw [runCallback_table hhost]
    exact table.entry_insert_self name entry
  unfold setEntry
  rw [if_pos hname]
  cases hold : shell.entry name with
  | none => exact ⟨_, _, rfl, hrun shell _ _ _⟩
  | some old =>
    dsimp only
    rw [if_neg (hwritable old hold), if_pos (Or.inl Option.isSome_some)]
    exact ⟨_, _, rfl, hrun shell _ _ _⟩

/-- A whole value the entry allows is what the name holds once it is stored. -/
theorem store_writes {host : Host W} (hhost : Apart host) {name : Bytes} {shell : Shell W}
    (hname : validName shell.locale name = true) (value : VariableValue) {guard : ReadOnlyGuard}
    (hwritable : ∀ old, shell.entry name = some old →
      ¬ (old.attributes.readOnly = true ∧ guard = .enforce)) :
    ∃ t, store host name value VariableAttributes.none guard shell = .done () t ∧
      variableValue t name = some value := by
  obtain ⟨t, entry, hset, hentry⟩ :=
    setEntry_writes hhost hname (value.scalarOwned.getD []) hwritable
  unfold store
  rw [bind_done hset, modify_apply, hentry]
  refine ⟨_, rfl, ?_⟩
  unfold variableValue
  simp

/-- A property each kind of write keeps is kept by every write. -/
theorem setEntry_preserves {host : Host W} {P : Shell W → Prop} {name : Bytes}
    {value : Option Bytes} {attributes : VariableAttributes} {policy : CallbackPolicy}
    {guard : ReadOnlyGuard} {allExport : AllExport}
    (create : ∀ shell attributes, P shell → shell.entry name = none →
      P (createEntry host name value attributes policy shell))
    (update : ∀ shell old written, P shell → shell.entry name = some old →
      P (updateEntry host name old value written policy shell))
    (remove : ∀ shell old, P shell → value = none →
      Removes shell name old attributes guard allExport →
      P (removeEntry host name old.callback shell)) :
    (setEntry host name value attributes policy guard allExport).Preserves P := by
  intro shell hs
  rcases setEntry_cases host name value attributes policy guard allExport shell with
    ⟨e, h⟩ | ⟨hnone, h⟩ | ⟨old, written, hold, h⟩ | ⟨old, hremoves, hvalue, h⟩
  · rw [h]; exact hs
  · rw [h]; exact ⟨trivial, create shell _ hs hnone⟩
  · rw [h]; exact ⟨trivial, update shell old written hs hold⟩
  · rw [h]; exact ⟨trivial, remove shell old hs hvalue hremoves⟩

section Closed

variable {I : Invariant W} {host : Host W} {evaluate : Bytes → ShellRun W Int64}
variable (h : I.Closed host) (he : ∀ t, (evaluate t).Preserves I.holds)

/-! ### Failures leave the shell as it stands -/

theorem shellError_ensures {α : Type} {Q : α → Prop} (message : Bytes) :
    (Shell.shellError message : ShellRun W α).Ensures I.holds Q := fun _ hs => hs

theorem dialectError_ensures {α : Type} {Q : α → Prop} (message : Bytes) :
    (Shell.dialectError message : ShellRun W α).Ensures I.holds Q := fun _ hs => hs

theorem rejectBadName_preserves (name : Bytes) :
    (rejectBadName name : ShellRun W Unit).Preserves I.holds := by
  intro shell hs
  unfold rejectBadName
  split
  · exact ⟨trivial, hs⟩
  · exact hs

theorem rejectReadOnly_preserves (name : Bytes) (guard : ReadOnlyGuard) :
    (rejectReadOnly name guard : ShellRun W Unit).Preserves I.holds := by
  intro shell hs
  unfold rejectReadOnly
  split_ifs
  · exact ⟨trivial, hs⟩
  · exact hs
  · exact ⟨trivial, hs⟩

theorem rejectEmptyKey_preserves (name : Bytes) (selector : ArraySelector) :
    (rejectEmptyKey name selector : ShellRun W Unit).Preserves I.holds := by
  unfold rejectEmptyKey
  split
  · exact dialectError_ensures _
  · exact preserves_pure ()

/-! ### Subscripts -/

include he in
theorem evaluateForAVariable_preserves (input : Bytes) :
    (evaluateForAVariable evaluate input).Preserves I.holds := by
  unfold evaluateForAVariable
  split
  · exact he input
  · exact (he input).mapError _

include h he in
theorem expandRun_preserves (run resolved : Bytes) :
    (expandRun host evaluate run resolved).Preserves I.holds := by
  unfold expandRun
  split
  · exact preserves_pure _
  · exact (h.expand evaluate he run).bind fun _ => preserves_pure _

include h he in
theorem arithmeticWordFrom_preserves (rest : Bytes) : ∀ reading run resolved,
    (arithmeticWordFrom host evaluate rest reading run resolved).Preserves I.holds := by
  induction rest with
  | nil =>
    intro reading run resolved
    cases reading <;> exact expandRun_preserves h he _ _
  | cons byte rest ih =>
    intro reading run resolved
    have hrun : ∀ f : Bytes → Bytes, (expandRun host evaluate run resolved >>= fun r =>
        arithmeticWordFrom host evaluate rest .plain [] (f r)).Preserves I.holds := fun f =>
      (expandRun_preserves h he run resolved).bind fun r => ih .plain [] (f r)
    cases reading <;> simp only [arithmeticWordFrom] <;> split_ifs <;>
      first | exact ih _ _ _ | exact hrun _

include h he in
theorem textWordFrom_preserves (rest : Bytes) : ∀ reading double run resolved,
    (textWordFrom host evaluate rest reading double run resolved).Preserves I.holds := by
  induction rest with
  | nil =>
    intro reading double run resolved
    cases reading <;> exact expandRun_preserves h he _ _
  | cons byte rest ih =>
    intro reading double run resolved
    cases reading <;> simp only [textWordFrom] <;> split_ifs <;>
      first
      | exact ih _ _ _ _
      | exact (expandRun_preserves h he run resolved).bind fun r => ih .single _ [] r

include h he in
theorem textWord_preserves (subscript : Bytes) :
    (textWord host evaluate subscript).Preserves I.holds := by
  unfold textWord
  split
  · exact textWordFrom_preserves h he _ _ _ _ _
  · exact preserves_pure _

include h he in
theorem subscriptWord_preserves (name subscript : Bytes) :
    (subscriptWord host evaluate name subscript).Preserves I.holds := by
  refine ensures_get.bind fun shell _ => ?_
  split
  · unfold arithmeticWord
    split
    · exact arithmeticWordFrom_preserves h he _ _ _ _
    · exact preserves_pure _
  · exact textWord_preserves h he subscript

include h he in
theorem resolveSelector_ensures (name subscript : Bytes) :
    (resolveSelector evaluate name subscript).Ensures I.holds I.selector := by
  unfold resolveSelector
  split_ifs
  · exact ensures_pure (h.other _ nofun)
  · exact ensures_pure (h.other _ nofun)
  · refine ensures_get.bind fun shell _ => ?_
    split
    · exact ensures_pure (h.other _ nofun)
    · exact (evaluateForAVariable_preserves he subscript).bind fun index => h.index name index

include h he in
theorem resolveTextSelector_ensures (name subscript : Bytes) :
    (resolveTextSelector host evaluate name subscript).Ensures I.holds I.selector :=
  (subscriptWord_preserves h he name subscript).bind fun resolved =>
    resolveSelector_ensures h he name resolved

/-! ### Elements -/

include he in
theorem declaredElement_preserves (name value : Bytes) :
    (declaredElement evaluate name value).Preserves I.holds := by
  refine Preserves.bind (ensures_get.bind fun shell _ => ?_) fun _ => preserves_pure _
  cases bashAttributes shell name with
  | none => exact preserves_pure _
  | some declared =>
    simp only
    split_ifs
    · exact Preserves.bind (((evaluateForAVariable_preserves he value)).mapError _) fun _ =>
        preserves_pure _
    · exact preserves_pure _
    · exact preserves_pure _
    · exact preserves_pure _

include he in
theorem arithmeticValue_preserves (input : Bytes) :
    (arithmeticValue evaluate input).Preserves I.holds := by
  unfold arithmeticValue
  split
  · exact preserves_pure _
  · exact evaluateForAVariable_preserves he input

include he in
theorem appendElement_preserves (name existing value : Bytes) :
    (appendElement evaluate name existing value).Preserves I.holds := by
  refine ensures_get.bind fun shell _ => ?_
  split
  · exact (arithmeticValue_preserves he existing).bind fun _ =>
      (arithmeticValue_preserves he value).bind fun _ => preserves_pure _
  · exact preserves_pure _

include he in
theorem writtenElement_preserves (name existing value : Bytes) (append : Bool) :
    (writtenElement evaluate name existing value append).Preserves I.holds := by
  unfold writtenElement
  split
  · exact appendElement_preserves he name existing value
  · exact preserves_pure _

include h in
/-- What an element assignment starts from is a value the table may hold. -/
theorem elementBase_value {shell : Shell W} (hs : I.holds shell) (name : Bytes)
    (kind : VariableKind) : I.value (elementBase shell name kind) := by
  unfold elementBase
  cases hv : variableValue shell name with
  | none => exact h.empty kind
  | some value =>
    cases value with
    | scalar bytes => exact h.convert bytes kind
    | indexed values => exact h.held shell name _ hs hv
    | associative values => exact h.held shell name _ hs hv

include h he in
theorem assignElement_preserves (name value : Bytes) {selector : ArraySelector}
    (hselector : I.selector selector) (append : Bool) (guard : ReadOnlyGuard) :
    (assignElement host evaluate name selector value append guard).Preserves I.holds := by
  refine (rejectBadName_preserves name).bind fun _ => (rejectReadOnly_preserves name guard).bind
    fun _ => (rejectEmptyKey_preserves name selector).bind fun _ => ensures_get.bind
    fun shell hs => ?_
  have hbase := elementBase_value h hs name
  refine (writtenElement_preserves he _ _ _ _).bind fun appended =>
    (declaredElement_preserves he name appended).bind fun element => ?_
  cases selector with
  | index index => exact h.store _ _ _ _ (h.setIndexed _ _ _ (hbase _) hselector)
  | key key => exact h.store _ _ _ _ (h.setAssociative _ _ _ (hbase _))
  | missing => exact ensures_get.bind fun _ _ => ensures_fail _
  | all => exact shellError_ensures _
  | joined => exact shellError_ensures _

/-! ### Scalars -/

include h in
theorem lookupBytes_preserves (name : Bytes) : (lookupBytes host name).Preserves I.holds :=
  fun shell hs => ⟨trivial, h.refresh name shell hs⟩

include h he in
theorem storeDeclared_preserves (name value : Bytes) (attributes : VariableAttributes) :
    (storeDeclared host evaluate name value attributes).Preserves I.holds :=
  (declaredElement_preserves he name value).bind fun stored =>
    h.write name stored attributes .enforce .marks

include h in
theorem clearReference_preserves (name : Bytes) :
    (Run.modify (clearReference name) : ShellRun W Unit).Preserves I.holds :=
  preserves_modify (h.letter name .nameref false)

include h he in
theorem assignThrough_preserves (name value : Bytes) (attributes : VariableAttributes) :
    (assignThrough host evaluate name value attributes).Preserves I.holds := by
  refine ensures_get.bind fun shell _ => ?_
  split
  · cases follow shell name with
    | none => exact preserves_pure _
    | some target =>
      cases target with
      | name target =>
        simp only
        split_ifs
        · exact (clearReference_preserves h name).bind fun _ => preserves_pure _
        · exact preserves_pure _
        · exact (storeDeclared_preserves h he target value attributes).bind fun _ =>
            preserves_pure _
      | element base subscript =>
        exact (resolveTextSelector_ensures h he base subscript).bind fun selector hselector =>
          (assignElement_preserves h he base value hselector false .enforce).bind fun _ =>
            preserves_pure _
  · exact preserves_pure _

include h he in
theorem setBytes_preserves (name value : Bytes) (attributes : VariableAttributes) :
    (setBytes host evaluate name (some value) attributes).Preserves I.holds := by
  refine (assignThrough_preserves h he name value attributes).bind fun written => ?_
  split
  · exact preserves_pure _
  · exact storeDeclared_preserves h he name value attributes

include h he in
theorem appendUnsubscripted_preserves (name value : Bytes) (guard : ReadOnlyGuard) :
    (appendUnsubscripted host evaluate name value guard).Preserves I.holds := by
  have hplain : (rejectBadName name >>= fun _ => rejectReadOnly name guard >>= fun _ =>
      lookupBytes host name >>= fun existing =>
      appendElement evaluate name (existing.getD []) value >>= fun appended =>
      declaredElement evaluate name appended >>= fun appended =>
      store host name (.scalar appended) VariableAttributes.none guard).Preserves I.holds :=
    (rejectBadName_preserves name).bind fun _ => (rejectReadOnly_preserves name guard).bind
      fun _ => (lookupBytes_preserves h name).bind fun _ =>
      (appendElement_preserves he _ _ _).bind fun _ => (declaredElement_preserves he _ _).bind
      fun appended => h.store _ _ _ _ (h.scalar appended)
  refine ensures_get.bind fun shell _ => ?_
  cases variableKind shell name with
  | none => exact hplain
  | some kind =>
    cases kind with
    | scalar => exact hplain
    | indexed => exact assignElement_preserves h he name value h.zero true guard
    | associative =>
      exact assignElement_preserves h he name value (h.other (.key (text "0")) nofun) true guard

include h he in
theorem assignTextTarget_preserves (name value : Bytes) (append : Bool) :
    (assignTextTarget host evaluate name value append).Preserves I.holds := by
  unfold assignTextTarget
  split
  · next base subscript _ =>
    exact (resolveTextSelector_ensures h he base subscript).bind fun selector hselector =>
      assignElement_preserves h he base value hselector append .enforce
  · split
    · exact appendUnsubscripted_preserves h he name value .enforce
    · exact setBytes_preserves h he name value _

/-! ### Compound values -/

include h in
theorem keyValuePairs_preserves (elements : List CompoundElement) :
    (keyValuePairs elements : ShellRun W _).Preserves I.holds := by
  induction elements using keyValuePairs.induct with
  | case1 => exact preserves_pure _
  | case2 key hkey =>
    simp only [keyValuePairs, hkey, if_true]
    exact (h.warn _).bind fun _ => preserves_pure _
  | case3 key hkey =>
    simp only [keyValuePairs, hkey, if_false]
    exact preserves_pure _
  | case4 key value rest hkey ih =>
    simp only [keyValuePairs, hkey, if_true]
    exact (h.warn _).bind fun _ => ih
  | case5 key value rest hkey ih =>
    simp only [keyValuePairs, hkey, if_false]
    exact ih.bind fun _ => preserves_pure _

include h in
theorem compoundMembers_preserves (form : CompoundForm) (elements : List CompoundElement) :
    (compoundMembers form elements : ShellRun W _).Preserves I.holds := by
  unfold compoundMembers
  split
  · exact keyValuePairs_preserves h elements
  · exact preserves_pure _

include h he in
theorem compoundSelector_ensures (name : Bytes) (form : CompoundForm) (guard : ReadOnlyGuard)
    {building : Building} (hcurrent : I.value building.current) (subscript : Option Bytes)
    (hnext : subscript = none → I.selector (.index building.next)) :
    (compoundSelector host evaluate name form guard building subscript).Ensures I.holds
      I.selector := by
  cases subscript with
  | none => exact ensures_pure (hnext rfl)
  | some key =>
    simp only [compoundSelector]
    split
    · exact ensures_pure (h.other _ nofun)
    · exact (h.store _ _ _ _ hcurrent).bind fun _ => resolveSelector_ensures h he name key

include h in
theorem place_ensures (name : Bytes) {building : Building} (hcurrent : I.value building.current)
    {selector : ArraySelector} (hselector : I.selector selector) (value : Bytes) :
    (place name building selector value : ShellRun W Building).Ensures I.holds
      fun building => I.value building.current := by
  cases selector with
  | index index => exact ensures_pure (h.setIndexed _ _ _ hcurrent hselector)
  | key key => exact ensures_pure (h.setAssociative _ _ _ hcurrent)
  | missing => exact ensures_get.bind fun _ _ => ensures_fail _
  | all => exact shellError_ensures _
  | joined => exact shellError_ensures _

include h he in
theorem assignMember_ensures (name : Bytes) (form : CompoundForm) (guard : ReadOnlyGuard)
    (previous : Option VariableValue) {building : Building} (hcurrent : I.value building.current)
    (element : CompoundElement)
    (hnext : form ≠ .keyed → element.subscript = none → I.selector (.index building.next)) :
    (assignMember host evaluate name form guard previous building element).Ensures I.holds
      fun building => I.value building.current := by
  unfold assignMember
  split_ifs with hkeyed
  · exact (h.store _ _ _ _ hcurrent).bind fun _ => dialectError_ensures _
  · exact (h.store _ _ _ _ hcurrent).bind fun _ => dialectError_ensures _
  · exact (compoundSelector_ensures h he name form guard hcurrent _ fun hnone =>
      hnext (fun hform => hkeyed ⟨hform, hnone⟩) hnone).bind
      fun selector hselector => (writtenElement_preserves he _ _ _ _).bind fun combined =>
      (declaredElement_preserves he name combined).bind fun value =>
      place_ensures h name hcurrent hselector value

include h he in
theorem assignMembers_ensures (hall : ∀ index, I.selector (.index index)) (name : Bytes)
    (form : CompoundForm) (guard : ReadOnlyGuard) (previous : Option VariableValue)
    (elements : List CompoundElement) : ∀ {building : Building}, I.value building.current →
    (assignMembers host evaluate name form guard previous building elements).Ensures I.holds
      fun building => I.value building.current := by
  induction elements with
  | nil => intro building hcurrent; exact ensures_pure hcurrent
  | cons element rest ih =>
    intro building hcurrent
    exact (assignMember_ensures h he name form guard previous hcurrent element
      fun _ _ => hall _).bind fun _ hcurrent => ih hcurrent

include h in
theorem compoundBase_value {shell : Shell W} (hs : I.holds shell) (name : Bytes)
    (kind : VariableKind) (append : Bool) : I.value (compoundBase shell name kind append) := by
  unfold compoundBase
  split
  · exact elementBase_value h hs name kind
  · exact h.empty kind

include h he in
theorem assignCompound_preserves (hall : ∀ index, I.selector (.index index)) (name : Bytes)
    (elements : List CompoundElement) (form : CompoundForm) (append : Bool)
    (guard : ReadOnlyGuard) :
    (assignCompound host evaluate name elements form append guard).Preserves I.holds := by
  refine (rejectBadName_preserves name).bind fun _ => (rejectReadOnly_preserves name guard).bind
    fun _ => (compoundMembers_preserves h form elements).bind fun elements =>
    ensures_get.bind fun shell hs => ?_
  exact (assignMembers_ensures h he hall name form guard _ elements
    (compoundBase_value h hs name form.kind append)).bind fun building hcurrent =>
      h.store _ _ _ _ hcurrent

include h in
theorem unsetElement_preserves (name : Bytes) (selector : ArraySelector) :
    (unsetElement host name selector).Preserves I.holds := by
  refine (rejectReadOnly_preserves name .enforce).bind fun _ => ensures_get.bind fun shell hs => ?_
  cases hv : variableValue shell name with
  | none => exact preserves_pure _
  | some current =>
    simp only
    split
    · exact ensures_fail _
    · exact h.store _ _ _ _ (h.without _ _ (h.held shell name current hs hv))

include h in
theorem assignValue_preserves (name : Bytes) {value : VariableValue} (hvalue : I.value value) :
    (assignValue host name value).Preserves I.holds :=
  (rejectBadName_preserves name).bind fun _ => (rejectReadOnly_preserves name .enforce).bind
    fun _ => h.store _ _ _ _ hvalue

/-! ### Declarations -/

include h in
theorem ensureKind_preserves
    (hconvert : ∀ value kind, I.value value → I.value (value.convert kind))
    {name : Bytes} {kind : VariableKind}
    (hdeclared : ∀ shell, I.holds shell →
      I.holds (modifyEntry name (fun entry => { entry with state := .declared kind }) shell))
    (attributes : VariableAttributes) (guard : ReadOnlyGuard) :
    (ensureKind host name kind attributes guard).Preserves I.holds := by
  refine (rejectBadName_preserves name).bind fun _ => (rejectReadOnly_preserves name guard).bind
    fun _ => ensures_get.bind fun shell hs => ?_
  split
  · exact preserves_pure _
  · cases hv : variableValue shell name with
    | none =>
      exact (h.store _ _ _ _ (h.empty kind)).bind fun _ =>
        preserves_modify hdeclared
    | some value => exact h.store _ _ _ _ (hconvert _ _ (h.held shell name value hs hv))

include h in
theorem declareKind_preserves
    (hconvert : ∀ value kind, I.value value → I.value (value.convert kind)) {base : Bytes}
    (hdeclared : ∀ kind shell, I.holds shell →
      I.holds (modifyEntry base (fun entry => { entry with state := .declared kind }) shell))
    (builtin : Bytes) (kind : Option VariableKind) :
    (declareKind host builtin base kind).Preserves I.holds := by
  refine ensures_get.bind fun shell _ => ?_
  cases kind with
  | none => exact preserves_pure _
  | some kind =>
    simp only
    split
    · exact (ensureKind_preserves h hconvert (hdeclared kind) _ _).bind fun _ =>
        preserves_pure _
    · exact (h.warn _).bind fun _ => preserves_pure _

/-! ### Compound values in one word -/

include h he in
theorem expandMembers_preserves (words : List Bytes) :
    (expandMembers host evaluate words).Preserves I.holds := by
  induction words with
  | nil => exact preserves_pure _
  | cons word rest ih =>
    rcases hsplit : splitMember word with ⟨subscript, append, value⟩
    have hrest : ∀ subscript, (textWord host evaluate value >>= fun value =>
        expandMembers host evaluate rest >>= fun elements =>
        pure (⟨subscript, value, append⟩ :: elements)).Preserves I.holds := fun subscript =>
      (textWord_preserves h he value).bind fun _ => ih.bind fun _ => preserves_pure _
    simp only [expandMembers, hsplit]
    cases subscript with
    | none => exact hrest none
    | some subscript =>
      exact (textWord_preserves h he subscript).bind fun subscript => hrest (some subscript)

include h he in
theorem assignCompoundText_preserves (hall : ∀ index, I.selector (.index index))
    (name inner : Bytes) : (assignCompoundText host evaluate name inner).Preserves I.holds := by
  refine ensures_get.bind fun shell _ => (expandMembers_preserves h he _).bind fun elements => ?_
  split
  · split
    · exact (h.warn _).bind fun _ => assignCompound_preserves h he hall _ _ _ _ _
    · exact assignCompound_preserves h he hall _ _ _ _ _
  · exact assignCompound_preserves h he hall _ _ _ _ _

include h he in
theorem assignDeclared_preserves (hall : ∀ index, I.selector (.index index))
    (name base value : Bytes) (append : Bool) :
    (assignDeclared host evaluate name base value append).Preserves I.holds := by
  refine ensures_get.bind fun shell _ => ?_
  split
  · exact assignCompoundText_preserves h he hall base _
  · exact assignTextTarget_preserves h he name value append

end Closed

end Nsh.Variables
