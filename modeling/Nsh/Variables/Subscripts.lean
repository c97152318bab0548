import Mathlib.Data.UInt
import Nsh.Arithmetic.Correctness
import Nsh.Arithmetic.Kept
import Nsh.Variables.Operations

/-!
# Naming the elements of an array

A subscript is a signed number, so an element can be named again as long as its
subscript is below `2 ^ 63`.  The append cursor of a compound assignment counts
on without looking at that bound: what keeps it is that no run of elements
without a subscript is long enough to cross it.
-/

namespace Nsh.Variables

open Nsh.Run

variable {W : Type} {host : Host W} {evaluate : Bytes → ShellRun W Int64}

/-! ### Subscripts below the bound -/

/-- Every subscript of an indexed array is one that a signed number can name. -/
def nameable (value : VariableValue) : Prop :=
  ∀ index element, value.indexedAt index = some element → index.toNat < 2 ^ 63

theorem nameable_scalar (bytes : Bytes) : nameable (.scalar bytes) := nofun

theorem nameable_associative (values : ByteMap Bytes) : nameable (.associative values) := nofun

theorem nameable_empty (kind : VariableKind) : nameable (.empty kind) := by
  cases kind with
  | scalar => exact nameable_scalar []
  | associative => exact nameable_associative ∅
  | indexed =>
    intro index element h
    have h : (∅ : Std.ExtTreeMap UInt64 Bytes)[index]? = some element := h
    rw [Std.ExtTreeMap.getElem?_empty] at h
    cases h

theorem nameable_setIndexed {value : VariableValue} (h : nameable value) {index : UInt64}
    (hindex : index.toNat < 2 ^ 63) (element : Bytes) :
    nameable (value.setIndexed index element) := by
  cases value with
  | scalar bytes => exact nameable_scalar bytes
  | associative values => exact nameable_associative values
  | indexed values =>
    intro other found hfound
    have hfound : (values.insert index element)[other]? = some found := hfound
    rw [Std.ExtTreeMap.getElem?_insert] at hfound
    split_ifs at hfound with heq
    · rw [← Std.LawfulEqCmp.compare_eq_iff_eq.mp heq]
      exact hindex
    · exact h other found hfound

theorem nameable_assignScalar {value : VariableValue} (h : nameable value) (bytes : Bytes) :
    nameable (value.assignScalar bytes) := by
  cases value with
  | scalar _ => exact nameable_scalar bytes
  | associative values => exact nameable_associative _
  | indexed values => exact @nameable_setIndexed _ h 0 (by decide) bytes

theorem nameable_withoutElement {value : VariableValue} (h : nameable value)
    (selector : ArraySelector) : nameable (withoutElement value selector) := by
  cases selector with
  | all => exact nameable_empty _
  | joined => exact nameable_empty _
  | missing => exact h
  | key key =>
    cases value with
    | scalar bytes => exact nameable_scalar bytes
    | associative values => exact nameable_associative _
    | indexed values => exact h
  | index index =>
    cases value with
    | scalar bytes => exact nameable_scalar bytes
    | associative values => exact nameable_associative _
    | indexed values =>
      intro other found hfound
      have hfound : (values.erase index)[other]? = some found := hfound
      rw [Std.ExtTreeMap.getElem?_erase] at hfound
      split_ifs at hfound
      exact h other found hfound

/-- The highest subscript is one of the subscripts. -/
theorem lastIndex_nameable {value : VariableValue} (h : nameable value) {index : UInt64}
    (hlast : value.lastIndex = some index) : index.toNat < 2 ^ 63 := by
  cases value with
  | scalar bytes => cases hlast
  | associative values => cases hlast
  | indexed values =>
    have hmem : index ∈ values := Std.ExtTreeMap.maxKey?_mem hlast
    obtain ⟨element, helement⟩ := Option.isSome_iff_exists.mp
      (Std.ExtTreeMap.isSome_getElem?_iff_mem.mpr hmem)
    exact h index element helement

/-- Every array the table holds can be named through. -/
def subscriptsNameable (shell : Shell W) : Prop :=
  ∀ name value, variableValue shell name = some value → nameable value

/-- What a subscript resolves to is below the bound. -/
def selectorNameable (selector : ArraySelector) : Prop :=
  ∀ index, selector = .index index → index.toNat < 2 ^ 63

def nameableInvariant : Invariant W where
  holds := subscriptsNameable
  value := nameable
  selector := selectorNameable

/-- The arrays the modules around this one publish can be named through. -/
structure Numbers (host : Host W) : Prop where
  compute : ∀ name shell, subscriptsNameable shell → subscriptsNameable (host.compute name shell).2
  publish : ∀ shell, subscriptsNameable shell →
    subscriptsNameable (host.publishCallArguments shell)

theorem numbers_plain : Numbers Host.plain := ⟨fun _ _ h => h, fun _ h => h⟩

theorem subscriptsNameable_congr {s t : Shell W} (h : subscriptsNameable s)
    (htable : t.table = s.table) : subscriptsNameable t := by
  intro name value hvalue
  unfold variableValue Shell.entry at hvalue
  rw [htable] at hvalue
  exact h name value hvalue

theorem variableValue_insert_self (shell : Shell W) (name : Bytes) {entry : Variable}
    {value : VariableValue} (h : variableValue (shell.insert name entry) name = some value) :
    entry.state = .set value := by
  unfold variableValue at h
  rw [Shell.entry_insert_self] at h
  obtain ⟨attributes, state, letters, callback, literal⟩ := entry
  cases state with
  | set held => cases h; rfl
  | unset => cases h
  | declared kind => cases h

theorem subscriptsNameable_insert {shell : Shell W} (h : subscriptsNameable shell) (name : Bytes)
    {entry : Variable} (hentry : ∀ value, entry.state = .set value → nameable value) :
    subscriptsNameable (shell.insert name entry) := by
  intro other value hvalue
  by_cases hname : name = other
  · subst hname
    exact hentry value (variableValue_insert_self shell name hvalue)
  · unfold variableValue at hvalue
    rw [Shell.entry_insert_of_ne _ hname] at hvalue
    exact h other value hvalue

theorem subscriptsNameable_of_entry {shell : Shell W} (h : subscriptsNameable shell) {name : Bytes}
    {entry : Variable} (hentry : shell.entry name = some entry) {value : VariableValue}
    (hstate : entry.state = .set value) : nameable value := by
  refine h name value ?_
  unfold variableValue
  obtain ⟨attributes, state, letters, callback, literal⟩ := entry
  rw [hentry]
  cases hstate
  rfl

theorem nameable_assignedState {state : VariableState}
    (h : ∀ value, state = .set value → nameable value) (bytes : Option Bytes)
    {value : VariableValue}
    (hassigned : assignedState state bytes = .set value) : nameable value := by
  cases bytes with
  | none => cases state <;> cases hassigned
  | some bytes =>
    cases state with
    | unset => cases hassigned; exact nameable_scalar bytes
    | declared kind => cases hassigned; exact nameable_assignScalar (nameable_empty kind) bytes
    | set held => cases hassigned; exact nameable_assignScalar (h held rfl) bytes

/-! ### Every write keeps the bound -/

section Writes

variable (hhost : Apart host)

include hhost in
theorem setEntry_nameable (name : Bytes) (value : Option Bytes) (attributes : VariableAttributes)
    (guard : ReadOnlyGuard) (allExport : AllExport) (hvalue : value.isSome) :
    (setEntry host name value attributes .run guard allExport).Preserves
      (subscriptsNameable (W := W)) := by
  have hcallback : ∀ (callback : Callback) (bytes : Option Bytes) (shell : Shell W),
      subscriptsNameable shell →
      subscriptsNameable (runCallback host name callback bytes shell) :=
    fun callback bytes shell h =>
      subscriptsNameable_congr h (runCallback_table hhost name callback bytes shell)
  refine setEntry_preserves ?_ ?_ ?_
  · intro shell attributes hs _
    unfold createEntry
    split
    · exact hs
    · refine hcallback _ _ _ (subscriptsNameable_insert hs name fun held hheld => ?_)
      cases value with
      | none => cases hheld
      | some bytes => cases hheld; exact nameable_scalar bytes
  · intro shell old written hs hold
    exact hcallback _ _ _ (subscriptsNameable_insert hs name fun held hheld =>
      nameable_assignedState (fun held hheld => subscriptsNameable_of_entry hs hold hheld) value
        hheld)
  · intro shell old hs hnone
    rw [hnone] at hvalue
    cases hvalue

include hhost in
theorem store_nameable (name : Bytes) {value : VariableValue} (hvalue : nameable value)
    (attributes : VariableAttributes) (guard : ReadOnlyGuard) :
    (store host name value attributes guard).Preserves (subscriptsNameable (W := W)) := by
  refine (setEntry_nameable hhost name _ attributes guard .declines rfl).bind fun _ =>
    preserves_modify fun shell hs => ?_
  cases hentry : shell.entry name with
  | none => exact hs
  | some entry =>
    refine subscriptsNameable_insert hs name fun held hheld => ?_
    cases hheld
    exact hvalue

theorem writeBack_nameable (name value : Bytes) {shell : Shell W} (hs : subscriptsNameable shell) :
    subscriptsNameable (writeBack name value shell) := by
  unfold writeBack
  cases hentry : shell.entry name with
  | none => exact hs
  | some old =>
    refine subscriptsNameable_insert hs name fun held hheld => ?_
    obtain ⟨attributes, state, letters, callback, literal⟩ := old
    cases state with
    | unset => cases hheld; exact nameable_scalar value
    | declared kind => cases hheld; exact nameable_scalar value
    | set current =>
      cases hheld
      exact nameable_assignScalar (subscriptsNameable_of_entry hs hentry rfl) value

theorem refresh_nameable (hnumbers : Numbers host) (name : Bytes) {shell : Shell W}
    (hs : subscriptsNameable shell) : subscriptsNameable (refresh host name shell) := by
  unfold refresh
  cases shell.entry name with
  | none => exact hs
  | some entry =>
    simp only
    split_ifs
    · cases entry.state with
      | set value => exact writeBack_nameable name _ hs
      | unset => exact hs
      | declared kind => exact hs
    · exact hnumbers.publish shell hs
    · have hcomputed := hnumbers.compute name shell hs
      rcases hcompute : host.compute name shell with ⟨value, computed⟩
      rw [hcompute] at hcomputed
      cases value with
      | none => exact hcomputed
      | some value => exact writeBack_nameable name value hcomputed
    · exact hs

/-- Counting back from the highest subscript never goes above it. -/
theorem normalizeIndex_nameable (name : Bytes) (index : Int64) :
    (normalizeIndex name index).Ensures (subscriptsNameable (W := W)) selectorNameable := by
  intro shell hs
  have hwarned : ∀ messages, subscriptsNameable { shell with warnings := messages } := fun _ =>
    subscriptsNameable_congr hs rfl
  unfold normalizeIndex
  by_cases hsign : 0 ≤ index
  · rw [if_pos hsign]
    refine ⟨fun selected hselected => ?_, hs⟩
    cases hselected
    rw [Int64.toNat_toUInt64_of_le hsign, ← Int64.toNat_toInt]
    have hlt := index.toInt_lt
    omega
  · rw [if_neg hsign]
    have hlast : (((variableValue shell name).bind VariableValue.lastIndex).getD 0).toNat <
        2 ^ 63 := by
      cases hheld : variableValue shell name with
      | none => decide
      | some value =>
        cases hindex : value.lastIndex with
        | none => simp [hindex]
        | some highest => simpa [hindex] using lastIndex_nameable (hs name value hheld) hindex
    have hnegative : index.toInt < 0 := by
      rwa [Int64.le_iff_toInt_le, Int64.toInt_zero, Int.not_le] at hsign
    simp only
    split_ifs with hback hbash herrexit hfits
    · exact hwarned _
    · exact ⟨nofun, hwarned _⟩
    · exact hs
    · refine ⟨fun selected hselected => ?_, hs⟩
      cases hselected
      rw [UInt64.toNat_ofNat']
      omega
    · refine ⟨fun selected hselected => ?_, hs⟩
      cases hselected
      decide

include hhost in
theorem nameableInvariant_closed (hnumbers : Numbers host)
    (hexpand : (nameableInvariant : Invariant W).Expands host) :
    (nameableInvariant : Invariant W).Closed host where
  warn _ _ hs := ⟨trivial, subscriptsNameable_congr hs rfl⟩
  refresh name _ hs := refresh_nameable hnumbers name hs
  write name value attributes guard allExport :=
    setEntry_nameable hhost name (some value) attributes guard allExport rfl
  store name _ attributes guard hvalue := store_nameable hhost name hvalue attributes guard
  letter name letter enabled shell hs := by
    unfold setBashAttribute modifyEntry
    cases hentry : shell.entry name with
    | none => exact hs
    | some entry =>
      exact subscriptsNameable_insert hs name fun _ hstate =>
        subscriptsNameable_of_entry hs hentry hstate
  expand := hexpand
  held _ name value hs hvalue := hs name value hvalue
  empty := nameable_empty
  scalar := nameable_scalar
  convert bytes kind := nameable_assignScalar (nameable_empty kind) bytes
  setIndexed _ _ element hvalue hselector := nameable_setIndexed hvalue (hselector _ rfl) element
  setAssociative value key element hvalue := by
    cases value with
    | scalar _ => exact hvalue
    | indexed _ => exact hvalue
    | associative values => exact nameable_associative _
  without _ selector hvalue := nameable_withoutElement hvalue selector
  index name index := normalizeIndex_nameable name index
  other _ hother := fun index hindex => absurd hindex (hother index)
  zero := fun _ hindex => by cases hindex; decide

end Writes

/-! ### The runs of elements without a subscript -/

/-- How many elements go by before one with a subscript. -/
def bareRun : List CompoundElement → Nat
  | [] => 0
  | element :: rest => if element.subscript = none then bareRun rest + 1 else 0

/-- Where the element after a selected one goes. -/
def cursorAfter (building : Building) : ArraySelector → Nat
  | .index index => index.toNat + 1
  | _ => building.next.toNat

section Fitting

variable (host : Host W) (evaluate : Bytes → ShellRun W Int64)

/-- Wherever a written subscript sets the cursor, the run after it stays below
    the bound. -/
def runsFit (name : Bytes) (form : CompoundForm) (guard : ReadOnlyGuard)
    (previous : Option VariableValue) : Building → List CompoundElement → Shell W → Prop
  | _, [], _ => True
  | building, element :: rest, s =>
    (∀ selector u, element.subscript ≠ none →
      compoundSelector host evaluate name form guard building element.subscript s =
        .done selector u → cursorAfter building selector + bareRun rest ≤ 2 ^ 63) ∧
    ∀ building' t, assignMember host evaluate name form guard previous building element s =
      .done building' t → runsFit name form guard previous building' rest t

/-- The runs of `name=(...)` stay below the bound.  A keyed assignment refuses an
    element without a subscript, so there is none. -/
def compoundFits (name : Bytes) (elements : List CompoundElement) (form : CompoundForm)
    (append : Bool) (guard : ReadOnlyGuard) (s : Shell W) : Prop :=
  form ≠ .keyed → ∀ members t, compoundMembers form elements s = .done members t →
    let base := compoundBase t name form.kind append
    (appendCursor base append).toNat + bareRun members ≤ 2 ^ 63 ∧
      runsFit host evaluate name form guard (previousValue t name form append)
        ⟨base, appendCursor base append⟩ members t

end Fitting

section Assignments

variable {name : Bytes} {form : CompoundForm} {guard : ReadOnlyGuard}
variable {previous : Option VariableValue}

/-- The cursor an element leaves. -/
theorem assignMember_cursor (hform : form ≠ .keyed) {building building' : Building}
    {element : CompoundElement} {s t : Shell W}
    (hrun : assignMember host evaluate name form guard previous building element s =
      .done building' t) :
    ∃ selector u, compoundSelector host evaluate name form guard building element.subscript s =
      .done selector u ∧
      (selectorNameable selector → building'.next.toNat = cursorAfter building selector) := by
  unfold assignMember at hrun
  rw [if_neg fun hkeyed => hform hkeyed.1] at hrun
  split at hrun
  · obtain ⟨_, u, _, hfailed⟩ := bind_eq_done hrun
    cases hfailed
  · obtain ⟨selector, u, hselector, hrun⟩ := bind_eq_done hrun
    obtain ⟨combined, u', _, hrun⟩ := bind_eq_done hrun
    obtain ⟨value, u'', _, hplace⟩ := bind_eq_done hrun
    refine ⟨selector, u, hselector, fun hnameable => ?_⟩
    cases selector with
    | index index =>
      cases hplace
      have hlt := hnameable index rfl
      show (index + 1).toNat = index.toNat + 1
      rw [UInt64.toNat_add]
      exact Nat.mod_eq_of_lt (by simp; omega)
    | key key => cases hplace; rfl
    | missing => cases hplace
    | all => cases hplace
    | joined => cases hplace

variable (h : (nameableInvariant : Invariant W).Closed host)
variable (he : ∀ t, (evaluate t).Preserves (subscriptsNameable (W := W)))

include h he in
/-- Elements whose runs fit leave an array that can be named through. -/
theorem assignMembers_nameable (elements : List CompoundElement) : ∀ {building : Building}
    {s : Shell W}, nameable building.current → subscriptsNameable s →
    (form ≠ .keyed → building.next.toNat + bareRun elements ≤ 2 ^ 63 ∧
      runsFit host evaluate name form guard previous building elements s) →
    (assignMembers host evaluate name form guard previous building elements s).Meets
      subscriptsNameable fun building => nameable building.current := by
  induction elements with
  | nil => intro building s hcurrent hs _; exact ⟨hcurrent, hs⟩
  | cons element rest ih =>
    intro building s hcurrent hs hfits
    have hnext : form ≠ .keyed → element.subscript = none →
        selectorNameable (.index building.next) := by
      intro hform hnone index hindex
      cases hindex
      have hroom := (hfits hform).1
      simp only [bareRun, hnone, if_true] at hroom
      omega
    have hmember := assignMember_ensures h he name form guard previous hcurrent element hnext s hs
    show ((assignMember host evaluate name form guard previous building element >>= fun building =>
      assignMembers host evaluate name form guard previous building rest) s).Meets _ _
    rw [bind_apply]
    cases hrun : assignMember host evaluate name form guard previous building element s with
    | failed e t => rw [hrun] at hmember; exact hmember
    | unfinished => trivial
    | done building' t =>
      rw [hrun] at hmember
      refine ih hmember.1 hmember.2 fun hform => ?_
      obtain ⟨hroom, hselected, hrest⟩ := hfits hform
      refine ⟨?_, hrest building' t hrun⟩
      obtain ⟨selector, u, hselector, hcursor⟩ := assignMember_cursor hform hrun
      have hnameable := ((compoundSelector_ensures h he name form guard hcurrent element.subscript
        fun hnone => hnext hform hnone).done hs hselector).1
      rw [hcursor hnameable]
      by_cases hnone : element.subscript = none
      · rw [hnone] at hselector
        cases hselector
        simp only [bareRun, hnone, if_true] at hroom
        simp only [cursorAfter]
        omega
      · exact hselected selector u hnone hselector

include h he in
theorem assignCompound_nameable {elements : List CompoundElement} {append : Bool} {s : Shell W}
    (hs : subscriptsNameable s)
    (hfits : compoundFits host evaluate name elements form append guard s) :
    ((assignCompound host evaluate name elements form append guard) s).Meets subscriptsNameable
      fun _ => True := by
  have hbad : ∀ {β : Type} {f : Unit → ShellRun W β} {R : β → Prop},
      ((f ()) s).Meets subscriptsNameable R →
      ((rejectBadName name >>= f) s).Meets subscriptsNameable R := by
    intro β f R hf
    rw [bind_apply]
    unfold rejectBadName
    split_ifs
    · exact hf
    · exact hs
  have hreadOnly : ∀ {β : Type} {f : Unit → ShellRun W β} {R : β → Prop},
      ((f ()) s).Meets subscriptsNameable R →
      ((rejectReadOnly name guard >>= f) s).Meets subscriptsNameable R := by
    intro β f R hf
    rw [bind_apply]
    unfold rejectReadOnly
    split_ifs
    · exact hf
    · exact hs
    · exact hf
  refine hbad (hreadOnly ?_)
  have hmembers := compoundMembers_preserves h form elements s hs
  rw [bind_apply]
  cases hrun : (compoundMembers form elements : ShellRun W _) s with
  | failed e t => rw [hrun] at hmembers; exact hmembers
  | unfinished => trivial
  | done members t =>
    rw [hrun] at hmembers
    have hbase := compoundBase_value h hmembers.2 name form.kind append
    have hplaced : (assignMembers host evaluate name form guard
        (previousValue t name form append) ⟨compoundBase t name form.kind append,
          appendCursor (compoundBase t name form.kind append) append⟩ members t).Meets
        subscriptsNameable fun building => nameable building.current :=
      assignMembers_nameable h he members hbase hmembers.2 fun hform => hfits hform members t hrun
    exact meets_bind hplaced fun building hcurrent => h.store _ _ _ _ hcurrent

end Assignments

/-! ### Runs -/

/-- Whether the array a compound statement reaches fits its runs. -/
def statementFits (host : Host W) (evaluate : Bytes → ShellRun W Int64) (name : Bytes)
    (subscripted : Bool) (elements : List CompoundElement) (append : Bool) (guard : ReadOnlyGuard)
    (s : Shell W) : Prop :=
  ∀ reached t, referencedArray name s = .done (some reached) t →
    compoundFits host evaluate reached elements (compoundForm t reached subscripted) append guard t

/-- The statements that assign variables and elements, where runs fit. -/
def Operation.keepsNameable (host : Host W) : Operation → Shell W → Prop
  | .compound name subscripted elements append guard, s =>
    ∀ n, statementFits host (Arithmetic.evaluate host n) name subscripted elements append guard s
  | .element .., _ | .appendTo .., _ | .textTarget .., _ | .assign .., _ => True
  | .arithmetic _, _ | .read _, _ => True
  | .setLetter .., _ | .addAttributes .., _ | .clearExported _, _ => True
  | _, _ => False

section Runs

variable (hhost : Apart host) (hnumbers : Numbers host)
variable (hexpand : (nameableInvariant : Invariant W).Expands host)

theorem modifyEntry_nameable {name : Bytes} {change : Variable → Variable}
    (hstate : ∀ entry, (change entry).state = entry.state) :
    (Run.modify (modifyEntry name change) : ShellRun W Unit).Preserves subscriptsNameable := by
  refine preserves_modify fun shell hs => ?_
  unfold modifyEntry
  cases hentry : shell.entry name with
  | none => exact hs
  | some entry =>
    refine subscriptsNameable_insert hs name fun value hvalue => ?_
    exact subscriptsNameable_of_entry hs hentry ((hstate entry).symm.trans hvalue)

theorem compoundStatement_nameable (h : (nameableInvariant : Invariant W).Closed host)
    (he : ∀ t, (evaluate t).Preserves (subscriptsNameable (W := W))) {name : Bytes}
    {subscripted : Bool} {elements : List CompoundElement} {append : Bool} {guard : ReadOnlyGuard}
    {s : Shell W} (hs : subscriptsNameable s)
    (hfits : statementFits host evaluate name subscripted elements append guard s) :
    ((compoundStatement host evaluate name subscripted elements append guard) s).Meets
      subscriptsNameable fun _ => True := by
  unfold compoundStatement withReferencedArray
  rw [bind_done (get_apply s)]
  cases refusedElementWrite s name with
  | some target => exact h.warn _ s hs
  | none =>
    have hreach : subscriptsNameable (clearReference name s) := h.letter name .nameref false s hs
    simp only
    rw [bind_apply]
    cases hrun : referencedArray name s with
    | failed e t => unfold referencedArray at hrun; split at hrun <;> cases hrun
    | unfinished => trivial
    | done reached t =>
      have ht : subscriptsNameable t := by
        unfold referencedArray at hrun
        split at hrun
        · cases hrun
          split
          · exact hreach
          · exact hs
        · cases hrun; exact hs
        · cases hrun; exact hs
      cases reached with
      | none => exact ⟨trivial, ht⟩
      | some reached => exact assignCompound_nameable h he ht (hfits reached t hrun)

include hhost hnumbers hexpand in
/-- One step keeps every element nameable. -/
theorem keepsNameable_step {op : Operation} {s t : Shell W} (hkeeps : op.keepsNameable host s)
    (hmoves : op.Moves host s t) (hs : subscriptsNameable s) : subscriptsNameable t := by
  obtain ⟨n, hends⟩ := hmoves
  have hclosed := nameableInvariant_closed hhost hnumbers hexpand
  have he : ∀ t, (Arithmetic.evaluate host n t).Preserves (subscriptsNameable (W := W)) :=
    Arithmetic.evaluate_preserves hclosed n
  have hkept : (op.perform host (Arithmetic.evaluate host n)).Preserves subscriptsNameable →
      subscriptsNameable t := fun hpreserves => hpreserves.ends hs hends
  cases op with
  | assign name value attributes => exact hkept (setBytes_preserves hclosed he _ _ _)
  | element name source expanded value append =>
    exact hkept (elementStatement_preserves hclosed he _ _ _ _ _)
  | appendTo name value => exact hkept (appendStatement_preserves hclosed he _ _)
  | textTarget name value append => exact hkept (assignTextTarget_preserves hclosed he _ _ _)
  | arithmetic input => exact hkept ((he input).bind fun _ => preserves_pure _)
  | read name => exact hkept ((lookupBytes_preserves hclosed name).bind fun _ => preserves_pure _)
  | setLetter name letter enabled => exact hkept (modifyEntry_nameable fun _ => rfl)
  | addAttributes name attributes => exact hkept (modifyEntry_nameable fun _ => rfl)
  | clearExported name => exact hkept (modifyEntry_nameable fun _ => rfl)
  | compound name subscripted elements append guard =>
    exact ends_meets hends (compoundStatement_nameable hclosed he hs (hkeeps n))
  | _ => exact hkeeps.elim

theorem builtins_nameable {blank : Shell W} (hentries : blank.table.entries = ∅)
    (defaultPath prompt continuation : Bytes) :
    subscriptsNameable (initializeVariables defaultPath prompt continuation blank) := by
  have hscalar : ∀ pair ∈ builtins defaultPath prompt continuation, ∀ value,
      pair.2.state = .set value → ∃ bytes, value = .scalar bytes := by
    intro pair hpair value hvalue
    unfold builtins at hpair
    simp only [List.mem_cons, List.not_mem_nil, or_false] at hpair
    rcases hpair with rfl | rfl | rfl | rfl | rfl | rfl | rfl | rfl | rfl | rfl | rfl | rfl | rfl |
      rfl | rfl | rfl
    all_goals
      cases hvalue
      try exact ⟨_, rfl⟩
  intro name value hvalue
  unfold variableValue at hvalue
  split at hvalue
  · next held hentry =>
    cases hvalue
    obtain ⟨bytes, rfl⟩ := hscalar _ (initializeVariables_mem hentries hentry) _ rfl
    exact nameable_scalar bytes
  · cases hvalue

theorem enterLocaleVariables_nameable (pairs : List (Bytes × Bytes)) : ∀ {s : Shell W},
    subscriptsNameable s → subscriptsNameable (pairs.foldl enterLocaleVariable s) := by
  induction pairs with
  | nil => intro s hs; exact hs
  | cons pair rest ih =>
    intro s hs
    refine ih ?_
    unfold enterLocaleVariable
    split
    · refine subscriptsNameable_insert hs pair.1 fun held hheld => ?_
      cases hheld
      exact nameable_scalar pair.2
    · exact hs

theorem importEnvironmentPairs_nameable
    (hset : ∀ name value attributes, (setBytes host evaluate name (some value) attributes).Preserves
      (subscriptsNameable (W := W))) (pairs : List (Bytes × Bytes)) :
    (importEnvironmentPairs host evaluate pairs).Preserves (subscriptsNameable (W := W)) := by
  induction pairs with
  | nil => exact preserves_pure _
  | cons pair rest ih =>
    refine ensures_get.bind fun shell _ => ?_
    split
    · exact (hset _ _ _).bind fun _ => ih
    · exact ih

include hhost hnumbers hexpand in
/-- A shell starts with scalars alone. -/
theorem startVariables_nameable {pairs : List (Bytes × Bytes)}
    {defaultPath prompt continuation : Bytes} {blank s : Shell W} {n : Nat}
    (hentries : blank.table.entries = ∅)
    (hstart : startVariables host (Arithmetic.evaluate host n) pairs defaultPath prompt continuation
      blank = .done () s) : subscriptsNameable s := by
  have hclosed := nameableInvariant_closed hhost hnumbers hexpand
  have he : ∀ t, (Arithmetic.evaluate host n t).Preserves (subscriptsNameable (W := W)) :=
    Arithmetic.evaluate_preserves hclosed n
  have hbuiltins := builtins_nameable hentries defaultPath prompt continuation
  have hlocale := enterLocaleVariables_nameable pairs hbuiltins
  have hset : ∀ name value attributes, (setBytes host (Arithmetic.evaluate host n) name
      (some value) attributes).Preserves (subscriptsNameable (W := W)) :=
    fun name value attributes => setBytes_preserves hclosed he name value attributes
  unfold startVariables at hstart
  rw [bind_done (modify_apply _ _), bind_done (modify_apply _ _)] at hstart
  refine (Ensures.done (P := subscriptsNameable) (Q := fun _ => True)
    ((importEnvironmentPairs_nameable hset pairs).bind fun _ => hset _ _ _) ?_ hstart).2
  simp only
  cases selectedLocale host (pairs.foldl enterLocaleVariable
    (initializeVariables defaultPath prompt continuation blank)) with
  | none => exact hlocale
  | some locale => exact subscriptsNameable_congr hlocale rfl

end Runs

/-! ### The printed subscript -/

theorem isActive_digitByte {d : Nat} (h : d < 10) : isActive (digitByte d) = false := by
  interval_cases d <;> decide

theorem decimalNat_digits (n : Nat) : ∀ b ∈ decimalNat n, ∃ d < 10, b = digitByte d := by
  intro b hb
  unfold decimalNat at hb
  split at hb
  · exact ⟨0, by decide, by rw [List.mem_singleton.mp hb]; decide⟩
  · obtain ⟨d, hd, rfl⟩ := List.mem_map.mp hb
    exact ⟨d, Nat.digits_lt_base (by decide) (List.mem_reverse.mp hd), rfl⟩

theorem decimalNat_inactive (n : Nat) : (decimalNat n).any isActive = false := by
  rw [List.any_eq_false]
  intro b hb
  obtain ⟨d, hd, rfl⟩ := decimalNat_digits n b hb
  rw [isActive_digitByte hd]
  decide

theorem decimalNat_ne {n : Nat} {b : UInt8} (h : ∀ d < 10, digitByte d ≠ b) :
    decimalNat n ≠ [b] := by
  intro heq
  obtain ⟨d, hd, rfl⟩ := decimalNat_digits n b (by rw [heq]; exact List.mem_singleton_self b)
  exact h d hd rfl

/-- A subscript below the bound evaluates to itself. -/
theorem evaluate_indexKey (host : Host W) {index : UInt64} (h : index.toNat < 2 ^ 63)
    (shell : Shell W) (n : Nat) :
    Arithmetic.evaluate host (n + 1) (VariableValue.indexKey index) shell =
      .done (Int64.ofNat index.toNat) shell := by
  have hwritten : (Arithmetic.Expression.literal ⟨index.toNat, h⟩).written false =
      VariableValue.indexKey index := by
    show decimalNat (Int64.ofInt index.toNat).toInt.natAbs = decimalNat index.toNat
    rw [Int64.ofInt_eq_ofNat, Int64.toInt_ofNat_of_lt h, Int.natAbs_natCast]
  have hrun := @Arithmetic.evaluate_written _ host shell (.literal ⟨index.toNat, h⟩) (.inr trivial)
    (Nat.zero_le _) trivial n
  rw [hwritten] at hrun
  exact hrun

/-- A subscript below the bound, in decimal, selects its element. -/
theorem resolve_indexKey (host : Host W) {index : UInt64} (h : index.toNat < 2 ^ 63)
    {shell : Shell W} {name : Bytes} (hkind : variableKind shell name = some .indexed) (n : Nat) :
    resolveTextSelector host (Arithmetic.evaluate host (n + 1)) name (VariableValue.indexKey index)
      shell = .done (.index index) shell := by
  have hinactive : (VariableValue.indexKey index).any isActive = false := decimalNat_inactive _
  have hword : subscriptWord host (Arithmetic.evaluate host (n + 1)) name
      (VariableValue.indexKey index) shell = .done (VariableValue.indexKey index) shell := by
    unfold subscriptWord arithmeticWord textWord
    rw [bind_done (get_apply shell)]
    simp only [hinactive, Bool.false_eq_true, if_false, ite_self]
    rfl
  have hunwound : evaluateForAVariable (Arithmetic.evaluate host (n + 1))
      (VariableValue.indexKey index) shell = .done (Int64.ofNat index.toNat) shell := by
    unfold evaluateForAVariable
    split_ifs
    · exact evaluate_indexKey host h shell n
    · unfold mapError
      rw [evaluate_indexKey host h shell n]
  have hselected : normalizeIndex name (Int64.ofNat index.toNat) shell =
      .done (.index index) shell := by
    have hnonneg : 0 ≤ Int64.ofNat index.toNat :=
      Int64.le_iff_toInt_le.mpr (by rw [Int64.toInt_ofNat_of_lt h]; exact Int.natCast_nonneg _)
    unfold normalizeIndex
    rw [if_pos hnonneg, Int64.toUInt64_ofNat', UInt64.ofNat_toNat]
  have hat : VariableValue.indexKey index ≠ text "@" := decimalNat_ne (by decide)
  have hstar : VariableValue.indexKey index ≠ text "*" := decimalNat_ne (by decide)
  unfold resolveTextSelector
  rw [bind_done hword]
  unfold resolveSelector
  rw [if_neg hat, if_neg hstar, bind_done (get_apply shell), hkind, if_neg (by decide),
    bind_done hunwound]
  exact hselected

/-! ### Runs that keep every element nameable -/

/-- **Every element can be named** in the states that assignments reach, as long as
    the runs of elements without a subscript fit: the subscript printed for it is
    below `2 ^ 63` and selects it again. -/
theorem elements_named (hhost : Apart host) (hnumbers : Numbers host)
    (hexpand : (nameableInvariant : Invariant W).Expands host) {pairs : List (Bytes × Bytes)}
    {defaultPath prompt continuation : Bytes} {blank s t : Shell W} {n : Nat}
    (hentries : blank.table.entries = ∅)
    (hstart : startVariables host (Arithmetic.evaluate host n) pairs defaultPath prompt continuation
      blank = .done () s)
    (run : RunsThrough host (Operation.keepsNameable host) s t) {name : Bytes}
    {values : Std.ExtTreeMap UInt64 Bytes} (hvalue : variableValue t name = some (.indexed values))
    {index : UInt64} (hindex : index ∈ values) :
    index.toNat < 2 ^ 63 ∧ VariableValue.indexKey index ∈ (VariableValue.indexed values).keys ∧
      ∀ n, resolveTextSelector host (Arithmetic.evaluate host (n + 1)) name
        (VariableValue.indexKey index) t = .done (.index index) t := by
  have hnameable : subscriptsNameable t :=
    run.keeps (fun _ _ _ hkeeps hmoves => keepsNameable_step hhost hnumbers hexpand hkeeps hmoves)
      (startVariables_nameable hhost hnumbers hexpand hentries hstart)
  have hlt : index.toNat < 2 ^ 63 := by
    obtain ⟨element, helement⟩ := Option.isSome_iff_exists.mp
      (Std.ExtTreeMap.isSome_getElem?_iff_mem.mpr hindex)
    exact hnameable name _ hvalue index element helement
  have hkind : variableKind t name = some .indexed := by
    unfold variableValue at hvalue
    unfold variableKind
    split at hvalue
    · next held hentry => rw [hentry]; cases hvalue; rfl
    · cases hvalue
  exact ⟨hlt, List.mem_map_of_mem (Std.ExtTreeMap.mem_keys.mpr hindex),
    resolve_indexKey host hlt hkind⟩

/-- `name=(key value)` fits, whatever kind `name` has. -/
theorem statementFits_pair (host : Host W) (evaluate : Bytes → ShellRun W Int64) (name : Bytes)
    {key : Bytes} (hkey : key ≠ []) (value : Bytes) (guard : ReadOnlyGuard) (s : Shell W) :
    statementFits host evaluate name false [⟨none, key, false⟩, ⟨none, value, false⟩] false guard
      s := by
  intro reached t _ hform members u hmembers
  have hroom : ∀ k ≤ 2, (0 : UInt64).toNat + k ≤ 2 ^ 63 := fun k hk => by
    rw [UInt64.toNat_zero]
    omega
  cases hkind : compoundForm t reached false with
  | keyed => exact absurd hkind hform
  | indexed =>
    rw [hkind] at hmembers
    cases hmembers
    exact ⟨hroom 2 (by decide), fun _ _ hwritten => absurd rfl hwritten, fun _ _ _ =>
      ⟨fun _ _ hwritten => absurd rfl hwritten, fun _ _ _ => trivial⟩⟩
  | pairs =>
    rw [hkind] at hmembers
    simp only [compoundMembers, keyValuePairs, hkey, if_true, if_false] at hmembers
    cases hmembers
    refine ⟨hroom 0 (by decide), fun selector v _ hselector => ?_, fun _ _ _ => trivial⟩
    cases hselector
    exact hroom 0 (by decide)

/-- Whether an indexed array with this subscript is there. -/
def holdsIndex (i : UInt64) : Option VariableValue → Bool
  | some (.indexed values) => values.contains i
  | _ => false

/-- Whether a subscript selected this element. -/
def selectsIndex (i : UInt64) : Outcome (Shell W) Error ArraySelector → Bool
  | .done selector _ => selector == .index i
  | _ => false

/-- `a[5]=x` and `b=(x y)`. -/
theorem elements_named_twice :
    ∃ s t values, startVariables Host.plain (Arithmetic.evaluate Host.plain 0) [] [] [] []
        (blankShell .bash) = .done () s ∧
      performAll Host.plain 1 [.element (text "a") (text "5") (text "5") (text "x") false,
        .compound (text "b") false
          [⟨none, text "x", false⟩, ⟨none, text "y", false⟩] false .enforce]
        s = some t ∧
      variableValue t (text "a") = some (.indexed values) ∧
      resolveTextSelector Host.plain (Arithmetic.evaluate Host.plain 1) (text "a") (text "5") t =
        .done (.index 5) t := by
  have hany : (startAndPerform .bash 1 [
      .element (text "a") (text "5") (text "5") (text "x") false,
      .compound (text "b") false [⟨none, text "x", false⟩, ⟨none, text "y", false⟩] false
        .enforce]).any
      (fun t => holdsIndex 5 (variableValue t (text "a"))) = true := by decide +kernel
  obtain ⟨t, hrun, hheld⟩ := (Option.any_eq_true _ _).mp hany
  obtain ⟨s, hstart, hperform⟩ := startAndPerform_some hrun
  unfold holdsIndex at hheld
  split at hheld
  · next values hvalue =>
    refine ⟨s, t, values, hstart, hperform, hvalue, ?_⟩
    refine (elements_named apart_plain numbers_plain (expands_plain _) rfl hstart
      (RunsThrough.of_performAll ?_ hperform) hvalue
        (Std.ExtTreeMap.mem_iff_contains.mpr hheld)).2.2 0
    intro op hop s
    simp only [List.mem_cons, List.not_mem_nil, or_false] at hop
    rcases hop with rfl | rfl
    · trivial
    · exact fun n => statementFits_pair _ _ _ (by decide) _ _ _
  · cases hheld

/-- `a=([9223372036854775807]=x y)`: the cursor steps past the last subscript a
    number can name, and the subscript printed for `y` selects `x`. -/
theorem not_elements_named :
    ∃ s t, startVariables Host.plain (Arithmetic.evaluate Host.plain 0) [] [] [] []
        (blankShell .bash) = .done () s ∧
      performAll Host.plain 1 [.compound (text "a") true
        [⟨some (text "9223372036854775807"), text "x", false⟩, ⟨none, text "y", false⟩] false
        .enforce] s = some t ∧
      (variableValue t (text "a")).bind (VariableValue.indexedAt (2 ^ 63)) = some (text "y") ∧
      ∃ u, resolveTextSelector Host.plain (Arithmetic.evaluate Host.plain 1) (text "a")
        (VariableValue.indexKey (2 ^ 63)) t = .done (.index (2 ^ 63 - 1)) u := by
  have hany : (startAndPerform .bash 1 [.compound (text "a") true
      [⟨some (text "9223372036854775807"), text "x", false⟩, ⟨none, text "y", false⟩] false
      .enforce]).any
      (fun t => (variableValue t (text "a")).bind (VariableValue.indexedAt (2 ^ 63)) ==
          some (text "y") &&
        selectsIndex (2 ^ 63 - 1) (resolveTextSelector Host.plain (Arithmetic.evaluate Host.plain 1)
          (text "a") (VariableValue.indexKey (2 ^ 63)) t)) = true := by decide +kernel
  obtain ⟨t, hrun, hstale⟩ := (Option.any_eq_true _ _).mp hany
  obtain ⟨s, hstart, hperform⟩ := startAndPerform_some hrun
  rw [Bool.and_eq_true] at hstale
  refine ⟨s, t, hstart, hperform, eq_of_beq hstale.1, ?_⟩
  have hresolved := hstale.2
  unfold selectsIndex at hresolved
  split at hresolved
  · next selector u hselected => exact ⟨u, eq_of_beq hresolved ▸ hselected⟩
  · cases hresolved

/-! ### Counting back from the end -/

/-- The highest subscript the array holds. -/
def highestSubscript (shell : Shell W) (name : Bytes) : Option UInt64 :=
  (variableValue shell name).bind VariableValue.lastIndex

/-- Counting `k` back from the end of the array goes past its first element; a count of one
    on an array without an element is left open. -/
def CountsPast (shell : Shell W) (name : Bytes) (k : Nat) : Prop :=
  match highestSubscript shell name with
  | some highest => highest.toNat + 1 < k
  | none => 2 ≤ k

/-- How a subscript that counts past the first element ends: with nothing selected in the
    Bash dialect, with the record given up under `set -e` there, with an error in the POSIX
    dialect. -/
def badSubscript (name : Bytes) (shell : Shell W) : Outcome (Shell W) Error ArraySelector :=
  let message := name ++ text ": bad array subscript"
  let warned := { shell with warnings := shell.warnings ++ [message] }
  match shell.options.dialect, shell.options.errexit with
  | .bash, false => .done .missing warned
  | .bash, true => .failed (Error.abandonedAt shell.diagnosticLine) warned
  | .posix, _ => .failed (Nsh.shellError shell.diagnosticLine message) shell

/-- **Negative subscripts count back from the end.** -/
theorem normalizeIndex_negative (name : Bytes) (shell : Shell W) (index : Int64) {k : Nat}
    (hk : index.toInt = -k) (hpos : 0 < k) :
    (∀ highest, highestSubscript shell name = some highest → k ≤ highest.toNat + 1 →
      normalizeIndex name index shell =
        .done (.index (UInt64.ofNat (highest.toNat + 1 - k))) shell) ∧
    (CountsPast shell name k → normalizeIndex name index shell = badSubscript name shell) := by
  have hsign : ¬ 0 ≤ index := by
    rw [Int64.le_iff_toInt_le, Int64.toInt_zero]
    omega
  constructor
  · intro highest hhighest hle
    have hlt := highest.toNat_lt
    have hresolved : (highest.toNat : Int) + 1 + index.toInt = (highest.toNat + 1 - k : Nat) := by
      omega
    unfold highestSubscript at hhighest
    simp only [normalizeIndex, if_neg hsign, hhighest, Option.getD_some, hresolved]
    rw [if_neg (by omega), if_pos (by omega), Int.toNat_natCast]
  · intro hpast
    have hresolved :
        (((highestSubscript shell name).getD 0).toNat : Int) + 1 + index.toInt < 0 := by
      unfold CountsPast at hpast
      cases hhighest : highestSubscript shell name with
      | none =>
        rw [hhighest] at hpast
        simp only [Option.getD_none, UInt64.toNat_zero]
        simp only at hpast
        omega
      | some highest =>
        rw [hhighest] at hpast
        simp only [Option.getD_some]
        simp only at hpast
        omega
    unfold highestSubscript at hresolved
    simp only [normalizeIndex, if_neg hsign, if_pos hresolved]
    unfold badSubscript
    cases shell.options.dialect with
    | posix => rfl
    | bash => cases shell.options.errexit <;> rfl

/-- A Bash shell that holds an array of the elements 0 and 4. -/
def sparseShell : Shell Unit :=
  (blankShell .bash).insert (text "a")
    (.fresh (.set (.indexed (.ofList [((0 : UInt64), text "x"), (4, text "y")]))) {} .none)

theorem normalizeIndex_negative_sparse :
    (∀ highest, highestSubscript sparseShell (text "a") = some highest →
      3 ≤ highest.toNat + 1 → normalizeIndex (text "a") (-3) sparseShell =
        .done (.index (UInt64.ofNat (highest.toNat + 1 - 3))) sparseShell) ∧
    (CountsPast sparseShell (text "a") 3 →
      normalizeIndex (text "a") (-3) sparseShell = badSubscript (text "a") sparseShell) :=
  normalizeIndex_negative (text "a") sparseShell (-3) rfl (by decide)

/-- Under `set -e` a subscript that counts past the first element selects nothing at all:
    the record it stands in is given up. -/
theorem not_normalizeIndex_missing :
    ¬ ∀ (shell : Shell Unit) (name : Bytes) (index : Int64) (k : Nat), index.toInt = -k → 0 < k →
      ∃ after, normalizeIndex name index shell =
        .done (match highestSubscript shell name with
          | some highest =>
            if k ≤ highest.toNat + 1 then .index (UInt64.ofNat (highest.toNat + 1 - k))
            else .missing
          | none => .missing) after := by
  intro h
  obtain ⟨after, hdone⟩ :=
    h { blankShell .bash with options := { dialect := .bash, errexit := true } }
    (text "a") (-2) 2 rfl (by decide)
  cases hdone

end Nsh.Variables
