import Nsh.Variables.IfsSteps

/-!
# Assignments that reach `IFS`

A declaration of `IFS` with a value leaves the cache for its assignment to put
right.  The assignment does so if it comes to an end and ends in `IFS`: it is
written to `IFS` itself, or plainly to a reference that reaches it.
-/

namespace Nsh.Variables

open Nsh.Run

variable {W : Type} {host : Host W} {evaluate : Bytes → ShellRun W Int64}

/-! ### Writes that leave `IFS` set -/

/-- Where `m` comes to a value, `IFS` is set. -/
def SetsIfs {α : Type} (m : ShellRun W α) : Prop :=
  ∀ s a t, m s = .done a t → ifsIsSet t = true

theorem setsIfs_bind {α β : Type} {m : ShellRun W α} {f : α → ShellRun W β}
    (h : ∀ a, SetsIfs (f a)) : SetsIfs (m >>= f) := by
  intro s b t hrun
  obtain ⟨a, u, _, hf⟩ := bind_eq_done hrun
  exact h a u b t hf

theorem setsIfs_fail {α : Type} {m : ShellRun W α} (h : ∀ s, ∃ e, m s = .failed e s) :
    SetsIfs m := by
  intro s a t hrun
  obtain ⟨e, he⟩ := h s
  rw [he] at hrun
  cases hrun

section Writes

variable (hhost : Apart host)

include hhost in
theorem setEntry_setsIfs (value : Bytes) (attributes : VariableAttributes)
    (policy : CallbackPolicy) (guard : ReadOnlyGuard) (allExport : AllExport) :
    SetsIfs (setEntry host (text "IFS") (some value) attributes policy guard allExport) := by
  intro s _ t hrun
  obtain ⟨entry, held, hentry, hstate, _⟩ := setEntry_done hhost hrun
  rw [ifsIsSet_of_entry hentry, hstate]
  rfl

include hhost in
theorem store_setsIfs (value : VariableValue) (attributes : VariableAttributes)
    (guard : ReadOnlyGuard) : SetsIfs (store host (text "IFS") value attributes guard) := by
  intro s _ t hrun
  obtain ⟨u, entry, held, _, _, _, _, rfl⟩ := store_done hhost hrun
  rw [ifsIsSet_of_entry (Shell.entry_insert_self _ _ _)]
  rfl

include hhost in
theorem storeDeclared_setsIfs (value : Bytes) (attributes : VariableAttributes) :
    SetsIfs (storeDeclared host evaluate (text "IFS") value attributes) :=
  setsIfs_bind fun stored => setEntry_setsIfs hhost stored attributes _ _ _

include hhost in
theorem assignElement_setsIfs (selector : ArraySelector) (value : Bytes) (append : Bool)
    (guard : ReadOnlyGuard) :
    SetsIfs (assignElement host evaluate (text "IFS") selector value append guard) := by
  refine setsIfs_bind fun _ => setsIfs_bind fun _ => setsIfs_bind fun _ => setsIfs_bind fun shell =>
    setsIfs_bind fun appended => setsIfs_bind fun element => ?_
  cases selector with
  | index index => exact store_setsIfs hhost _ _ guard
  | key key => exact store_setsIfs hhost _ _ guard
  | missing => exact setsIfs_bind fun shell => setsIfs_fail fun s => ⟨_, rfl⟩
  | all => exact setsIfs_fail fun s => ⟨_, rfl⟩
  | joined => exact setsIfs_fail fun s => ⟨_, rfl⟩

include hhost in
theorem appendUnsubscripted_setsIfs (value : Bytes) (guard : ReadOnlyGuard) :
    SetsIfs (appendUnsubscripted host evaluate (text "IFS") value guard) := by
  have hscalar : SetsIfs (rejectBadName (text "IFS") >>= fun _ =>
      rejectReadOnly (text "IFS") guard >>= fun _ =>
      lookupBytes host (text "IFS") >>= fun existing =>
      appendElement evaluate (text "IFS") (existing.getD []) value >>= fun appended =>
      declaredElement evaluate (text "IFS") appended >>= fun appended =>
      store host (text "IFS") (.scalar appended) VariableAttributes.none guard) :=
    setsIfs_bind fun _ => setsIfs_bind fun _ => setsIfs_bind fun _ => setsIfs_bind fun _ =>
      setsIfs_bind fun _ => store_setsIfs hhost _ _ guard
  refine setsIfs_bind fun shell => ?_
  split
  · exact assignElement_setsIfs hhost _ _ _ _
  · exact assignElement_setsIfs hhost _ _ _ _
  · exact hscalar
  · exact hscalar

include hhost in
theorem assignCompound_setsIfs (elements : List CompoundElement) (form : CompoundForm)
    (append : Bool) (guard : ReadOnlyGuard) :
    SetsIfs (assignCompound host evaluate (text "IFS") elements form append guard) :=
  setsIfs_bind fun _ => setsIfs_bind fun _ => setsIfs_bind fun _ => setsIfs_bind fun _ =>
    setsIfs_bind fun _ => store_setsIfs hhost _ _ guard

include hhost in
theorem assignCompoundText_setsIfs (inner : Bytes) :
    SetsIfs (assignCompoundText host evaluate (text "IFS") inner) := by
  refine setsIfs_bind fun shell => setsIfs_bind fun elements => ?_
  split
  · split
    · exact setsIfs_bind fun _ => assignCompound_setsIfs hhost _ _ _ _
    · exact assignCompound_setsIfs hhost _ _ _ _
  · exact assignCompound_setsIfs hhost _ _ _ _

end Writes

/-! ### References that reach `IFS` -/

/-- The variable a target names or holds an element of. -/
def Target.variable : Target → Bytes
  | .name held => held
  | .element base _ => base

/-- A shell that differs in the entry of `IFS` at most, as far as names go. -/
structure Elsewhere (s t : Shell W) : Prop where
  locale : t.locale = s.locale
  entry : ∀ name, name ≠ text "IFS" → t.entry name = s.entry name

theorem Elsewhere.refl (s : Shell W) : Elsewhere s s := ⟨rfl, fun _ _ => rfl⟩

theorem Elsewhere.trans {s t u : Shell W} (h : Elsewhere s t) (h' : Elsewhere t u) :
    Elsewhere s u :=
  ⟨h'.locale.trans h.locale, fun name hname => (h'.entry name hname).trans (h.entry name hname)⟩

theorem Elsewhere.insert (s : Shell W) (entry : Variable) :
    Elsewhere s (s.insert (text "IFS") entry) :=
  ⟨rfl, fun _ hname => Shell.entry_insert_of_ne s hname.symm entry⟩

theorem Elsewhere.referenceTarget {s t : Shell W} (h : Elsewhere s t) {name : Bytes}
    (hname : name ≠ text "IFS") : referenceTarget t name = referenceTarget s name := by
  have hentry := h.entry name hname
  unfold Variables.referenceTarget isReference bashAttributes variableValue
  rw [hentry, h.locale]

/-- A name without a value refers to nothing. -/
theorem referenceTarget_unvalued {s : Shell W} {name : Bytes} (h : variableValue s name = none) :
    referenceTarget s name = none := by
  unfold referenceTarget
  rw [h]
  split <;> rfl

theorem followFrom_name (s : Shell W) (room : Nat) (seen : List Bytes) (here : Bytes) :
    followFrom s room seen (.name here) =
      match referenceTarget s here with
      | none => some (.name here)
      | some next =>
        if next = .name here then some next
        else if seen.contains here then none
        else
          match room with
          | 0 => none
          | room + 1 => followFrom s room (seen ++ [here]) next := by
  cases hnext : referenceTarget s here with
  | none => simp only [followFrom, hnext]
  | some next => cases room <;> simp only [followFrom, hnext]

/-- A chain of references that reached `IFS` still does, once `IFS` holds no value. -/
theorem followFrom_reaches {s t : Shell W} (h : Elsewhere s t)
    (hnone : variableValue t (text "IFS") = none) : ∀ {room seen here target},
    followFrom s room seen here = some target → target.variable = text "IFS" →
    ∃ target', followFrom t room seen here = some target' ∧ target'.variable = text "IFS" := by
  intro room
  induction room using Nat.strong_induction_on with
  | _ room ih =>
    intro seen here target hfollow htarget
    cases here with
    | element base subscript =>
      rw [followFrom] at hfollow ⊢
      cases hfollow
      exact ⟨_, rfl, htarget⟩
    | name here =>
      rw [followFrom_name] at hfollow ⊢
      by_cases hhere : here = text "IFS"
      · rw [hhere, referenceTarget_unvalued hnone]
        exact ⟨_, rfl, rfl⟩
      · rw [h.referenceTarget hhere]
        cases hnext : referenceTarget s here with
        | none => rw [hnext] at hfollow; cases hfollow; exact absurd htarget hhere
        | some next =>
          simp only [hnext] at hfollow ⊢
          split_ifs at hfollow ⊢ with hself hseen
          · cases hfollow
            rw [hself] at htarget
            exact absurd htarget hhere
          · cases room with
            | zero => cases hfollow
            | succ room => exact ih room (Nat.lt_succ_self room) hfollow htarget

/-- A name reaches `IFS` if it is `IFS`, or a reference that leads there. -/
def reachesIfs (s : Shell W) (name : Bytes) : Prop :=
  name = text "IFS" ∨
    (isReference s name = true ∧
      ∃ target, follow s name = some target ∧ target.variable = text "IFS")

theorem reachesIfs_elsewhere {s t : Shell W} (h : Elsewhere s t)
    (hnone : variableValue t (text "IFS") = none) {name : Bytes} (hreaches : reachesIfs s name) :
    reachesIfs t name := by
  by_cases hname : name = text "IFS"
  · exact .inl hname
  · rcases hreaches with hname' | ⟨hreference, target, hfollow, htarget⟩
    · exact absurd hname' hname
    · refine .inr ⟨?_, followFrom_reaches h hnone hfollow htarget⟩
      unfold isReference bashAttributes at hreference ⊢
      rwa [h.entry name hname]

/-- The name a declaration settles on is reached by the name it was given. -/
theorem reachesIfs_of_declaredName {s : Shell W} {name : Bytes}
    (h : declaredName s name = some (text "IFS")) : reachesIfs s name := by
  unfold declaredName at h
  split_ifs at h with hreference
  · cases hfollow : follow s name with
    | none => rw [hfollow] at h; cases h
    | some target =>
      rw [hfollow] at h
      refine .inr ⟨hreference, target, hfollow, ?_⟩
      cases target with
      | name held =>
        simp only at h
        split_ifs at h
        · exact Option.some.inj h
        · exact Option.some.inj h
      | element base subscript => exact Option.some.inj h
  · exact .inl (Option.some.inj h)

/-- An assignment by a name that reaches `IFS` lands there, while `IFS` holds no
    value of its own to refer with. -/
theorem setBytes_setsIfs (hhost : Apart host) {name value : Bytes}
    {attributes : VariableAttributes} {s t : Shell W}
    (hnone : variableValue s (text "IFS") = none) (hreaches : reachesIfs s name)
    (hrun : setBytes host evaluate name (some value) attributes s = .done () t) :
    ifsIsSet t = true := by
  obtain ⟨written, u, hthrough, hrest⟩ := bind_eq_done hrun
  unfold assignThrough at hthrough
  rw [bind_done (get_apply s)] at hthrough
  -- What `IFS` itself is redirected to is `IFS`, so nothing is written on the way.
  have hself : follow s (text "IFS") = some (.name (text "IFS")) := by
    unfold follow
    rw [followFrom_name, referenceTarget_unvalued hnone]
  have hdirect : written = false → name = text "IFS" → ifsIsSet t = true := by
    rintro rfl rfl
    exact storeDeclared_setsIfs hhost _ _ _ _ _ hrest
  have hstored : ∀ {m : ShellRun W Unit}, SetsIfs m →
      (m >>= fun _ => pure true) s = .done written u → ifsIsSet t = true := by
    intro m hm hdone
    obtain ⟨_, v, hmv, hpure⟩ := bind_eq_done hdone
    cases hpure
    cases hrest
    exact hm _ _ _ hmv
  cases hreference : isReference s name with
  | false =>
    rcases hreaches with rfl | ⟨hreference', _⟩
    · rw [hreference] at hthrough
      cases hthrough
      exact hdirect rfl rfl
    · rw [hreference] at hreference'; cases hreference'
  | true =>
    rw [hreference] at hthrough
    simp only [if_true] at hthrough
    by_cases hname : name = text "IFS"
    · subst hname
      rw [hself] at hthrough
      simp only [if_true] at hthrough
      refine hdirect ?_ rfl
      obtain ⟨_, v, _, hpure⟩ := bind_eq_done (m := if holdsABrokenReference s (text "IFS") then
        Run.modify (clearReference (text "IFS")) else pure ()) (by
          split_ifs at hthrough ⊢ <;> exact hthrough)
      cases hpure
      rfl
    · rcases hreaches with hname' | ⟨_, target, hfollow, htarget⟩
      · exact absurd hname' hname
      · rw [hfollow] at hthrough
        cases target with
        | name held =>
          obtain rfl : held = text "IFS" := htarget
          simp only [if_neg (Ne.symm hname)] at hthrough
          exact hstored (storeDeclared_setsIfs hhost _ _) hthrough
        | element base subscript =>
          obtain rfl : base = text "IFS" := htarget
          simp only at hthrough
          obtain ⟨selector, v, _, hassign⟩ := bind_eq_done hthrough
          obtain ⟨_, w, hw, hpure⟩ := bind_eq_done hassign
          cases hpure
          cases hrest
          exact assignElement_setsIfs hhost _ _ _ _ _ _ _ hw

/-! ### The operand of a declaration -/

/-- The name of an operand holds no `=`. -/
theorem splitAssignment_operand (operand : Bytes) :
    (splitAssignment (splitAssignmentOperand operand).1).1 =
      (splitAssignmentOperand operand).1 := by
  have hnone : (splitAssignmentOperand operand).1.idxOf? (chr '=') = none := by
    rw [List.idxOf?_eq_none_iff]
    unfold splitAssignmentOperand
    cases hequals : operand.idxOf? (chr '=') with
    | none => exact List.idxOf?_eq_none_iff.mp hequals
    | some equals =>
      obtain ⟨_, -, hbefore⟩ := List.idxOf?_eq_some_iff.mp hequals
      have htake : ∀ n, n ≤ equals → chr '=' ∉ operand.take n := by
        intro n hn hmem
        obtain ⟨i, hi, hget⟩ := List.mem_take_iff_getElem.mp hmem
        exact hbefore i (by omega) hget
      simp only
      split_ifs
      · exact htake _ (Nat.sub_le _ _)
      · exact htake _ (Nat.le_refl _)
  unfold splitAssignment
  rw [hnone]

/-- The name an operand declares, and how an assignment by text reads it. -/
theorem operandName_operand (operand : Bytes) :
    operandName (splitAssignmentOperand operand).1 =
      match splitElement (splitAssignmentOperand operand).1 with
      | some (base, _) => base
      | none => (splitAssignmentOperand operand).1 := by
  unfold operandName splitElement
  rw [splitAssignment_operand]
  generalize (splitAssignmentOperand operand).1 = name
  simp only
  split_ifs with hclosed
  · cases name.idxOf? (chr '[') <;> rfl
  · cases name.idxOf? (chr '[') <;> rfl

/-- The operand assigns to `IFS`: it names `IFS`, or a reference to it that a plain
    `=` follows. -/
def assignsIfs (operand : Bytes) : Prop :=
  operandName (splitAssignmentOperand operand).1 = text "IFS" ∨
    ((splitAssignmentOperand operand).2.2 = false ∧
      splitElement (splitAssignmentOperand operand).1 = none)

theorem assignTextTarget_setsIfs (hhost : Apart host) {operand value : Bytes} {s t : Shell W}
    (hnone : variableValue s (text "IFS") = none) (hassigns : assignsIfs operand)
    (hreaches : reachesIfs s (operandName (splitAssignmentOperand operand).1))
    (hrun : assignTextTarget host evaluate (splitAssignmentOperand operand).1 value
      (splitAssignmentOperand operand).2.2 s = .done () t) : ifsIsSet t = true := by
  unfold assignsIfs at hassigns
  rw [operandName_operand] at hassigns hreaches
  generalize (splitAssignmentOperand operand).1 = name at hassigns hreaches hrun
  generalize (splitAssignmentOperand operand).2.2 = append at hassigns hrun
  unfold assignTextTarget at hrun
  cases hsplit : splitElement name with
  | some parts =>
    obtain ⟨base, subscript⟩ := parts
    rw [hsplit] at hassigns hrun
    rcases hassigns with hbase | ⟨_, hplain⟩
    · obtain rfl : base = text "IFS" := hbase
      obtain ⟨selector, u, _, hassign⟩ := bind_eq_done hrun
      exact assignElement_setsIfs hhost _ _ _ _ _ _ _ hassign
    · cases hplain
  | none =>
    rw [hsplit] at hassigns hreaches hrun
    simp only at hassigns hreaches hrun
    cases append with
    | true =>
      rcases hassigns with rfl | ⟨happend, _⟩
      · exact appendUnsubscripted_setsIfs hhost _ _ _ _ _ hrun
      · cases happend
    | false => exact setBytes_setsIfs hhost hnone hreaches hrun

theorem assignDeclared_setsIfs (hhost : Apart host) {operand value : Bytes} {s t : Shell W}
    (hnone : variableValue s (text "IFS") = none) (hassigns : assignsIfs operand)
    (hreaches : reachesIfs s (operandName (splitAssignmentOperand operand).1))
    (hrun : assignDeclared host evaluate (splitAssignmentOperand operand).1 (text "IFS") value
      (splitAssignmentOperand operand).2.2 s = .done () t) : ifsIsSet t = true := by
  unfold assignDeclared at hrun
  rw [bind_done (get_apply s)] at hrun
  cases hinner : (parenthesised value).filter fun _ => isArray s (text "IFS") with
  | some inner => rw [hinner] at hrun; exact assignCompoundText_setsIfs hhost _ _ _ _ hrun
  | none => rw [hinner] at hrun; exact assignTextTarget_setsIfs hhost hnone hassigns hreaches hrun

/-! ### What a declaration of `IFS` does before its assignment -/

theorem elsewhere_recordLocal (frame : Nat) (saved : LocalVariable) (s : Shell W) :
    Elsewhere s (recordLocal frame saved s) := ⟨rfl, fun _ _ => rfl⟩

theorem elsewhere_runCallback {callback : Callback} (h : callback = .ifs) (value : Option Bytes)
    (s : Shell W) : Elsewhere s (runCallback host (text "IFS") callback value s) := by
  subst h
  exact ⟨rfl, fun _ _ => rfl⟩

theorem elsewhere_modifyEntry (change : Variable → Variable) (s : Shell W) :
    Elsewhere s (modifyEntry (text "IFS") change s) := by
  unfold modifyEntry
  cases s.entry (text "IFS") with
  | none => exact .refl s
  | some entry => exact .insert s _

theorem elsewhere_makeLocal {s : Shell W} (h : IfsEntered s) (value : LocalValue) :
    Elsewhere s (makeLocal host (text "IFS") value s) := by
  unfold makeLocal
  cases runningFrame s with
  | none => exact .refl s
  | some frame =>
    simp only
    split
    · exact .refl s
    · have hfresh : ∀ saved callback, Elsewhere s ((recordLocal frame saved s).insert (text "IFS")
          (Variable.fresh .unset VariableAttributes.none callback)) := fun saved callback =>
        (elsewhere_recordLocal frame saved s).trans (.insert _ _)
      cases hentry : s.entry (text "IFS") with
      | none => exact hfresh _ _
      | some previous =>
        have hcallback := (h.entries _ _ hentry).callback.mpr rfl
        simp only
        split
        · exact (hfresh _ _).trans (elsewhere_runCallback hcallback _ _)
        · exact hfresh _ _

theorem elsewhere_ensureEntry (s : Shell W) : Elsewhere s (ensureEntry (text "IFS") s) := by
  unfold ensureEntry
  split
  · split
    · exact .insert s _
    · exact .insert s _
    · exact .refl s
  · exact .refl s

/-- Reading `IFS` recomputes nothing. -/
theorem refresh_ifs {s : Shell W} (h : IfsEntered s) : refresh host (text "IFS") s = s := by
  refine refresh_plain host fun entry hentry => ⟨(h.entries _ _ hentry).literal rfl, ?_⟩
  rw [(h.entries _ _ hentry).callback.mpr rfl]
  nofun

theorem elsewhere_setEntry {s t : Shell W} (h : IfsEntered s) {value : Bytes}
    {attributes : VariableAttributes} {guard : ReadOnlyGuard} {allExport : AllExport}
    (hrun : setEntry host (text "IFS") (some value) attributes .run guard allExport s =
      .done () t) : Elsewhere s t := by
  rcases setEntry_cases host (text "IFS") (some value) attributes .run guard allExport s with
    ⟨e, hcase⟩ | ⟨hnone, hcase⟩ | ⟨old, written, hold, hcase⟩ | ⟨_, _, hvalue, _⟩
  · rw [hcase] at hrun; cases hrun
  · have hheld := h.held
    rw [hnone] at hheld
    cases hheld
  · rw [hcase] at hrun
    cases hrun
    exact (Elsewhere.insert s _).trans
      (elsewhere_runCallback ((h.entries _ _ hold).callback.mpr rfl) _ _)
  · cases hvalue

theorem elsewhere_store (hhost : Apart host) {s t : Shell W} (h : IfsEntered s)
    {value : VariableValue} {attributes : VariableAttributes} {guard : ReadOnlyGuard}
    (hrun : store host (text "IFS") value attributes guard s = .done () t) : Elsewhere s t := by
  obtain ⟨u, entry, held, hset, _, _, _, rfl⟩ := store_done hhost hrun
  exact (elsewhere_setEntry h hset).trans (.insert u _)

/-- Giving `IFS` a kind leaves it without a value, if it has none. -/
theorem elsewhere_ensureKind (hhost : Apart host) {s t : Shell W} (h : IfsEntered s)
    {kind : VariableKind} {attributes : VariableAttributes} {guard : ReadOnlyGuard}
    (hnone : variableValue s (text "IFS") = none)
    (hrun : ensureKind host (text "IFS") kind attributes guard s = .done () t) :
    Elsewhere s t ∧ variableValue t (text "IFS") = none := by
  unfold ensureKind at hrun
  rcases rejectBadName_cases (text "IFS") s with hname | ⟨e, hname⟩
  · rw [bind_done hname] at hrun
    rcases rejectReadOnly_cases (text "IFS") guard s with ⟨hguard, _⟩ | ⟨e, hguard⟩
    · rw [bind_done hguard, bind_done (get_apply s)] at hrun
      split_ifs at hrun with hkind
      · cases hrun; exact ⟨.refl s, hnone⟩
      · rw [hnone] at hrun
        obtain ⟨_, u, hstore, hmodify⟩ := bind_eq_done hrun
        cases hmodify
        refine ⟨(elsewhere_store hhost h hstore).trans (elsewhere_modifyEntry _ u), ?_⟩
        unfold variableValue modifyEntry
        cases hentry : u.entry (text "IFS") with
        | none => simp only [hentry]
        | some entry => simp only [Shell.entry_insert_self]
    · rw [bind_failed hguard] at hrun; cases hrun
  · rw [bind_failed hname] at hrun; cases hrun

theorem elsewhere_declareLetters (requested : Requested) (s : Shell W) :
    Elsewhere s (declareLetters requested (text "IFS") s) := by
  apply declareLetters_keeps requested (motive := Elsewhere s) ?_ (.refl s)
  intro letter enabled t h
  exact h.trans (elsewhere_modifyEntry _ t)

/-- What a state holds. -/
def heldValue : VariableState → Option VariableValue
  | .set value => some value
  | _ => none

theorem variableValue_of_entry {s : Shell W} {name : Bytes} {entry : Variable}
    (h : s.entry name = some entry) : variableValue s name = heldValue entry.state := by
  unfold variableValue
  rw [h]
  obtain ⟨_, state, _, _, _⟩ := entry
  cases state <;> rfl

theorem variableValue_setBashAttribute (name : Bytes) (letter : BashAttribute) (enabled : Bool)
    (s : Shell W) : variableValue (setBashAttribute name letter enabled s) name =
      variableValue s name := by
  unfold setBashAttribute modifyEntry
  cases hentry : s.entry name with
  | none => rfl
  | some entry =>
    rw [variableValue_of_entry hentry]
    rw [variableValue_of_entry (Shell.entry_insert_self s name _)]

theorem variableValue_declareLetters (requested : Requested) (base : Bytes) (s : Shell W) :
    variableValue (declareLetters requested base s) base = variableValue s base := by
  apply declareLetters_keeps requested
    (motive := fun t => variableValue t base = variableValue s base) ?_ rfl
  intro letter enabled t h
  exact (variableValue_setBashAttribute base letter enabled t).trans h

end Nsh.Variables
