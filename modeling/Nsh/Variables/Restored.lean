import Nsh.Arithmetic.Kept
import Nsh.Lib.UndoLog
import Nsh.Variables.Operations

/-!
# A call gives back what it made local

A scope is an undo log of the variable table: a record is one key and what it
held.  No operation of a body takes a record away while the scope stands, and a
record added for a name holds the entry of that moment; so unwinding leaves the
name with what its first record says, and a name without a record as it is.
-/

namespace Nsh.Variables

open Nsh.Run UndoLog

variable {W : Type} {host : Host W}

/-! ### A scope as an undo log -/

/-- What a record gives back. -/
def undoRecord : LocalVariable → Option (Bytes × Option Variable)
  | .options _ => none
  | .created name => some (name, none)
  | .saved name previous => some (name, some previous)

def undoLog (scope : List LocalVariable) : List (Bytes × Option Variable) :=
  scope.filterMap undoRecord

theorem undoLog_append (scope scope' : List LocalVariable) :
    undoLog (scope ++ scope') = undoLog scope ++ undoLog scope' := List.filterMap_append

/-- A scope restores a name exactly when its log has a record of it. -/
theorem any_restores (name : Bytes) (scope : List LocalVariable) :
    scope.any (restores name) = ((undoLog scope).lookup name).isSome := by
  induction scope with
  | nil => rfl
  | cons saved scope ih =>
    have hcons : ∀ held previous, undoRecord saved = some (held, previous) →
        restores name saved = (held == name) →
        (saved :: scope).any (restores name) =
          ((undoLog (saved :: scope)).lookup name).isSome := by
      intro held previous hrecord hname
      have hlog : undoLog (saved :: scope) = (held, previous) :: undoLog scope :=
        List.filterMap_cons_some hrecord
      rw [List.any_cons, hname, hlog, List.lookup_cons, ih, Bool.beq_comm]
      cases name == held <;> rfl
    cases saved with
    | options saved =>
      have hlog : undoLog (.options saved :: scope) = undoLog scope :=
        List.filterMap_cons_none rfl
      rw [List.any_cons, hlog, ← ih]
      rfl
    | created held => exact hcons held none rfl rfl
    | saved held previous => exact hcons held (some previous) rfl rfl

theorem entry_insert (shell : Shell W) (name other : Bytes) (entry : Variable) :
    (shell.insert name entry).entry other = undo (name, some entry) shell.entry other := by
  unfold undo
  cases h : other == name with
  | true => rw [eq_of_beq h]; exact Shell.entry_insert_self _ _ _
  | false => exact Shell.entry_insert_of_ne _ (Ne.symm (ne_of_beq_false h)) _

theorem entry_erase (shell : Shell W) (name other : Bytes) :
    (shell.setEntries (shell.table.entries.erase name)).entry other =
      undo (name, none) shell.entry other := by
  unfold undo Shell.setEntries Shell.entry
  simp only [Std.ExtTreeMap.getElem?_erase]
  cases h : other == name with
  | true => rw [eq_of_beq h]; simp
  | false =>
    rw [if_neg]
    · simp
    · rw [Std.LawfulEqCmp.compare_eq_iff_eq]
      exact Ne.symm (ne_of_beq_false h)

/-! ### Playing records back -/

theorem entry_runCallback (hhost : Apart host) (name : Bytes) (callback : Callback)
    (value : Option Bytes) (shell : Shell W) :
    (runCallback host name callback value shell).entry = shell.entry := by
  funext other
  unfold Shell.entry
  rw [runCallback_table hhost]

/-- Whether a scope gives options back. -/
def savesOptions (scope : List LocalVariable) : Prop := ∃ saved, .options saved ∈ scope

/-- A name that giving options back may change is out of the question where none
    are given back. -/
def Settled (name : Bytes) (scope : List LocalVariable) : Prop :=
  name ∈ optionNames → ¬ savesOptions scope

theorem entry_restoreLocals (hhost : Apart host) {name : Bytes} {scope : List LocalVariable}
    (hsettled : Settled name scope) (shell : Shell W) :
    (restoreLocals host scope shell).entry name = replay (undoLog scope) shell.entry name := by
  induction scope with
  | nil => rfl
  | cons saved scope ih =>
    have hrest := ih fun hname ⟨saved, hsaved⟩ =>
      hsettled hname ⟨saved, List.mem_cons_of_mem _ hsaved⟩
    rw [replay_apply] at hrest ⊢
    show (restoreLocal host saved (restoreLocals host scope shell)).entry name = _
    generalize restoreLocals host scope shell = inner at hrest
    cases saved with
    | options options =>
      have hname : name ∉ optionNames := fun hname =>
        hsettled hname ⟨options, List.mem_cons_self⟩
      rw [show undoLog (.options options :: scope) = undoLog scope from
        List.filterMap_cons_none rfl, ← hrest]
      exact (hhost.optionsChanged _).entry name hname
    | created held =>
      rw [show undoLog (.created held :: scope) = (held, none) :: undoLog scope from
        List.filterMap_cons_some rfl, List.lookup_cons]
      have herase : (restoreLocal host (.created held) inner).entry name =
          undo (held, none) inner.entry name := by
        rw [← entry_erase]
        unfold restoreLocal
        simp only
        split
        · rw [entry_runCallback hhost]
        · rfl
      rw [herase]
      unfold undo
      cases name == held with
      | true => rfl
      | false => exact hrest
    | saved held previous =>
      rw [show undoLog (.saved held previous :: scope) = (held, some previous) :: undoLog scope from
        List.filterMap_cons_some rfl, List.lookup_cons]
      show (runCallback host held _ _ (inner.insert held previous)).entry name = _
      rw [entry_runCallback hhost, entry_insert]
      unfold undo
      cases name == held with
      | true => rfl
      | false => exact hrest

theorem locals_restoreLocals (hhost : Apart host) (scope : List LocalVariable) (shell : Shell W) :
    (restoreLocals host scope shell).table.locals = shell.table.locals := by
  induction scope with
  | nil => rfl
  | cons saved scope ih =>
    rw [← ih]
    show (restoreLocal host saved (restoreLocals host scope shell)).table.locals = _
    generalize restoreLocals host scope shell = inner
    cases saved with
    | options options => exact (hhost.optionsChanged _).locals
    | created held =>
      unfold restoreLocal
      simp only
      split
      · rw [runCallback_table hhost]; rfl
      · rfl
    | saved held previous =>
      unfold restoreLocal
      simp only
      rw [runCallback_table hhost]
      rfl

/-! ### Unwinding -/

theorem locals_popLocalScope (hhost : Apart host) (shell : Shell W) :
    (popLocalScope host shell).table.locals = shell.table.locals.dropLast :=
  locals_restoreLocals hhost _ _

theorem locals_pop_iterate (hhost : Apart host) : ∀ (n : Nat) (shell : Shell W),
    ((popLocalScope host)^[n] shell).table.locals =
      shell.table.locals.take (shell.table.locals.length - n) := by
  intro n
  induction n with
  | zero => intro shell; simp
  | succ n ih =>
    intro shell
    rw [Function.iterate_succ_apply, ih, locals_popLocalScope hhost, List.dropLast_eq_take,
      List.take_take, List.length_take]
    congr 1
    omega

theorem locals_unwind (hhost : Apart host) (stop : Nat) (shell : Shell W) :
    (unwindLocalScopes host stop shell).table.locals = shell.table.locals.take stop := by
  unfold unwindLocalScopes
  rw [locals_pop_iterate hhost]
  rcases Nat.le_total stop shell.table.locals.length with h | h
  · rw [Nat.sub_sub_self h]
  · rw [Nat.sub_eq_zero_of_le h, Nat.sub_zero, List.take_length, List.take_of_length_le h]

theorem Settled.mono {name : Bytes} {scope scope' : List LocalVariable} (h : Settled name scope)
    (hsub : scope' ⊆ scope) : Settled name scope' :=
  fun hname ⟨saved, hsaved⟩ => h hname ⟨saved, hsub hsaved⟩

/-- Playing back some scopes one by one is playing back one log. -/
theorem entry_pop_iterate (hhost : Apart host) {name : Bytes} :
    ∀ (popped standing : List (List LocalVariable)) (shell : Shell W),
      shell.table.locals = standing ++ popped → Settled name popped.flatten →
      ((popLocalScope host)^[popped.length] shell).entry name =
        replay (undoLog popped.flatten) shell.entry name := by
  intro popped
  induction popped using List.reverseRecOn with
  | nil => intro standing shell _ _; rfl
  | append_singleton popped scope ih =>
    intro standing shell hlocals hsettled
    have hflatten : (popped ++ [scope]).flatten = popped.flatten ++ scope := by simp
    rw [hflatten] at hsettled ⊢
    have hpop : (popLocalScope host shell).entry name =
        replay (undoLog scope) shell.entry name := by
      have hlast : shell.table.locals.getLast?.getD [] = scope := by
        rw [hlocals, ← List.append_assoc]
        simp
      unfold popLocalScope
      rw [hlast, entry_restoreLocals hhost (hsettled.mono (List.subset_append_right _ _))]
      rfl
    rw [List.length_append, List.length_singleton, Function.iterate_succ_apply,
      ih standing _ _ (hsettled.mono (List.subset_append_left _ _)), undoLog_append,
      replay_append, replay_apply, replay_apply, hpop]
    rw [locals_popLocalScope hhost, hlocals, ← List.append_assoc, List.dropLast_concat]

/-- Unwinding leaves a name with what its first record in the scopes says. -/
theorem entry_unwind (hhost : Apart host) {name : Bytes} {stop : Nat} {shell : Shell W}
    (hsettled : Settled name (shell.table.locals.drop stop).flatten) :
    (unwindLocalScopes host stop shell).entry name =
      replay (undoLog (shell.table.locals.drop stop).flatten) shell.entry name := by
  have h := entry_pop_iterate hhost (shell.table.locals.drop stop) (shell.table.locals.take stop)
    shell (List.take_append_drop _ _).symm hsettled
  rwa [List.length_drop] at h

/-! ### What an operation does to the scopes -/

/-- The scopes stand as they stood. -/
def scopesInvariant (locals : List (List LocalVariable)) : Invariant W where
  holds shell := shell.table.locals = locals
  value _ := True
  selector _ := True

theorem modifyEntry_locals (name : Bytes) (change : Variable → Variable) (shell : Shell W) :
    (modifyEntry name change shell).table.locals = shell.table.locals := by
  unfold modifyEntry
  cases shell.entry name <;> rfl

theorem refresh_locals (hhost : Apart host) (name : Bytes) (shell : Shell W) :
    (refresh host name shell).table.locals = shell.table.locals := by
  have hwrite : ∀ value (shell : Shell W),
      (writeBack name value shell).table.locals = shell.table.locals := by
    intro value shell
    unfold writeBack
    cases shell.entry name <;> rfl
  have hcompute := (hhost.compute name shell).locals
  unfold refresh
  cases shell.entry name with
  | none => rfl
  | some entry =>
    simp only
    split_ifs
    · split
      · exact hwrite _ _
      · rfl
    · exact (hhost.publish shell).locals
    · split
      · next heq => rw [heq] at hcompute; exact hcompute
      · next heq => rw [heq] at hcompute; rw [hwrite]; exact hcompute
    · rfl

theorem setEntry_locals (hhost : Apart host) (name : Bytes) (value : Option Bytes)
    (attributes : VariableAttributes) (policy : CallbackPolicy) (guard : ReadOnlyGuard)
    (allExport : AllExport) (locals : List (List LocalVariable)) :
    (setEntry host name value attributes policy guard allExport).Preserves
      (scopesInvariant locals).holds := by
  have hcallback : ∀ callback value shell,
      (runCallback host name callback value shell).table.locals = shell.table.locals := by
    intro callback value shell
    rw [runCallback_table hhost]
  refine setEntry_preserves (fun shell attributes hs _ => ?_) (fun shell old written hs _ => ?_)
    (fun shell old hs _ _ => ?_)
  · refine Eq.trans ?_ hs
    unfold createEntry
    split
    · rfl
    · cases policy with
      | run => exact hcallback _ _ _
      | suppress => rfl
  · refine Eq.trans ?_ hs
    cases policy with
    | run => exact hcallback _ _ _
    | suppress => rfl
  · refine Eq.trans ?_ hs
    unfold removeEntry
    cases decide (shell.options.dialect = .bash) && isLocal shell name with
    | true => exact hcallback _ _ _
    | false =>
      cases old.callback == Callback.locale with
      | true => exact hcallback _ _ _
      | false => rfl

theorem scopesInvariant_closed (hhost : Apart host) {locals : List (List LocalVariable)}
    (hexpand : (scopesInvariant locals : Invariant W).Expands host) :
    (scopesInvariant locals).Closed host where
  warn _ _ hs := ⟨trivial, hs⟩
  refresh name shell hs := (refresh_locals hhost name shell).trans hs
  write _ _ _ _ _ := setEntry_locals hhost _ _ _ _ _ _ _
  store name _ _ _ _ := (setEntry_locals hhost _ _ _ _ _ _ _).bind fun _ =>
    preserves_modify fun shell hs => by
      cases shell.entry name <;> exact hs
  letter _ _ _ shell hs := (modifyEntry_locals _ _ shell).trans hs
  expand := hexpand
  held _ _ _ _ _ := trivial
  empty _ := trivial
  scalar _ := trivial
  convert _ _ := trivial
  setIndexed _ _ _ _ _ := trivial
  setAssociative _ _ _ _ := trivial
  without _ _ _ := trivial
  index name index shell hs := by
    unfold normalizeIndex
    split_ifs
    · exact ⟨trivial, hs⟩
    all_goals simp only; split_ifs <;> first | exact hs | exact ⟨trivial, hs⟩
  other _ _ := trivial
  zero := trivial

/-- `op`, taken at `s`, declares `name` local in the scope at `frame`.  An operand
    refused for its spelling declares nothing. -/
def Operation.declares (op : Operation) (s : Shell W) (frame : Nat) (name : Bytes) : Prop :=
  match op with
  | .makeLocal assignment _ =>
    assignment ≠ text "-" ∧ (splitAssignment assignment).1 = name ∧
      ((s.entry name).isSome ∨ validName s.locale name) ∧ frame + 1 = s.table.locals.length
  | .declare builtin requested operand scope =>
    scope = .runningBody ∧ runningFrame s = some frame ∧
      declarationBase s builtin requested operand = .ok (some name)
  | _ => False

/-- `op` declares nothing that lacks a record. -/
def Operation.recordsNothing (op : Operation) (s : Shell W) : Prop :=
  ∀ frame name, op.declares s frame name → recorded s frame name = true

theorem runningFrame_lt {s : Shell W} {frame : Nat} (h : runningFrame s = some frame) :
    frame < s.table.locals.length :=
  of_decide_eq_true (Option.filter_eq_some_iff.mp h).2

/-- What an operation does to the scopes. -/
inductive Grown (op : Operation) (s : Shell W) : List (List LocalVariable) → Prop
  | same : op.recordsNothing s → Grown op s s.table.locals
  | declared (frame : Nat) (name : Bytes) (saved : LocalVariable) :
    frame < s.table.locals.length →
      (∀ frame' name', op.declares s frame' name' ↔ frame' = frame ∧ name' = name) →
      undoRecord saved = some (name, s.entry name) →
      Grown op s (s.table.locals.modify frame (· ++ [saved]))
  | options (saved : Options) (attributes : VariableAttributes) :
    op = .makeLocal (text "-") attributes →
      Grown op s (s.table.locals.modify (s.table.locals.length - 1) (· ++ [.options saved]))
  | pushed : op = .pushScope → Grown op s (s.table.locals ++ [[]])
  | unwound (stop : Nat) : op = .unwind stop → Grown op s (s.table.locals.take stop)

section Steps

variable (hhost : Apart host)
variable (hexpand : ∀ locals, (scopesInvariant locals : Invariant W).Expands host)

include hhost hexpand in
theorem closed_at (locals : List (List LocalVariable)) :
    (scopesInvariant locals : Invariant W).Closed host :=
  scopesInvariant_closed hhost (hexpand locals)

include hhost hexpand in
theorem evaluate_locals (n : Nat) (locals : List (List LocalVariable)) (input : Bytes) :
    (Arithmetic.evaluate host n input).Preserves
      (scopesInvariant locals : Invariant W).holds :=
  Arithmetic.evaluate_preserves (closed_at hhost hexpand locals) n input

omit hhost hexpand in
/-- Making a name local records the entry it has, in the scope the running body
    owns, unless that scope has a record of it. -/
theorem locals_makeLocal (hhost : Apart host) (name : Bytes) (value : LocalValue) (s : Shell W) :
    (∀ frame, runningFrame s = some frame → recorded s frame name = true →
        (makeLocal host name value s).table.locals = s.table.locals) ∧
      (∀ frame, runningFrame s = some frame → recorded s frame name = false →
        ∃ saved, undoRecord saved = some (name, s.entry name) ∧
          (makeLocal host name value s).table.locals =
            s.table.locals.modify frame (· ++ [saved])) ∧
      (runningFrame s = none → (makeLocal host name value s).table.locals = s.table.locals) := by
  unfold makeLocal
  refine ⟨fun frame hframe hrecorded => ?_, fun frame hframe hrecorded => ?_, fun hframe => ?_⟩
  · rw [hframe]
    simp only [hrecorded, if_true]
  · rw [hframe]
    simp only [hrecorded, Bool.false_eq_true, if_false]
    cases hentry : s.entry name with
    | none => exact ⟨.created name, rfl, rfl⟩
    | some previous =>
      refine ⟨.saved name previous, rfl, ?_⟩
      simp only
      split
      · rw [runCallback_table hhost]; rfl
      · rfl
  · rw [hframe]

omit hhost hexpand in
theorem locals_ensureEntry (name : Bytes) (s : Shell W) :
    (ensureEntry name s).table.locals = s.table.locals := by
  unfold ensureEntry
  split
  · split <;> rfl
  · rfl

include hhost in
theorem locals_declareEntry (base : Bytes) (scope : DeclarationScope) (value : LocalValue)
    (s : Shell W) :
    (declareEntry host base scope value s).table.locals =
      if scope = .runningBody then (makeLocal host base value s).table.locals
      else s.table.locals := by
  unfold declareEntry
  rw [refresh_locals hhost, locals_ensureEntry]
  split <;> rfl

omit hhost hexpand in
theorem locals_declareLetters (requested : Requested) (base : Bytes) (s : Shell W) :
    (declareLetters requested base s).table.locals = s.table.locals := by
  apply declareLetters_keeps requested
    (motive := fun t => t.table.locals = s.table.locals) ?_ rfl
  intro letter enabled t h
  exact (modifyEntry_locals _ _ t).trans h

omit hhost hexpand in
theorem locals_declareAttributes (requested : Requested) (base : Bytes) (scope : DeclarationScope)
    (wasExported : Bool) (s : Shell W) :
    (declareAttributes requested base scope wasExported s).table.locals = s.table.locals := by
  have hset : ∀ (set : Prop) [Decidable set] (change : Variable → Variable) (s : Shell W),
      (if set then s else modifyEntry base change s).table.locals = s.table.locals := by
    intro set _ change s
    split
    · rfl
    · exact modifyEntry_locals _ _ s
  have hset' : ∀ (set : Prop) [Decidable set] (change : Variable → Variable) (s : Shell W),
      (if set then modifyEntry base change s else s).table.locals = s.table.locals := by
    intro set _ change s
    split
    · exact modifyEntry_locals _ _ s
    · rfl
  unfold declareAttributes
  simp only
  split
  · refine (modifyEntry_locals _ _ _).trans ?_
    exact (hset _ _ _).trans (hset' _ _ _)
  · refine (hset' _ _ _).trans ?_
    exact (hset _ _ _).trans (hset' _ _ _)

include hhost hexpand in
/-- Past its entry, a declaration leaves the scopes alone. -/
theorem declareName_locals {n : Nat} {builtin : Bytes} {requested : Requested}
    {name base : Bytes} {value : Option Bytes} {append : Bool} {scope : DeclarationScope}
    {s t : Shell W}
    (h : (declareName host (Arithmetic.evaluate host n) builtin requested name base value append
      scope).Ends s t) :
    t.table.locals = (declareEntry host base scope
      (if value.isSome then .assigned else .discard) s).table.locals := by
  generalize hentry : declareEntry host base scope
    (if value.isSome then .assigned else .discard) s = s'
  have hclosed := closed_at hhost hexpand s'.table.locals
  have he := evaluate_locals hhost hexpand n s'.table.locals
  have hend := ends_get_bind (ends_modify_bind h)
  rw [hentry] at hend
  refine Preserves.ends (P := (scopesInvariant s'.table.locals).holds) ?_ rfl hend
  refine (declareKind_preserves hclosed (fun _ _ _ => trivial) (fun kind shell hs =>
    (modifyEntry_locals _ _ shell).trans hs) builtin _).bind fun given => ?_
  split
  · refine Preserves.bind (preserves_modify fun shell hs =>
      (locals_declareLetters _ _ shell).trans hs) fun _ => ?_
    have hafter : ∀ wasExported, ((Run.modify (declareAttributes requested base scope wasExported) :
        ShellRun W Unit) >>= fun _ => (pure true : ShellRun W Bool)).Preserves
        (scopesInvariant s'.table.locals).holds := fun wasExported =>
      Preserves.bind (preserves_modify fun shell hs =>
        (locals_declareAttributes _ _ _ _ shell).trans hs) fun _ => preserves_pure _
    cases value with
    | none => exact (preserves_pure _).bind fun _ => hafter _
    | some value =>
      exact (assignDeclared_preserves hclosed he (fun _ => trivial) name base value append).bind
        fun _ => hafter _
  · exact preserves_pure _

omit hhost hexpand in
/-- A name without an entry is entered by a POSIX declaration unless it is no name
    at all. -/
theorem setAssignmentBytes_absent {evaluate : Bytes → ShellRun W Int64} {assignment : Bytes}
    {attributes : VariableAttributes} {s : Shell W}
    (habsent : s.entry (splitAssignment assignment).1 = none) :
    (validName s.locale (splitAssignment assignment).1 = true ∧
      ∃ t, setAssignmentBytes host evaluate assignment attributes s = .done () t) ∨
    (validName s.locale (splitAssignment assignment).1 = false ∧
      ∃ e, setAssignmentBytes host evaluate assignment attributes s = .failed e s) := by
  have hset : ∀ name value, s.entry name = none →
      (validName s.locale name = true ∧
        ∃ t, setEntry host name value attributes .run .enforce .marks s = .done () t) ∨
      (validName s.locale name = false ∧
        ∃ e, setEntry host name value attributes .run .enforce .marks s = .failed e s) := by
    intro name value habsent
    unfold setEntry
    cases validName s.locale name with
    | true => rw [habsent]; exact .inl ⟨rfl, _, rfl⟩
    | false => exact .inr ⟨rfl, _, rfl⟩
  unfold setAssignmentBytes
  generalize (splitAssignment assignment).1 = name at habsent ⊢
  cases (splitAssignment assignment).2 with
  | none => exact hset name none habsent
  | some value =>
    show (_ ∧ ∃ t, setBytes host evaluate name (some value) attributes s = .done () t) ∨
      (_ ∧ ∃ e, setBytes host evaluate name (some value) attributes s = .failed e s)
    rw [setBytes_unlettered fun entry hentry => by rw [habsent] at hentry; cases hentry]
    exact hset name (some value) habsent

include hhost hexpand in
/-- A POSIX declaration adds its record and nothing else. -/
theorem makeLocalBytes_grown {n : Nat} {assignment : Bytes} {attributes : VariableAttributes}
    {s t : Shell W}
    (h : (makeLocalBytes host (Arithmetic.evaluate host n) assignment attributes).Ends s t) :
    Grown (.makeLocal assignment attributes) s t.table.locals := by
  have hend := ends_get_bind h
  have he := evaluate_locals hhost hexpand n
  have hset : ∀ assignment attributes locals,
      (setAssignmentBytes host (Arithmetic.evaluate host n) assignment attributes).Preserves
        (scopesInvariant locals : Invariant W).holds := by
    intro assignment attributes locals
    unfold setAssignmentBytes
    cases (splitAssignment assignment).2 with
    | none => exact setEntry_locals hhost _ _ _ _ _ _ _
    | some value => exact setBytes_preserves (closed_at hhost hexpand locals) (he locals) _ _ _
  have hpush : ∀ name saved, assignment ≠ text "-" → (splitAssignment assignment).1 = name →
      ((s.entry name).isSome ∨ validName s.locale name) →
      undoRecord saved = some (name, s.entry name) →
      Grown (.makeLocal assignment attributes) s
        (s.table.locals.modify (s.table.locals.length - 1) (· ++ [saved])) := by
    intro name saved hdash hname hreaches hsaved
    rcases Nat.eq_zero_or_pos s.table.locals.length with hempty | hpos
    · rw [List.length_eq_zero_iff.mp hempty, List.modify_nil, ← List.length_eq_zero_iff.mp hempty]
      refine .same fun frame _ hdeclares => ?_
      have hframe : frame + 1 = s.table.locals.length := hdeclares.2.2.2
      omega
    · refine .declared _ name saved (by omega)
        (fun frame' name' => ⟨fun hdeclares => ?_, ?_⟩) hsaved
      · exact ⟨by have := hdeclares.2.2.2; omega, hdeclares.2.1.symm.trans hname⟩
      · rintro ⟨rfl, rfl⟩
        exact ⟨hdash, hname, hreaches, by omega⟩
  split at hend
  · next hdash =>
    rw [ends_modify hend]
    exact .options _ attributes (by rw [hdash])
  · next hdash =>
    simp only at hend
    generalize hname : (splitAssignment assignment).1 = name at hend
    cases hentry : s.entry name with
    | some previous =>
      rw [hentry] at hend
      have hlocals : t.table.locals = (pushLocal (.saved name previous) s).table.locals := by
        refine Preserves.ends (P := (scopesInvariant _ : Invariant W).holds) ?_ rfl
          (ends_modify_bind hend)
        split
        · exact hset _ _ _
        · exact preserves_pure _
      rw [hlocals]
      exact hpush name _ hdash hname (.inl (by rw [hentry]; rfl)) (by rw [hentry]; rfl)
    | none =>
      rw [hentry] at hend
      have habsent : s.entry (splitAssignment assignment).1 = none := hname ▸ hentry
      have hkeeps := hset assignment { attributes with fixed := true } s.table.locals
      rcases ends_bind hend with ⟨_, u, hdone, hu⟩ | ⟨e, hfailed⟩
      · have hlocals : u.table.locals = s.table.locals := (hkeeps.done rfl hdone).2
        rw [ends_modify hu]
        show Grown _ s (u.table.locals.modify (u.table.locals.length - 1) (· ++ [.created name]))
        rw [hlocals]
        refine hpush name _ hdash hname (.inr ?_) (by rw [hentry]; rfl)
        rcases setAssignmentBytes_absent habsent with ⟨hvalid, _⟩ | ⟨_, e, he⟩
        · exact hname ▸ hvalid
        · rw [he] at hdone; cases hdone
      · have hlocals : t.table.locals = s.table.locals := hkeeps.failed rfl hfailed
        rw [hlocals]
        refine .same fun frame name' hdeclares => ?_
        rcases setAssignmentBytes_absent habsent with ⟨_, u, hu⟩ | ⟨hinvalid, _⟩
        · rw [hu] at hfailed; cases hfailed
        · have hreaches := hdeclares.2.2.1
          rw [← hdeclares.2.1, habsent, hinvalid] at hreaches
          simp at hreaches

include hhost hexpand in
/-- A declaration in the running body records what it makes local. -/
theorem applyDeclaration_grown {n : Nat} {builtin : Bytes} {requested : Requested}
    {operand : Bytes} {scope : DeclarationScope} {s t : Shell W}
    (h : (applyDeclaration host (Arithmetic.evaluate host n) builtin requested operand scope).Ends
      s t) : Grown (.declare builtin requested operand scope) s t.table.locals := by
  have hend := ends_get_bind h
  have hnone : ∀ t : Shell W, t.table.locals = s.table.locals →
      (∀ base, declarationBase s builtin requested operand ≠ .ok (some base)) →
      Grown (.declare builtin requested operand scope) s t.table.locals := by
    intro t hlocals hbase
    rw [hlocals]
    exact .same fun frame name hdeclares => absurd hdeclares.2.2 (hbase name)
  cases hbase : declarationBase s builtin requested operand with
  | error message =>
    rw [hbase] at hend
    refine hnone t ?_ fun base => by rw [hbase]; nofun
    refine Preserves.ends (P := (scopesInvariant s.table.locals : Invariant W).holds) ?_ rfl hend
    simp only
    split
    · exact ((closed_at hhost hexpand _).warn _).bind fun _ => preserves_pure _
    · exact preserves_pure _
  | ok reached =>
    rw [hbase] at hend
    cases reached with
    | none =>
      refine hnone t ?_ fun base => by rw [hbase]; nofun
      exact Preserves.ends (P := (scopesInvariant s.table.locals : Invariant W).holds)
        (preserves_pure _) rfl hend
    | some base =>
      have hname : ∀ frame name, (Operation.declare builtin requested operand scope).declares s
          frame name → scope = .runningBody ∧ runningFrame s = some frame ∧ name = base := by
        rintro frame name ⟨hscope, hframe, hdeclared⟩
        rw [hbase, Except.ok.injEq, Option.some.injEq] at hdeclared
        exact ⟨hscope, hframe, hdeclared.symm⟩
      simp only at hend
      rw [declareName_locals hhost hexpand hend, locals_declareEntry hhost]
      generalize (if (splitAssignmentOperand operand).2.1.isSome = true then LocalValue.assigned
        else LocalValue.discard) = value
      by_cases hscope : scope = .runningBody
      · rw [if_pos hscope]
        obtain ⟨hrecorded, hfresh, habsent⟩ := locals_makeLocal hhost base value s
        cases hframe : runningFrame s with
        | none =>
          rw [habsent hframe]
          refine .same fun frame name hdeclares => ?_
          have hsome := (hname frame name hdeclares).2.1
          rw [hframe] at hsome
          cases hsome
        | some frame =>
          cases hrec : recorded s frame base with
          | true =>
            rw [hrecorded frame hframe hrec]
            refine .same fun frame' name hdeclares => ?_
            obtain ⟨-, hsome, rfl⟩ := hname frame' name hdeclares
            rw [hframe, Option.some.injEq] at hsome
            exact hsome ▸ hrec
          | false =>
            obtain ⟨saved, hsaved, hlocals⟩ := hfresh frame hframe hrec
            rw [hlocals]
            refine .declared frame base saved (runningFrame_lt hframe)
              (fun frame' name => ⟨fun hdeclares => ?_, ?_⟩) hsaved
            · obtain ⟨-, hsome, hname⟩ := hname frame' name hdeclares
              rw [hframe, Option.some.injEq] at hsome
              exact ⟨hsome.symm, hname⟩
            · rintro ⟨rfl, rfl⟩
              exact ⟨hscope, hframe, hbase⟩
      · rw [if_neg hscope]
        exact .same fun frame name hdeclares => absurd (hname frame name hdeclares).1 hscope

include hhost hexpand in
/-- Every operation leaves the scopes in one of the ways listed. -/
theorem moves_grown {op : Operation} {s t : Shell W} (h : op.Moves host s t) :
    Grown op s t.table.locals := by
  obtain ⟨n, hends⟩ := h
  have hclosed := closed_at hhost hexpand s.table.locals
  have he := evaluate_locals hhost hexpand n s.table.locals
  -- Every operation that declares nothing keeps the scopes.
  have hkept : (∀ frame name, ¬ op.declares s frame name) →
      (op.perform host (Arithmetic.evaluate host n)).Preserves
        (scopesInvariant s.table.locals).holds → Grown op s t.table.locals := by
    intro hdeclares hpreserves
    have hlocals : t.table.locals = s.table.locals := hpreserves.ends rfl hends
    rw [hlocals]
    exact .same fun frame name h => absurd h (hdeclares frame name)
  have hunset : ∀ name, (unsetBytes host name : ShellRun W Unit).Preserves
      (scopesInvariant s.table.locals).holds := fun name =>
    ensures_get.bind fun _ _ => setEntry_locals hhost _ _ _ _ _ _ _
  cases op with
  | assign name value attributes =>
    exact hkept (fun _ _ => id) (setBytes_preserves hclosed he _ _ _)
  | attributed name attributes =>
    exact hkept (fun _ _ => id) (setEntry_locals hhost _ _ _ _ _ _ _)
  | addAttributes name attributes =>
    exact hkept (fun _ _ => id) (preserves_modify fun shell hs =>
      (modifyEntry_locals _ _ shell).trans hs)
  | clearExported name =>
    exact hkept (fun _ _ => id) (preserves_modify fun shell hs =>
      (modifyEntry_locals _ _ shell).trans hs)
  | setLetter name letter enabled =>
    exact hkept (fun _ _ => id) (preserves_modify fun shell hs =>
      (modifyEntry_locals _ _ shell).trans hs)
  | unset operand => exact hkept (fun _ _ => id) (unsetOperand_preserves hclosed he hunset operand)
  | element name source expanded value append =>
    exact hkept (fun _ _ => id) (elementStatement_preserves hclosed he _ _ _ _ _)
  | compound name subscripted elements append guard =>
    exact hkept (fun _ _ => id)
      (compoundStatement_preserves hclosed he (fun _ => trivial) _ _ _ _ _)
  | appendTo name value => exact hkept (fun _ _ => id) (appendStatement_preserves hclosed he _ _)
  | textTarget name value append =>
    exact hkept (fun _ _ => id) (assignTextTarget_preserves hclosed he _ _ _)
  | replace name value => exact hkept (fun _ _ => id) (assignValue_preserves hclosed _ trivial)
  | giveKind name kind guard =>
    exact hkept (fun _ _ => id) (ensureKind_preserves hclosed (fun _ _ _ => trivial)
      (fun shell hs => (modifyEntry_locals _ _ shell).trans hs) _ _)
  | declare builtin requested operand scope =>
    exact applyDeclaration_grown hhost hexpand (ends_discard hends)
  | makeLocal assignment attributes => exact makeLocalBytes_grown hhost hexpand hends
  | read name =>
    exact hkept (fun _ _ => id)
      ((lookupBytes_preserves hclosed name).bind fun _ => preserves_pure _)
  | arithmetic input => exact hkept (fun _ _ => id) ((he input).bind fun _ => preserves_pure _)
  | pushScope =>
    rw [ends_modify hends]
    exact .pushed rfl
  | enterFunction => exact hkept (fun _ _ => id) (preserves_modify fun _ hs => hs)
  | leaveFunction => exact hkept (fun _ _ => id) (preserves_modify fun _ hs => hs)
  | unwind stop =>
    rw [ends_modify hends, locals_unwind hhost]
    exact .unwound stop rfl

end Steps

/-! ### One scope -/

def scopeAt (locals : List (List LocalVariable)) (frame : Nat) : List LocalVariable :=
  (locals[frame]?).getD []

/-- What the first record of a name in a scope says. -/
def firstRecord (s : Shell W) (frame : Nat) (name : Bytes) : Option (Option Variable) :=
  (undoLog (scopeAt s.table.locals frame)).lookup name

theorem recorded_eq (s : Shell W) (frame : Nat) (name : Bytes) :
    recorded s frame name = (firstRecord s frame name).isSome := any_restores _ _

/-- What an operation does to one scope. -/
inductive ScopeGrown (op : Operation) (s : Shell W) (frame : Nat) : List LocalVariable → Prop
  | same : (∀ name, op.declares s frame name → recorded s frame name = true) →
    ScopeGrown op s frame (scopeAt s.table.locals frame)
  | declared (name : Bytes) (saved : LocalVariable) :
    (∀ name', op.declares s frame name' ↔ name' = name) →
      undoRecord saved = some (name, s.entry name) →
      ScopeGrown op s frame (scopeAt s.table.locals frame ++ [saved])
  | options (saved : Options) (attributes : VariableAttributes) :
    op = .makeLocal (text "-") attributes →
      ScopeGrown op s frame (scopeAt s.table.locals frame ++ [.options saved])
  | gone (stop : Nat) : op = .unwind stop → stop ≤ frame → ScopeGrown op s frame []

theorem scopeAt_modify {locals : List (List LocalVariable)} {at' : Nat} (hat : at' < locals.length)
    (saved : LocalVariable) (frame : Nat) :
    scopeAt (locals.modify at' (· ++ [saved])) frame =
      if at' = frame then scopeAt locals frame ++ [saved] else scopeAt locals frame := by
  unfold scopeAt
  rw [List.getElem?_modify]
  split_ifs with heq
  · rw [heq] at hat
    rw [List.getElem?_eq_getElem hat]
    rfl
  · cases locals[frame]? <;> rfl

theorem Grown.scope {op : Operation} {s : Shell W} {locals : List (List LocalVariable)}
    (h : Grown op s locals) (frame : Nat) : ScopeGrown op s frame (scopeAt locals frame) := by
  have hsilent : (∀ name, ¬ op.declares s frame name) → ∀ scope,
      scope = scopeAt s.table.locals frame → ScopeGrown op s frame scope := by
    rintro hnothing scope rfl
    exact .same fun name hname => absurd hname (hnothing name)
  cases h with
  | same hnothing => exact .same (hnothing frame)
  | declared at' declared saved hat hdeclares hsaved =>
    rw [scopeAt_modify hat]
    split_ifs with heq
    · refine .declared declared saved (fun name => ?_) hsaved
      rw [hdeclares]
      exact and_iff_right heq.symm
    · exact .same fun name hname => absurd ((hdeclares frame name).mp hname).1.symm heq
  | options saved attributes hop =>
    have hnothing : ∀ name, ¬ op.declares s frame name := fun name hname =>
      absurd rfl (hop ▸ hname).1
    rcases Nat.eq_zero_or_pos s.table.locals.length with hempty | hpos
    · refine hsilent hnothing _ ?_
      rw [List.length_eq_zero_iff.mp hempty, List.modify_nil]
    · rw [scopeAt_modify (by omega)]
      split_ifs
      · exact .options saved attributes hop
      · exact hsilent hnothing _ rfl
  | pushed hop =>
    refine hsilent (fun name hname => by rw [hop] at hname; exact hname) _ ?_
    unfold scopeAt
    rw [List.getElem?_append]
    split_ifs with hlt
    · rfl
    · rw [List.getElem?_eq_none (by omega : s.table.locals.length ≤ frame)]
      cases (frame - s.table.locals.length) <;> rfl
  | unwound stop hop =>
    unfold scopeAt
    rw [List.getElem?_take]
    split_ifs with hlt
    · exact hsilent (fun name hname => by rw [hop] at hname; exact hname) _ rfl
    · exact .gone stop hop (by omega)

/-! ### A call -/

/-- What may happen inside the call whose scope is the one at `stop`: it does not
    return from the call, and it does not put aside the options that `name`
    shows. -/
structure Operation.WithinCall (stop : Nat) (name : Bytes) (op : Operation) : Prop where
  stays : ∀ n, op = .unwind n → stop < n
  options : name ∈ optionNames → ∀ attributes, op ≠ .makeLocal (text "-") attributes

/-- The call's scope stands, and no scope from it on gives back options that `name`
    shows. -/
structure InCall (stop : Nat) (name : Bytes) (s : Shell W) : Prop where
  stands : stop < s.table.locals.length
  settled : ∀ frame, stop ≤ frame → Settled name (scopeAt s.table.locals frame)

section Calls

variable {op : Operation} {stop frame : Nat} {name : Bytes} {s t : Shell W}
variable (hgrown : Grown op s t.table.locals) (hwithin : op.WithinCall stop name)

include hgrown hwithin in
theorem InCall.step (h : InCall stop name s) : InCall stop name t where
  stands := by
    have hstands := h.stands
    generalize t.table.locals = locals at hgrown ⊢
    cases hgrown with
    | same => exact hstands
    | declared => rw [List.length_modify]; exact hstands
    | options => rw [List.length_modify]; exact hstands
    | pushed => rw [List.length_append]; omega
    | unwound n hop =>
      have := hwithin.stays n hop
      rw [List.length_take]
      omega
  settled frame hframe := by
    intro hname
    have hsettled := h.settled frame hframe hname
    have hscope := hgrown.scope frame
    generalize scopeAt t.table.locals frame = scope at hscope ⊢
    cases hscope with
    | same => exact hsettled
    | declared declared saved _ hsaved =>
      rintro ⟨options, hmem⟩
      rcases List.mem_append.mp hmem with hmem | hmem
      · exact hsettled ⟨options, hmem⟩
      · rw [← List.mem_singleton.mp hmem] at hsaved
        cases hsaved
    | options saved attributes hop => exact absurd hop (hwithin.options hname attributes)
    | gone => rintro ⟨options, hmem⟩; cases hmem

include hgrown hwithin in
/-- The first record of a name in the call's own scope stays the first. -/
theorem firstRecord_step {held : Option Variable} (h : firstRecord s stop name = some held) :
    firstRecord t stop name = some held := by
  unfold firstRecord at h ⊢
  have hscope := hgrown.scope stop
  generalize scopeAt t.table.locals stop = scope at hscope ⊢
  cases hscope with
  | same => exact h
  | declared => rw [undoLog_append]; exact lookup_append_of_some h
  | options => rw [undoLog_append]; exact lookup_append_of_some h
  | gone n hop hle => exact absurd (hwithin.stays n hop) (by omega)

include hgrown in
/-- A name that is not declared in a scope gets no record there. -/
theorem firstRecord_undeclared (hdeclares : ¬ op.declares s frame name)
    (h : firstRecord s frame name = none) : firstRecord t frame name = none := by
  unfold firstRecord at h ⊢
  have hscope := hgrown.scope frame
  generalize scopeAt t.table.locals frame = scope at hscope ⊢
  cases hscope with
  | same => exact h
  | declared declared saved hdeclared hsaved =>
    have hne : (name == declared) = false := by
      rw [beq_eq_false_iff_ne]
      exact fun heq => hdeclares ((hdeclared name).mpr heq)
    rw [undoLog_append, List.lookup_append, h, Option.none_or,
      show undoLog [saved] = [(declared, s.entry declared)] from List.filterMap_cons_some hsaved,
      List.lookup_cons, hne]
    rfl
  | options => rw [undoLog_append, List.lookup_append, h]; rfl
  | gone => rfl

include hgrown in
/-- A declaration of a name without a record leaves one that holds its entry. -/
theorem firstRecord_declared (hdeclares : op.declares s frame name)
    (h : firstRecord s frame name = none) : firstRecord t frame name = some (s.entry name) := by
  have hunrecorded : recorded s frame name = false := by rw [recorded_eq, h]; rfl
  unfold firstRecord at h ⊢
  have hscope := hgrown.scope frame
  generalize scopeAt t.table.locals frame = scope at hscope ⊢
  cases hscope with
  | same hnothing =>
    rw [hnothing name hdeclares] at hunrecorded
    cases hunrecorded
  | declared declared saved hdeclared hsaved =>
    obtain rfl := (hdeclared name).mp hdeclares
    rw [undoLog_append, List.lookup_append, h, Option.none_or,
      show undoLog [saved] = [(name, s.entry name)] from List.filterMap_cons_some hsaved,
      List.lookup_cons, beq_self_eq_true]
  | options saved attributes hop => exact absurd rfl (hop ▸ hdeclares).1
  | gone n hop => rw [hop] at hdeclares; exact hdeclares.elim

end Calls

/-- The records played back when a call returns. -/
theorem mem_flatten_drop {locals : List (List LocalVariable)} {stop : Nat}
    {scope : List LocalVariable} (h : scope ∈ locals.drop stop) :
    ∃ frame, stop ≤ frame ∧ scopeAt locals frame = scope := by
  obtain ⟨i, hi, rfl⟩ := List.mem_iff_getElem.mp h
  refine ⟨stop + i, by omega, ?_⟩
  rw [List.length_drop] at hi
  unfold scopeAt
  rw [List.getElem?_eq_getElem (by omega), List.getElem_drop]
  rfl

theorem InCall.settled_drop {stop : Nat} {name : Bytes} {s : Shell W} (h : InCall stop name s) :
    Settled name (s.table.locals.drop stop).flatten := by
  rintro hname ⟨saved, hmem⟩
  obtain ⟨scope, hscope, hmem⟩ := List.mem_flatten.mp hmem
  obtain ⟨frame, hframe, rfl⟩ := mem_flatten_drop hscope
  exact h.settled frame hframe hname ⟨saved, hmem⟩

theorem entry_returned (hhost : Apart host) {stop : Nat} {name : Bytes} {s : Shell W}
    (h : InCall stop name s) {held : Option Variable}
    (hfirst : firstRecord s stop name = some held) :
    (unwindLocalScopes host stop s).entry name = held := by
  rw [entry_unwind hhost h.settled_drop, replay_apply, List.drop_eq_getElem_cons h.stands,
    List.flatten_cons, undoLog_append, lookup_append_of_some]
  · exact Option.getD_some
  · rw [← hfirst]
    unfold firstRecord scopeAt
    rw [List.getElem?_eq_getElem h.stands]
    rfl

theorem entry_returned_unrecorded (hhost : Apart host) {stop : Nat} {name : Bytes} {s : Shell W}
    (h : InCall stop name s)
    (hnone : ∀ frame, stop ≤ frame → firstRecord s frame name = none) :
    (unwindLocalScopes host stop s).entry name = s.entry name := by
  have hlookup : ∀ scopes : List (List LocalVariable),
      (∀ scope ∈ scopes, (undoLog scope).lookup name = none) →
      (undoLog scopes.flatten).lookup name = none := by
    intro scopes
    induction scopes with
    | nil => intro _; rfl
    | cons scope scopes ih =>
      intro hscopes
      rw [List.flatten_cons, undoLog_append, List.lookup_append,
        hscopes scope List.mem_cons_self, Option.none_or]
      exact ih fun scope hscope => hscopes scope (List.mem_cons_of_mem _ hscope)
  rw [entry_unwind hhost h.settled_drop, replay_apply, hlookup]
  · rfl
  · intro scope hscope
    obtain ⟨frame, hframe, rfl⟩ := mem_flatten_drop hscope
    exact hnone frame hframe

theorem inCall_pushLocalScope (name : Bytes) (s : Shell W) :
    InCall s.table.locals.length name (pushLocalScope s) where
  stands := by
    show _ < (s.table.locals ++ [[]]).length
    rw [List.length_append]
    exact Nat.lt_succ_self _
  settled frame hframe := by
    rintro - ⟨saved, hmem⟩
    unfold scopeAt pushLocalScope at hmem
    rw [List.getElem?_append_right hframe] at hmem
    cases hat : frame - s.table.locals.length <;> rw [hat] at hmem <;> cases hmem

theorem firstRecord_pushLocalScope (name : Bytes) (s : Shell W) {frame : Nat}
    (hframe : s.table.locals.length ≤ frame) :
    firstRecord (pushLocalScope s) frame name = none := by
  unfold firstRecord scopeAt pushLocalScope
  rw [List.getElem?_append_right hframe]
  cases frame - s.table.locals.length <;> rfl

/-- **A call gives back what it made local.**  From the push of its scope to the
    unwinding, whatever the body and the calls nested in it do: a name has again
    the entry it had before its first declaration in the call's own scope, and a
    name declared in no scope of the call has the entry the body left. -/
theorem call_restores (hhost : Apart host)
    (hexpand : ∀ locals, (scopesInvariant locals : Invariant W).Expands host)
    {name : Bytes} {s sₙ : Shell W}
    (run : RunsThrough host (fun op _ => op.WithinCall s.table.locals.length name)
      (pushLocalScope s) sₙ) :
    let stop := s.table.locals.length
    let returned := unwindLocalScopes host stop sₙ
    returned.table.locals.length = stop ∧
    (∀ (op : Operation) (u v : Shell W), RunsThrough host
        (fun op u => op.WithinCall stop name ∧ ¬ op.declares u stop name) (pushLocalScope s) u →
      op.WithinCall stop name → op.declares u stop name → op.Moves host u v →
      RunsThrough host (fun op _ => op.WithinCall stop name) v sₙ →
      returned.entry name = u.entry name) ∧
    (RunsThrough host (fun op u => op.WithinCall stop name ∧
        ∀ frame, stop ≤ frame → ¬ op.declares u frame name) (pushLocalScope s) sₙ →
      returned.entry name = sₙ.entry name) := by
  intro stop returned
  have hgrown : ∀ {op : Operation} {u v : Shell W}, op.Moves host u v →
      Grown op u v.table.locals := fun h => moves_grown hhost hexpand h
  have hin : InCall stop name sₙ := run.keeps
    (fun op u v hwithin hmoves h => h.step (hgrown hmoves) hwithin) (inCall_pushLocalScope name s)
  refine ⟨?_, fun op u v before hwithin hdeclares hmoves after => ?_, fun undeclared => ?_⟩
  · rw [locals_unwind hhost, List.length_take, Nat.min_eq_left hin.stands.le]
  · have hnone : firstRecord u stop name = none := before.keeps
      (fun op u v hallowed hmoves h => firstRecord_undeclared (hgrown hmoves) hallowed.2 h)
      (firstRecord_pushLocalScope name s (Nat.le_refl _))
    have hfirst : firstRecord sₙ stop name = some (u.entry name) := after.keeps
      (fun op u v hwithin hmoves h => firstRecord_step (hgrown hmoves) hwithin h)
      (firstRecord_declared (hgrown hmoves) hdeclares hnone)
    exact entry_returned hhost hin hfirst
  · refine entry_returned_unrecorded hhost hin ?_
    exact undeclared.keeps (P := fun u => ∀ frame, stop ≤ frame → firstRecord u frame name = none)
      (fun op u v hallowed hmoves h frame hframe =>
        firstRecord_undeclared (hgrown hmoves) (hallowed.2 frame hframe) (h frame hframe))
      fun frame hframe => firstRecord_pushLocalScope name s hframe

/-- A body that declares `x=1` and returns leaves `x` without an entry. -/
theorem call_restores_absent :
    let s : Shell Unit := ⟨{ dialect := .posix }, Locale.c, { entries := ∅ }, {}, 0, [], ()⟩
    ∃ t, Operation.Moves Host.plain (.makeLocal (text "x=1") VariableAttributes.none)
        (pushLocalScope s) t ∧
      (t.entry (text "x")).isSome ∧ (unwindLocalScopes Host.plain 0 t).entry (text "x") = none := by
  intro s
  have hwithin :
      (Operation.makeLocal (text "x=1") VariableAttributes.none).WithinCall 0 (text "x") :=
    ⟨nofun, fun hname => absurd hname (by decide)⟩
  refine ⟨_, ⟨0, .inl ⟨(), rfl⟩⟩, by decide, ?_⟩
  have hmoves : Operation.Moves Host.plain (.makeLocal (text "x=1") VariableAttributes.none)
    (pushLocalScope s) _ := ⟨0, .inl ⟨(), rfl⟩⟩
  have run := Relation.ReflTransGen.single (r := fun s t => ∃ op : Operation,
    op.WithinCall 0 (text "x") ∧ op.Moves Host.plain s t) ⟨_, hwithin, hmoves⟩
  exact (call_restores apart_plain (fun _ => expands_plain _) (s := s) run).2.1 _ _ _ .refl
    hwithin ⟨by decide, by decide, .inr (by decide), rfl⟩ hmoves .refl

end Nsh.Variables
