import Mathlib.Logic.Relation
import Nsh.Arithmetic.Evaluate
import Nsh.Lib.Keeps
import Nsh.Variables.Kept

/-!
# The operations on the variable table

Everything a script does to variables, as steps of one machine: assignments,
unsets, array elements and compound values, attributes, declarations, and the
scopes that calls push and pop.  A step that fails leaves the state it failed in.
-/

namespace Nsh.Variables

variable {W : Type}

section Statements

variable (host : Host W) (evaluate : Bytes → ShellRun W Int64)

/-- The element `a[sub]=v` names: an indexed subscript is read from the source,
    and a key is the expanded word. -/
def elementSelector (name source expanded : Bytes) : ShellRun W ArraySelector := do
  let shell ← Run.get
  if readsAsArithmetic shell name source then resolveTextSelector host evaluate name source
  else resolveSelector evaluate name expanded

/-- Reach the variable an array assignment names, or report why it may not be. -/
def withReferencedArray (name : Bytes) (assign : Bytes → ShellRun W Unit) : ShellRun W Unit := do
  let shell ← Run.get
  match refusedElementWrite shell name with
  | some target => Shell.warn (text "`" ++ target ++ text "': not a valid identifier")
  | none => do
    let reached ← referencedArray name
    match reached with
    | none => pure ()
    | some name => assign name

/-- The statement `a[sub]=v` or `a[sub]+=v`, its words expanded. -/
def elementStatement (name source expanded value : Bytes) (append : Bool) : ShellRun W Unit :=
  withReferencedArray name fun name =>
    if source = [] then Shell.dialectError (name ++ text "[]: bad array subscript")
    else do
      let selector ← elementSelector host evaluate name source expanded
      assignElement host evaluate name selector value append .enforce

/-- The statement `a=(...)` or `a+=(...)`, its words expanded. -/
def compoundStatement (name : Bytes) (subscripted : Bool) (elements : List CompoundElement)
    (append : Bool) (guard : ReadOnlyGuard) : ShellRun W Unit :=
  withReferencedArray name fun name => do
    let shell ← Run.get
    assignCompound host evaluate name elements (compoundForm shell name subscripted) append guard

/-- The statement `a+=v`. -/
def appendStatement (name value : Bytes) : ShellRun W Unit :=
  withReferencedArray name fun name => appendUnsubscripted host evaluate name value .enforce

/-- The entry `initialize_variable_state` gives a locale variable of the
    environment. -/
def enterLocaleVariable (shell : Shell W) (pair : Bytes × Bytes) : Shell W :=
  if isLocaleVariable pair.1 then
    let entry := (shell.entry pair.1).getD (Variable.fresh .unset VariableAttributes.none .locale)
    shell.insert pair.1 {
      attributes := { entry.attributes with exported := true }
      state := .set (.scalar pair.2)
      bashAttributes := entry.bashAttributes
      callback := .locale
      dynamicLineno := false }
  else shell

/-- `import_environment_pairs`. -/
def importEnvironmentPairs : List (Bytes × Bytes) → ShellRun W Unit
  | [] => pure ()
  | (name, value) :: rest => do
    let shell ← Run.get
    if isLocaleVariable name = false ∧ validName shell.locale name then
      setBytes host evaluate name (some value) { exported := true }
    importEnvironmentPairs rest

/-- `initialize_variable_state`, up to the assignments that follow the one of
    `IFS`. -/
def startVariables (pairs : List (Bytes × Bytes)) (defaultPath prompt continuation : Bytes) :
    ShellRun W Unit := do
  Run.modify (initializeVariables defaultPath prompt continuation)
  Run.modify fun shell =>
    let shell := pairs.foldl enterLocaleVariable shell
    match selectedLocale host shell with
    | none => shell
    | some locale => { shell with locale := locale }
  importEnvironmentPairs host evaluate pairs
  setBytes host evaluate (text "IFS") (some defaultIfs) VariableAttributes.none

end Statements

section Kept

open Nsh.Run

variable {I : Invariant W} {host : Host W} {evaluate : Bytes → ShellRun W Int64}
variable (h : I.Closed host) (he : ∀ t, (evaluate t).Preserves I.holds)

include h in
theorem withReferencedArray_preserves (name : Bytes) {assign : Bytes → ShellRun W Unit}
    (hassign : ∀ name, (assign name).Preserves I.holds) :
    (withReferencedArray name assign).Preserves I.holds := by
  refine ensures_get.bind fun shell _ => ?_
  cases refusedElementWrite shell name with
  | some target => exact h.warn _
  | none =>
    have hreach : (referencedArray name : ShellRun W _).Preserves I.holds := by
      intro shell hs
      unfold referencedArray
      split
      · refine ⟨trivial, ?_⟩
        split
        · exact h.letter _ _ _ _ hs
        · exact hs
      · exact ⟨trivial, hs⟩
      · exact ⟨trivial, hs⟩
    refine hreach.bind fun reached => ?_
    cases reached with
    | none => exact preserves_pure _
    | some name => exact hassign name

include h he in
theorem elementSelector_ensures (name source expanded : Bytes) :
    (elementSelector host evaluate name source expanded).Ensures I.holds I.selector := by
  refine ensures_get.bind fun shell _ => ?_
  split
  · exact resolveTextSelector_ensures h he name source
  · exact resolveSelector_ensures h he name expanded

include h he in
theorem elementStatement_preserves (name source expanded value : Bytes) (append : Bool) :
    (elementStatement host evaluate name source expanded value append).Preserves I.holds := by
  refine withReferencedArray_preserves h name fun name => ?_
  split
  · exact dialectError_ensures _
  · exact (elementSelector_ensures h he name source expanded).bind fun selector hselector =>
      assignElement_preserves h he name value hselector append .enforce

include h he in
theorem appendStatement_preserves (name value : Bytes) :
    (appendStatement host evaluate name value).Preserves I.holds :=
  withReferencedArray_preserves h name fun name => appendUnsubscripted_preserves h he name value _

include h he in
theorem compoundStatement_preserves (hall : ∀ index, I.selector (.index index)) (name : Bytes)
    (subscripted : Bool) (elements : List CompoundElement) (append : Bool)
    (guard : ReadOnlyGuard) :
    (compoundStatement host evaluate name subscripted elements append guard).Preserves I.holds :=
  withReferencedArray_preserves h name fun name => ensures_get.bind fun _ _ =>
    assignCompound_preserves h he hall name elements _ append guard

include h he in
theorem unsetOperand_preserves
    (hunset : ∀ name, (unsetBytes host name).Preserves I.holds) (operand : Bytes) :
    (unsetOperand host evaluate operand).Preserves I.holds := by
  refine ensures_get.bind fun _ _ => ?_
  simp only
  split
  · split
    · exact h.warn _
    · exact shellError_ensures _
  · split
    · next base subscript _ =>
      exact (resolveTextSelector_ensures h he base subscript).bind fun selector _ =>
        unsetElement_preserves h base selector
    · exact hunset _

end Kept

inductive Operation where
  | assign (name value : Bytes) (attributes : VariableAttributes)
  /-- `export x` and `readonly x`, where `x` has no entry. -/
  | attributed (name : Bytes) (attributes : VariableAttributes)
  | addAttributes (name : Bytes) (attributes : VariableAttributes)
  | clearExported (name : Bytes)
  | setLetter (name : Bytes) (letter : BashAttribute) (enabled : Bool)
  | unset (operand : Bytes)
  | element (name source expanded value : Bytes) (append : Bool)
  | compound (name : Bytes) (subscripted : Bool) (elements : List CompoundElement) (append : Bool)
      (guard : ReadOnlyGuard)
  | appendTo (name value : Bytes)
  /-- `printf -v`, and `export` of an operand that spells `+=`. -/
  | textTarget (name value : Bytes) (append : Bool)
  /-- `read -a` and `mapfile`. -/
  | replace (name : Bytes) (value : VariableValue)
  /-- The kind `readonly -a` and `export -A` give a name that has a value waiting. -/
  | giveKind (name : Bytes) (kind : VariableKind) (guard : ReadOnlyGuard)
  | declare (builtin : Bytes) (requested : Requested) (operand : Bytes) (scope : DeclarationScope)
  /-- POSIX `local`, and an assignment before a command. -/
  | makeLocal (assignment : Bytes) (attributes : VariableAttributes)
  | read (name : Bytes)
  | arithmetic (input : Bytes)
  | pushScope
  | enterFunction
  | leaveFunction
  | unwind (stop : Nat)

/-- What an operation does. -/
def Operation.perform (host : Host W) (evaluate : Bytes → ShellRun W Int64) :
    Operation → ShellRun W Unit
  | .assign name value attributes => setBytes host evaluate name (some value) attributes
  | .attributed name attributes => setBytes host evaluate name none attributes
  | .addAttributes name attributes => Run.modify (Variables.addAttributes name attributes)
  | .clearExported name => Run.modify (Variables.clearExported name)
  | .setLetter name letter enabled => Run.modify (setBashAttribute name letter enabled)
  | .unset operand => unsetOperand host evaluate operand
  | .element name source expanded value append =>
    elementStatement host evaluate name source expanded value append
  | .compound name subscripted elements append guard =>
    compoundStatement host evaluate name subscripted elements append guard
  | .appendTo name value => appendStatement host evaluate name value
  | .textTarget name value append => assignTextTarget host evaluate name value append
  | .replace name value => assignValue host name value
  | .giveKind name kind guard => ensureKind host name kind VariableAttributes.none guard
  | .declare builtin requested operand scope => do
    let _ ← applyDeclaration host evaluate builtin requested operand scope
    pure ()
  | .makeLocal assignment attributes => makeLocalBytes host evaluate assignment attributes
  | .read name => do
    let _ ← lookupBytes host name
    pure ()
  | .arithmetic input => do
    let _ ← evaluate input
    pure ()
  | .pushScope => Run.modify pushLocalScope
  | .enterFunction => Run.modify Variables.enterFunction
  | .leaveFunction => Run.modify Variables.leaveFunction
  | .unwind stop => Run.modify (unwindLocalScopes host stop)

/-- One operation takes the shell from `s` to `t`, with as many evaluations nested
    as it needs. -/
def Operation.Moves (host : Host W) (op : Operation) (s t : Shell W) : Prop :=
  ∃ n, (op.perform host (Arithmetic.evaluate host n)).Ends s t

/-- A run all of whose steps are `allowed` where they are taken. -/
def RunsThrough (host : Host W) (allowed : Operation → Shell W → Prop) : Shell W → Shell W → Prop :=
  Relation.ReflTransGen fun s t => ∃ op : Operation, allowed op s ∧ op.Moves host s t

/-- Perform operations one after the other, whatever each comes to. -/
def performAll (host : Host W) (n : Nat) : List Operation → Shell W → Option (Shell W)
  | [], s => some s
  | op :: rest, s =>
    match op.perform host (Arithmetic.evaluate host n) s with
    | .done _ t => performAll host n rest t
    | .failed _ t => performAll host n rest t
    | .unfinished => none

theorem RunsThrough.of_performAll {host : Host W} {allowed : Operation → Shell W → Prop} {n : Nat}
    {ops : List Operation} : ∀ {s t : Shell W}, (∀ op ∈ ops, ∀ s, allowed op s) →
    performAll host n ops s = some t → RunsThrough host allowed s t := by
  induction ops with
  | nil => intro s t _ h; cases h; exact .refl
  | cons op rest ih =>
    intro s t hallowed h
    have hrest : ∀ u, op.Moves host s u → performAll host n rest u = some t →
        RunsThrough host allowed s t := fun u hmoves h =>
      .head ⟨op, hallowed op List.mem_cons_self s, hmoves⟩
        (ih (fun op hop => hallowed op (List.mem_cons_of_mem _ hop)) h)
    unfold performAll at h
    cases hrun : op.perform host (Arithmetic.evaluate host n) s with
    | done a u => rw [hrun] at h; exact hrest u ⟨n, .inl ⟨a, hrun⟩⟩ h
    | failed e u => rw [hrun] at h; exact hrest u ⟨n, .inr ⟨e, hrun⟩⟩ h
    | unfinished => rw [hrun] at h; cases h

/-- Every run from a state with a property keeps it, if every allowed step does. -/
theorem RunsThrough.keeps {host : Host W} {allowed : Operation → Shell W → Prop}
    {P : Shell W → Prop}
    (step : ∀ op s t, allowed op s → op.Moves host s t → P s → P t) {s t : Shell W}
    (run : RunsThrough host allowed s t) (hs : P s) : P t := by
  induction run with
  | refl => exact hs
  | tail _ hmove ih =>
    obtain ⟨op, hallowed, hmove⟩ := hmove
    exact step op _ _ hallowed hmove ih

/-- A shell in the C locale with nothing in its table. -/
def blankShell (dialect : Dialect) : Shell Unit :=
  ⟨{ dialect := dialect }, Locale.c, { entries := ∅ }, {}, 0, [], ()⟩

/-- What a start and some operations come to, in a shell that has nothing to expand. -/
def startAndPerform (dialect : Dialect) (n : Nat) (ops : List Operation) : Option (Shell Unit) :=
  match startVariables Host.plain (Arithmetic.evaluate Host.plain 0) [] [] [] []
      (blankShell dialect) with
  | .done _ s => performAll Host.plain n ops s
  | _ => none

theorem startAndPerform_some {dialect : Dialect} {n : Nat} {ops : List Operation} {t : Shell Unit}
    (h : startAndPerform dialect n ops = some t) :
    ∃ s, startVariables Host.plain (Arithmetic.evaluate Host.plain 0) [] [] [] []
        (blankShell dialect) = .done () s ∧ performAll Host.plain n ops s = some t := by
  unfold startAndPerform at h
  split at h
  · next s hstart => exact ⟨s, hstart, h⟩
  · cases h

end Nsh.Variables
