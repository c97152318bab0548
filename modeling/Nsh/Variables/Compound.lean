import Nsh.Variables.References

/-!
# Compound values

`a=(...)` and `a+=(...)`, the kinds a name may be given, and the writes and
unsets that name an element by text.  An element without a subscript takes the
append cursor, which stands one past the last element placed.
-/

namespace Nsh.Variables

variable {W : Type}

/-- How the elements of `name=(...)` are read. -/
inductive CompoundForm where
  | indexed
  | keyed
  /-- `( key value ... )` against an associative array. -/
  | pairs
deriving DecidableEq, Repr

def CompoundForm.kind : CompoundForm → VariableKind
  | .indexed => .indexed
  | .keyed | .pairs => .associative

/-- Which of the three spellings a compound assignment to `name` is. -/
def compoundForm (shell : Shell W) (name : Bytes) (subscripted : Bool) : CompoundForm :=
  match variableKind shell name with
  | some .associative => if subscripted then .keyed else .pairs
  | _ => .indexed

def missingSubscriptMessage (name value : Bytes) : Bytes :=
  name ++ text ": '" ++ value ++ text "': must use subscript when assigning associative array"

/-- One element of a compound assignment, after expansion. -/
structure CompoundElement where
  subscript : Option Bytes
  value : Bytes
  append : Bool
deriving DecidableEq, Repr

/-- Read a `( key value key value )` list as `[key]=value` elements. -/
def keyValuePairs : List CompoundElement → ShellRun W (List CompoundElement)
  | [] => pure []
  | [key] =>
    if key.value = [] then do
      Shell.warn (text "'': bad array subscript")
      pure []
    else pure [⟨some key.value, [], false⟩]
  | key :: value :: rest => do
    if key.value = [] then do
      Shell.warn (text "'': bad array subscript")
      keyValuePairs rest
    else do
      let pairs ← keyValuePairs rest
      pure (⟨some key.value, value.value, false⟩ :: pairs)

/-- Whether `name` may be given `kind`: a scalar may be reshaped, an array not. -/
def convertible (shell : Shell W) (name : Bytes) (kind : VariableKind) : Bool :=
  match variableKind shell name with
  | some current => current == kind || current == .scalar
  | none => true

/-- The value a compound or element assignment builds on. -/
def compoundBase (shell : Shell W) (name : Bytes) (kind : VariableKind) (append : Bool) :
    VariableValue :=
  if append then elementBase shell name kind else .empty kind

/-- Where the first element without a subscript goes. -/
def appendCursor (value : VariableValue) (append : Bool) : UInt64 :=
  if append then (value.lastIndex.map (· + 1)).getD 0 else 0

/-- An array under construction: the elements placed so far, and the cursor. -/
structure Building where
  current : VariableValue
  next : UInt64

section Assigning

variable (host : Host W) (evaluate : Bytes → ShellRun W Int64)

/-- Give `name` an array kind without disturbing a value it already holds. -/
def ensureKind (name : Bytes) (kind : VariableKind) (attributes : VariableAttributes)
    (guard : ReadOnlyGuard) : ShellRun W Unit := do
  rejectBadName name
  rejectReadOnly name guard
  let shell ← Run.get
  if variableKind shell name = some kind then pure ()
  else
    match variableValue shell name with
    | some value => store host name (value.convert kind) attributes guard
    | none => do
      -- A declaration with nothing to store leaves an invisible variable.
      store host name (.empty kind) attributes guard
      Run.modify (modifyEntry name fun entry => { entry with state := .declared kind })

/-- `name+=value`, written with no subscript at all. -/
def appendUnsubscripted (name value : Bytes) (guard : ReadOnlyGuard) : ShellRun W Unit := do
  let shell ← Run.get
  match variableKind shell name with
  | some .indexed => assignElement host evaluate name (.index 0) value true guard
  | some .associative => assignElement host evaluate name (.key (text "0")) value true guard
  | some .scalar | none => do
    rejectBadName name
    rejectReadOnly name guard
    let existing ← lookupBytes host name
    let appended ← appendElement evaluate name (existing.getD []) value
    let appended ← declaredElement evaluate name appended
    store host name (.scalar appended) VariableAttributes.none guard

/-- The element one member of a compound value names.  A written subscript is
    evaluated against the array the members before it have built. -/
def compoundSelector (name : Bytes) (form : CompoundForm) (guard : ReadOnlyGuard)
    (building : Building) (subscript : Option Bytes) : ShellRun W ArraySelector :=
  match subscript with
  | none => pure (.index building.next)
  | some key =>
    if form = .pairs then pure (.key key)
    else do
      store host name building.current VariableAttributes.none guard
      resolveSelector evaluate name key

/-- Place a value at the element selected. -/
def place (name : Bytes) (building : Building) (selector : ArraySelector) (value : Bytes) :
    ShellRun W Building :=
  match selector with
  | .index index => pure ⟨building.current.setIndexed index value, index + 1⟩
  | .key key => pure { building with current := building.current.setAssociative key value }
  | .missing => do
    let shell ← Run.get
    Run.fail (Error.abandonedAt shell.diagnosticLine)
  | .all | .joined => Shell.shellError (name ++ text ": cannot assign to a whole-array subscript")

/-- One turn of the loop of `assignCompound`.  `previous` is what a keyed `+=`
    appends to. -/
def assignMember (name : Bytes) (form : CompoundForm) (guard : ReadOnlyGuard)
    (previous : Option VariableValue) (building : Building) (element : CompoundElement) :
    ShellRun W Building :=
  if form = .keyed ∧ element.subscript = none then do
    store host name building.current VariableAttributes.none guard
    Shell.dialectError (missingSubscriptMessage name element.value)
  else if element.subscript = some [] then do
    store host name building.current VariableAttributes.none guard
    Shell.dialectError (name ++ text "[]: bad array subscript")
  else do
    let selector ← compoundSelector host evaluate name form guard building element.subscript
    let existing := (existingElement (previous.getD building.current) selector).getD []
    let combined ← writtenElement evaluate name existing element.value element.append
    let value ← declaredElement evaluate name combined
    place name building selector value

/-- The loop of `assignCompound`. -/
def assignMembers (name : Bytes) (form : CompoundForm) (guard : ReadOnlyGuard)
    (previous : Option VariableValue) : Building → List CompoundElement → ShellRun W Building
  | building, [] => pure building
  | building, element :: rest => do
    let building ← assignMember host evaluate name form guard previous building element
    assignMembers name form guard previous building rest

/-- What a keyed `+=` appends to: the value before the assignment began. -/
def previousValue (shell : Shell W) (name : Bytes) (form : CompoundForm) (append : Bool) :
    Option VariableValue :=
  if form.kind = .associative ∧ append = false then
    some ((variableValue shell name).getD (.empty form.kind))
  else none

/-- The elements as the loop of `assignCompound` reads them. -/
def compoundMembers (form : CompoundForm) (elements : List CompoundElement) :
    ShellRun W (List CompoundElement) :=
  if form = .pairs then keyValuePairs elements else pure elements

/-- `a=(...)` and `a+=(...)`. -/
def assignCompound (name : Bytes) (elements : List CompoundElement) (form : CompoundForm)
    (append : Bool) (guard : ReadOnlyGuard) : ShellRun W Unit := do
  rejectBadName name
  rejectReadOnly name guard
  let elements ← compoundMembers form elements
  let shell ← Run.get
  let base := compoundBase shell name form.kind append
  let building ← assignMembers host evaluate name form guard
    (previousValue shell name form append) ⟨base, appendCursor base append⟩ elements
  store host name building.current VariableAttributes.none guard

/-- The name and the subscript of `a[expr]`, where the operand closes one. -/
def splitElement (name : Bytes) : Option (Bytes × Bytes) :=
  match name.idxOf? (chr '[') with
  | none => none
  | some bracket =>
    if name.getLast? = some (chr ']') then
      some (name.take bracket, (name.drop (bracket + 1)).dropLast)
    else none

/-- Assign to a target named by text, which may carry a subscript. -/
def assignTextTarget (name value : Bytes) (append : Bool) : ShellRun W Unit :=
  match splitElement name with
  | some (base, subscript) => do
    let selector ← resolveTextSelector host evaluate base subscript
    assignElement host evaluate base selector value append .enforce
  | none =>
    if append then appendUnsubscripted host evaluate name value .enforce
    else setBytes host evaluate name (some value) VariableAttributes.none

/-- What is left of an array once an element is taken out. -/
def withoutElement (value : VariableValue) : ArraySelector → VariableValue
  | .index index => value.unsetIndexed index
  | .key key => value.unsetAssociative key
  | .all | .joined => .empty value.kind
  | .missing => value

/-- `unset a[i]` removes one element; `unset a[@]` clears every one. -/
def unsetElement (name : Bytes) (selector : ArraySelector) : ShellRun W Unit := do
  rejectReadOnly name .enforce
  let shell ← Run.get
  match variableValue shell name with
  | none => pure ()
  | some current =>
    if selector = .missing then Run.fail (Error.abandonedAt shell.diagnosticLine)
    else store host name (withoutElement current selector) VariableAttributes.none .enforce

/-- Replace a name's whole value with one the shell built itself. -/
def assignValue (name : Bytes) (value : VariableValue) : ShellRun W Unit := do
  rejectBadName name
  rejectReadOnly name .enforce
  store host name value VariableAttributes.none .enforce

/-- The variables `unset` reaches through one operand. -/
def unsetOperand (operand : Bytes) : ShellRun W Unit := do
  let shell ← Run.get
  let name := (readName shell operand).getD operand
  if ((variableAttributes shell name).map (·.readOnly)).getD false then
    -- Bash reports the operand and goes on with the rest of the list.
    if shell.options.dialect = .bash then Shell.warn (name ++ text " is read-only")
    else Shell.shellError (name ++ text " is read-only")
  else
    match splitSubscript name with
    | some (base, subscript) => do
      let selector ← resolveTextSelector host evaluate base subscript
      unsetElement host base selector
    | none => unsetBytes host name

end Assigning

end Nsh.Variables
