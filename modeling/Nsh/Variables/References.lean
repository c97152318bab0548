import Nsh.Variables.Arrays

/-!
# Name references

A `declare -n` variable holds the name of another, and a write of it reaches the
entry the chain of references ends on.  `setBytes` is the assignment every
script-level write goes through: it follows the reference, reshapes the value as
the declaration requires, and writes the entry.
-/

namespace Nsh.Variables

variable {W : Type}

/-! ### Attributes -/

/-- Change an entry where it stands. -/
def modifyEntry (name : Bytes) (change : Variable → Variable) (shell : Shell W) : Shell W :=
  match shell.entry name with
  | none => shell
  | some entry => shell.insert name (change entry)

def addAttributes (name : Bytes) (attributes : VariableAttributes) : Shell W → Shell W :=
  modifyEntry name fun entry => { entry with attributes := attributes.union entry.attributes }

/-- Take the export attribute away, which only `declare +x` asks for. -/
def clearExported (name : Bytes) : Shell W → Shell W :=
  modifyEntry name fun entry =>
    { entry with attributes := { entry.attributes with exported := false } }

def setBashAttribute (name : Bytes) (letter : BashAttribute) (enabled : Bool) :
    Shell W → Shell W :=
  modifyEntry name fun entry =>
    { entry with bashAttributes := entry.bashAttributes.set letter enabled }

def clearReference (name : Bytes) : Shell W → Shell W := setBashAttribute name .nameref false

/-! ### Following a reference -/

/-- How far a chain of name references may be followed. -/
def referenceDepth : Nat := 64

/-- Where a name reference finally points. -/
inductive Target where
  | name (held : Bytes)
  | element (base subscript : Bytes)
deriving DecidableEq, Repr

/-- The spelling a parameter expansion or `unset` operand would use. -/
def Target.text : Target → Bytes
  | .name held => held
  | .element base subscript => base ++ chr '[' :: subscript ++ [chr ']']

/-- Split `a[expr]` into its name and subscript bytes. -/
def splitSubscript (bytes : Bytes) : Option (Bytes × Bytes) :=
  if bytes.getLast? = some (chr ']') then
    match bytes.idxOf? (chr '[') with
    | none | some 0 => none
    | some bracket => some (bytes.take bracket, (bytes.drop (bracket + 1)).dropLast)
  else none

def isReference (shell : Shell W) (name : Bytes) : Bool :=
  ((bashAttributes shell name).map (·.nameref)).getD false

/-- What the text of a reference names, if it names anything. -/
def namedTarget (locale : Locale) (text : Bytes) : Option Target :=
  match splitSubscript text with
  | some (base, subscript) => if validName locale base then some (.element base subscript) else none
  | none => if validName locale text then some (.name text) else none

/-- The name a `declare -n` entry currently points at, if it points anywhere. -/
def referenceTarget (shell : Shell W) (name : Bytes) : Option Target :=
  if isReference shell name then
    match (variableValue shell name).bind VariableValue.scalarOwned with
    | none | some [] => none
    | some text => namedTarget shell.locale text
  else none

/-- The loop of `follow`, with room for so many more references. -/
def followFrom (shell : Shell W) : Nat → List Bytes → Target → Option Target
  | _, _, .element base subscript => some (.element base subscript)
  | room, seen, .name here =>
    match referenceTarget shell here with
    | none => some (.name here)
    | some next =>
      if next = .name here then some next
      else if seen.contains here then none
      else
        match room with
        | 0 => none
        | room + 1 => followFrom shell room (seen ++ [here]) next

/-- Follow a chain of name references.  `none` reports a circular chain. -/
def follow (shell : Shell W) (name : Bytes) : Option Target :=
  followFrom shell referenceDepth [] (.name name)

/-- The name a read of `name` should look up. -/
def readName (shell : Shell W) (name : Bytes) : Option Bytes :=
  match splitSubscript name with
  | some (base, subscript) =>
    match follow shell base with
    | some (.name target) => some (Target.element target subscript).text
    | some (.element _ _) | none => none
  | none => (follow shell name).map Target.text

def isValidTarget (locale : Locale) (text : Bytes) : Bool :=
  match splitSubscript text with
  | some (base, _) => validName locale base
  | none => validName locale text

/-- Whether `name` holds text that is not a name. -/
def holdsABrokenReference (shell : Shell W) (name : Bytes) : Bool :=
  match (variableValue shell name).bind VariableValue.scalarOwned with
  | none => false
  | some text => text != [] && !isValidTarget shell.locale text

/-- The element a reference selects, where that refuses an array write. -/
def refusedElementWrite (shell : Shell W) (name : Bytes) : Option Bytes :=
  match follow shell name with
  | some (.element base subscript) => some (Target.element base subscript).text
  | some (.name _) | none => none

/-- The name `declare` gives an attribute to, `-n` aside. -/
def declaredName (shell : Shell W) (name : Bytes) : Option Bytes :=
  if isReference shell name then
    match follow shell name with
    | none => none
    | some (.name target) =>
      if target = name then some target
      else if isReference shell target then none else some target
    | some (.element base _) => some base
  else some name

/-- The variable an array assignment to `name` reaches.  A compound value cannot
    be a reference, so a reference that reaches nothing loses the attribute. -/
def referencedArray (name : Bytes) : ShellRun W (Option Bytes) := fun shell =>
  match follow shell name with
  | some (.name target) =>
    .done (some target) (if target = name then clearReference name shell else shell)
  | some (.element _ _) | none => .done none shell

/-! ### Assigning -/

section Assigning

variable (host : Host W) (evaluate : Bytes → ShellRun W Int64)

/-- Write the value a scalar assignment stores, as the declaration reshapes it. -/
def storeDeclared (name value : Bytes) (attributes : VariableAttributes) : ShellRun W Unit := do
  let stored ← declaredElement evaluate name value
  setEntry host name (some stored) attributes .run .enforce .marks

/-- Redirect one scalar assignment through a name reference, and answer whether
    the write has been performed. -/
def assignThrough (name value : Bytes) (attributes : VariableAttributes) : ShellRun W Bool := do
  let shell ← Run.get
  if isReference shell name then
    match follow shell name with
    -- A cycle has nothing to write to, and is not an error.
    | none => pure true
    | some (.name target) =>
      if target = name then do
        if holdsABrokenReference shell name then Run.modify (clearReference name)
        pure false
      else do
        storeDeclared host evaluate target value attributes
        pure true
    | some (.element base subscript) => do
      let selector ← resolveTextSelector host evaluate base subscript
      assignElement host evaluate base selector value false .enforce
      pure true
  else pure false

def setBytes (name : Bytes) (value : Option Bytes) (attributes : VariableAttributes) :
    ShellRun W Unit :=
  match value with
  | none => setEntry host name none attributes .run .enforce .marks
  | some value => do
    let written ← assignThrough host evaluate name value attributes
    if written then pure () else storeDeclared host evaluate name value attributes

/-- The name and the value of `name=value`, or the whole text as a name. -/
def splitAssignment (assignment : Bytes) : Bytes × Option Bytes :=
  match assignment.idxOf? (chr '=') with
  | none => (assignment, none)
  | some equals => (assignment.take equals, some (assignment.drop (equals + 1)))

def setAssignmentBytes (assignment : Bytes) (attributes : VariableAttributes) : ShellRun W Unit :=
  setBytes host evaluate (splitAssignment assignment).1 (splitAssignment assignment).2 attributes

/-- `unset` is not an assignment, and in Bash `set -a` does not reach one. -/
def unsetBytes (name : Bytes) : ShellRun W Unit := do
  let shell ← Run.get
  let allExport := if shell.options.dialect = .bash then AllExport.declines else .marks
  setEntry host name none VariableAttributes.none .run .enforce allExport

end Assigning

end Nsh.Variables
