import Nsh.Variables.Scopes

/-!
# Declarations

One operand of Bash's `declare` and `local`, over the letters the invocation
turned on and off.  An attribute that reshapes a value has to exist before the
value is stored, and one that would refuse it has to wait until after it.  An
operand that arrived as one word may still spell a compound value.
-/

namespace Nsh.Variables

variable {W : Type}

/-- Which entry a declaration operand creates. -/
inductive DeclarationScope where
  | shellTable
  | runningBody
deriving DecidableEq, Repr

/-- Which attributes a single invocation turns on or off. -/
structure Requested where
  kind : Option VariableKind := none
  destroyedKind : Option VariableKind := none
  integer : Option Bool := none
  lowercase : Option Bool := none
  uppercase : Option Bool := none
  nameref : Option Bool := none
  trace : Option Bool := none
  readOnly : Option Bool := none
  exported : Option Bool := none
deriving DecidableEq, Repr

/-- `parser::is_valid_name`, which the empty text passes. -/
def isValidName (locale : Locale) (name : Bytes) : Bool := name == [] || validName locale name

/-- The name an operand declares, without its subscript or its value. -/
def operandName (operand : Bytes) : Bytes :=
  let name := (splitAssignment operand).1
  if name.getLast? = some (chr ']') then
    match name.idxOf? (chr '[') with
    | none => name
    | some bracket => name.take bracket
  else name

/-- The name of an operand, its value, and whether the operator was `+=`. -/
def splitAssignmentOperand (operand : Bytes) : Bytes × Option Bytes × Bool :=
  match operand.idxOf? (chr '=') with
  | none => (operand, none, false)
  | some equals =>
    let append := (operand.take equals).getLast? = some (chr '+')
    (operand.take (if append then equals - 1 else equals), some (operand.drop (equals + 1)), append)

def isArray (shell : Shell W) (name : Bytes) : Bool :=
  match variableKind shell name with
  | some .indexed | some .associative => true
  | _ => false

/-- Why `-n` may not be given to an operand, as the text reported. -/
def refusedReference (shell : Shell W) (requested : Requested) (base : Bytes)
    (value : Option Bytes) : Option Bytes :=
  let refusal (held : Bytes) :=
    text "`" ++ held ++ text "': invalid variable name for name reference"
  match value with
  | some value =>
    if isValidTarget shell.locale value = false then some (refusal value)
    else if requested.integer = some true then some []
    else none
  | none =>
    if isArray shell base then some (base ++ text ": reference variable cannot be an array")
    else
      match (variableValue shell base).bind VariableValue.scalarOwned with
      | none => none
      | some held => if isValidTarget shell.locale held then none else some (refusal held)

/-- Whether `set -a` exports the name a declaration is creating. -/
def exportedByAllexport (shell : Shell W) (requested : Requested) (base : Bytes)
    (scope : DeclarationScope) : Bool :=
  requested.exported != some false && scope == .shellTable && !isArray shell base &&
    shell.options.allExport

/-! ### Compound values in one word -/

/-- The text of a compound value, without its parentheses. -/
def parenthesised : Bytes → Option Bytes
  | [] => none
  | first :: rest =>
    if first = chr '(' ∧ rest.getLast? = some (chr ')') then some rest.dropLast else none

def isQuote (byte : UInt8) : Bool := byte == 0x27 || byte == 0x22

def isSeparator (byte : UInt8) : Bool := byte == 0x20 || byte == 0x09 || byte == 0x0a

/-- The loop of `compound::split`: whether a backslash protects the next byte, the
    quote that is open, and the word so far, if one is started. -/
def splitWords : Bytes → Bool → Option UInt8 → Option Bytes → List Bytes
  | [], _, _, current => current.toList
  | byte :: rest, escaped, quote, current =>
    let grown := some (current.getD [] ++ [byte])
    if escaped then splitWords rest false quote grown
    else if byte = 0x5c ∧ quote ≠ some 0x27 then splitWords rest true quote grown
    else if isQuote byte ∧ quote = none then splitWords rest false (some byte) grown
    else if quote = some byte then splitWords rest false none grown
    else if isSeparator byte ∧ quote = none then current.toList ++ splitWords rest false none none
    else splitWords rest false quote grown

/-- How many bytes stand before the bracket that closes the first. -/
def closingBracket : Bytes → Nat → Option Nat
  | [], _ => none
  | byte :: rest, depth =>
    let depth' := if byte = chr '[' then depth + 1 else if byte = chr ']' then depth - 1 else depth
    if byte = chr ']' ∧ depth' = 0 then some 0 else (closingBracket rest depth').map (· + 1)

/-- Split one element into its subscript, its operator and its value. -/
def splitMember (word : Bytes) : Option Bytes × Bool × Bytes :=
  if word.head? = some (chr '[') then
    match closingBracket word 0 with
    | none => (none, false, word)
    | some close =>
      let subscript := (word.take close).drop 1
      match word.drop (close + 1) with
      | first :: rest =>
        if first = chr '=' then (some subscript, false, rest)
        else if first = chr '+' ∧ rest.head? = some (chr '=') then
          (some subscript, true, rest.drop 1)
        else (none, false, word)
      | [] => (none, false, word)
  else (none, false, word)

section Declaring

variable (host : Host W) (evaluate : Bytes → ShellRun W Int64)

/-- Expand the elements of a compound value that is still text. -/
def expandMembers : List Bytes → ShellRun W (List CompoundElement)
  | [] => pure []
  | word :: rest => do
    let (subscript, append, value) := splitMember word
    let subscript ← match subscript with
      | none => pure none
      | some subscript => do
        let subscript ← textWord host evaluate subscript
        pure (some subscript)
    let value ← textWord host evaluate value
    let elements ← expandMembers rest
    pure (⟨subscript, value, append⟩ :: elements)

/-- Assign the elements a compound operand spells out (`compound::assign`). -/
def assignCompoundText (name inner : Bytes) : ShellRun W Unit := do
  let words := splitWords inner false none none
  let shell ← Run.get
  let form := compoundForm shell name (((words.head?).map fun word =>
    (splitMember word).1.isSome).getD false)
  let elements ← expandMembers host evaluate words
  match elements.findIdx? fun element => element.subscript.isNone with
  | some at' =>
    if form = .keyed then do
      Shell.warn (missingSubscriptMessage name ((elements[at']?.map (·.value)).getD []))
      assignCompound host evaluate name (elements.take at') form false .declaration
    else assignCompound host evaluate name elements form false .declaration
  | none => assignCompound host evaluate name elements form false .declaration

/-- Land the value of an operand on the name it declares. -/
def assignDeclared (name base value : Bytes) (append : Bool) : ShellRun W Unit := do
  let shell ← Run.get
  match (parenthesised value).filter fun _ => isArray shell base with
  | some inner => assignCompoundText host evaluate base inner
  | none => assignTextTarget host evaluate name value append

/-- Bring the entry of a declaration into being. -/
def declareEntry (base : Bytes) (scope : DeclarationScope) (value : LocalValue) (shell : Shell W) :
    Shell W :=
  let shell := if scope = .runningBody then makeLocal host base value shell else shell
  refresh host base (ensureEntry base shell)

/-- One attribute a request may name. -/
def declareLetter (base : Bytes) (letter : BashAttribute) (enabled : Option Bool)
    (shell : Shell W) : Shell W :=
  match enabled with
  | none => shell
  | some enabled => setBashAttribute base letter enabled shell

/-- The attributes that have to exist before the value is stored. -/
def declareLetters (requested : Requested) (base : Bytes) (shell : Shell W) : Shell W :=
  let shell := declareLetter base .trace requested.trace
    (declareLetter base .uppercase requested.uppercase
      (declareLetter base .lowercase requested.lowercase
        (declareLetter base .integer requested.integer shell)))
  if requested.nameref.isSome then clearReference base shell else shell

/-- What every attribute of a request keeps is kept by all of them. -/
theorem declareLetters_keeps {motive : Shell W → Prop} (requested : Requested) {base : Bytes}
    (hset : ∀ letter enabled shell, motive shell →
      motive (setBashAttribute base letter enabled shell))
    {shell : Shell W} (h : motive shell) : motive (declareLetters requested base shell) := by
  have hone : ∀ (letter : BashAttribute) (enabled : Option Bool) {shell : Shell W}, motive shell →
      motive (declareLetter base letter enabled shell) := by
    intro letter enabled shell h
    cases enabled with
    | none => exact h
    | some enabled => exact hset letter enabled shell h
  have hall := hone .trace requested.trace (hone .uppercase requested.uppercase
    (hone .lowercase requested.lowercase (hone .integer requested.integer h)))
  unfold declareLetters
  split
  · exact hset _ _ _ hall
  · exact hall

/-- The attributes that have to wait for the value. -/
def declareAttributes (requested : Requested) (base : Bytes) (scope : DeclarationScope)
    (wasExported : Bool) (shell : Shell W) : Shell W :=
  let shell := if requested.nameref = some true then setBashAttribute base .nameref true shell
    else shell
  let attributes : VariableAttributes := {
    exported := requested.exported == some true || exportedByAllexport shell requested base scope
    readOnly := requested.readOnly == some true }
  let shell := if attributes = VariableAttributes.none then shell
    else addAttributes base attributes shell
  if requested.exported = some false then clearExported base shell
  else if attributes.exported = false ∧ wasExported = false ∧ isArray shell base then
    clearExported base shell
  else shell

def kindWord : VariableKind → Bytes
  | .associative => text "associative"
  | .indexed | .scalar => text "indexed"

/-- Give the name the kind asked for, and answer whether it could be given. -/
def declareKind (builtin base : Bytes) (kind : Option VariableKind) : ShellRun W Bool := do
  let shell ← Run.get
  match kind with
  | none => pure true
  | some kind =>
    if convertible shell base kind then do
      ensureKind host base kind VariableAttributes.none .enforce
      pure true
    else do
      Shell.warn (builtin ++ text ": " ++ base ++ text ": cannot convert " ++
        kindWord ((variableKind shell base).getD kind) ++ text " to " ++ kindWord kind ++
        text " array")
      pure false

/-- The operand once it is known which name it declares. -/
def declareName (builtin : Bytes) (requested : Requested) (name base : Bytes)
    (value : Option Bytes) (append : Bool) (scope : DeclarationScope) : ShellRun W Bool := do
  Run.modify (declareEntry host base scope (if value.isSome then .assigned else .discard))
  let shell ← Run.get
  let wasExported := ((variableAttributes shell base).map (·.exported)).getD false
  let given ← declareKind host builtin base requested.kind
  if given then do
    Run.modify (declareLetters requested base)
    match value with
    | none => pure ()
    | some value => assignDeclared host evaluate name base value append
    Run.modify (declareAttributes requested base scope wasExported)
    pure true
  else pure false

/-- The name an operand declares, or the report of the one it may not. -/
def declarationBase (shell : Shell W) (builtin : Bytes) (requested : Requested) (operand : Bytes) :
    Except Bytes (Option Bytes) :=
  let (name, value, _) := splitAssignmentOperand operand
  let written := operandName name
  if isValidName shell.locale written = false then
    .error (builtin ++ text ": `" ++ operand ++ text "': not a valid identifier")
  else
    let refusal := if requested.nameref = some true then
      refusedReference shell requested written value else none
    match refusal with
    | some [] => .error []
    | some refusal => .error (builtin ++ text ": " ++ refusal)
    | none =>
      match (if requested.nameref.isSome then some written else declaredName shell written) with
      | none => .ok none
      | some base =>
        if requested.destroyedKind.isSome ∧ requested.destroyedKind = variableKind shell base then
          .error (builtin ++ text ": " ++ written ++
            text ": cannot destroy array variables in this way")
        else if requested.readOnly = some false ∧
            ((variableAttributes shell base).map (·.readOnly)).getD false then
          .error (builtin ++ text ": " ++ written ++ text ": readonly variable")
        else .ok (some base)

/-- Apply one operand, which is either `name` or `name=value`, and answer whether
    it was accepted. -/
def applyDeclaration (builtin : Bytes) (requested : Requested) (operand : Bytes)
    (scope : DeclarationScope) : ShellRun W Bool := do
  let shell ← Run.get
  match declarationBase shell builtin requested operand with
  | .error message => do
    if message ≠ [] then Shell.warn message
    pure false
  -- A reference that reaches no variable declares nothing at all.
  | .ok none => pure true
  | .ok (some base) =>
    let (name, value, append) := splitAssignmentOperand operand
    declareName host evaluate builtin requested name base value append scope

end Declaring

end Nsh.Variables
