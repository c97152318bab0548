import Nsh.Shell.Bytes

/-!
# Structural variable values

A variable holds a scalar, a sparse indexed array or an associative array.  The
scalar view of an array is its element zero, and a plain assignment to an array
writes that element.
-/

namespace Nsh

inductive VariableKind where
  | scalar
  | indexed
  | associative
deriving DecidableEq, Repr

/-- The value a variable holds. -/
inductive VariableValue where
  | scalar (value : Bytes)
  | indexed (values : Std.ExtTreeMap UInt64 Bytes)
  | associative (values : ByteMap Bytes)

namespace VariableValue

def empty : VariableKind → VariableValue
  | .scalar => .scalar []
  | .indexed => .indexed ∅
  | .associative => .associative ∅

def kind : VariableValue → VariableKind
  | .scalar _ => .scalar
  | .indexed _ => .indexed
  | .associative _ => .associative

/-- The view without a subscript: element zero of an array. -/
def scalarOwned : VariableValue → Option Bytes
  | .scalar value => some value
  | .indexed values => values[(0 : UInt64)]?
  | .associative values => values[text "0"]?

/-- A plain assignment keeps the kind and writes element zero. -/
def assignScalar (value : Bytes) : VariableValue → VariableValue
  | .scalar _ => .scalar value
  | .indexed values => .indexed (values.insert 0 value)
  | .associative values => .associative (values.insert (text "0") value)

/-- A plain assignment is what the view without a subscript reads back. -/
theorem scalarOwned_assignScalar (value : Bytes) (v : VariableValue) :
    (v.assignScalar value).scalarOwned = some value := by
  cases v with
  | scalar _ => rfl
  | indexed values => exact Std.ExtTreeMap.getElem?_insert_self
  | associative values => exact Std.ExtTreeMap.getElem?_insert_self

def indexedAt (index : UInt64) : VariableValue → Option Bytes
  | .indexed values => values[index]?
  | _ => none

def setIndexed (index : UInt64) (value : Bytes) : VariableValue → VariableValue
  | .indexed values => .indexed (values.insert index value)
  | v => v

/-- The highest index in use, `indexed_keys().last()`. -/
def lastIndex : VariableValue → Option UInt64
  | .indexed values => values.maxKey?
  | _ => none

def associativeAt (key : Bytes) : VariableValue → Option Bytes
  | .associative values => values[key]?
  | _ => none

def setAssociative (key value : Bytes) : VariableValue → VariableValue
  | .associative values => .associative (values.insert key value)
  | v => v

def unsetIndexed (index : UInt64) : VariableValue → VariableValue
  | .indexed values => .indexed (values.erase index)
  | v => v

def unsetAssociative (key : Bytes) : VariableValue → VariableValue
  | .associative values => .associative (values.erase key)
  | v => v

/-- Every element in subscript order. -/
def elements : VariableValue → List Bytes
  | .scalar value => [value]
  | .indexed values => values.toList.map (·.2)
  | .associative values => values.toList.map (·.2)

/-- `u64::to_string`, as a key of an associative array. -/
def indexKey (index : UInt64) : Bytes := decimalNat index.toNat

/-- Every subscript in order, for `${!a[@]}`. -/
def keys : VariableValue → List Bytes
  | .scalar _ => [text "0"]
  | .indexed values => values.keys.map indexKey
  | .associative values => values.keys

/-- Reshape a value to a kind, keeping what it holds (`arrays::convert`). -/
def convert (value : VariableValue) (kind : VariableKind) : VariableValue :=
  match value, empty kind with
  | .scalar bytes, converted => converted.assignScalar bytes
  | .indexed values, .associative target =>
    .associative (values.toList.foldl (fun t e => t.insert (indexKey e.1) e.2) target)
  | .associative values, .indexed target =>
    .indexed (values.toList.zipIdx.foldl (fun t e => t.insert (UInt64.ofNat e.2) e.1.2) target)
  | _, converted => converted

end VariableValue

/-- What `declare` adds to a name besides the dash attributes. -/
structure BashAttributes where
  integer : Bool := false
  lowercase : Bool := false
  nameref : Bool := false
  trace : Bool := false
  uppercase : Bool := false
deriving DecidableEq, Repr

inductive BashAttribute where
  | integer
  | lowercase
  | nameref
  | trace
  | uppercase
deriving DecidableEq, Repr

def BashAttributes.set (attributes : BashAttributes) (letter : BashAttribute) (enabled : Bool) :
    BashAttributes :=
  match letter with
  | .integer => { attributes with integer := enabled }
  | .lowercase => { attributes with lowercase := enabled }
  | .nameref => { attributes with nameref := enabled }
  | .trace => { attributes with trace := enabled }
  | .uppercase => { attributes with uppercase := enabled }

/-- Persistent attributes of a shell variable. -/
structure VariableAttributes where
  exported : Bool := false
  readOnly : Bool := false
  fixed : Bool := false
deriving DecidableEq, Repr

namespace VariableAttributes

def none : VariableAttributes := {}

/-- The attributes of an entry and those a write adds to them. -/
def union (a b : VariableAttributes) : VariableAttributes where
  exported := a.exported || b.exported
  readOnly := a.readOnly || b.readOnly
  fixed := a.fixed || b.fixed

end VariableAttributes

/-- Unset, declared with a kind and nothing in it, or set. -/
inductive VariableState where
  | unset
  | declared (kind : VariableKind)
  | set (value : VariableValue)

/-- What an assignment to a name sets off. -/
inductive Callback where
  | none
  | ifs
  | mail
  | path
  | getopts
  | history
  | locale
  | special
deriving DecidableEq, Repr

structure Variable where
  attributes : VariableAttributes
  state : VariableState
  bashAttributes : BashAttributes
  callback : Callback
  /-- `$LINENO` is computed on read until a script assigns to it. -/
  dynamicLineno : Bool

namespace Variable

/-- A new entry holding `state`. -/
def fresh (state : VariableState) (attributes : VariableAttributes) (callback : Callback) :
    Variable where
  attributes := attributes
  state := state
  bashAttributes := {}
  callback := callback
  dynamicLineno := false

def scalarOwned (entry : Variable) : Option Bytes :=
  match entry.state with
  | .unset | .declared _ => Option.none
  | .set value => value.scalarOwned

end Variable

end Nsh
