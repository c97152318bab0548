import Mathlib.Logic.Function.Basic
import Nsh.Shell.Bytes

/-!
# The alias table

An alias is in use while its text is read, and is not expanded again meanwhile.  What is
removed in that time stays, marked dead, until its text is released.
-/

namespace Nsh.Aliases

structure Alias where
  value : Bytes
  inUse : Bool
  dead : Bool
deriving DecidableEq, Repr

/-- Every alias under its name. -/
abbrev AliasTable : Type := Bytes → Option Alias

namespace AliasTable

def new : AliasTable := fun _ => none

def set (name value : Bytes) (aliases : AliasTable) : AliasTable :=
  Function.update aliases name (some (match aliases name with
    | some entry => { entry with value := value, dead := false }
    | none => { value := value, inUse := false, dead := false }))

/-- `lookup`; with the check, an alias in use is not found. -/
def lookup (aliases : AliasTable) (name : Bytes) (checkInUse : Bool) : Option Bytes :=
  (aliases name).bind fun entry =>
    if checkInUse = false ∨ entry.inUse = false then some entry.value else none

def beginExpansion (name : Bytes) (aliases : AliasTable) : AliasTable :=
  Function.update aliases name ((aliases name).map fun entry => { entry with inUse := true })

/-- What becomes of an alias whose text is released. -/
def finished : Option Alias → Option Alias
  | none => none
  | some entry => if entry.dead then none else some { entry with inUse := false }

def finishExpansion (name : Bytes) (aliases : AliasTable) : AliasTable :=
  Function.update aliases name (finished (aliases name))

/-- What becomes of an alias that is removed. -/
def removed : Option Alias → Option Alias
  | none => none
  | some entry => if entry.inUse then some { entry with dead := true } else none

def remove (name : Bytes) (aliases : AliasTable) : AliasTable :=
  Function.update aliases name (removed (aliases name))

def clear (aliases : AliasTable) : AliasTable := fun name => removed (aliases name)

/-- Whether an alias of this name is in use. -/
def inUse (aliases : AliasTable) (name : Bytes) : Bool := (aliases name).any Alias.inUse

variable {aliases : AliasTable} {name other : Bytes}

theorem inUse_set (value : Bytes) : inUse (set name value aliases) other = inUse aliases other := by
  unfold inUse set
  by_cases hsame : other = name
  · subst hsame
    rw [Function.update_self]
    cases aliases other with
    | none => rfl
    | some entry => rfl
  · rw [Function.update_of_ne hsame]

theorem any_removed (entry : Option Alias) :
    (removed entry).any Alias.inUse = entry.any Alias.inUse := by
  rcases entry with _ | ⟨value, _ | _, dead⟩
  · rfl
  · rfl
  · rfl

theorem inUse_remove : inUse (remove name aliases) other = inUse aliases other := by
  unfold inUse remove
  by_cases hsame : other = name
  · rw [hsame, Function.update_self, any_removed]
  · rw [Function.update_of_ne hsame]

theorem inUse_clear : inUse (clear aliases) name = inUse aliases name := any_removed _

theorem inUse_beginExpansion (hsome : (aliases name).isSome = true) :
    inUse (beginExpansion name aliases) other = (decide (other = name) || inUse aliases other) := by
  unfold inUse beginExpansion
  by_cases hsame : other = name
  · obtain ⟨entry, hentry⟩ := Option.isSome_iff_exists.mp hsome
    rw [hsame, Function.update_self, hentry, decide_eq_true rfl]
    rfl
  · rw [Function.update_of_ne hsame, decide_eq_false hsame, Bool.false_or]

theorem finished_finished (entry : Option Alias) : finished (finished entry) = finished entry := by
  rcases entry with _ | ⟨value, inUse, _ | _⟩
  · rfl
  · rfl
  · rfl

theorem any_finished (entry : Option Alias) : (finished entry).any Alias.inUse = false := by
  rcases entry with _ | ⟨value, inUse, _ | _⟩
  · rfl
  · rfl
  · rfl

/-- What the check finds is there and not in use. -/
theorem lookup_true {value : Bytes} (h : lookup aliases name true = some value) :
    (aliases name).isSome = true ∧ inUse aliases name = false := by
  unfold lookup at h
  cases hentry : aliases name with
  | none =>
    rw [hentry] at h
    cases h
  | some entry =>
    rw [hentry, Option.bind_some] at h
    refine ⟨rfl, ?_⟩
    unfold inUse
    rw [hentry]
    split at h
    · next hfree => exact hfree.resolve_left (by simp)
    · cases h

end AliasTable

end Nsh.Aliases
