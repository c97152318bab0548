import Nsh.Variables.IfsAssigned
import Nsh.Lib.Chain

/-!
# Chains of name references

`follow` walks a chain of `declare -n` variables with a bound and a list of the
names it has passed.  What it comes to is the end of the chain, and it gives up
on the chains that come back and on those that are longer than the bound.
-/

namespace Nsh.Variables

variable {W : Type}

/-- Where a reference leads on: an element, a name that refers to nothing and a
name that refers to itself are the ends of a chain. -/
def leadsTo (shell : Shell W) : Target → Option Target
  | .element _ _ => none
  | .name here =>
    match referenceTarget shell here with
    | none => none
    | some next => if next = .name here then none else some next

/-- What stands so many references down the chain from a name. -/
def chainFrom (shell : Shell W) (name : Bytes) : Nat → Option Target :=
  Chain.hop (leadsTo shell) (.name name)

theorem leadsTo_of_none {shell : Shell W} {here : Bytes} (h : referenceTarget shell here = none) :
    leadsTo shell (.name here) = none := by
  simp only [leadsTo, h]

theorem leadsTo_of_some {shell : Shell W} {here : Bytes} {next : Target}
    (h : referenceTarget shell here = some next) :
    leadsTo shell (.name here) = if next = .name here then none else some next := by
  simp only [leadsTo, h]

theorem leadsTo_name_eq_none {shell : Shell W} {here : Bytes} :
    leadsTo shell (.name here) = none ↔
      referenceTarget shell here = none ∨ referenceTarget shell here = some (.name here) := by
  cases hnext : referenceTarget shell here with
  | none => simp [leadsTo_of_none hnext]
  | some next => simp [leadsTo_of_some hnext]

/-- The names passed are the names a walk has seen. -/
theorem contains_map_name (seen : List Bytes) (here : Bytes) :
    (seen.map Target.name).contains (.name here) = seen.contains here := by
  rw [Bool.eq_iff_iff, List.contains_iff_mem, List.contains_iff_mem]
  constructor
  · intro hmem
    obtain ⟨name, hname, heq⟩ := List.mem_map.mp hmem
    cases heq
    exact hname
  · exact List.mem_map_of_mem

theorem followFrom_eq_walk (shell : Shell W) (room : Nat) (seen : List Bytes) (here : Target) :
    followFrom shell room seen here
      = Chain.walk (leadsTo shell) room (seen.map Target.name) here := by
  induction room using Nat.strong_induction_on generalizing seen here with
  | _ room ih =>
    cases here with
    | element base subscript =>
      rw [Chain.walk_of_end rfl]
      simp only [followFrom]
    | name here =>
      rw [followFrom_name, Chain.walk_eq, contains_map_name]
      cases hnext : referenceTarget shell here with
      | none => rw [leadsTo_of_none hnext]
      | some next =>
        rw [leadsTo_of_some hnext]
        by_cases hself : next = .name here
        · simp only [hself, if_true]
        · simp only [hself, if_false]
          cases room with
          | zero => rfl
          | succ room =>
            dsimp only
            rw [ih room (Nat.lt_succ_self room), List.map_append]
            rfl

theorem follow_eq_walk (shell : Shell W) (name : Bytes) :
    follow shell name = Chain.walk (leadsTo shell) referenceDepth [] (.name name) :=
  followFrom_eq_walk shell referenceDepth [] (.name name)

/-- **Following name references is total and idempotent.**  What `follow` comes to ends the
chain; a name it comes to refers to nothing or to itself, and following it stays there.
It gives up exactly where the chain comes back to what it has passed or is longer than
`referenceDepth`. -/
theorem follow_ends (shell : Shell W) (name : Bytes) :
    (∀ found, follow shell name = some found →
      ∃ k ≤ referenceDepth, chainFrom shell name k = some found ∧ leadsTo shell found = none) ∧
    (∀ found : Bytes, follow shell name = some (.name found) →
      (referenceTarget shell found = none ∨
        referenceTarget shell found = some (.name found)) ∧
      follow shell found = some (.name found)) ∧
    (follow shell name = none ↔
      (∃ j k here, j < k ∧ chainFrom shell name j = some here ∧
        chainFrom shell name k = some here) ∨
      (chainFrom shell name (referenceDepth + 1)).isSome) := by
  refine ⟨?_, ?_, ?_⟩
  · intro found h
    rw [follow_eq_walk] at h
    exact Chain.walk_some h
  · intro found h
    rw [follow_eq_walk] at h
    obtain ⟨_, _, _, hend⟩ := Chain.walk_some h
    refine ⟨leadsTo_name_eq_none.mp hend, ?_⟩
    rw [follow_eq_walk]
    exact Chain.walk_of_end hend referenceDepth []
  · rw [follow_eq_walk]
    exact Chain.walk_eq_none_iff referenceDepth (Target.name name)

end Nsh.Variables
