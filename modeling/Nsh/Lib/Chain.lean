import Mathlib.Data.List.Basic

/-!
# Following a chain

A partial successor function makes a chain from every start.  `walk` follows it
with a bound and a list of what it has passed, and comes to the end of the chain
or gives up.  It gives up exactly on the chains that come back to where they
have been and on those that are longer than the bound.
-/

namespace Nsh.Chain

variable {α : Type} (next : α → Option α)

/-- What stands so many links down the chain. -/
def hop (start : α) : Nat → Option α
  | 0 => some start
  | k + 1 => (hop start k).bind next

/-- Follow the chain to its end, with room for so many more links. -/
def walk [BEq α] : Nat → List α → α → Option α
  | room, seen, here =>
    match next here with
    | none => some here
    | some there =>
      if seen.contains here then none
      else
        match room with
        | 0 => none
        | room + 1 => walk room (seen ++ [here]) there

variable {next}

theorem hop_add (start : α) (j k : Nat) :
    hop next start (j + k) = (hop next start j).bind fun x => hop next x k := by
  induction k with
  | zero => simp [hop]
  | succ k ih =>
    show (hop next start (j + k)).bind next = _
    rw [ih, Option.bind_assoc]
    rfl

theorem hop_succ_of_next {start there : α} (h : next start = some there) (k : Nat) :
    hop next start (k + 1) = hop next there k := by
  have hone : hop next start 1 = some there := h
  rw [Nat.add_comm, hop_add, hone, Option.bind_some]

/-- Nothing is missing before a link that is there. -/
theorem hop_isSome_of_le {start : α} {j k : Nat} (hle : j ≤ k)
    (h : (hop next start k).isSome) : (hop next start j).isSome := by
  obtain ⟨m, rfl⟩ := Nat.exists_eq_add_of_le hle
  rw [hop_add] at h
  cases hj : hop next start j with
  | none => rw [hj] at h; cases h
  | some x => rfl

/-- The chain comes back to what it has passed. -/
def Returns (next : α → Option α) (start : α) : Prop :=
  ∃ j k x, j < k ∧ hop next start j = some x ∧ hop next start k = some x

/-- A chain that comes back has no end. -/
theorem hop_isSome_of_returns {start : α} (h : Returns next start) (n : Nat) :
    (hop next start n).isSome := by
  obtain ⟨j, k, x, hlt, hj, hk⟩ := h
  obtain ⟨turn, rfl⟩ := Nat.exists_eq_add_of_lt hlt
  have hturn : hop next x (turn + 1) = some x := by
    rw [Nat.add_assoc, hop_add, hj, Option.bind_some] at hk
    exact hk
  have hturns : ∀ m, hop next x (m * (turn + 1)) = some x := by
    intro m
    induction m with
    | zero => simp [hop]
    | succ m ih => rw [Nat.succ_mul, hop_add, ih, Option.bind_some, hturn]
  have hfar : (hop next start (j + n * (turn + 1))).isSome := by
    rw [hop_add, hj, Option.bind_some, hturns n]
    rfl
  apply hop_isSome_of_le _ hfar
  exact Nat.le_add_left_of_le (Nat.le_mul_of_pos_right n (Nat.succ_pos turn))

section

variable [BEq α]

theorem walk_eq (room : Nat) (seen : List α) (here : α) :
    walk next room seen here =
      match next here with
      | none => some here
      | some there =>
        if seen.contains here then none
        else
          match room with
          | 0 => none
          | room + 1 => walk next room (seen ++ [here]) there := by
  rw [walk]

/-- From the end of a chain a walk stays there. -/
theorem walk_of_end {here : α} (h : next here = none) (room : Nat) (seen : List α) :
    walk next room seen here = some here := by
  rw [walk_eq, h]

/-- What a walk comes to is the end of the chain, within the bound. -/
theorem walk_some {room : Nat} {seen : List α} {here found : α}
    (h : walk next room seen here = some found) :
    ∃ k, k ≤ room ∧ hop next here k = some found ∧ next found = none := by
  induction room generalizing seen here with
  | zero =>
    rw [walk_eq] at h
    cases hnext : next here with
    | none => rw [hnext] at h; cases h; exact ⟨0, Nat.zero_le 0, rfl, hnext⟩
    | some there =>
      rw [hnext] at h
      dsimp only at h
      split at h <;> cases h
  | succ room ih =>
    rw [walk_eq] at h
    cases hnext : next here with
    | none => rw [hnext] at h; cases h; exact ⟨0, Nat.zero_le _, rfl, hnext⟩
    | some there =>
      rw [hnext] at h
      dsimp only at h
      split at h
      · cases h
      · obtain ⟨k, hk, hhop, hend⟩ := ih h
        refine ⟨k + 1, Nat.succ_le_succ hk, ?_, hend⟩
        rw [hop_succ_of_next hnext]
        exact hhop

variable [LawfulBEq α]

/-- A walk that gives up met what it had passed, or ran out of room. -/
theorem walk_none {room : Nat} {seen : List α} {here : α}
    (h : walk next room seen here = none) :
    (∃ k x, hop next here k = some x ∧ (x ∈ seen ∨ ∃ j < k, hop next here j = some x)) ∨
      (hop next here (room + 1)).isSome := by
  induction room generalizing seen here with
  | zero =>
    rw [walk_eq] at h
    cases hnext : next here with
    | none => rw [hnext] at h; cases h
    | some there =>
      right
      rw [hop_succ_of_next hnext]
      rfl
  | succ room ih =>
    rw [walk_eq] at h
    cases hnext : next here with
    | none => rw [hnext] at h; cases h
    | some there =>
      rw [hnext] at h
      dsimp only at h
      split at h
      · next hseen => exact .inl ⟨0, here, rfl, .inl (List.contains_iff_mem.mp hseen)⟩
      · rcases ih h with ⟨k, x, hhop, hmet⟩ | hlong
        · left
          refine ⟨k + 1, x, (hop_succ_of_next hnext k).trans hhop, ?_⟩
          rcases hmet with hseen | ⟨j, hj, hearlier⟩
          · rcases List.mem_append.mp hseen with hold | hnew
            · exact .inl hold
            · -- it came back to where this walk started
              exact .inr ⟨0, Nat.succ_pos k, congrArg some (List.mem_singleton.mp hnew).symm⟩
          · exact .inr ⟨j + 1, Nat.succ_lt_succ hj, (hop_succ_of_next hnext j).trans hearlier⟩
        · right
          rw [hop_succ_of_next hnext]
          exact hlong

/-- **A walk gives up exactly where the chain comes back or is longer than the bound.** -/
theorem walk_eq_none_iff (room : Nat) (start : α) :
    walk next room [] start = none ↔
      Returns next start ∨ (hop next start (room + 1)).isSome := by
  constructor
  · intro h
    rcases walk_none h with ⟨k, x, hhop, hmet⟩ | hlong
    · rcases hmet with hseen | ⟨j, hj, hearlier⟩
      · cases hseen
      · exact .inl ⟨j, k, x, hj, hearlier, hhop⟩
    · exact .inr hlong
  · intro h
    have hlong : (hop next start (room + 1)).isSome := by
      rcases h with hreturns | hlong
      · exact hop_isSome_of_returns hreturns (room + 1)
      · exact hlong
    cases hwalk : walk next room [] start with
    | none => rfl
    | some found =>
      obtain ⟨k, hk, hhop, hend⟩ := walk_some hwalk
      have hnext := hop_isSome_of_le (Nat.succ_le_succ hk) hlong
      have hstop : hop next start (k + 1) = none := by
        show (hop next start k).bind next = none
        rw [hhop]
        exact hend
      rw [hstop] at hnext
      cases hnext

end

end Nsh.Chain
