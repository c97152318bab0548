import Nsh.Lib.Chain
import Mathlib.Data.List.Chain

/-!
# Walks by strides

A walk over the positions below a limit steps from each position it stands on by the
stride given there, and a table holds what the walk asked: the stride at the positions
it stands on, and something at those it passes over.  A table may be filled a stretch at
a time, in any stretches, as long as each begins where the one before it stopped.
-/

namespace Nsh.Strides

open Nsh.Chain

variable (stride : ℕ → ℕ) (limit : ℕ)

/-- Where the walk goes next. -/
def next (p : ℕ) : Option ℕ := if p < limit then some (p + stride p) else none

/-- The positions the walk from zero stands on. -/
def Visits (p : ℕ) : Prop := ∃ n, hop (next stride limit) 0 n = some p

/-- The table ends where the walk stands, and holds every stride the walk took so far. -/
structure Covers (table : List ℕ) : Prop where
  stands : Visits stride limit table.length
  holds : ∀ p < table.length, Visits stride limit p → table[p]? = some (stride p)

/-- The walk's own positions from `p` on, read off a table. -/
def readFrom (table : List ℕ) : ℕ → ℕ → List ℕ
  | 0, _ => []
  | room + 1, p =>
    match table[p]? with
    | none => []
    | some width => (p + max width 1) :: readFrom table room (p + max width 1)

variable {stride limit}

theorem next_eq_some {p q : ℕ} : next stride limit p = some q ↔ p < limit ∧ p + stride p = q := by
  unfold next
  split
  · next h => simp [h]
  · next h => simp [h]

theorem Visits.start : Visits stride limit 0 := ⟨0, rfl⟩

theorem Visits.step {p : ℕ} (h : Visits stride limit p) (hlt : p < limit) :
    Visits stride limit (p + stride p) := by
  obtain ⟨n, hn⟩ := h
  exact ⟨n + 1, by rw [hop, hn, Option.bind_some, next_eq_some]; exact ⟨hlt, rfl⟩⟩

/-- The walk does not go back. -/
theorem hop_le {start m k p q : ℕ} (hp : hop (next stride limit) start m = some p)
    (hq : hop (next stride limit) start (m + k) = some q) : p ≤ q := by
  induction k generalizing q with
  | zero =>
    rw [Nat.add_zero, hp] at hq
    exact (Option.some.inj hq).le
  | succ k ih =>
    obtain ⟨r, hr, hnext⟩ := Option.bind_eq_some_iff.mp hq
    have hstep := (next_eq_some.mp hnext).2
    exact le_trans (ih hr) (hstep ▸ Nat.le_add_right r _)

/-- The walk stands nowhere between a position and the next. -/
theorem Visits.next_le {p q : ℕ} (hp : Visits stride limit p) (hq : Visits stride limit q)
    (hlt : p < q) : p < limit ∧ p + stride p ≤ q := by
  obtain ⟨m, hm⟩ := hp
  obtain ⟨n, hn⟩ := hq
  rcases Nat.lt_or_ge m n with hmn | hnm
  · obtain ⟨k, rfl⟩ := Nat.exists_eq_add_of_le hmn
    have hsome : (hop (next stride limit) 0 m.succ).isSome :=
      hop_isSome_of_le (Nat.le_add_right m.succ k) (by rw [hn]; rfl)
    obtain ⟨r, hr⟩ := Option.isSome_iff_exists.mp hsome
    have hnext : next stride limit p = some r := by
      rwa [Nat.succ_eq_add_one, hop, hm, Option.bind_some] at hr
    obtain ⟨hlimit, rfl⟩ := next_eq_some.mp hnext
    exact ⟨hlimit, hop_le hr hn⟩
  · obtain ⟨k, rfl⟩ := Nat.exists_eq_add_of_le hnm
    exact absurd (hop_le hn hm) (Nat.not_le.mpr hlt)

/-! ### Tables -/

theorem covers_nil : Covers stride limit [] :=
  ⟨Visits.start, fun p hp => absurd hp (Nat.not_lt_zero p)⟩

/-- One more stride, and whatever stands for the positions it passes over. -/
theorem Covers.extend {table : List ℕ} (h : Covers stride limit table)
    (hlt : table.length < limit) (hpos : 0 < stride table.length) (filler : ℕ) :
    Covers stride limit
      (table ++ stride table.length :: List.replicate (stride table.length - 1) filler) := by
  have hlength : (table ++ stride table.length ::
      List.replicate (stride table.length - 1) filler).length =
        table.length + stride table.length := by
    simp only [List.length_append, List.length_cons, List.length_replicate]
    omega
  refine ⟨by rw [hlength]; exact h.stands.step hlt, fun p hp hvisits => ?_⟩
  rw [hlength] at hp
  rcases Nat.lt_trichotomy p table.length with hbefore | rfl | hinside
  · rw [List.getElem?_append_left hbefore]
    exact h.holds p hbefore hvisits
  · rw [List.getElem?_append_right (le_refl _), Nat.sub_self]
    rfl
  · exact absurd (h.stands.next_le hvisits hinside).2 (Nat.not_le.mpr hp)

/-- Read off a table that covers the whole walk, the positions from one on follow it
    stride by stride. -/
theorem readFrom_isChain (hpos : ∀ p < limit, 0 < stride p) {table : List ℕ}
    (h : Covers stride limit table) (hlimit : table.length = limit) (room : ℕ) :
    ∀ p, Visits stride limit p →
      (p :: readFrom table room p).IsChain (fun a b => a < limit ∧ b = a + stride a) ∧
      ∀ q ∈ p :: readFrom table room p, Visits stride limit q := by
  induction room with
  | zero =>
    intro p hp
    exact ⟨List.isChain_singleton p, fun q hq => List.mem_singleton.mp hq ▸ hp⟩
  | succ room ih =>
    intro p hp
    by_cases hlt : p < limit
    · have hget := h.holds p (by omega) hp
      have hmax : max (stride p) 1 = stride p := max_eq_left (hpos p hlt)
      obtain ⟨hchain, hvisits⟩ := ih (p + stride p) (hp.step hlt)
      simp only [readFrom, hget, hmax]
      refine ⟨List.isChain_cons_cons.mpr ⟨⟨hlt, rfl⟩, hchain⟩, fun q hq => ?_⟩
      rcases List.mem_cons.mp hq with rfl | hq
      · exact hp
      · exact hvisits q hq
    · have hget : table[p]? = none := List.getElem?_eq_none (by omega)
      simp only [readFrom, hget]
      exact ⟨List.isChain_singleton p, fun q hq => List.mem_singleton.mp hq ▸ hp⟩

/-- With room for the rest of the table, every position the walk comes to is read. -/
theorem mem_readFrom (hpos : ∀ p < limit, 0 < stride p) {table : List ℕ}
    (h : Covers stride limit table) (hlimit : table.length = limit) {q : ℕ}
    (hq : Visits stride limit q) (room : ℕ) : ∀ p, Visits stride limit p → limit ≤ p + room →
      p ≤ q → q ∈ p :: readFrom table room p := by
  induction room with
  | zero =>
    intro p hp hroom hle
    rcases Nat.eq_or_lt_of_le hle with rfl | hlt
    · exact List.mem_cons_self
    · have := (hp.next_le hq hlt).1
      omega
  | succ room ih =>
    intro p hp hroom hle
    rcases Nat.eq_or_lt_of_le hle with rfl | hlt
    · exact List.mem_cons_self
    · obtain ⟨hplimit, hnext⟩ := hp.next_le hq hlt
      have hget := h.holds p (by omega) hp
      have hstride := hpos p hplimit
      have hmax : max (stride p) 1 = stride p := max_eq_left hstride
      simp only [readFrom, hget, hmax]
      exact List.mem_cons_of_mem _ (ih (p + stride p) (hp.step hplimit) (by omega) hnext)

end Nsh.Strides
