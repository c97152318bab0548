import Mathlib.Logic.Relation
import Mathlib.Order.Nat
import Mathlib.Order.Lattice.Nat
import Mathlib.Tactic.Ring

/-!
# How deep a recursion goes

A recursion is a relation `calls a b`: the activation `a` opens the activation
`b`.  `Nest calls n a b` is a stack of `n` activations above `a` with `b` on top,
and `AtMost calls a d` says that no stack above `a` is higher than `d`.

The recursion of a walk over a structure is compared with the nesting of the
structure itself, a recursion too: `inside s t` says that `t` is directly inside
`s`.  When each call either goes further inside, or keeps to what it already
sees and spends one of its `steps` there (`Descends`), the walk is at most
`nesting · (m + 1) + m` deep, with `m` a bound of the steps
(`Descends.atMost`).
-/

namespace Nsh.Depth

variable {α β : Type}

/-- `n` nested activations lead from `a` to `b`. -/
inductive Nest (calls : α → α → Prop) : ℕ → α → α → Prop
  | here (a : α) : Nest calls 0 a a
  | call {n : ℕ} {a b c : α} : calls a b → Nest calls n b c → Nest calls (n + 1) a c

/-- No more than `d` activations are ever nested above `a`. -/
def AtMost (calls : α → α → Prop) (a : α) (d : ℕ) : Prop :=
  ∀ n b, Nest calls n a b → n ≤ d

/-- The depth of the recursion that starts at `a`. -/
noncomputable def depth (calls : α → α → Prop) (a : α) : ℕ :=
  sInf {d | AtMost calls a d}

variable {calls : α → α → Prop} {inside : β → β → Prop}

theorem Nest.append {m n : ℕ} {a b c : α} (h : Nest calls m a b) (k : Nest calls n b c) :
    Nest calls (m + n) a c := by
  induction h with
  | here _ => simpa using k
  | call hab _ ih =>
    have := Nest.call hab (ih k)
    rwa [Nat.add_right_comm] at this

theorem Nest.one {a b : α} (h : calls a b) : Nest calls 1 a b := .call h (.here b)

theorem AtMost.mono {a : α} {d e : ℕ} (h : AtMost calls a d) (hde : d ≤ e) :
    AtMost calls a e :=
  fun n b hn => le_trans (h n b hn) hde

theorem AtMost.depth {a : α} {d : ℕ} (h : AtMost calls a d) : AtMost calls a (depth calls a) :=
  Nat.sInf_mem (s := {d | AtMost calls a d}) ⟨d, h⟩

theorem AtMost.depth_le {a : α} {d : ℕ} (h : AtMost calls a d) : Depth.depth calls a ≤ d :=
  Nat.sInf_le h

theorem AtMost.call {a b : α} {d : ℕ} (h : AtMost calls a d) (hab : calls a b) :
    ∃ e, d = e + 1 ∧ AtMost calls b e := by
  have hd : 1 ≤ d := h 1 b (.one hab)
  obtain ⟨e, rfl⟩ : ∃ e, d = e + 1 := ⟨d - 1, by omega⟩
  refine ⟨e, rfl, ?_⟩
  intro n c hn
  have := h (n + 1) c (.call hab hn)
  omega

theorem AtMost.transGen {a b : α} {d : ℕ} (h : AtMost calls a d)
    (hab : Relation.TransGen calls a b) : ∃ e, d = e + 1 ∧ AtMost calls b e := by
  induction hab with
  | single hab => exact h.call hab
  | tail _ hbc ih =>
    obtain ⟨e, rfl, he⟩ := ih
    obtain ⟨e', rfl, he'⟩ := he.call hbc
    exact ⟨e' + 1, rfl, he'.mono (Nat.le_succ _)⟩

/-- Whatever is directly in `b` is directly in `a`. -/
def Sees (inside : β → β → Prop) (a b : β) : Prop := ∀ x, inside b x → inside a x

theorem Sees.refl (a : β) : Sees inside a a := fun _ h => h

theorem Sees.trans {a b c : β} (h : Sees inside a b) (k : Sees inside b c) :
    Sees inside a c :=
  fun x hx => h x (k x hx)

theorem transGen_of_sees {a b c : β} (h : Sees inside a b)
    (k : Relation.TransGen inside b c) : Relation.TransGen inside a c := by
  induction k with
  | single hbc => exact .single (h _ hbc)
  | tail _ hcd ih => exact ih.tail hcd

/-- What sees no more is nested no deeper. -/
theorem AtMost.of_sees {a b : α} {d : ℕ} (h : AtMost calls a d) (hab : Sees calls a b) :
    AtMost calls b d := by
  intro n c hn
  cases hn with
  | here _ => exact Nat.zero_le d
  | call hbc hn => exact h _ _ (.call (hab _ hbc) hn)

theorem AtMost.of_none {a : α} (h : ∀ b, ¬calls a b) : AtMost calls a 0 := by
  intro n b hn
  cases hn with
  | here _ => exact le_refl 0
  | call hab _ => exact absurd hab (h _)

theorem AtMost.of_inside_all {a : α} {d : ℕ} (h : ∀ b, calls a b → AtMost calls b d) :
    AtMost calls a (d + 1) := by
  intro n c hn
  cases hn with
  | here _ => exact Nat.zero_le _
  | call hab hn => exact Nat.succ_le_succ (h _ hab _ _ hn)

/-- A measure that decreases bounds the depth. -/
theorem atMost_of_measure (size : α → ℕ) (h : ∀ a b, calls a b → size b < size a) (a : α) :
    AtMost calls a (size a) := by
  intro n b hn
  induction hn with
  | here _ => exact Nat.zero_le _
  | call hab _ ih =>
    have := h _ _ hab
    omega

/-- `t` is seen from further inside `s`. -/
def Further (inside : β → β → Prop) (s t : β) : Prop :=
  ∃ c, Relation.TransGen inside s c ∧ Sees inside c t

theorem Further.of_inside {s t : β} (h : inside s t) : Further inside s t :=
  ⟨t, .single h, .refl t⟩

theorem Further.of_transGen {s t : β} (h : Relation.TransGen inside s t) : Further inside s t :=
  ⟨t, h, .refl t⟩

/-- Each call of the walk goes further inside its subject, or sees nothing new
    and spends a step. -/
def Descends (calls : α → α → Prop) (inside : β → β → Prop) (subject : α → β)
    (steps : α → ℕ) : Prop :=
  ∀ a b, calls a b →
    Further inside (subject a) (subject b) ∨
      (Sees inside (subject a) (subject b) ∧ steps b < steps a)

/-- **A walk is as deep as its subject is nested, times the steps it takes on a
    level.** -/
theorem Descends.atMost {subject : α → β} {steps : α → ℕ} {m : ℕ}
    (h : Descends calls inside subject steps) {a : α}
    (hm : ∀ n b, Nest calls n a b → steps b ≤ m) {d : ℕ} (hd : AtMost inside (subject a) d) :
    AtMost calls a (d * (m + 1) + steps a) := by
  intro n c hn
  induction hn generalizing d with
  | here _ => exact Nat.zero_le _
  | @call n a b c hab hn ih =>
    have hmb : ∀ k x, Nest calls k b x → steps x ≤ m := by
      intro k x hk
      exact hm (k + 1) x (.call hab hk)
    have hb : steps b ≤ m := hmb 0 b (.here b)
    cases h a b hab with
    | inl further =>
      obtain ⟨c, hc, hcb⟩ := further
      obtain ⟨e, rfl, he⟩ := hd.transGen hc
      have hle : n ≤ e * (m + 1) + steps b := ih hmb (he.of_sees hcb)
      have : (e + 1) * (m + 1) = e * (m + 1) + (m + 1) := by ring
      omega
    | inr same =>
      have hle : n ≤ d * (m + 1) + steps b := ih hmb (hd.of_sees same.1)
      have := same.2
      omega

end Nsh.Depth
