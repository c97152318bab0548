import Mathlib.Data.List.Infix

/-!
# A channel that may be cut

What is sent waits in a queue and leaves it at the other end in the order it came.
An operation that succeeds has put its items behind what waits; one that fails has
cut the channel: some of what waited and of its own items went through, and nothing
waits any more.  So nothing arrives twice or out of order, and where nothing failed
nothing is missing.
-/

namespace Nsh

/-- What has arrived, and what waits. -/
structure Channel (α : Type) where
  arrived : List α
  queued : List α
deriving DecidableEq, Repr

namespace Channel

variable {α : Type}

/-- Everything that has gone in and has not been lost. -/
def all (c : Channel α) : List α := c.arrived ++ c.queued

/-- These items were sent, and the channel has kept them all. -/
structure Kept (items : List α) (c d : Channel α) : Prop where
  arrived : c.arrived <+: d.arrived
  all : d.all = c.all ++ items

/-- These items were sent and the channel was cut: the part of what waited and of them
that arrived is in front, and nothing waits. -/
structure Cut (items : List α) (c d : Channel α) : Prop where
  arrived : ∃ part, part <+: c.queued ++ items ∧ d.arrived = c.arrived ++ part
  queued : d.queued = []

theorem Kept.refl (c : Channel α) : Kept [] c c := ⟨List.prefix_refl _, (List.append_nil _).symm⟩

theorem Kept.trans {items more : List α} {c d e : Channel α} (h : Kept items c d)
    (h' : Kept more d e) : Kept (items ++ more) c e :=
  ⟨h.arrived.trans h'.arrived, by rw [h'.all, h.all, List.append_assoc]⟩

/-- A cut behind items that were kept. -/
theorem Kept.cut {items more : List α} {c d e : Channel α} (h : Kept items c d)
    (h' : Cut more d e) : Cut (items ++ more) c e := by
  obtain ⟨part, hpart, harrived⟩ := h'.arrived
  obtain ⟨gone, hgone⟩ := h.arrived
  have hall : c.queued ++ items = gone ++ d.queued := by
    have hall := h.all
    rw [Channel.all, Channel.all, ← hgone, List.append_assoc, List.append_assoc] at hall
    exact (List.append_cancel_left hall).symm
  refine ⟨⟨gone ++ part, ?_, ?_⟩, h'.queued⟩
  · rw [← List.append_assoc, hall, List.append_assoc]
    exact List.prefix_append_right_inj gone |>.mpr hpart
  · rw [harrived, ← hgone, List.append_assoc]

/-- A cut channel has cut what more it was given. -/
theorem Cut.mono {items more : List α} {c d : Channel α} (h : Cut items c d)
    (hmore : items <+: more) : Cut more c d := by
  obtain ⟨part, hpart, harrived⟩ := h.arrived
  exact ⟨⟨part, hpart.trans (List.prefix_append_right_inj c.queued |>.mpr hmore), harrived⟩,
    h.queued⟩

/-- An operation that was given these items and whether it succeeded. -/
def Sends (items : List α) (succeeded : Bool) (c d : Channel α) : Prop :=
  if succeeded then Kept items c d else Cut items c d

/-- What a run sends, in order. -/
inductive Run : List (List α × Bool) → Channel α → Channel α → Prop where
  | nil (c) : Run [] c c
  | cons {items succeeded rest c d e} (first : Sends items succeeded c d)
      (behind : Run rest d e) : Run ((items, succeeded) :: rest) c e

/-- Whatever fails, what has gone in and not been lost is, in order, some of what was sent. -/
theorem Sends.sublist {items sent : List α} {succeeded : Bool} {c d : Channel α}
    (h : Sends items succeeded c d) (hc : c.all.Sublist sent) :
    d.all.Sublist (sent ++ items) := by
  cases succeeded with
  | true =>
    have hkept : Kept items c d := h
    rw [hkept.all]
    exact hc.append (List.Sublist.refl items)
  | false =>
    obtain ⟨⟨part, hpart, harrived⟩, hqueued⟩ : Cut items c d := h
    rw [Channel.all, harrived, hqueued, List.append_nil]
    have hall : (c.arrived ++ part).Sublist (c.arrived ++ (c.queued ++ items)) :=
      (List.Sublist.refl _).append hpart.sublist
    rw [← List.append_assoc] at hall
    exact hall.trans (hc.append (List.Sublist.refl items))

/-- **Nothing arrives twice or out of order.** -/
theorem Run.sublist {run : List (List α × Bool)} {c d : Channel α} (h : Run run c d) :
    d.all.Sublist (c.all ++ run.flatMap Prod.fst) := by
  suffices hgeneral : ∀ sent, c.all.Sublist sent → d.all.Sublist (sent ++ run.flatMap Prod.fst) by
    exact hgeneral _ (List.Sublist.refl _)
  induction h with
  | nil c =>
    intro sent hsent
    rw [List.flatMap_nil, List.append_nil]
    exact hsent
  | cons first behind ih =>
    intro sent hsent
    rw [List.flatMap_cons, ← List.append_assoc]
    exact ih _ (first.sublist hsent)

/-- **Nothing is missing where nothing failed.** -/
theorem Run.kept {run : List (List α × Bool)} {c d : Channel α} (h : Run run c d)
    (hsucceeded : ∀ operation ∈ run, operation.2 = true) :
    Kept (run.flatMap Prod.fst) c d := by
  induction h with
  | nil c => exact Kept.refl c
  | cons first behind ih =>
    obtain rfl := hsucceeded _ List.mem_cons_self
    rw [List.flatMap_cons]
    exact Kept.trans first (ih fun operation hmem =>
      hsucceeded operation (List.mem_cons_of_mem _ hmem))

end Channel

end Nsh
