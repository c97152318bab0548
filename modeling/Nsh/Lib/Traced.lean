import Nsh.Lib.Run

/-!
# Computations that tell events

A computation tells events on its way to an outcome; one that has not ended has told
some.  `Cut` relates a computation to one that it follows up to the first event that
stops it: from there on the second goes its way alone.
-/

namespace Nsh

/-- The events told so far, and how the computation ended. -/
structure Told (σ ε ι α : Type) where
  events : List ι
  outcome : Outcome σ ε α

/-- A computation over a state that tells events. -/
def Traced (σ ε ι α : Type) : Type := σ → Told σ ε ι α

namespace Traced

variable {σ ε ι κ α β : Type}

instance : Monad (Traced σ ε ι) where
  pure a := fun s => ⟨[], .done a s⟩
  bind m f := fun s =>
    match (m s).outcome with
    | .done a t => ⟨(m s).events ++ (f a t).events, (f a t).outcome⟩
    | .failed e t => ⟨(m s).events, .failed e t⟩
    | .unfinished => ⟨(m s).events, .unfinished⟩

def tell (event : ι) : Traced σ ε ι Unit := fun s => ⟨[event], .done () s⟩

/-- A computation that tells nothing. -/
def silently (m : Run σ ε α) : Traced σ ε ι α := fun s => ⟨[], m s⟩

/-- A computation that was not given room enough. -/
def unfinished : Traced σ ε ι α := fun _ => ⟨[], .unfinished⟩

/-- Change the state a computation ends in, whether it came to a value or failed. -/
def leaving (f : σ → σ → σ) (m : Traced σ ε ι α) : Traced σ ε ι α := fun s =>
  match (m s).outcome with
  | .done a t => ⟨(m s).events, .done a (f s t)⟩
  | .failed e t => ⟨(m s).events, .failed e (f s t)⟩
  | .unfinished => ⟨(m s).events, .unfinished⟩

/-- Go on from a failure. -/
def rescuing (h : ε → Traced σ ε ι α) (m : Traced σ ε ι α) : Traced σ ε ι α := fun s =>
  match (m s).outcome with
  | .failed e t => ⟨(m s).events ++ (h e t).events, (h e t).outcome⟩
  | _ => m s

/-- Tell something else in the place of the events of a computation. -/
def telling (f : σ → Told σ ε ι α → List κ) (m : Traced σ ε ι α) : Traced σ ε κ α := fun s =>
  ⟨f s (m s), (m s).outcome⟩

theorem leaving_events (f : σ → σ → σ) (m : Traced σ ε ι α) (s : σ) :
    (m.leaving f s).events = (m s).events := by
  unfold leaving
  cases (m s).outcome <;> rfl

theorem leaving_outcome (f : σ → σ → σ) (m : Traced σ ε ι α) (s : σ) :
    (m.leaving f s).outcome = match (m s).outcome with
      | .done a t => .done a (f s t)
      | .failed e t => .failed e (f s t)
      | .unfinished => .unfinished := by
  unfold leaving
  cases (m s).outcome <;> rfl

theorem bind_apply (m : Traced σ ε ι α) (f : α → Traced σ ε ι β) (s : σ) :
    (m >>= f) s = match (m s).outcome with
      | .done a t => ⟨(m s).events ++ (f a t).events, (f a t).outcome⟩
      | .failed e t => ⟨(m s).events, .failed e t⟩
      | .unfinished => ⟨(m s).events, .unfinished⟩ := rfl

theorem bind_assoc {γ : Type} (m : Traced σ ε ι α) (f : α → Traced σ ε ι β)
    (g : β → Traced σ ε ι γ) : (m >>= f) >>= g = m >>= fun a => f a >>= g := by
  funext s
  simp only [bind_apply]
  cases (m s).outcome with
  | done a t =>
    simp only
    cases (f a t).outcome with
    | done b u => simp only [List.append_assoc]
    | failed e u => rfl
    | unfinished => rfl
  | failed e t => rfl
  | unfinished => rfl

end Traced

/-! ### Stopping at an event -/

section Cut

variable {σ ε ι κ α β : Type}

/-- The events up to the first one that stops, with it. -/
def upTo (stops : κ → Bool) : List κ → Option (List κ)
  | [] => none
  | event :: rest =>
    if stops event then some [event] else (upTo stops rest).map (event :: ·)

theorem upTo_append_some {stops : κ → Bool} {before told : List κ}
    (h : upTo stops told = some before) (rest : List κ) :
    upTo stops (told ++ rest) = some before := by
  induction told generalizing before with
  | nil => cases h
  | cons event told ih =>
    simp only [upTo, List.cons_append] at h ⊢
    split at h
    · next hstops => rw [if_pos hstops, h]
    · next hstops =>
      obtain ⟨before', hbefore, rfl⟩ := Option.map_eq_some_iff.mp h
      rw [if_neg hstops, ih hbefore, Option.map_some]

theorem upTo_append_none {stops : κ → Bool} {told : List κ} (h : upTo stops told = none)
    (rest : List κ) : upTo stops (told ++ rest) = (upTo stops rest).map (told ++ ·) := by
  induction told with
  | nil => simp
  | cons event told ih =>
    simp only [upTo, List.cons_append] at h ⊢
    split at h
    · cases h
    · next hstops =>
      rw [if_neg hstops, ih (Option.map_eq_none_iff.mp h), Option.map_map]
      rfl

theorem upTo_first {stops : κ → Bool} {before : List κ} {event : κ} (hevent : stops event = true)
    (hbefore : ∀ other ∈ before, stops other = false) (rest : List κ) :
    upTo stops (before ++ event :: rest) = some (before ++ [event]) := by
  induction before with
  | nil => exact if_pos hevent
  | cons other before ih =>
    obtain ⟨hother, hbefore⟩ := List.forall_mem_cons.mp hbefore
    simp only [upTo, List.cons_append]
    rw [if_neg (by rw [hother]; exact Bool.false_ne_true), ih hbefore, Option.map_some]

theorem upTo_none {stops : κ → Bool} {told : List κ} (h : ∀ event ∈ told, stops event = false) :
    upTo stops told = none := by
  induction told with
  | nil => rfl
  | cons event told ih =>
    obtain ⟨hevent, hrest⟩ := List.forall_mem_cons.mp h
    simp only [upTo]
    rw [if_neg (by rw [hevent]; exact Bool.false_ne_true), ih hrest, Option.map_none]

variable (stops : κ → Bool) (see : κ → ι)

/-- `m` ends at the first event of `t` that stops it, with the value `halt`; where there
    is none, it does what `t` does.  `see` is what `m` tells of an event of `t`. -/
inductive Cut (halt : α) (m : Told σ ε ι α) (t : Told σ ε κ α) : Prop where
  | stopped (before : List κ) (s : σ) (hbefore : upTo stops t.events = some before)
      (hevents : m.events = before.map see) (houtcome : m.outcome = .done halt s)
  | whole (hnone : upTo stops t.events = none) (hevents : m.events = t.events.map see)
      (houtcome : m.outcome = t.outcome)

variable {stops see}

theorem Cut.of_silent {halt : α} {m : Told σ ε ι α} {t : Told σ ε κ α} (hm : m.events = [])
    (ht : t.events = []) (h : m.outcome = t.outcome) : Cut stops see halt m t :=
  .whole (by rw [ht]; rfl) (by rw [hm, ht]; rfl) h

theorem Cut.pure {halt a : α} {s : σ} :
    Cut stops see halt ((Pure.pure a : Traced σ ε ι α) s) ((Pure.pure a : Traced σ ε κ α) s) :=
  Cut.of_silent rfl rfl rfl

/-- What follows a computation follows it in the cut too, if it passes on `halt`. -/
theorem Cut.bind {halt : α} {halt' : β} {m : Traced σ ε ι α} {t : Traced σ ε κ α}
    {f : α → Traced σ ε ι β} {g : α → Traced σ ε κ β} {s : σ}
    (h : Cut stops see halt (m s) (t s)) (hhalt : ∀ u, f halt u = ⟨[], .done halt' u⟩)
    (hf : ∀ a u, Cut stops see halt' (f a u) (g a u)) :
    Cut stops see halt' ((m >>= f) s) ((t >>= g) s) := by
  rw [Traced.bind_apply, Traced.bind_apply]
  cases h with
  | stopped before u hbefore hevents houtcome =>
    rw [houtcome]
    simp only [hhalt, List.append_nil]
    cases (t s).outcome with
    | done a v => exact .stopped before u (upTo_append_some hbefore _) hevents rfl
    | failed e v => exact .stopped before u hbefore hevents rfl
    | unfinished => exact .stopped before u hbefore hevents rfl
  | whole hnone hevents houtcome =>
    rw [houtcome]
    cases (t s).outcome with
    | done a v =>
      have hrest := upTo_append_none hnone (g a v).events
      cases hf a v with
      | stopped before u hbefore hevents' houtcome' =>
        refine .stopped ((t s).events ++ before) u ?_ ?_ houtcome'
        · rw [hrest, hbefore, Option.map_some]
        · simp only [hevents, hevents', List.map_append]
      | whole hnone' hevents' houtcome' =>
        refine .whole ?_ ?_ houtcome'
        · rw [hrest, hnone', Option.map_none]
        · simp only [hevents, hevents', List.map_append]
    | failed e v => exact .whole hnone hevents rfl
    | unfinished => exact .whole hnone hevents rfl

/-- Sequencing behind a computation that tells nothing and that both share. -/
theorem Cut.silently_bind {halt : β} (m : Run σ ε α) {f : α → Traced σ ε ι β}
    {g : α → Traced σ ε κ β} {s : σ}
    (hf : ∀ a u, m s = .done a u → Cut stops see halt (f a u) (g a u)) :
    Cut stops see halt ((Traced.silently m >>= f) s) ((Traced.silently m >>= g) s) := by
  rw [Traced.bind_apply, Traced.bind_apply]
  unfold Traced.silently
  cases hm : m s with
  | done a t =>
    simp only [List.nil_append]
    exact hf a t hm
  | failed e t => exact Cut.of_silent rfl rfl rfl
  | unfinished => exact Cut.of_silent rfl rfl rfl

theorem Cut.leaving {halt : α} {m : Traced σ ε ι α} {t : Traced σ ε κ α} {s : σ}
    (f : σ → σ → σ) (h : Cut stops see halt (m s) (t s)) :
    Cut stops see halt (m.leaving f s) (t.leaving f s) := by
  cases h with
  | stopped before u hbefore hevents houtcome =>
    refine .stopped before (f s u) ?_ ?_ ?_
    · rw [Traced.leaving_events, hbefore]
    · rw [Traced.leaving_events, hevents]
    · rw [Traced.leaving_outcome, houtcome]
  | whole hnone hevents houtcome =>
    refine .whole ?_ ?_ ?_
    · rw [Traced.leaving_events, hnone]
    · rw [Traced.leaving_events, Traced.leaving_events, hevents]
    · rw [Traced.leaving_outcome, Traced.leaving_outcome, houtcome]

end Cut

end Nsh
