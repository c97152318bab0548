import Nsh.Lib.Run

/-!
# What a computation keeps

A property of the state that a computation keeps however it ends, and a property
of the values it comes to.  The rules follow how computations are put together.
-/

namespace Nsh

variable {σ τ ε α β : Type} {P : σ → Prop}

/-- The state keeps `P`, and a value satisfies `Q`. -/
def Outcome.Meets (P : σ → Prop) (Q : α → Prop) : Outcome σ ε α → Prop
  | .done a t => Q a ∧ P t
  | .failed _ t => P t
  | .unfinished => True

namespace Run

/-- `m` keeps `P` however it ends, and a value it comes to satisfies `Q`. -/
def Ensures (P : σ → Prop) (m : Run σ ε α) (Q : α → Prop) : Prop :=
  ∀ s, P s → (m s).Meets P Q

/-- `m` keeps `P` however it ends. -/
def Preserves (P : σ → Prop) (m : Run σ ε α) : Prop := m.Ensures P fun _ => True

/-- A run of `m` from `s` ends in `t`, with a value or an error. -/
def Ends (m : Run σ ε α) (s t : σ) : Prop := (∃ a, m s = .done a t) ∨ ∃ e, m s = .failed e t

theorem ends_modify {f : σ → σ} {s t : σ} (h : (modify f : Run σ ε Unit).Ends s t) : t = f s := by
  rcases h with ⟨a, ha⟩ | ⟨e, he⟩
  · cases ha; rfl
  · cases he

theorem ends_bind {m : Run σ ε α} {f : α → Run σ ε β} {s t : σ} (h : (m >>= f).Ends s t) :
    (∃ a u, m s = .done a u ∧ (f a).Ends u t) ∨ ∃ e, m s = .failed e t := by
  unfold Ends at h
  rw [bind_apply] at h
  cases hm : m s with
  | done a u => rw [hm] at h; exact .inl ⟨a, u, rfl, h⟩
  | failed e u =>
    rw [hm] at h
    rcases h with ⟨a, ha⟩ | ⟨e', he'⟩
    · cases ha
    · cases he'; exact .inr ⟨e, rfl⟩
  | unfinished =>
    rw [hm] at h
    rcases h with ⟨a, ha⟩ | ⟨e', he'⟩
    · cases ha
    · cases he'

/-- Throwing the value away changes nothing about where a run ends. -/
theorem ends_discard {m : Run σ ε α} {b : β} {s t : σ}
    (h : (m >>= fun _ => pure b).Ends s t) : m.Ends s t := by
  rcases ends_bind h with ⟨a, u, hm, hpure⟩ | hfailed
  · rcases hpure with ⟨b', hb⟩ | ⟨e, he⟩
    · cases hb; exact .inl ⟨a, hm⟩
    · cases he
  · exact .inr hfailed

/-- After a change of state that cannot fail. -/
theorem ends_modify_bind {g : σ → σ} {f : Unit → Run σ ε β} {s t : σ}
    (h : (modify g >>= f).Ends s t) : (f ()).Ends (g s) t := h

/-- After the state is read. -/
theorem ends_get_bind {f : σ → Run σ ε β} {s t : σ} (h : (get >>= f).Ends s t) : (f s).Ends s t := h

/-- Where a run ends, its ending is met. -/
theorem ends_meets {m : Run σ ε α} {Q : α → Prop} {s t : σ} (hm : m.Ends s t)
    (h : (m s).Meets P Q) : P t := by
  rcases hm with ⟨a, ha⟩ | ⟨e, he⟩
  · rw [ha] at h; exact h.2
  · rw [he] at h; exact h

/-- One run of a sequence. -/
theorem meets_bind {m : Run σ ε α} {Q : α → Prop} {s : σ} (h : (m s).Meets P Q)
    {f : α → Run σ ε β} {R : β → Prop} (hf : ∀ a, Q a → (f a).Ensures P R) :
    ((m >>= f) s).Meets P R := by
  rw [bind_apply]
  cases hm : m s with
  | done a t => rw [hm] at h; exact hf a h.1 t h.2
  | failed e t => rw [hm] at h; exact h
  | unfinished => trivial

namespace Ensures

variable {m : Run σ ε α} {Q R : α → Prop}

theorem done (h : m.Ensures P Q) {s t : σ} {a : α} (hs : P s) (hm : m s = .done a t) :
    Q a ∧ P t := by
  have hrun := h s hs
  rw [hm] at hrun
  exact hrun

theorem failed (h : m.Ensures P Q) {s t : σ} {e : ε} (hs : P s) (hm : m s = .failed e t) :
    P t := by
  have hrun := h s hs
  rw [hm] at hrun
  exact hrun

theorem mono (h : m.Ensures P Q) (hQR : ∀ a, Q a → R a) : m.Ensures P R := by
  intro s hs
  have hrun := h s hs
  cases hm : m s with
  | done a t => rw [hm] at hrun; exact ⟨hQR a hrun.1, hrun.2⟩
  | failed e t => rw [hm] at hrun; exact hrun
  | unfinished => trivial

theorem preserves (h : m.Ensures P Q) : m.Preserves P := h.mono fun _ _ => trivial

theorem bind (h : m.Ensures P Q) {f : α → Run σ ε β} {R : β → Prop}
    (hf : ∀ a, Q a → (f a).Ensures P R) : (m >>= f).Ensures P R :=
  fun s hs => meets_bind (h s hs) hf

theorem mapError (h : m.Ensures P Q) (g : ε → ε) : (Run.mapError g m).Ensures P Q := by
  intro s hs
  have hrun := h s hs
  unfold Run.mapError
  cases hm : m s with
  | done a t => rw [hm] at hrun; exact hrun
  | failed e t => rw [hm] at hrun; exact hrun
  | unfinished => trivial

end Ensures

theorem ensures_pure {Q : α → Prop} {a : α} (h : Q a) : (pure a : Run σ ε α).Ensures P Q :=
  fun _ hs => ⟨h, hs⟩

theorem ensures_fail (e : ε) {Q : α → Prop} : (fail e : Run σ ε α).Ensures P Q := fun _ hs => hs

theorem ensures_bot {Q : α → Prop} : (⊥ : Run σ ε α).Ensures P Q := fun _ _ => trivial

theorem ensures_get : (get : Run σ ε σ).Ensures P P := fun _ hs => ⟨hs, hs⟩

theorem preserves_modify {f : σ → σ} (h : ∀ s, P s → P (f s)) :
    (modify f : Run σ ε Unit).Preserves P := fun s hs => ⟨trivial, h s hs⟩

theorem preserves_pure (a : α) : (pure a : Run σ ε α).Preserves P := ensures_pure trivial

namespace Preserves

variable {m : Run σ ε α}

theorem ends (h : m.Preserves P) {s t : σ} (hs : P s) (hm : m.Ends s t) : P t :=
  ends_meets hm (h s hs)

/-- In a sequence, what follows may use that the state it starts in has the property. -/
theorem bind (h : m.Preserves P) {f : α → Run σ ε β} {R : β → Prop}
    (hf : ∀ a, (f a).Ensures P R) : (m >>= f).Ensures P R := Ensures.bind h fun a _ => hf a

theorem within {look : τ → σ} {put : σ → τ → τ} (hput : ∀ s t, look (put s t) = s)
    (h : m.Preserves P) : (Run.within look put m).Preserves fun t => P (look t) := by
  intro t ht
  have hrun := h (look t) ht
  unfold Run.within
  cases hm : m (look t) with
  | done a s =>
    rw [hm] at hrun
    exact ⟨trivial, show P (look (put s t)) by rw [hput]; exact hrun.2⟩
  | failed e s =>
    rw [hm] at hrun
    show P (look (put s t))
    rw [hput]
    exact hrun
  | unfinished => trivial

end Preserves

/-- `m` goes from `P` to `R`, however it ends. -/
def Leads (P : σ → Prop) (m : Run σ ε α) (R : σ → Prop) : Prop :=
  ∀ s, P s → (m s).Meets R fun _ => True

namespace Leads

variable {R : σ → Prop} {m : Run σ ε α}

theorem ends (h : Leads P m R) {s t : σ} (hs : P s) (hm : m.Ends s t) : R t :=
  ends_meets hm (h s hs)

/-- The part that leads there comes first. -/
theorem bind (h : Leads P m R) {f : α → Run σ ε β} (hf : ∀ a, (f a).Preserves R) :
    Leads P (m >>= f) R :=
  fun s hs => meets_bind (h s hs) fun a _ => hf a

/-- The part that leads there comes behind one that keeps the precondition. -/
theorem after (hm : m.Preserves P) (hP : ∀ s, P s → R s) {f : α → Run σ ε β}
    (hf : ∀ a, Leads P (f a) R) : Leads P (m >>= f) R := by
  intro s hs
  have hrun := hm s hs
  rw [bind_apply]
  cases hend : m s with
  | done a t =>
    rw [hend] at hrun
    exact hf a t hrun.2
  | failed e t =>
    rw [hend] at hrun
    exact hP t hrun
  | unfinished => trivial

/-- A computation that keeps the precondition leads wherever that does. -/
theorem of_preserves (h : m.Preserves P) (hP : ∀ s, P s → R s) : Leads P m R := by
  intro s hs
  have hrun := h s hs
  cases hend : m s with
  | done a t =>
    rw [hend] at hrun
    exact ⟨trivial, hP t hrun.2⟩
  | failed e t =>
    rw [hend] at hrun
    exact hP t hrun
  | unfinished => trivial

end Leads

/-! ### Runs that fail where they began -/

/-- A run that fails leaves the state `s`, and a value it comes to is one of `Q`. -/
def Still (s : σ) (Q : α → σ → Prop) : Outcome σ ε α → Prop
  | .done a t => Q a t
  | .failed _ t => t = s
  | .unfinished => True

namespace Still

variable {s u : σ} {Q R : α → σ → Prop}

theorem bind {m : Run σ ε α} {f : α → Run σ ε β} {R : β → σ → Prop} (h : Still s Q (m u))
    (hf : ∀ a t, Q a t → Still s R (f a t)) : Still s R ((m >>= f) u) := by
  rw [bind_apply]
  cases hm : m u with
  | done a t =>
    rw [hm] at h
    exact hf a t h
  | failed e t =>
    rw [hm] at h
    exact h
  | unfinished => trivial

theorem mono {outcome : Outcome σ ε α} (h : Still s Q outcome) (hQR : ∀ a t, Q a t → R a t) :
    Still s R outcome := by
  cases outcome with
  | done a t => exact hQR a t h
  | failed e t => exact h
  | unfinished => trivial

end Still

end Run

end Nsh
