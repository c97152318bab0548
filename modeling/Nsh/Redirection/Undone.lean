import Nsh.Redirection.Model

/-!
# Command-scoped redirections are undone

A session is any sequence of pushes, redirections in either mode, pops and unwinds,
with the touches of each frame kept beside it.  A frame holds, for each slot its
redirections named by number, what the slot held at the first of them (`Recorded`),
so unwinding puts exactly that back (`unwind_restores`).
-/

namespace Nsh.Redirection

open Nsh Nsh.Nodes

variable {D W : Type}

/-! ### Sessions -/

/-- A shell, and what the redirections of each frame touched. -/
structure Session (D W : Type) where
  shell : Shell D W
  touches : List (List (Touch D))

inductive Operation
  | push (redirections : List ExpandedRedirection)
  | redirect (redirections : List ExpandedRedirection) (mode : RedirectionMode)
  | pop (discard : Bool)
  | unwind (stop : ℕ)

/-- The innermost frame touches more. -/
def extendTouches (mode : RedirectionMode) (new : List (Touch D)) :
    List (List (Touch D)) → List (List (Touch D))
  | [] => []
  | inner :: outer => if mode = .push then (inner ++ new) :: outer else inner :: outer

def Session.perform (host : Host D W) (s : Session D W) : Operation → Option (Session D W)
  | .push redirections =>
    some
      { shell := (pushRedirections redirections s.shell).2
        touches := if redirections = [] then s.touches else [] :: s.touches }
  | .redirect redirections mode =>
    let after := redirect host redirections mode s.shell
    some { shell := after.shell, touches := extendTouches mode after.touches s.touches }
  | .pop discard =>
    (popRedirection host discard s.shell).map fun shell => { shell, touches := s.touches.tail }
  | .unwind stop =>
    (unwindRedirections host stop s.shell).map fun shell =>
      { shell, touches := s.touches.drop (s.touches.length - stop) }

def Session.performAll (host : Host D W) (s : Session D W) :
    List Operation → Option (Session D W)
  | [] => some s
  | operation :: rest => (s.perform host operation).bind fun s => s.performAll host rest

/-- A shell before any redirection. -/
def Session.start (descriptors : ℕ → Option D) (previousStderr : Option D) (world : W) :
    Session D W :=
  { shell := { descriptors, frames := [], previousStderr, world }, touches := [] }

/-- What the frames from a depth on touched, in the order it happened. -/
def Session.touchesFrom (s : Session D W) (depth : ℕ) : List (Touch D) :=
  (s.touches.reverse.drop depth).flatten

/-! ### What a frame has recorded -/

/-- The records a frame keeps of what it touched: none of a slot the shell chose. -/
def records (touches : List (Touch D)) : List (ℕ × Option D) :=
  (touches.filter fun touch => !touch.allocated).map fun touch => (touch.slot, touch.held)

/-- A frame has, of each slot, the first record. -/
def Recorded (frame : RedirectionFrame D) (touches : List (Touch D)) : Prop :=
  ∀ slot, frame.lookup slot = (records touches).lookup slot

theorem records_append (touches new : List (Touch D)) :
    records (touches ++ new) = records touches ++ records new := by
  simp [records]

theorem Recorded.nil : Recorded ([] : RedirectionFrame D) [] := fun _ => rfl

theorem Recorded.allocated {frame : RedirectionFrame D} {touches : List (Touch D)}
    (h : Recorded frame touches) (touch : Touch D) (ha : touch.allocated = true) :
    Recorded frame (touches ++ [touch]) := by
  intro slot
  rw [h slot, records_append]
  simp [records, ha]

/-- Saving a slot records the touch. -/
theorem Recorded.saved {frame : RedirectionFrame D} {touches : List (Touch D)}
    (h : Recorded frame touches) (touch : Touch D) (ha : touch.allocated = false) :
    Recorded (if (frame.lookup touch.slot).isSome then frame
      else frame ++ [(touch.slot, touch.held)]) (touches ++ [touch]) := by
  intro slot
  rw [records_append, List.lookup_append, ← h slot]
  have hnew : records [touch] = [(touch.slot, touch.held)] := by simp [records, ha]
  rw [hnew]
  split
  · next hsome =>
    by_cases hslot : slot = touch.slot
    · obtain ⟨held, hheld⟩ := Option.isSome_iff_exists.1 hsome
      rw [hslot, hheld]
      rfl
    · simp [List.lookup_cons, beq_false_of_ne hslot]
  · rw [List.lookup_append]

/-! ### One operation -/

def Session.Kept (s : Session D W) : Prop := List.Forall₂ Recorded s.shell.frames s.touches

theorem extendTouches_append (mode : RedirectionMode) (new more : List (Touch D))
    (touches : List (List (Touch D))) :
    extendTouches mode (new ++ more) touches =
      extendTouches mode more (extendTouches mode new touches) := by
  cases touches with
  | nil => rfl
  | cons inner outer => cases mode <;> simp [extendTouches]

theorem extendTouches_nil (mode : RedirectionMode) (touches : List (List (Touch D))) :
    extendTouches mode [] touches = touches := by
  cases touches with
  | nil => rfl
  | cons inner outer => cases mode <;> simp [extendTouches]

theorem installRedirection_frames (host : Host D W) (slot : ℕ) (s : Shell D W)
    (source : RedirectSource D) : (installRedirection host slot s source).2.frames = s.frames := by
  cases source with
  | owned description =>
    simp only [installRedirection]
    split <;> rfl
  | _ => rfl

theorem publish_frames (host : Host D W) (redirection : ExpandedRedirection) (slot : ℕ)
    (s : Shell D W) : (publish host redirection slot s).2.frames = s.frames := by
  unfold publish
  split
  · rfl
  · split
    · rfl
    · split <;> rfl

theorem installAndPublish_frames (host : Host D W) (redirection : ExpandedRedirection)
    (slot : ℕ) (source : RedirectSource D) (s : Shell D W) :
    (installAndPublish host redirection slot source s).2.frames = s.frames := by
  have hinstall := installRedirection_frames host slot s source
  unfold installAndPublish
  cases hresult : installRedirection host slot s source with
  | mk refusal after =>
    rw [hresult] at hinstall
    cases refusal with
    | some refusal => exact hinstall
    | none => exact (publish_frames host redirection slot after).trans hinstall

/-- Replacing a slot saves it in the innermost frame, where the mode says so. -/
theorem replaceSlot_frames (host : Host D W) (mode : RedirectionMode)
    (redirection : ExpandedRedirection) (slot : ℕ) (source : RedirectSource D) (s : Shell D W) :
    (replaceSlot host mode redirection slot source s).shell.frames =
      if mode = .push ∧ ¬redirection.allocates then (s.save slot).frames else s.frames := by
  change (installAndPublish host redirection slot source _).2.frames = _
  rw [installAndPublish_frames]
  unfold prepareSlot
  by_cases hzero : slot = 0
  · rw [if_pos hzero]
    split <;> rfl
  · rw [if_neg hzero]
    split <;> rfl

/-- One touch of the innermost frame. -/
theorem recorded_touched {frames : List (RedirectionFrame D)} {touches : List (List (Touch D))}
    (h : List.Forall₂ Recorded frames touches) (mode : RedirectionMode) (touch : Touch D) :
    List.Forall₂ Recorded
      (if mode = .push ∧ ¬touch.allocated then saveSlot touch.slot touch.held frames else frames)
      (extendTouches mode [touch] touches) := by
  cases h with
  | nil => simp [saveSlot, extendTouches]
  | @cons frame inner frames outer hinner houter =>
    cases mode with
    | apply => simpa [extendTouches] using ⟨hinner, houter⟩
    | push =>
      cases hallocated : touch.allocated with
      | true => simpa [extendTouches] using ⟨hinner.allocated touch hallocated, houter⟩
      | false =>
        have hsaved := hinner.saved touch hallocated
        simp only [saveSlot, extendTouches, true_and, Bool.false_eq_true, not_false_eq_true,
          if_true]
        split
        · next hsome => exact .cons (by rwa [if_pos hsome] at hsaved) houter
        · next hnone => exact .cons (by rwa [if_neg hnone] at hsaved) houter

theorem redirectOne_kept (host : Host D W) (mode : RedirectionMode)
    (redirection : ExpandedRedirection) {s : Shell D W} {touches : List (List (Touch D))}
    (h : List.Forall₂ Recorded s.frames touches) :
    List.Forall₂ Recorded (redirectOne host mode redirection s).shell.frames
      (extendTouches mode (redirectOne host mode redirection s).touches touches) := by
  unfold redirectOne
  split
  · simpa [extendTouches_nil] using h
  · next slot _ =>
    split
    · simpa [extendTouches_nil] using h
    · split
      · simpa [extendTouches_nil] using h
      · simpa [extendTouches_nil] using h
      · next source world _ _ =>
        rw [replaceSlot_frames]
        exact recorded_touched h mode ⟨slot, s.descriptors slot, redirection.allocates⟩

theorem redirectEach_kept (host : Host D W) (mode : RedirectionMode)
    (redirections : List ExpandedRedirection) {s : Shell D W}
    {touches : List (List (Touch D))} (h : List.Forall₂ Recorded s.frames touches) :
    List.Forall₂ Recorded (redirectEach host mode redirections s).shell.frames
      (extendTouches mode (redirectEach host mode redirections s).touches touches) := by
  induction redirections generalizing s touches with
  | nil => simpa [redirectEach, extendTouches_nil] using h
  | cons redirection rest ih =>
    have hone := redirectOne_kept host mode redirection h
    unfold redirectEach
    cases hresult : redirectOne host mode redirection s with
    | mk refusal after new =>
      rw [hresult] at hone
      cases refusal with
      | some refusal => exact hone
      | none =>
        simp only [extendTouches_append]
        exact ih hone

theorem followStderr_frames (s : Shell D W) : s.followStderr.frames = s.frames := by
  unfold Shell.followStderr
  split
  · split <;> rfl
  · rfl

theorem redirect_kept {host : Host D W} {mode : RedirectionMode}
    {redirections : List ExpandedRedirection} {s : Shell D W}
    {touches : List (List (Touch D))} (h : List.Forall₂ Recorded s.frames touches) :
    List.Forall₂ Recorded (redirect host redirections mode s).shell.frames
      (extendTouches mode (redirect host redirections mode s).touches touches) := by
  cases redirections with
  | nil => simpa [redirect, extendTouches_nil] using h
  | cons redirection rest =>
    have heach := redirectEach_kept host mode (redirection :: rest) h
    simp only [redirect]
    split
    · simpa only [followStderr_frames] using heach
    · exact heach

theorem popRedirection_frames {host : Host D W} {discard : Bool} {s s' : Shell D W}
    (h : popRedirection host discard s = some s') : s'.frames = s.frames.tail := by
  unfold popRedirection at h
  split at h
  · cases h
  · next frame outer hframes =>
    rw [hframes]
    split at h <;> cases h <;> rfl

/-- Popping frames puts their slots back, the outer frames last. -/
theorem popFrames_spec (host : Host D W) {n : ℕ} {s : Shell D W} (hn : n ≤ s.frames.length) :
    ∃ s', popFrames host n s = some s' ∧ s'.frames = s.frames.drop n ∧
      s'.descriptors = UndoLog.replay (s.frames.take n).reverse.flatten s.descriptors := by
  induction n generalizing s with
  | zero => exact ⟨s, rfl, rfl, rfl⟩
  | succ n ih =>
    cases hframes : s.frames with
    | nil => rw [hframes] at hn; cases hn
    | cons frame outer =>
      have hpop : ∃ t, popRedirection host false s = some t ∧ t.frames = outer ∧
          t.descriptors = UndoLog.replay frame s.descriptors := by
        simp [popRedirection, hframes]
      obtain ⟨t, hpop, htframes, htdescriptors⟩ := hpop
      have hlength : n ≤ t.frames.length := by
        rw [hframes] at hn
        rw [htframes]
        exact Nat.le_of_succ_le_succ hn
      obtain ⟨s', hs', hdrop, hreplay⟩ := ih hlength
      refine ⟨s', ?_, ?_, ?_⟩
      · rw [popFrames, hpop]
        exact hs'
      · rw [hdrop, htframes]
        rfl
      · rw [hreplay, htframes, htdescriptors, ← UndoLog.replay_append]
        simp

theorem unwindRedirections_spec {host : Host D W} {stop : ℕ} {s s' : Shell D W}
    (h : unwindRedirections host stop s = some s') :
    s'.frames = s.frames.drop (s.frames.length - stop) := by
  unfold unwindRedirections at h
  split at h
  · obtain ⟨t, ht, hdrop, -⟩ := popFrames_spec host (Nat.sub_le s.frames.length stop)
    rw [ht] at h
    cases h
    exact hdrop
  · cases h

theorem perform_kept {host : Host D W} {s s' : Session D W} {operation : Operation}
    (h : s.Kept) (hperform : s.perform host operation = some s') : s'.Kept := by
  cases operation with
  | push redirections =>
    cases hperform
    unfold Session.Kept pushRedirections
    cases redirections with
    | nil => exact h
    | cons redirection rest => exact .cons .nil h
  | redirect redirections mode =>
    cases hperform
    exact redirect_kept h
  | pop discard =>
    obtain ⟨shell, hpop, rfl⟩ := Option.map_eq_some_iff.1 hperform
    unfold Session.Kept
    rw [popRedirection_frames hpop]
    simpa using List.forall₂_drop 1 h
  | unwind stop =>
    obtain ⟨shell, hunwind, rfl⟩ := Option.map_eq_some_iff.1 hperform
    unfold Session.Kept
    rw [unwindRedirections_spec hunwind, h.length_eq]
    exact List.forall₂_drop _ h

theorem performAll_kept {host : Host D W} {s s' : Session D W} {operations : List Operation}
    (h : s.Kept) (hperform : s.performAll host operations = some s') : s'.Kept := by
  induction operations generalizing s with
  | nil => cases hperform; exact h
  | cons operation rest ih =>
    obtain ⟨t, ht, hrest⟩ := Option.bind_eq_some_iff.1 hperform
    exact ih (perform_kept h ht) hrest

/-! ### Unwinding -/

/-- The first touch of a slot is recorded, where it is by number. -/
theorem records_lookup {touches : List (Touch D)} {slot : ℕ} {touch : Touch D}
    (hfirst : touches.find? (fun t => t.slot = slot) = some touch)
    (hnamed : touch.allocated = false) : (records touches).lookup slot = some touch.held := by
  induction touches with
  | nil => cases hfirst
  | cons head rest ih =>
    by_cases hslot : head.slot = slot
    · simp only [List.find?_cons, hslot, decide_true, Option.some.injEq] at hfirst
      subst hfirst
      simp [records, hnamed, hslot]
    · rw [List.find?_cons_of_neg (by simpa using hslot)] at hfirst
      have hrest := ih hfirst
      cases ha : head.allocated with
      | true => simpa [records, ha] using hrest
      | false =>
        simp only [records, ha, List.filter_cons, Bool.not_false, if_true, List.map_cons,
          List.lookup_cons, beq_false_of_ne (Ne.symm hslot)]
        exact hrest

theorem records_lookup_none {touches : List (Touch D)} {slot : ℕ}
    (hallocated : ∀ t ∈ touches, t.slot = slot → t.allocated = true) :
    (records touches).lookup slot = none := by
  rw [List.lookup_eq_none_iff]
  intro record hrecord
  simp only [records, List.mem_map, List.mem_filter] at hrecord
  obtain ⟨t, ⟨ht, ha⟩, rfl⟩ := hrecord
  simp only [ne_eq, bne_iff_ne]
  intro hslot
  rw [hallocated t ht hslot.symm] at ha
  cases ha

/-- What the frames have of a slot is what their touches recorded. -/
theorem flatten_lookup {frames : List (RedirectionFrame D)} {touches : List (List (Touch D))}
    (h : List.Forall₂ Recorded frames touches) (slot : ℕ) :
    frames.flatten.lookup slot = (records touches.flatten).lookup slot := by
  induction h with
  | nil => rfl
  | cons hinner _ ih =>
    rw [List.flatten_cons, List.flatten_cons, records_append, List.lookup_append,
      List.lookup_append, hinner slot, ih]

/-- **Unwinding undoes command-scoped redirections exactly.**  Back at a depth,
    each slot that the frame above it, or a frame above that one, redirected holds
    what it held just before the first of these redirections, if this one was by
    number; and no slot is changed that none of them redirected by number. -/
theorem unwind_restores {host : Host D W} {descriptors : ℕ → Option D}
    {previousStderr : Option D} {world : W} {operations : List Operation} {s : Session D W}
    (hrun : (Session.start descriptors previousStderr world).performAll host operations = some s)
    {stop : ℕ} (hstop : stop ≤ s.shell.frames.length) :
    ∃ s', unwindRedirections host stop s.shell = some s' ∧ s'.frames.length = stop ∧
      ∀ slot,
        (∀ touch, (s.touchesFrom stop).find? (fun t => t.slot = slot) = some touch →
          touch.allocated = false → s'.descriptors slot = touch.held) ∧
        ((∀ t ∈ s.touchesFrom stop, t.slot = slot → t.allocated = true) →
          s'.descriptors slot = s.shell.descriptors slot) := by
  have hstart : (Session.start descriptors previousStderr world).Kept := .nil
  have hkept : s.Kept := performAll_kept hstart hrun
  have hlength : s.shell.frames.length = s.touches.length := hkept.length_eq
  obtain ⟨s', hpop, hdrop, hreplay⟩ :=
    popFrames_spec host (Nat.sub_le s.shell.frames.length stop)
  refine ⟨s', ?_, ?_, ?_⟩
  · rw [unwindRedirections, if_pos hstop, hpop]
  · rw [hdrop, List.length_drop]
    omega
  · intro slot
    have hpopped : (s.touches.take (s.shell.frames.length - stop)).reverse =
        s.touches.reverse.drop stop := by
      rw [List.reverse_take, hlength]
      congr 1
      omega
    have hlookup : s'.descriptors slot =
        ((records (s.touchesFrom stop)).lookup slot).getD (s.shell.descriptors slot) := by
      rw [hreplay, UndoLog.replay_apply,
        flatten_lookup (List.rel_reverse (List.forall₂_take _ hkept)) slot, hpopped]
      rfl
    constructor
    · intro touch hfirst hnamed
      rw [hlookup, records_lookup hfirst hnamed]
      rfl
    · intro hallocated
      rw [hlookup, records_lookup_none hallocated]
      rfl

/-- A host on which everything succeeds, each open a new description. -/
def openingHost : Host ℕ ℕ where
  descriptorLimit := 16
  lookup _ _ := none
  opens world _ := (some world, world + 1)
  moves world _ := (true, world)
  assigns world _ _ := (true, world)
  resetInput world := world

/-- `>a {fd}>b 2>&1 >c`, then `>d` for good. -/
def openingOperations : List Operation :=
  [.push [.file .write (.fixed 1) [97]],
    .redirect
      [.file .write (.fixed 1) [97], .file .write (.allocated [102, 100]) [98],
        .descriptor (.fixed 2) (some 1), .file .write (.fixed 1) [99]] .push,
    .redirect [.file .write (.fixed 1) [100]] .apply]

def openingSession : Session ℕ ℕ :=
  .start (fun slot => if slot = 1 then some 7 else none) none 20

/-- Standard output comes back, and the slot `{fd}` was given stays. -/
theorem unwind_restores_one :
    ∃ s s', openingSession.performAll openingHost openingOperations = some s ∧
      s.shell.descriptors 1 = some 23 ∧ unwindRedirections openingHost 0 s.shell = some s' ∧
      s'.descriptors 1 = some 7 ∧ s'.descriptors 2 = none ∧ s'.descriptors 10 = some 21 := by
  obtain ⟨s, hrun⟩ : ∃ s, openingSession.performAll openingHost openingOperations = some s :=
    ⟨_, rfl⟩
  obtain ⟨s', hunwind, -, hslots⟩ := unwind_restores hrun (Nat.zero_le s.shell.frames.length)
  cases hrun
  exact ⟨_, s', rfl, rfl, hunwind, (hslots 1).1 ⟨1, some 7, false⟩ rfl rfl,
    (hslots 2).1 ⟨2, none, false⟩ rfl rfl, (hslots 10).2 (by decide)⟩

end Nsh.Redirection
