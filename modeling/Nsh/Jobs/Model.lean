import Mathlib.Data.List.Nodup
import Nsh.Lib.MarkedFirst

/-!
# The job table

Jobs live in numbered slots; a separate order names the live slots, the current
job first.  A slot that is emptied keeps its number for a later job.  `none` is
where the source panics: a job taken from an empty slot, a live job overwritten,
a completed job made active again.
-/

namespace Nsh.Jobs

abbrev JobId := Nat

abbrev ProcessId := Nat

inductive ChildStatus where
  | exited (code : Nat)
  | signaled (signal : Nat) (coreDumped : Bool)
  | stopped (signal : Nat)
  | continued
deriving DecidableEq, Repr

namespace ChildStatus

/-- The statuses after which a process is gone. -/
def terminal : ChildStatus → Bool
  | .exited _ | .signaled _ _ => true
  | .stopped _ | .continued => false

def isStopped : ChildStatus → Bool
  | .stopped _ => true
  | _ => false

end ChildStatus

inductive JobState where
  | running
  | stopped
  | done
deriving DecidableEq, Repr

def JobState.canTransitionTo : JobState → JobState → Bool
  | .done, .running | .done, .stopped => false
  | _, _ => true

/-- One process of a job.  The table carries the text of its command unread. -/
structure ProcessRecord (Text : Type) where
  processId : ProcessId
  status : Option ChildStatus
  commandText : Text
deriving DecidableEq, Repr

structure Job (Text : Type) where
  processes : List (ProcessRecord Text) := []
  stopStatus : Option ChildStatus := none
  state : JobState := .running
  jobControl : Bool := false
  waited : Bool := false
  changed : Bool := false
deriving DecidableEq, Repr

variable {Text : Type}

namespace Job

def isRunning (job : Job Text) : Bool := decide (job.state = .running)

def isStopped (job : Job Text) : Bool := decide (job.state = .stopped)

def isDone (job : Job Text) : Bool := decide (job.state = .done)

/-- The job in its next state, and whether that is another one. -/
def transitionTo (job : Job Text) (next : JobState) : Option (Job Text × Bool) :=
  if job.state.canTransitionTo next then
    if job.state = next then some (job, false) else some ({ job with state := next }, true)
  else none

def restart (job : Job Text) : Option (Job Text × Bool) :=
  if job.state = .done then some (job, false)
  else (job.transitionTo .running).map fun (job, _) => (job, true)

theorem transitionTo_eq {job : Job Text} {next : JobState}
    (h : job.state.canTransitionTo next = true) :
    job.transitionTo next = some ({ job with state := next }, decide (job.state ≠ next)) := by
  unfold transitionTo
  rw [if_pos h]
  by_cases hsame : job.state = next
  · subst hsame; simp
  · rw [if_neg hsame, decide_eq_true hsame]

theorem restart_eq (job : Job Text) :
    job.restart = if job.isDone then some (job, false)
      else some ({ job with state := .running }, true) := by
  unfold restart isDone
  by_cases hdone : job.state = .done
  · rw [if_pos hdone, if_pos (decide_eq_true hdone)]
  · have hcan : job.state.canTransitionTo .running = true := by
      cases hstate : job.state with
      | done => exact absurd hstate hdone
      | running => rfl
      | stopped => rfl
    rw [if_neg hdone, if_neg (by simpa using hdone), transitionTo_eq hcan]
    rfl

end Job

inductive JobWarning where
  | ready
  | reported
  | grace
deriving DecidableEq, Repr

structure JobTable (Text : Type) where
  slots : List (Option (Job Text)) := []
  order : List JobId := []
  jobControl : Bool := false
  jobWarning : JobWarning := .ready
deriving DecidableEq, Repr

namespace JobTable

/-- The job in a slot. -/
def job? (t : JobTable Text) (id : JobId) : Option (Job Text) := (t.slots[id]?).join

def current (t : JobTable Text) : Option JobId := t.order.head?

def previous (t : JobTable Text) : Option JobId := (t.order.drop 1).head?

def tracked (t : JobTable Text) : Nat := t.order.length

def isStopped (t : JobTable Text) (id : JobId) : Bool := (t.job? id).any Job.isStopped

/-- Write a slot. -/
def setSlot (t : JobTable Text) (id : JobId) (slot : Option (Job Text)) : JobTable Text :=
  { t with slots := t.slots.set id slot }

def update (t : JobTable Text) (id : JobId) (f : Job Text → Job Text) : Option (JobTable Text) :=
  (t.job? id).map fun job => t.setSlot id (some (f job))

def occupyCurrent (t : JobTable Text) (id : JobId) (job : Job Text) : Option (JobTable Text) :=
  match t.slots[id]? with
  | some none =>
    some { t.setSlot id (some job) with order := id :: t.order.filter (· ≠ id) }
  | _ => none

/-- Put a job after the stopped jobs that lead the order. -/
def positionRunning (t : JobTable Text) (id : JobId) : Option (JobTable Text) :=
  if (t.job? id).isSome then
    let order := t.order.filter (· ≠ id)
    let position := order.findIdx fun candidate => !t.isStopped candidate
    some { t with order := order.take position ++ id :: order.drop position }
  else none

def positionStopped (t : JobTable Text) (id : JobId) : Option (JobTable Text) :=
  if (t.job? id).isSome then some { t with order := id :: t.order.filter (· ≠ id) } else none

def remove (t : JobTable Text) (id : JobId) : Option (JobTable Text) :=
  if (t.job? id).isSome then
    some { t.setSlot id none with order := t.order.filter (· ≠ id) }
  else none

/-! ### Slots -/

theorem lt_of_job? {t : JobTable Text} {id : JobId} {job : Job Text} (h : t.job? id = some job) :
    id < t.slots.length := by
  unfold job? at h
  by_contra hlt
  rw [List.getElem?_eq_none (Nat.not_lt.mp hlt)] at h
  cases h

theorem job?_setSlot {t : JobTable Text} {id : JobId} (hid : id < t.slots.length)
    (slot : Option (Job Text)) (other : JobId) :
    (t.setSlot id slot).job? other = if other = id then slot else t.job? other := by
  unfold job? setSlot
  by_cases heq : other = id
  · rw [heq, List.getElem?_set_self hid, if_pos rfl]; rfl
  · rw [List.getElem?_set_ne (Ne.symm heq), if_neg heq]

/-- The order names each live slot once, and nothing else. -/
structure Listed (t : JobTable Text) : Prop where
  nodup : t.order.Nodup
  live : ∀ id, id ∈ t.order ↔ (t.job? id).isSome = true

theorem Listed.mem {t : JobTable Text} (h : t.Listed) {id : JobId} {job : Job Text}
    (hjob : t.job? id = some job) : id ∈ t.order := (h.live id).mpr (by rw [hjob]; rfl)

theorem isStopped_iff {t : JobTable Text} {id : JobId} :
    t.isStopped id = true ↔ ∃ job, t.job? id = some job ∧ job.state = .stopped := by
  unfold isStopped Job.isStopped
  cases t.job? id with
  | none => simp
  | some job => simp

/-! ### What each operation does to the order and the slots -/

theorem update_some {t t' : JobTable Text} {id : JobId} {f : Job Text → Job Text}
    (h : t.update id f = some t') :
    ∃ job, t.job? id = some job ∧ t'.order = t.order ∧ t'.jobControl = t.jobControl ∧
      ∀ other, t'.job? other = if other = id then some (f job) else t.job? other := by
  unfold update at h
  obtain ⟨job, hjob, rfl⟩ := Option.map_eq_some_iff.mp h
  exact ⟨job, hjob, rfl, rfl, job?_setSlot (lt_of_job? hjob) _⟩

theorem occupyCurrent_some {t t' : JobTable Text} {id : JobId} {job : Job Text}
    (h : t.occupyCurrent id job = some t') :
    t.job? id = none ∧ t'.order = id :: t.order.filter (· ≠ id) ∧
      ∀ other, t'.job? other = if other = id then some job else t.job? other := by
  unfold occupyCurrent at h
  split at h
  · next hslot =>
    obtain ⟨hlt, -⟩ := List.getElem?_eq_some_iff.mp hslot
    cases h
    exact ⟨by rw [job?, hslot]; rfl, rfl, job?_setSlot hlt _⟩
  · cases h

/-- The order with a job put behind the stopped ones that lead the others. -/
def behindStopped (t : JobTable Text) (id : JobId) : List JobId :=
  (t.order.filter (· ≠ id)).takeWhile t.isStopped ++
    id :: (t.order.filter (· ≠ id)).dropWhile t.isStopped

theorem positionRunning_some {t t' : JobTable Text} {id : JobId}
    (h : t.positionRunning id = some t') :
    (t.job? id).isSome = true ∧ (∀ other, t'.job? other = t.job? other) ∧
      t'.order = t.behindStopped id := by
  unfold positionRunning at h
  split at h
  · next hlive =>
    cases h
    refine ⟨hlive, fun _ => rfl, ?_⟩
    rw [behindStopped, List.takeWhile_eq_take_findIdx_not, List.dropWhile_eq_drop_findIdx_not]
  · cases h

theorem positionStopped_some {t t' : JobTable Text} {id : JobId}
    (h : t.positionStopped id = some t') :
    (t.job? id).isSome = true ∧ t'.order = id :: t.order.filter (· ≠ id) ∧
      ∀ other, t'.job? other = t.job? other := by
  unfold positionStopped at h
  split at h
  · next hlive => cases h; exact ⟨hlive, rfl, fun _ => rfl⟩
  · cases h

theorem remove_some {t t' : JobTable Text} {id : JobId} (h : t.remove id = some t') :
    (t.job? id).isSome = true ∧ t'.order = t.order.filter (· ≠ id) ∧
      ∀ other, t'.job? other = if other = id then none else t.job? other := by
  unfold remove at h
  split at h
  · next hlive =>
    obtain ⟨job, hjob⟩ := Option.isSome_iff_exists.mp hlive
    cases h
    exact ⟨hlive, rfl, job?_setSlot (lt_of_job? hjob) _⟩
  · cases h

theorem remove_jobControl {t t' : JobTable Text} {id : JobId} (h : t.remove id = some t') :
    t'.jobControl = t.jobControl := by
  unfold remove at h
  split at h
  · cases h; rfl
  · cases h

/-! ### The order stays consistent -/

theorem listed_empty (jobControl : Bool) (warning : JobWarning) :
    ({ jobControl := jobControl, jobWarning := warning } : JobTable Text).Listed where
  nodup := List.nodup_nil
  live id := by simp [job?]

theorem Listed.of_same {t t' : JobTable Text} (h : t.Listed) (horder : t'.order.Perm t.order)
    (hlive : ∀ id, (t'.job? id).isSome = (t.job? id).isSome) : t'.Listed where
  nodup := horder.nodup_iff.mpr h.nodup
  live id := by rw [horder.mem_iff, hlive, h.live]

/-- A member moved within the order leaves the same members. -/
theorem perm_move {order pre post : List JobId} {id : JobId} (hnodup : order.Nodup)
    (hmem : id ∈ order) (hrest : pre ++ post = order.filter (· ≠ id)) :
    (pre ++ id :: post).Perm order := by
  refine List.perm_middle.trans ?_
  rw [hrest]
  refine (List.perm_ext_iff_of_nodup ?_ hnodup).mpr fun other => ?_
  · refine List.nodup_cons.mpr ⟨fun h => ?_, hnodup.filter _⟩
    simp at h
  · by_cases heq : other = id
    · subst heq; simpa using hmem
    · simp [heq]

theorem update_listed {t t' : JobTable Text} {id : JobId} {f : Job Text → Job Text}
    (h : t.update id f = some t') (hl : t.Listed) : t'.Listed := by
  obtain ⟨job, hjob, horder, -, hjobs⟩ := update_some h
  refine hl.of_same (by rw [horder]) fun other => ?_
  rw [hjobs]
  by_cases heq : other = id
  · rw [if_pos heq, heq, hjob]; rfl
  · rw [if_neg heq]

theorem positionRunning_listed {t t' : JobTable Text} {id : JobId}
    (h : t.positionRunning id = some t') (hl : t.Listed) : t'.Listed := by
  obtain ⟨hlive, hjobs, horder⟩ := positionRunning_some h
  refine hl.of_same ?_ fun other => by rw [hjobs]
  rw [horder]
  exact perm_move hl.nodup ((hl.live id).mpr hlive) List.takeWhile_append_dropWhile

theorem remove_listed {t t' : JobTable Text} {id : JobId} (h : t.remove id = some t')
    (hl : t.Listed) : t'.Listed := by
  obtain ⟨-, horder, hjobs⟩ := remove_some h
  refine ⟨by rw [horder]; exact hl.nodup.filter _, fun other => ?_⟩
  rw [horder, hjobs]
  by_cases heq : other = id
  · simp [heq]
  · rw [if_neg heq, ← hl.live]; simp [heq]

end JobTable

end Nsh.Jobs
