import Nsh.Jobs.Model

/-!
# Forking into jobs and waiting for them

What the functions that fork, wait, resume and report do to the job table.  A
status is recorded in the first process with its pid of the first unfinished job,
in presentation order, that has one.
-/

namespace Nsh.Jobs

variable {Text : Type}

inductive ForkMode where
  | foreground
  | background
  | withoutJob
deriving DecidableEq, Repr

/-! ### Recording a status -/

/-- Give the first process of that pid its status. -/
def setStatus (process : ProcessId) (status : ChildStatus) :
    List (ProcessRecord Text) → Option (List (ProcessRecord Text))
  | [] => none
  | child :: children =>
    if child.processId = process then some ({ child with status := some status } :: children)
    else (setStatus process status children).map (child :: ·)

theorem setStatus_none {process : ProcessId} {status : ChildStatus}
    {children : List (ProcessRecord Text)} :
    setStatus process status children = none ↔ ∀ child ∈ children, child.processId ≠ process := by
  induction children with
  | nil => simp [setStatus]
  | cons child children ih =>
    by_cases hpid : child.processId = process
    · simp [setStatus, hpid]
    · simp [setStatus, hpid, ih]

/-- The status replaces that of the first process with the pid. -/
theorem setStatus_some {process : ProcessId} {status : ChildStatus}
    {children children' : List (ProcessRecord Text)}
    (h : setStatus process status children = some children') :
    ∃ before child after, children = before ++ child :: after ∧ child.processId = process ∧
      (∀ other ∈ before, other.processId ≠ process) ∧
      children' = before ++ { child with status := some status } :: after := by
  induction children generalizing children' with
  | nil => cases h
  | cons child children ih =>
    unfold setStatus at h
    by_cases hpid : child.processId = process
    · rw [if_pos hpid] at h
      cases h
      exact ⟨[], child, children, rfl, hpid, by simp, rfl⟩
    · rw [if_neg hpid] at h
      obtain ⟨rest, hrest, rfl⟩ := Option.map_eq_some_iff.mp h
      obtain ⟨before, found, after, rfl, hfound, hbefore, rfl⟩ := ih hrest
      exact ⟨child :: before, found, after, rfl, hfound,
        List.forall_mem_cons.mpr ⟨hpid, hbefore⟩, rfl⟩

/-- The first stop among the statuses of a job's processes. -/
def findStopped (processes : List (ProcessRecord Text)) : Option ChildStatus :=
  processes.findSome? fun child => child.status.filter ChildStatus.isStopped

/-- The state that the statuses of a job's processes amount to. -/
def nextState (processes : List (ProcessRecord Text)) : JobState :=
  if processes.any fun child => child.status.isNone then .running
  else if (findStopped processes).isSome then .stopped
  else .done

def recordChildStatus (job : Job Text) (process : ProcessId) (status : ChildStatus) :
    Option (Job Text × JobState) :=
  (setStatus process status job.processes).map fun processes =>
    ({ job with processes := processes, stopStatus := findStopped processes }, nextState processes)

namespace JobTable

/-- The job takes the state its processes amount to, and a job that has just stopped becomes
the current one. -/
def settle (t : JobTable Text) (id : JobId) (job : Job Text) (next : JobState) :
    Option (JobTable Text) :=
  if next = .running then some (t.setSlot id (some job))
  else do
    let (job, moved) ← ({ job with changed := true }).transitionTo next
    let t := t.setSlot id (some job)
    if moved && decide (next = .stopped) then t.positionStopped id else some t

/-- `wait_once`: record a reaped status in the jobs in this order. -/
def recordReaped (t : JobTable Text) (process : ProcessId) (status : ChildStatus) :
    List JobId → Option (JobTable Text)
  | [] => some t
  | id :: rest =>
    match t.job? id with
    | none => none
    | some job =>
      if job.isDone then t.recordReaped process status rest
      else
        match recordChildStatus job process status with
        | none => t.recordReaped process status rest
        | some (job, next) => t.settle id job next

def waitOnce (t : JobTable Text) (process : ProcessId) (status : ChildStatus) :
    Option (JobTable Text) := t.recordReaped process status t.order

/-! ### Creating jobs -/

/-- Whether `create_job` may use a slot. -/
def reusable (t : JobTable Text) : Option (Job Text) → Bool
  | none => true
  | some job => job.isDone && job.waited && !t.jobControl

def reserveJobSlot (t : JobTable Text) : JobTable Text :=
  { t with slots := t.slots ++ List.replicate 4 none }

/-- Make a slot that may be used empty. -/
def clearSlot (t : JobTable Text) (id : JobId) : Option (JobTable Text) :=
  match t.slots[id]? with
  | none => some t.reserveJobSlot
  | some none => some t
  | some (some _) => t.remove id

def createJob (t : JobTable Text) : Option (JobId × JobTable Text) :=
  let id := t.slots.findIdx t.reusable
  (t.clearSlot id).bind fun cleared =>
    (cleared.occupyCurrent id { jobControl := cleared.jobControl }).map fun t => (id, t)

def addProcess (t : JobTable Text) (id : JobId) (process : ProcessId) (text : Text) :
    Option (JobTable Text) :=
  t.update id fun job => { job with processes := job.processes ++ [⟨process, none, text⟩] }

/-- A new child joins a job.  A background job whose announcement cannot be written is left
without it. -/
def recordForkedChild (t : JobTable Text) (id : JobId) (mode : ForkMode) (process : ProcessId)
    (text : Text) (announced : Bool) : Option (JobTable Text) :=
  if mode = .background then
    (t.positionRunning id).bind fun t => if announced then t.addProcess id process text else some t
  else t.addProcess id process text

/-! ### Resuming, reporting and removing -/

/-- Forget the stop of each stopped process. -/
def continueProcess (child : ProcessRecord Text) : ProcessRecord Text :=
  if child.status.any ChildStatus.isStopped then { child with status := none } else child

/-- `restart_job`, up to the wait of a foreground job. -/
def restartJob (t : JobTable Text) (id : JobId) (continued : Bool) : Option (JobTable Text) :=
  (t.job? id).bind fun job => job.restart.map fun (job, active) =>
    t.setSlot id <| some <|
      if active && continued then { job with processes := job.processes.map continueProcess }
      else job

def removeDone (t : JobTable Text) (id : JobId) : Option (JobTable Text) :=
  (t.job? id).bind fun job => if job.isDone then t.remove id else some t

def writeJob (t : JobTable Text) (id : JobId) : Option (JobTable Text) :=
  (t.update id fun job => { job with changed := false }).bind fun t => t.removeDone id

/-- The `wait` built-in is through with a job. -/
def waitedFor (t : JobTable Text) (id : JobId) : Option (JobTable Text) :=
  (t.update id fun job => { job with waited := true }).bind fun t => t.removeDone id

/-- The answer to an exit, and the table with the warning noted. -/
def hasStoppedJobs (t : JobTable Text) : Bool × JobTable Text :=
  if t.jobWarning ≠ .ready then (false, t)
  else if t.current.any t.isStopped then (true, { t with jobWarning := .reported })
  else (false, t)

def advanceWarning (t : JobTable Text) : JobTable Text :=
  { t with jobWarning := if t.jobWarning = .reported then .grace else .ready }

/-! ### What each function does to the order and the slots -/

/-- A job that comes to another state keeps its processes; one that has just stopped leads the
order. -/
theorem settle_some {t t' : JobTable Text} {id : JobId} {old job : Job Text} {next : JobState}
    (hold : t.job? id = some old) (h : t.settle id job next = some t') :
    ∃ job', job'.processes = job.processes ∧
      job'.state = (if next = .running then job.state else next) ∧
      (∀ other, t'.job? other = if other = id then some job' else t.job? other) ∧
      (t'.order = t.order ∧ (job'.state = .stopped → job.state = .stopped) ∨
        t'.order = id :: t.order.filter (· ≠ id) ∧ job'.state = .stopped) := by
  have hlt := lt_of_job? hold
  unfold settle at h
  by_cases hrunning : next = .running
  · rw [if_pos hrunning] at h
    cases h
    exact ⟨job, rfl, by rw [if_pos hrunning], job?_setSlot hlt _, .inl ⟨rfl, fun h => h⟩⟩
  · rw [if_neg hrunning] at h
    obtain ⟨⟨job', moved⟩, htrans, h⟩ := Option.bind_eq_some_iff.mp h
    have hcan : job.state.canTransitionTo next = true := by
      by_contra hcannot
      rw [Job.transitionTo, if_neg hcannot] at htrans
      cases htrans
    rw [Job.transitionTo_eq (by exact hcan)] at htrans
    obtain ⟨rfl, rfl⟩ := Prod.mk.inj (Option.some.inj htrans)
    refine ⟨{ job with changed := true, state := next }, rfl, (if_neg hrunning).symm, ?_⟩
    simp only at h
    split at h
    · next hmoved =>
      simp only [Bool.and_eq_true, decide_eq_true_eq] at hmoved
      obtain ⟨-, horder, hjobs⟩ := positionStopped_some h
      refine ⟨fun other => ?_, .inr ⟨horder, hmoved.2⟩⟩
      rw [hjobs]
      exact job?_setSlot hlt _ other
    · next hstays =>
      cases h
      refine ⟨job?_setSlot hlt _, .inl ⟨rfl, fun hstopped => ?_⟩⟩
      simp only at hstopped
      by_contra hother
      refine hstays ?_
      simp only [hstopped, Bool.and_eq_true, decide_eq_true_eq, and_true]
      exact hother

/-- No process of an unfinished job in this slot has that pid. -/
def Lacks (t : JobTable Text) (process : ProcessId) (id : JobId) : Prop :=
  ∀ job, t.job? id = some job → job.isDone = false →
    ∀ child ∈ job.processes, child.processId ≠ process

/-- A status that no unfinished job takes changes nothing; otherwise the first job in the order
with that pid takes it. -/
structure Reaped (t t' : JobTable Text) (process : ProcessId) (status : ChildStatus)
    (before : List JobId) (id : JobId) (job : Job Text) (processes : List (ProcessRecord Text)) :
    Prop where
  lacks : ∀ other ∈ before, t.Lacks process other
  found : t.job? id = some job
  unfinished : job.isDone = false
  recorded : setStatus process status job.processes = some processes
  settled : t.settle id { job with processes := processes, stopStatus := findStopped processes }
    (nextState processes) = some t'

/-- **A reaped status goes to the first unfinished job with that pid**, or nowhere. -/
theorem recordReaped_some {t t' : JobTable Text} {process : ProcessId} {status : ChildStatus}
    {ids : List JobId} (h : t.recordReaped process status ids = some t') :
    (t' = t ∧ ∀ other ∈ ids, t.Lacks process other) ∨
      ∃ before id after job processes, ids = before ++ id :: after ∧
        t.Reaped t' process status before id job processes := by
  induction ids with
  | nil => cases h; exact .inl ⟨rfl, by simp⟩
  | cons id ids ih =>
    unfold recordReaped at h
    cases hjob : t.job? id with
    | none => rw [hjob] at h; cases h
    | some job =>
      simp only [hjob] at h
      have hpass : t.recordReaped process status ids = some t' → t.Lacks process id →
          (t' = t ∧ ∀ other ∈ id :: ids, t.Lacks process other) ∨
            ∃ before found after job processes, id :: ids = before ++ found :: after ∧
              t.Reaped t' process status before found job processes := by
        intro h hlacks
        rcases ih h with ⟨heq, hnone⟩ | ⟨before, found, after, job', processes, hids, hreaped⟩
        · exact .inl ⟨heq, List.forall_mem_cons.mpr ⟨hlacks, hnone⟩⟩
        · exact .inr ⟨id :: before, found, after, job', processes, by rw [hids]; rfl,
            { hreaped with lacks := List.forall_mem_cons.mpr ⟨hlacks, hreaped.lacks⟩ }⟩
      by_cases hdone : job.isDone = true
      · rw [if_pos hdone] at h
        refine hpass h fun job' hjob' hnot => ?_
        rw [hjob] at hjob'
        cases hjob'
        rw [hdone] at hnot
        cases hnot
      · rw [if_neg hdone] at h
        cases hset : setStatus process status job.processes with
        | none =>
          rw [recordChildStatus, hset] at h
          refine hpass h fun job' hjob' _ => ?_
          rw [hjob] at hjob'
          cases hjob'
          exact setStatus_none.mp hset
        | some processes =>
          rw [recordChildStatus, hset] at h
          exact .inr ⟨[], id, ids, job, processes, rfl, by simp, hjob,
            Bool.eq_false_iff.mpr hdone, hset, h⟩

theorem job?_reserveJobSlot (t : JobTable Text) (id : JobId) :
    t.reserveJobSlot.job? id = t.job? id := by
  unfold job? reserveJobSlot
  by_cases hlt : id < t.slots.length
  · rw [List.getElem?_append_left hlt]
  · have hle := Nat.not_lt.mp hlt
    rw [List.getElem?_append_right hle, List.getElem?_eq_none hle, List.getElem?_replicate]
    split <;> rfl

/-- A new job takes an empty slot or that of a finished job, and leads the order. -/
theorem createJob_some {t t' : JobTable Text} {id : JobId} (h : t.createJob = some (id, t')) :
    (∀ old, t.job? id = some old → old.isDone = true) ∧
      t'.order = id :: t.order.filter (· ≠ id) ∧
      ∀ other, t'.job? other =
        if other = id then some { jobControl := t.jobControl } else t.job? other := by
  unfold createJob at h
  obtain ⟨cleared, hcleared, h⟩ := Option.bind_eq_some_iff.mp h
  obtain ⟨occupied, hoccupied, h⟩ := Option.map_eq_some_iff.mp h
  obtain ⟨rfl, rfl⟩ := Prod.mk.inj h
  obtain ⟨-, horder, hjobs⟩ := occupyCurrent_some hoccupied
  unfold clearSlot at hcleared
  split at hcleared
  · next hslot =>
    cases hcleared
    refine ⟨fun old hold => ?_, horder, fun other => ?_⟩
    · rw [job?, hslot] at hold
      cases hold
    · rw [hjobs, job?_reserveJobSlot]
      rfl
  · next hslot =>
    cases hcleared
    refine ⟨fun old hold => ?_, horder, hjobs⟩
    rw [job?, hslot] at hold
    cases hold
  · next job hslot =>
    obtain ⟨-, horder', hjobs'⟩ := remove_some hcleared
    refine ⟨fun old hold => ?_, ?_, fun other => ?_⟩
    · rw [job?, hslot] at hold
      cases hold
      obtain ⟨hlt, heq⟩ := List.getElem?_eq_some_iff.mp hslot
      have hreusable := List.findIdx_getElem (w := hlt)
      rw [heq] at hreusable
      simp only [reusable, Bool.and_eq_true] at hreusable
      exact hreusable.1.1
    · rw [horder, horder', List.filter_filter]
      simp
    · rw [hjobs, hjobs', remove_jobControl hcleared]
      split <;> rfl

theorem addProcess_some {t t' : JobTable Text} {id : JobId} {process : ProcessId} {text : Text}
    (h : t.addProcess id process text = some t') :
    ∃ job, t.job? id = some job ∧ t'.order = t.order ∧
      ∀ other, t'.job? other = if other = id
        then some { job with processes := job.processes ++ [⟨process, none, text⟩] }
        else t.job? other := by
  obtain ⟨job, hjob, horder, -, hjobs⟩ := update_some h
  exact ⟨job, hjob, horder, hjobs⟩

/-- Forking into a job adds a process to it, and puts a background job behind the stopped ones. -/
theorem recordForkedChild_some {t t' : JobTable Text} {id : JobId} {mode : ForkMode}
    {process : ProcessId} {text : Text} {announced : Bool}
    (h : t.recordForkedChild id mode process text announced = some t') :
    t'.order = (if mode = .background then t.behindStopped id else t.order) ∧
      ∃ job job', t.job? id = some job ∧ job'.state = job.state ∧
        job'.processes = job.processes ++
          (if mode = .background ∧ announced = false then [] else [⟨process, none, text⟩]) ∧
        ∀ other, t'.job? other = if other = id then some job' else t.job? other := by
  unfold recordForkedChild at h
  by_cases hmode : mode = .background
  · rw [if_pos hmode] at h
    obtain ⟨moved, hmoved, h⟩ := Option.bind_eq_some_iff.mp h
    obtain ⟨hlive, hsame, horder⟩ := positionRunning_some hmoved
    by_cases hannounced : announced = true
    · rw [if_pos hannounced] at h
      obtain ⟨job, hjob, horder', hjobs⟩ := addProcess_some h
      refine ⟨by rw [if_pos hmode, horder', horder], job,
        { job with processes := job.processes ++ [⟨process, none, text⟩] },
        by rw [← hsame, hjob], rfl, ?_, fun other => ?_⟩
      · rw [if_neg (by rw [hannounced]; simp)]
      · rw [hjobs, hsame]
    · rw [if_neg hannounced] at h
      cases h
      obtain ⟨job, hjob⟩ := Option.isSome_iff_exists.mp hlive
      refine ⟨by rw [if_pos hmode, horder], job, job, hjob, rfl, ?_, fun other => ?_⟩
      · rw [if_pos ⟨hmode, Bool.eq_false_iff.mpr hannounced⟩, List.append_nil]
      · rw [hsame]
        split
        · next heq => rw [heq, hjob]
        · rfl
  · rw [if_neg hmode] at h
    obtain ⟨job, hjob, horder, hjobs⟩ := addProcess_some h
    refine ⟨by rw [if_neg hmode, horder], job,
      { job with processes := job.processes ++ [⟨process, none, text⟩] }, hjob, rfl, ?_, hjobs⟩
    rw [if_neg (fun hboth => hmode hboth.1)]

theorem restartJob_some {t t' : JobTable Text} {id : JobId} {continued : Bool}
    (h : t.restartJob id continued = some t') :
    t'.order = t.order ∧ ∃ job job', t.job? id = some job ∧
      (if job.isDone then job' = job else
        job'.state = .running ∧
          job'.processes = if continued then job.processes.map continueProcess else job.processes) ∧
      ∀ other, t'.job? other = if other = id then some job' else t.job? other := by
  unfold restartJob at h
  obtain ⟨job, hjob, h⟩ := Option.bind_eq_some_iff.mp h
  obtain ⟨⟨restarted, active⟩, hrestart, rfl⟩ := Option.map_eq_some_iff.mp h
  rw [Job.restart_eq] at hrestart
  refine ⟨rfl, job, _, hjob, ?_, job?_setSlot (lt_of_job? hjob) _⟩
  by_cases hdone : job.isDone = true
  · rw [if_pos hdone] at hrestart ⊢
    cases hrestart
    simp
  · rw [if_neg hdone] at hrestart ⊢
    cases hrestart
    cases continued with
    | true => exact ⟨rfl, rfl⟩
    | false => exact ⟨rfl, rfl⟩

/-- A job that is done is removed, another is left as it is. -/
theorem removeDone_some {t t' : JobTable Text} {id : JobId} (h : t.removeDone id = some t') :
    ∃ job, t.job? id = some job ∧
      (job.isDone = true ∧ t.remove id = some t' ∨ job.isDone = false ∧ t' = t) := by
  unfold removeDone at h
  obtain ⟨job, hjob, h⟩ := Option.bind_eq_some_iff.mp h
  split at h
  · next hdone => exact ⟨job, hjob, .inl ⟨hdone, h⟩⟩
  · next hdone => cases h; exact ⟨job, hjob, .inr ⟨Bool.eq_false_iff.mpr hdone, rfl⟩⟩

/-- Marking a job and dropping it when it is done either marks it or removes it. -/
theorem mark_removeDone_some {t t' : JobTable Text} {id : JobId} {mark : Job Text → Job Text}
    (hmark : ∀ job, (mark job).state = job.state)
    (h : ((t.update id mark).bind fun t => t.removeDone id) = some t') :
    ∃ job, t.job? id = some job ∧
      ((job.isDone = true ∧ t'.order = t.order.filter (· ≠ id) ∧
          ∀ other, t'.job? other = if other = id then none else t.job? other) ∨
        (job.isDone = false ∧ t'.order = t.order ∧
          ∀ other, t'.job? other = if other = id then some (mark job) else t.job? other)) := by
  obtain ⟨marked, hupdate, h⟩ := Option.bind_eq_some_iff.mp h
  obtain ⟨job, hjob, horder, -, hjobs⟩ := update_some hupdate
  obtain ⟨job', hjob', h⟩ := removeDone_some h
  rw [hjobs, if_pos rfl] at hjob'
  cases hjob'
  have hdone : (mark job).isDone = job.isDone := by rw [Job.isDone, Job.isDone, hmark]
  refine ⟨job, hjob, ?_⟩
  rcases h with ⟨his, hremove⟩ | ⟨his, rfl⟩
  · obtain ⟨-, horder', hjobs'⟩ := remove_some hremove
    refine .inl ⟨by rw [← hdone, his], by rw [horder', horder], fun other => ?_⟩
    rw [hjobs', hjobs]
    split <;> rfl
  · exact .inr ⟨by rw [← hdone, his], horder, hjobs⟩

end JobTable

end Nsh.Jobs
