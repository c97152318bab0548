import Mathlib.Data.List.Flatten
import Mathlib.Logic.Function.Basic
import Nsh.Jobs.Current

/-!
# Reaping children

The system names a child by its pid and may give that pid away again once the
child has been reaped, while the job table still lists it.  Here each fork has a
number, carried by the record it pushes, and the children the system still keeps
for the shell are paired with theirs, so that it can be said whose status was
recorded where.
-/

namespace Nsh.Jobs

/-- Which of the shell's forks a child comes from. -/
abbrev Fork := Nat

structure Reaper where
  session : Session Fork := {}
  /-- `ForkedChildren`: the children not yet reaped. -/
  forkedChildren : List (ProcessId × Fork) := []
  forks : Nat := 0
  /-- The last status taken of each child, a stop being forgotten when its job is continued. -/
  reported : Fork → Option ChildStatus := fun _ => none

inductive ReaperEvent where
  | job (event : JobEvent Fork)
  | forked (job : Option JobId) (mode : ForkMode) (process : ProcessId) (announced : Bool)
  | reaped (process : ProcessId) (status : ChildStatus)
  /-- The system no longer has this child for the shell. -/
  | lost (process : ProcessId)
deriving DecidableEq, Repr

/-- A fork or a reaped status, which comes with a child of its own. -/
def JobEvent.ofChild {Text : Type} : JobEvent Text → Bool
  | .forked .. | .reaped .. => true
  | _ => false

/-- The job whose processes the event continues. -/
def JobEvent.continued {Text : Type} : JobEvent Text → Option JobId
  | .bg id .sent | .fg id true => some id
  | _ => none

def JobTable.members {Text : Type} (t : JobTable Text) (id : JobId) : List (ProcessRecord Text) :=
  match t.job? id with
  | some job => job.processes
  | none => []

/-- No process of the job has reported yet. -/
def JobTable.starting {Text : Type} (t : JobTable Text) (id : JobId) : Bool :=
  (t.job? id).any fun job =>
    job.isRunning && job.processes.all fun record => record.status.isNone

namespace Reaper

def table (s : Reaper) : JobTable Fork := s.session.table

def release (s : Reaper) (process : ProcessId) : List (ProcessId × Fork) :=
  s.forkedChildren.filter fun child => decide (child.1 ≠ process)

def reportedAfter (s : Reaper) (event : JobEvent Fork) (child : Fork) : Option ChildStatus :=
  match event.continued with
  | some id =>
    if (s.table.members id).any fun record => decide (record.commandText = child) then
      (s.reported child).filter fun status => !status.isStopped
    else s.reported child
  | none => s.reported child

/-- One job's forks follow one another with no wait between them, a new child has a pid that no
unreaped one has, and the system is not asked about children that were continued. -/
def perform (s : Reaper) : ReaperEvent → Option Reaper
  | .job event =>
    if event.ofChild then none
    else (s.session.perform event).map fun session =>
      { s with session := session, reported := s.reportedAfter event }
  | .forked job mode process announced =>
    if s.forkedChildren.any fun child => decide (child.1 = process) then none
    else
      (match job with
        | none => some s.session
        | some id =>
          if s.table.starting id then
            s.session.perform (.forked id mode process s.forks announced)
          else none).map fun session =>
        { s with
          session := session
          forkedChildren := s.forkedChildren ++ [(process, s.forks)]
          forks := s.forks + 1 }
  | .reaped process status =>
    match s.forkedChildren.find? fun child => decide (child.1 = process) with
    | none => none
    | some (_, child) =>
      if status = .continued then none
      else (s.session.perform (.reaped process status)).map fun session =>
        { s with
          session := session
          forkedChildren := if status.terminal then s.release process else s.forkedChildren
          reported := Function.update s.reported child (some status) }
  | .lost process => some { s with forkedChildren := s.release process }

def performAll (s : Reaper) : List ReaperEvent → Option Reaper
  | [] => some s
  | event :: events => (s.perform event).bind fun s => s.performAll events

end Reaper

/-! ### What the other events leave of each job -/

open JobTable

theorem map_job?_some {t t' : JobTable Fork} {id other : JobId} {slot : Option (Job Fork)}
    {job' : Job Fork} (hjobs : ∀ other, t'.job? other = if other = id then slot else t.job? other)
    (h : t'.job? other = some job') :
    other = id ∧ slot = some job' ∨ other ≠ id ∧ t.job? other = some job' := by
  rw [hjobs] at h
  by_cases heq : other = id
  · rw [if_pos heq] at h
    exact .inl ⟨heq, h⟩
  · rw [if_neg heq] at h
    exact .inr ⟨heq, h⟩

/-- A job is new, or has its processes as they were, or those with their stops forgotten. -/
def LeftAs (t : JobTable Fork) (continued : Option JobId) (id : JobId) (job' : Job Fork) : Prop :=
  job'.processes = [] ∧ job'.isDone = false ∨
    ∃ job, t.job? id = some job ∧ job'.isDone = job.isDone ∧
      job'.processes = if continued = some id ∧ job.isDone = false
        then job.processes.map continueProcess else job.processes

theorem leftAs_self {t : JobTable Fork} {continued : Option JobId} {id : JobId} {job : Job Fork}
    (h : t.job? id = some job) (hnot : continued ≠ some id) : LeftAs t continued id job :=
  .inr ⟨job, h, rfl, by rw [if_neg fun hboth => hnot hboth.1]⟩

theorem restartJob_leftAs {t t' : JobTable Fork} {id other : JobId} {continued : Bool}
    {job' : Job Fork} (h : t.restartJob id continued = some t')
    (hjob' : t'.job? other = some job') :
    LeftAs t (if continued then some id else none) other job' := by
  obtain ⟨-, job, new, hjob, hnew, hjobs⟩ := restartJob_some h
  rcases map_job?_some hjobs hjob' with ⟨rfl, heq⟩ | ⟨hne, hother⟩
  · cases heq
    refine .inr ⟨job, hjob, ?_⟩
    cases hdone : job.isDone with
    | true =>
      rw [if_pos hdone] at hnew
      subst hnew
      exact ⟨hdone, by rw [if_neg]; simp⟩
    | false =>
      rw [if_neg (by rw [hdone]; simp)] at hnew
      refine ⟨by rw [Job.isDone, hnew.1]; rfl, ?_⟩
      rw [hnew.2]
      cases continued with
      | true => simp
      | false => simp
  · refine leftAs_self hother ?_
    cases continued with
    | true => simpa using Ne.symm hne
    | false => simp

theorem removed_leftAs {t t' : JobTable Fork} {id other : JobId} {job' : Job Fork}
    (hjobs : ∀ other, t'.job? other = if other = id then none else t.job? other)
    (hjob' : t'.job? other = some job') : LeftAs t none other job' := by
  rcases map_job?_some hjobs hjob' with ⟨-, heq⟩ | ⟨-, hother⟩
  · cases heq
  · exact leftAs_self hother (by simp)

theorem marked_leftAs {t t' : JobTable Fork} {id other : JobId} {mark : Job Fork → Job Fork}
    {job' : Job Fork}
    (hmark : ∀ job, (mark job).state = job.state ∧ (mark job).processes = job.processes)
    (h : ((t.update id mark).bind fun t => t.removeDone id) = some t')
    (hjob' : t'.job? other = some job') : LeftAs t none other job' := by
  obtain ⟨job, hjob, ⟨-, -, hjobs⟩ | ⟨-, -, hjobs⟩⟩ :=
    mark_removeDone_some (fun job => (hmark job).1) h
  · exact removed_leftAs hjobs hjob'
  · rcases map_job?_some hjobs hjob' with ⟨rfl, heq⟩ | ⟨-, hother⟩
    · cases heq
      refine .inr ⟨job, hjob, ?_, ?_⟩
      · rw [Job.isDone, Job.isDone, (hmark job).1]
      · rw [if_neg (by simp), (hmark job).2]
    · exact leftAs_self hother (by simp)

/-- An event without a child of its own creates, removes or continues jobs. -/
theorem perform_leftAs {s s' : Session Fork} {event : JobEvent Fork} (h : s.perform event = some s')
    (hevent : event.ofChild = false) {id : JobId} {job' : Job Fork}
    (hjob' : s'.table.job? id = some job') : LeftAs s.table event.continued id job' := by
  cases event with
  | forked => cases hevent
  | reaped => cases hevent
  | create =>
    obtain ⟨⟨new, table⟩, hcreate, rfl⟩ := Option.map_eq_some_iff.mp h
    obtain ⟨-, -, hjobs⟩ := createJob_some hcreate
    rcases map_job?_some hjobs hjob' with ⟨-, heq⟩ | ⟨-, hother⟩
    · cases heq
      exact .inl ⟨rfl, rfl⟩
    · exact leftAs_self hother (by simp [JobEvent.continued])
  | forkFailed removed =>
    obtain ⟨table, hremove, rfl⟩ := Option.map_eq_some_iff.mp h
    exact removed_leftAs (remove_some hremove).2.2 hjob'
  | waitEnded ended =>
    obtain ⟨table, hended, rfl⟩ := Option.map_eq_some_iff.mp h
    obtain ⟨job, -, ⟨-, hremove⟩ | ⟨-, rfl⟩⟩ := removeDone_some hended
    · exact removed_leftAs (remove_some hremove).2.2 hjob'
    · exact leftAs_self hjob' (by simp [JobEvent.continued])
  | abandoned left =>
    cases h
    exact leftAs_self hjob' (by simp [JobEvent.continued])
  | bg resumed progress =>
    obtain ⟨moved, hmoved, h⟩ := Option.bind_eq_some_iff.mp h
    obtain ⟨table, hrestart, rfl⟩ := Option.map_eq_some_iff.mp h
    obtain ⟨-, hsame, -⟩ := positionRunning_some hmoved
    cases progress with
    | unwritten =>
      cases hrestart
      exact leftAs_self ((hsame id).symm.trans hjob') (by simp [JobEvent.continued])
    | unsent =>
      have hleft : LeftAs moved none id job' := restartJob_leftAs hrestart hjob'
      unfold LeftAs at hleft ⊢
      rw [hsame] at hleft
      exact hleft
    | sent =>
      have hleft := restartJob_leftAs hrestart hjob'
      unfold LeftAs at hleft ⊢
      rw [hsame] at hleft
      exact hleft
  | fg resumed continued =>
    obtain ⟨table, hrestart, rfl⟩ := Option.map_eq_some_iff.mp h
    have hleft := restartJob_leftAs hrestart hjob'
    cases continued with
    | true => exact hleft
    | false => exact hleft
  | written shown =>
    obtain ⟨table, hwritten, rfl⟩ := Option.map_eq_some_iff.mp h
    have htable : table.job? id = some job' := by
      revert hjob'
      unfold Session.dropped
      split <;> exact fun h => h
    refine marked_leftAs ?_ hwritten htable
    exact fun _ => ⟨rfl, rfl⟩
  | waited waitedFor =>
    obtain ⟨table, hwaited, rfl⟩ := Option.map_eq_some_iff.mp h
    have htable : table.job? id = some job' := by
      revert hjob'
      unfold Session.dropped
      split <;> exact fun h => h
    refine marked_leftAs ?_ hwaited htable
    exact fun _ => ⟨rfl, rfl⟩
  | setJobControl on =>
    cases h
    exact leftAs_self hjob' (by simp [JobEvent.continued])
  | exitAsked =>
    cases h
    have htable : s.table.job? id = some job' := by
      revert hjob'
      simp only [hasStoppedJobs]
      split_ifs <;> exact fun h => h
    exact leftAs_self htable (by simp [JobEvent.continued])
  | commandRead =>
    cases h
    exact leftAs_self hjob' (by simp [JobEvent.continued])

/-! ### What every run keeps -/

theorem members_of_job {t : JobTable Fork} {id : JobId} {job : Job Fork}
    (h : t.job? id = some job) : t.members id = job.processes := by
  rw [JobTable.members, h]

/-- Each fork's number is on one record at most, each record holds what its own child has
reported, and a job is done when all its processes are gone. -/
structure Sound (s : Reaper) : Prop where
  listed : s.table.Listed
  fresh : ∀ id, ∀ record ∈ s.table.members id, record.commandText < s.forks
  once : ∀ id, ((s.table.members id).map ProcessRecord.commandText).Nodup
  apart : ∀ id id', ∀ record ∈ s.table.members id, ∀ record' ∈ s.table.members id',
    record.commandText = record'.commandText → id = id'
  unforked : ∀ child, s.forks ≤ child → s.reported child = none
  children : ∀ child ∈ s.forkedChildren, child.2 < s.forks
  pids : (s.forkedChildren.map Prod.fst).Nodup
  forks : (s.forkedChildren.map Prod.snd).Nodup
  living : ∀ child ∈ s.forkedChildren, ∀ status, s.reported child.2 = some status →
    status.terminal = false
  named : ∀ child ∈ s.forkedChildren, ∀ id, ∀ record ∈ s.table.members id,
    record.commandText = child.2 → record.processId = child.1
  statuses : ∀ id, ∀ record ∈ s.table.members id, record.status = s.reported record.commandText
  unasked : ∀ child, s.reported child ≠ some .continued
  settled : ∀ id job, s.table.job? id = some job → (job.isDone = true ↔
    job.processes ≠ [] ∧ ∀ record ∈ job.processes, record.status.any ChildStatus.terminal = true)

theorem sound_start (jobControl : Bool) :
    Sound { session := { table := { jobControl := jobControl } } } where
  listed := listed_empty jobControl .ready
  fresh := by simp [JobTable.members, Reaper.table, job?]
  once := by simp [JobTable.members, Reaper.table, job?]
  apart := by simp [JobTable.members, Reaper.table, job?]
  unforked _ _ := rfl
  children := by simp
  pids := List.nodup_nil
  forks := List.nodup_nil
  living := by simp
  named := by simp
  statuses := by simp [JobTable.members, Reaper.table, job?]
  unasked := by simp
  settled := by simp [Reaper.table, job?]

theorem continueProcess_status (record : ProcessRecord Fork) :
    (continueProcess record).status = record.status.filter fun status => !status.isStopped := by
  unfold continueProcess
  cases hstatus : record.status with
  | none => simp [hstatus]
  | some status => cases status <;> simp [hstatus, ChildStatus.isStopped] <;> rfl

theorem continueProcess_terminal (record : ProcessRecord Fork) :
    (continueProcess record).status.any ChildStatus.terminal =
      record.status.any ChildStatus.terminal := by
  rw [continueProcess_status]
  cases record.status with
  | none => rfl
  | some status => cases status <;> rfl

theorem continueProcess_commandText (record : ProcessRecord Fork) :
    (continueProcess record).commandText = record.commandText := by
  unfold continueProcess
  split <;> rfl

theorem continueProcess_processId (record : ProcessRecord Fork) :
    (continueProcess record).processId = record.processId := by
  unfold continueProcess
  split <;> rfl

/-- Each record comes from one with the same fork and the same pid. -/
theorem LeftAs.comes {t : JobTable Fork} {continued : Option JobId} {id : JobId} {job' : Job Fork}
    (h : LeftAs t continued id job') {record' : ProcessRecord Fork}
    (hmem : record' ∈ job'.processes) :
    ∃ job record, t.job? id = some job ∧ record ∈ job.processes ∧
      record' = (if continued = some id ∧ job.isDone = false then continueProcess record
        else record) := by
  rcases h with ⟨hnil, -⟩ | ⟨job, hjob, -, hprocesses⟩
  · rw [hnil] at hmem
    cases hmem
  · rw [hprocesses] at hmem
    split at hmem
    · next hcontinued =>
      obtain ⟨record, hrecord, rfl⟩ := List.mem_map.mp hmem
      exact ⟨job, record, hjob, hrecord, by rw [if_pos hcontinued]⟩
    · next hnot => exact ⟨job, record', hjob, hmem, by rw [if_neg hnot]⟩

theorem LeftAs.texts {t : JobTable Fork} {continued : Option JobId} {id : JobId} {job' : Job Fork}
    (h : LeftAs t continued id job') :
    (job'.processes.map ProcessRecord.commandText).Sublist
      ((t.members id).map ProcessRecord.commandText) := by
  rcases h with ⟨hnil, -⟩ | ⟨job, hjob, -, hprocesses⟩
  · rw [hnil]
    exact List.nil_sublist _
  · rw [hprocesses, members_of_job hjob]
    split
    · rw [List.map_map]
      exact (List.map_congr_left fun record _ => continueProcess_commandText record).symm ▸
        List.Sublist.refl _
    · exact List.Sublist.refl _

/-- A record is one of a listed job. -/
theorem mem_members {t : JobTable Fork} {id : JobId} {record : ProcessRecord Fork} :
    record ∈ t.members id ↔ ∃ job, t.job? id = some job ∧ record ∈ job.processes := by
  unfold JobTable.members
  cases t.job? id with
  | none => simp
  | some job => simp

theorem reportedAfter_le {s : Reaper} {event : JobEvent Fork} {child : Fork} {status : ChildStatus}
    (h : s.reportedAfter event child = some status) : s.reported child = some status := by
  unfold Reaper.reportedAfter at h
  split at h
  · split at h
    · exact (Option.filter_eq_some_iff.mp h).1
    · exact h
  · exact h

/-- What becomes of a record is what becomes of its child's report. -/
theorem reportedAfter_eq {s : Reaper} (hs : Sound s) {event : JobEvent Fork} {id : JobId}
    {job : Job Fork} {record : ProcessRecord Fork} (hjob : s.table.job? id = some job)
    (hmem : record ∈ job.processes) :
    s.reportedAfter event record.commandText =
      (if event.continued = some id ∧ job.isDone = false then continueProcess record
        else record).status := by
  have hrecord : record ∈ s.table.members id := mem_members.mpr ⟨job, hjob, hmem⟩
  have hstatus := hs.statuses id record hrecord
  unfold Reaper.reportedAfter
  cases hcontinued : event.continued with
  | none => simp [hstatus]
  | some resumed =>
    by_cases hid : resumed = id
    · subst hid
      have hany : (s.table.members resumed).any
          (fun other => decide (other.commandText = record.commandText)) = true :=
        List.any_eq_true.mpr ⟨record, hrecord, by simp⟩
      simp only [hany, if_true, true_and]
      cases hdone : job.isDone with
      | false =>
        rw [if_pos rfl, continueProcess_status, hstatus]
      | true =>
        -- the processes of a job that is done are gone, so there is no stop to forget
        rw [if_neg (by simp), hstatus]
        have hgone := ((hs.settled resumed job hjob).mp hdone).2 record hmem
        rw [hstatus] at hgone
        cases hreported : s.reported record.commandText with
        | none => rfl
        | some status =>
          rw [hreported] at hgone
          cases status with
          | exited | signaled => rfl
          | stopped | continued => cases hgone
    · have hnone : ¬(s.table.members resumed).any
          (fun other => decide (other.commandText = record.commandText)) = true := by
        intro hany
        obtain ⟨other, hother, heq⟩ := List.any_eq_true.mp hany
        exact hid (hs.apart resumed id other hother record hrecord (of_decide_eq_true heq))
      simp only [hnone, Bool.false_eq_true, if_false]
      rw [if_neg (by simp [hid]), hstatus]

theorem perform_job_sound {s s' : Reaper} {event : JobEvent Fork} (hs : Sound s)
    (h : s.perform (.job event) = some s') : Sound s' := by
  unfold Reaper.perform at h
  by_cases hevent : event.ofChild = true
  · simp [hevent] at h
  · simp only [hevent, Bool.false_eq_true, if_false] at h
    obtain ⟨session, hsession, rfl⟩ := Option.map_eq_some_iff.mp h
    have hleft : ∀ {id : JobId} {job' : Job Fork}, session.table.job? id = some job' →
        LeftAs s.table event.continued id job' := fun hjob' =>
      perform_leftAs hsession (Bool.eq_false_iff.mpr hevent) hjob'
    -- a record after the event, and the one it comes from
    have hcomes : ∀ id, ∀ record' ∈ session.table.members id, ∃ job record,
        s.table.job? id = some job ∧ record ∈ job.processes ∧ record ∈ s.table.members id ∧
          record'.commandText = record.commandText ∧ record'.processId = record.processId ∧
          record' = (if event.continued = some id ∧ job.isDone = false then continueProcess record
            else record) := by
      intro id record' hmem
      obtain ⟨job', hjob', hmem'⟩ := mem_members.mp hmem
      obtain ⟨job, record, hjob, hrecord, heq⟩ := (hleft hjob').comes hmem'
      refine ⟨job, record, hjob, hrecord, mem_members.mpr ⟨job, hjob, hrecord⟩, ?_, ?_, heq⟩
      · rw [heq]
        split
        · exact continueProcess_commandText record
        · rfl
      · rw [heq]
        split
        · exact continueProcess_processId record
        · rfl
    exact {
      listed := perform_listed hsession hs.listed
      fresh := by
        intro id record' hmem
        obtain ⟨-, record, -, -, hrecord, htext, -⟩ := hcomes id record' hmem
        rw [htext]
        exact hs.fresh id record hrecord
      once := by
        intro id
        show ((session.table.members id).map _).Nodup
        unfold JobTable.members
        cases hjob' : session.table.job? id with
        | none => exact List.nodup_nil
        | some job' => exact (hs.once id).sublist (hleft hjob').texts
      apart := by
        intro id id' record hmem record' hmem' heq
        obtain ⟨-, old, -, -, hold, htext, -⟩ := hcomes id record hmem
        obtain ⟨-, old', -, -, hold', htext', -⟩ := hcomes id' record' hmem'
        exact hs.apart id id' old hold old' hold' (htext.symm.trans (heq.trans htext'))
      unforked := by
        intro child hchild
        have hnone := hs.unforked child hchild
        cases hafter : s.reportedAfter event child with
        | none => exact hafter
        | some status => rw [reportedAfter_le hafter] at hnone; cases hnone
      children := hs.children
      pids := hs.pids
      forks := hs.forks
      living := fun child hchild status hstatus =>
        hs.living child hchild status (reportedAfter_le hstatus)
      named := by
        intro child hchild id record' hmem heq
        obtain ⟨-, record, -, -, hrecord, htext, hpid, -⟩ := hcomes id record' hmem
        rw [hpid]
        exact hs.named child hchild id record hrecord (htext.symm.trans heq)
      statuses := by
        intro id record' hmem
        obtain ⟨job, record, hjob, hrecord, -, htext, -, heq⟩ := hcomes id record' hmem
        show _ = s.reportedAfter event record'.commandText
        rw [htext, reportedAfter_eq hs hjob hrecord, heq]
      unasked := fun child hcontinued => hs.unasked child (reportedAfter_le hcontinued)
      settled := by
        intro id job' hjob'
        rcases hleft hjob' with ⟨hnil, hnot⟩ | ⟨job, hjob, hdone, hprocesses⟩
        · simp [hnil, hnot]
        · rw [hdone, hs.settled id job hjob, hprocesses]
          split
          · simp [continueProcess_terminal]
          · rfl }

/-- A fork's session, its records being those there were and perhaps one of the new child. -/
theorem forked_members {s : Session Fork} {s' : Session Fork} {id : JobId} {mode : ForkMode}
    {process : ProcessId} {child : Fork} {announced : Bool}
    (h : s.perform (.forked id mode process child announced) = some s') :
    ∃ job job', s.table.job? id = some job ∧ job'.state = job.state ∧
      (job'.processes = job.processes ∨
        job'.processes = job.processes ++ [⟨process, none, child⟩]) ∧
      ∀ other, s'.table.job? other = if other = id then some job' else s.table.job? other := by
  obtain ⟨table, hfork, rfl⟩ := Option.map_eq_some_iff.mp h
  obtain ⟨-, job, job', hjob, hstate, hprocesses, hjobs⟩ := recordForkedChild_some hfork
  refine ⟨job, job', hjob, hstate, ?_, fun other => ?_⟩
  · rw [hprocesses]
    split
    · exact .inl (List.append_nil _)
    · exact .inr rfl
  · show (if mode = .background then s.leave id table else { s with table := table }).table.job?
      other = _
    rw [← hjobs]
    split <;> rfl

/-- The record that a fork pushes. -/
def Reaper.newRecord (s : Reaper) (process : ProcessId) : ProcessRecord Fork :=
  ⟨process, none, s.forks⟩

/-- A table whose records are those of the reaper's, and perhaps one of its next fork. -/
structure Joined (s : Reaper) (process : ProcessId) (t : JobTable Fork) : Prop where
  listed : t.Listed
  comes : ∀ id, ∀ record ∈ t.members id,
    record ∈ s.table.members id ∨ record = s.newRecord process
  once : ∀ id, ((t.members id).map ProcessRecord.commandText).Nodup
  new : ∀ id id', s.newRecord process ∈ t.members id → s.newRecord process ∈ t.members id' →
    id = id'
  settled : ∀ id job, t.job? id = some job → (job.isDone = true ↔ job.processes ≠ [] ∧
    ∀ record ∈ job.processes, record.status.any ChildStatus.terminal = true)

theorem not_mem_newRecord {s : Reaper} (hs : Sound s) (process : ProcessId) (id : JobId) :
    s.newRecord process ∉ s.table.members id := fun hmem =>
  Nat.lt_irrefl _ (hs.fresh id _ hmem)

theorem joined_self {s : Reaper} (hs : Sound s) (process : ProcessId) :
    Joined s process s.table where
  listed := hs.listed
  comes _ _ hmem := .inl hmem
  once := hs.once
  new id _ hmem _ := absurd hmem (not_mem_newRecord hs process id)
  settled := hs.settled

theorem joined_forked {s : Reaper} {session : Session Fork} {id : JobId} {mode : ForkMode}
    {process : ProcessId} {announced : Bool} (hs : Sound s) (hstarting : s.table.starting id = true)
    (h : s.session.perform (.forked id mode process s.forks announced) = some session) :
    Joined s process session.table := by
  obtain ⟨job, job', hjob, hstate, hprocesses, hjobs⟩ := forked_members h
  have hjob : s.table.job? id = some job := hjob
  have hjobs : ∀ other, session.table.job? other = if other = id then some job'
      else s.table.job? other := hjobs
  have hrunning : job.state = .running := by
    rw [JobTable.starting, hjob, Option.any_some, Bool.and_eq_true] at hstarting
    exact of_decide_eq_true hstarting.1
  have hid : session.table.members id = job'.processes :=
    members_of_job (by rw [hjobs, if_pos rfl])
  have hwas : s.table.members id = job.processes := members_of_job hjob
  have hother : ∀ other, other ≠ id →
      session.table.members other = s.table.members other := fun other hne => by
    rw [JobTable.members, JobTable.members, hjobs, if_neg hne]
  have hat : ∀ other, s.newRecord process ∈ session.table.members other → other = id :=
    fun other hmem => by
      by_contra hne
      rw [hother other hne] at hmem
      exact not_mem_newRecord hs process other hmem
  refine ⟨perform_listed h hs.listed, fun other record hmem => ?_, fun other => ?_,
    fun other other' hmem hmem' => by rw [hat other hmem, hat other' hmem'],
    fun other found hfound => ?_⟩
  · by_cases heq : other = id
    · rw [heq, hid] at hmem
      rw [heq, hwas]
      rcases hprocesses with hsame | hmore
      · rw [hsame] at hmem; exact .inl hmem
      · rw [hmore] at hmem
        rcases List.mem_append.mp hmem with hmem | hmem
        · exact .inl hmem
        · exact .inr (List.mem_singleton.mp hmem)
    · rw [hother other heq] at hmem
      exact .inl hmem
  · by_cases heq : other = id
    · rw [heq, hid]
      have honce := hs.once id
      rw [hwas] at honce
      rcases hprocesses with hsame | hmore
      · rw [hsame]; exact honce
      · rw [hmore, List.map_append]
        refine List.nodup_append.mpr ⟨honce, List.nodup_singleton _, ?_⟩
        intro text htext text' htext' heq'
        obtain ⟨record, hrecord, rfl⟩ := List.mem_map.mp htext
        have hlt := hs.fresh id record (hwas ▸ hrecord)
        rw [heq', List.mem_singleton.mp htext'] at hlt
        exact Nat.lt_irrefl _ hlt
    · rw [hother other heq]
      exact hs.once other
  · rw [hjobs] at hfound
    by_cases heq : other = id
    · rw [if_pos heq] at hfound
      cases hfound
      have hnot : job.isDone = false := by rw [Job.isDone, hrunning]; rfl
      have hnot' : job'.isDone = false := by rw [Job.isDone, hstate, hrunning]; rfl
      rcases hprocesses with hsame | hmore
      · rw [hnot', hsame, ← hnot]
        exact hs.settled id job hjob
      · rw [hnot', hmore]
        simp
    · rw [if_neg heq] at hfound
      exact hs.settled other found hfound

theorem perform_forked_sound {s s' : Reaper} {job : Option JobId} {mode : ForkMode}
    {process : ProcessId} {announced : Bool} (hs : Sound s)
    (h : s.perform (.forked job mode process announced) = some s') : Sound s' := by
  simp only [Reaper.perform] at h
  split at h
  · cases h
  · next hfree =>
    obtain ⟨session, hsession, rfl⟩ := Option.map_eq_some_iff.mp h
    have hpid : process ∉ s.forkedChildren.map Prod.fst := by
      intro hmem
      obtain ⟨child, hchild, heq⟩ := List.mem_map.mp hmem
      exact hfree (List.any_eq_true.mpr ⟨child, hchild, decide_eq_true heq⟩)
    have hjoined : Joined s process session.table := by
      cases job with
      | none => cases hsession; exact joined_self hs process
      | some id =>
        simp only at hsession
        split at hsession
        · next hstarting => exact joined_forked hs hstarting hsession
        · cases hsession
    obtain ⟨hlisted, hcomes, honce, hnew, hsettled⟩ := hjoined
    have hunforked : s.reported s.forks = none := hs.unforked s.forks (Nat.le_refl _)
    exact {
      listed := hlisted
      fresh := by
        intro id record hmem
        rcases hcomes id record hmem with hold | rfl
        · exact Nat.lt_succ_of_lt (hs.fresh id record hold)
        · exact Nat.lt_succ_self _
      once := honce
      apart := by
        intro id id' record hmem record' hmem' heq
        rcases hcomes id record hmem with hold | rfl
        · rcases hcomes id' record' hmem' with hold' | rfl
          · exact hs.apart id id' record hold record' hold' heq
          · exact absurd (heq ▸ hs.fresh id record hold) (Nat.lt_irrefl _)
        · rcases hcomes id' record' hmem' with hold' | rfl
          · exact absurd (heq.symm ▸ hs.fresh id' record' hold') (Nat.lt_irrefl _)
          · exact hnew id id' hmem hmem'
      unforked := fun child hchild => hs.unforked child (Nat.le_of_succ_le hchild)
      children := by
        intro child hchild
        rcases List.mem_append.mp hchild with hchild | hchild
        · exact Nat.lt_succ_of_lt (hs.children child hchild)
        · rw [List.mem_singleton.mp hchild]
          exact Nat.lt_succ_self _
      pids := by
        rw [List.map_append]
        refine List.nodup_append.mpr ⟨hs.pids, List.nodup_singleton _, ?_⟩
        intro pid hmem pid' hmem' heq
        rw [heq, List.mem_singleton.mp hmem'] at hmem
        exact hpid hmem
      forks := by
        rw [List.map_append]
        refine List.nodup_append.mpr ⟨hs.forks, List.nodup_singleton _, ?_⟩
        intro fork hmem fork' hmem' heq
        obtain ⟨child, hchild, rfl⟩ := List.mem_map.mp hmem
        have hlt := hs.children child hchild
        rw [heq, List.mem_singleton.mp hmem'] at hlt
        exact Nat.lt_irrefl _ hlt
      living := by
        intro child hchild status hstatus
        rcases List.mem_append.mp hchild with hchild | hchild
        · exact hs.living child hchild status hstatus
        · rw [List.mem_singleton.mp hchild] at hstatus
          have hnone : s.reported s.forks = some status := hstatus
          rw [hunforked] at hnone
          cases hnone
      named := by
        intro child hchild id record hmem heq
        rcases List.mem_append.mp hchild with hchild | hchild
        · rcases hcomes id record hmem with hold | rfl
          · exact hs.named child hchild id record hold heq
          · exact absurd (heq.symm ▸ hs.children child hchild) (Nat.lt_irrefl _)
        · rw [List.mem_singleton.mp hchild] at heq ⊢
          rcases hcomes id record hmem with hold | rfl
          · exact absurd (heq ▸ hs.fresh id record hold) (Nat.lt_irrefl _)
          · rfl
      statuses := by
        intro id record hmem
        rcases hcomes id record hmem with hold | rfl
        · exact hs.statuses id record hold
        · exact hunforked.symm
      unasked := hs.unasked
      settled := hsettled }

theorem perform_lost_sound {s s' : Reaper} {process : ProcessId} (hs : Sound s)
    (h : s.perform (.lost process) = some s') : Sound s' := by
  cases h
  have hkept : ∀ child ∈ s.release process, child ∈ s.forkedChildren :=
    fun child hchild => (List.mem_filter.mp hchild).1
  exact { hs with
    children := fun child hchild => hs.children child (hkept child hchild)
    pids := hs.pids.sublist (List.filter_sublist.map _)
    forks := hs.forks.sublist (List.filter_sublist.map _)
    living := fun child hchild => hs.living child (hkept child hchild)
    named := fun child hchild => hs.named child (hkept child hchild) }

/-! ### Whose record a status goes to -/

def JobTable.unfinishedMembers {Text : Type} (t : JobTable Text) (id : JobId) :
    List (ProcessRecord Text) :=
  match t.job? id with
  | some job => if job.isDone then [] else job.processes
  | none => []

/-- The processes of the unfinished jobs, in presentation order. -/
def JobTable.unfinished {Text : Type} (t : JobTable Text) : List (ProcessRecord Text) :=
  t.order.flatMap t.unfinishedMembers

/-- No other process with this pid stands before the child's own. -/
def OwnFirst (t : JobTable Fork) (process : ProcessId) (child : Fork) : Prop :=
  ∀ before other after, t.unfinished = before ++ other :: after → other.processId = process →
    other.commandText = child ∨ ∃ own ∈ before, own.commandText = child

/-- The status put in a child's record. -/
def reportIn (child : Fork) (status : ChildStatus) (record : ProcessRecord Fork) :
    ProcessRecord Fork :=
  if record.commandText = child then { record with status := some status } else record

/-- The child's record holds the status now, and every other record what it held. -/
def RecordsOnly (t t' : JobTable Fork) (child : Fork) (status : ChildStatus) : Prop :=
  ∀ id, t'.members id = (t.members id).map (reportIn child status)

@[simp] theorem reportIn_commandText (child : Fork) (status : ChildStatus)
    (record : ProcessRecord Fork) :
    (reportIn child status record).commandText = record.commandText := by
  unfold reportIn
  split <;> rfl

@[simp] theorem reportIn_processId (child : Fork) (status : ChildStatus)
    (record : ProcessRecord Fork) :
    (reportIn child status record).processId = record.processId := by
  unfold reportIn
  split <;> rfl

theorem mem_unfinishedMembers {t : JobTable Fork} {id : JobId} {record : ProcessRecord Fork}
    (h : record ∈ t.unfinishedMembers id) :
    ∃ job, t.job? id = some job ∧ job.isDone = false ∧ record ∈ job.processes := by
  unfold JobTable.unfinishedMembers at h
  cases hjob : t.job? id with
  | none => simp [hjob] at h
  | some job =>
    cases hdone : job.isDone with
    | true => simp [hjob, hdone] at h
    | false =>
      simp only [hjob, hdone, Bool.false_eq_true, if_false] at h
      exact ⟨job, rfl, hdone, h⟩

/-- The job of a child that is not reaped is not done. -/
theorem Sound.unfinished {s : Reaper} (hs : Sound s) {child : ProcessId × Fork}
    (hchild : child ∈ s.forkedChildren) {id : JobId} {job : Job Fork}
    (hjob : s.table.job? id = some job) {record : ProcessRecord Fork}
    (hmem : record ∈ job.processes) (heq : record.commandText = child.2) : job.isDone = false := by
  by_contra hdone
  have hgone := ((hs.settled id job hjob).mp (Bool.not_eq_false _ ▸ hdone)).2 record hmem
  rw [hs.statuses id record (mem_members.mpr ⟨job, hjob, hmem⟩), heq] at hgone
  obtain ⟨status, hstatus, hterminal⟩ := (Option.any_eq_true _ _).mp hgone
  rw [hs.living child hchild status hstatus] at hterminal
  cases hterminal

theorem map_other {records : List (ProcessRecord Fork)} {child : Fork} {status : ChildStatus}
    (h : ∀ record ∈ records, record.commandText ≠ child) :
    records.map (reportIn child status) = records := by
  refine (List.map_congr_left fun record hrecord => ?_).trans (List.map_id _)
  rw [reportIn, if_neg (h record hrecord)]
  rfl

/-- **A status is recorded with the child that reported it**, if no other process with its pid
stands before it. -/
theorem waitOnce_recordsOnly {s : Reaper} (hs : Sound s) {process : ProcessId} {child : Fork}
    {status : ChildStatus} {t' : JobTable Fork} (hchild : (process, child) ∈ s.forkedChildren)
    (hown : OwnFirst s.table process child) (h : s.table.waitOnce process status = some t') :
    RecordsOnly s.table t' child status := by
  rcases recordReaped_some h with
    ⟨rfl, hlacks⟩ | ⟨before, id, after, job, processes, hsplit, hreaped⟩
  · -- no unfinished job has the pid, so the child has no record
    intro id
    refine (map_other fun record hmem heq => ?_).symm
    obtain ⟨job, hjob, hrecord⟩ := mem_members.mp hmem
    exact hlacks id (hs.listed.mem hjob) job hjob (hs.unfinished hchild hjob hrecord heq) record
      hrecord (hs.named _ hchild id record hmem heq)
  · obtain ⟨earlier, found, later, hprocesses, hpid, hearlier, hset⟩ :=
      setStatus_some hreaped.recorded
    obtain ⟨job', hjob', -, hjobs, -⟩ := settle_some hreaped.found hreaped.settled
    have hwas : s.table.members id = earlier ++ found :: later :=
      (members_of_job hreaped.found).trans hprocesses
    have hfound : found.commandText = child := by
      have hhere : s.table.unfinishedMembers id = earlier ++ found :: later := by
        rw [JobTable.unfinishedMembers, hreaped.found]
        simp only [hreaped.unfinished, Bool.false_eq_true, if_false, hprocesses]
      have horder : s.table.unfinished =
          (before.flatMap s.table.unfinishedMembers ++ earlier) ++
            found :: (later ++ after.flatMap s.table.unfinishedMembers) := by
        rw [JobTable.unfinished, hsplit, List.flatMap_append, List.flatMap_cons, hhere]
        simp only [List.append_assoc, List.cons_append]
      rcases hown _ found _ horder hpid with heq | ⟨own, hmem, heq⟩
      · exact heq
      · rcases List.mem_append.mp hmem with hmem | hmem
        · obtain ⟨other, hother, hmem⟩ := List.mem_flatMap.mp hmem
          obtain ⟨ahead, hahead, hnot, hrecord⟩ := mem_unfinishedMembers hmem
          exact absurd (hs.named _ hchild other own (mem_members.mpr ⟨ahead, hahead, hrecord⟩) heq)
            (hreaped.lacks other hother ahead hahead hnot own hrecord)
        · have hmember : own ∈ s.table.members id := hwas ▸ List.mem_append_left _ hmem
          exact absurd (hs.named _ hchild id own hmember heq) (hearlier own hmem)
    intro other
    by_cases heq : other = id
    · have honce := hs.once id
      rw [hwas, List.map_append, List.map_cons] at honce
      obtain ⟨-, htail, hdisjoint⟩ := List.nodup_append.mp honce
      have hnow : t'.members id = earlier ++ { found with status := some status } :: later := by
        rw [members_of_job (by rw [hjobs, if_pos rfl]), hjob']
        exact hset
      rw [heq, hnow, hwas, List.map_append, List.map_cons, reportIn, if_pos hfound]
      have hfront : ∀ record ∈ earlier, record.commandText ≠ child := fun record hrecord htext =>
        hdisjoint _ (List.mem_map_of_mem hrecord) _ List.mem_cons_self (htext.trans hfound.symm)
      have hback : ∀ record ∈ later, record.commandText ≠ child := fun record hrecord htext => by
        have hmem := List.mem_map_of_mem (f := ProcessRecord.commandText) hrecord
        rw [htext, ← hfound] at hmem
        exact (List.nodup_cons.mp htail).1 hmem
      rw [map_other hfront, map_other hback]
    · have hsame : t'.members other = s.table.members other := by
        rw [JobTable.members, JobTable.members, hjobs, if_neg heq]
      rw [hsame]
      refine (map_other fun record hrecord htext => heq ?_).symm
      exact hs.apart other id record hrecord found (hwas ▸ by simp) (htext.trans hfound.symm)

/-- A job whose processes include one without a status or a stopped one is not done. -/
theorem nextState_done {processes : List (ProcessRecord Fork)}
    (hasked : ∀ record ∈ processes, record.status ≠ some .continued) :
    nextState processes = .done ↔
      ∀ record ∈ processes, record.status.any ChildStatus.terminal = true := by
  unfold nextState
  constructor
  · intro hdone record hmem
    split at hdone
    · cases hdone
    · next hnone =>
      split at hdone
      · cases hdone
      · next hstopped =>
        cases hstatus : record.status with
        | none => exact absurd (List.any_eq_true.mpr ⟨record, hmem, by rw [hstatus]; rfl⟩) hnone
        | some status =>
          cases status with
          | exited | signaled => rfl
          | continued => exact absurd hstatus (hasked record hmem)
          | stopped signal =>
            refine absurd ?_ hstopped
            refine List.findSome?_isSome_iff.mpr ⟨record, hmem, ?_⟩
            rw [hstatus]
            rfl
  · intro hgone
    rw [if_neg, if_neg]
    · intro hstopped
      obtain ⟨record, hmem, hstop⟩ := List.findSome?_isSome_iff.mp hstopped
      have := hgone record hmem
      cases hstatus : record.status with
      | none => rw [hstatus] at this; cases this
      | some status =>
        rw [hstatus] at this hstop
        cases status with
        | exited | signaled => cases hstop
        | stopped | continued => cases this
    · intro hnone
      obtain ⟨record, hmem, hisNone⟩ := List.any_eq_true.mp hnone
      have := hgone record hmem
      rw [Option.isNone_iff_eq_none.mp hisNone] at this
      cases this

/-- A job that takes a status is done when its processes are gone. -/
theorem waitOnce_settled {s : Reaper} (hs : Sound s) {process : ProcessId} {status : ChildStatus}
    {t' : JobTable Fork} (h : s.table.waitOnce process status = some t')
    (hasked : ∀ id, ∀ record ∈ t'.members id, record.status ≠ some .continued) (id : JobId)
    (job' : Job Fork) (hjob' : t'.job? id = some job') : job'.isDone = true ↔
      job'.processes ≠ [] ∧
        ∀ record ∈ job'.processes, record.status.any ChildStatus.terminal = true := by
  rcases recordReaped_some h with
    ⟨rfl, -⟩ | ⟨before, found, after, job, processes, -, hreaped⟩
  · exact hs.settled id job' hjob'
  · obtain ⟨settled, hprocesses, hstate, hjobs, -⟩ := settle_some hreaped.found hreaped.settled
    rcases map_job?_some hjobs hjob' with ⟨rfl, heq⟩ | ⟨-, hother⟩
    · cases heq
      have hmembers : t'.members id = processes := (members_of_job hjob').trans hprocesses
      have hnonempty : processes ≠ [] := by
        obtain ⟨earlier, child, later, -, -, -, rfl⟩ := setStatus_some hreaped.recorded
        simp
      have hdone := nextState_done (hmembers ▸ hasked id)
      have hnot : job.state ≠ .done := of_decide_eq_false hreaped.unfinished
      rw [hprocesses, Job.isDone, hstate]
      show _ ↔ processes ≠ [] ∧ ∀ record ∈ processes, _
      rw [← hdone]
      split
      · next hrunning => simp [hrunning, hnot]
      · simp [hnonempty]
    · exact hs.settled id job' hother

theorem perform_reaped_sound {s s' : Reaper} {process : ProcessId} {status : ChildStatus}
    (hs : Sound s) (hown : ∀ child, (process, child) ∈ s.forkedChildren →
      OwnFirst s.table process child)
    (h : s.perform (.reaped process status) = some s') :
    Sound s' ∧ ∀ child, (process, child) ∈ s.forkedChildren →
      RecordsOnly s.table s'.table child status := by
  simp only [Reaper.perform] at h
  split at h
  · cases h
  · next pid child hfind =>
    have hchild : (process, child) ∈ s.forkedChildren := by
      have hpid : pid = process := by simpa using List.find?_some hfind
      exact hpid ▸ List.mem_of_find?_eq_some hfind
    split at h
    · cases h
    · next hasked =>
      obtain ⟨session, hsession, rfl⟩ := Option.map_eq_some_iff.mp h
      obtain ⟨t', hwait, rfl⟩ := Option.map_eq_some_iff.mp hsession
      have honly := waitOnce_recordsOnly hs hchild (hown child hchild) hwait
      -- the pid names one child
      have hsame : ∀ other, (process, other) ∈ s.forkedChildren → other = child :=
        fun other hother => congrArg Prod.snd (List.inj_on_of_nodup_map hs.pids hother hchild rfl)
      refine ⟨?_, fun other hother => hsame other hother ▸ honly⟩
      have hcomes : ∀ id, ∀ record' ∈ t'.members id, ∃ record ∈ s.table.members id,
          record' = reportIn child status record := by
        intro id record' hmem
        rw [honly id] at hmem
        obtain ⟨record, hrecord, heq⟩ := List.mem_map.mp hmem
        exact ⟨record, hrecord, heq.symm⟩
      have hkept : ∀ other ∈ (if status.terminal then s.release process else s.forkedChildren),
          other ∈ s.forkedChildren ∧ (status.terminal = true → other.2 ≠ child) := by
        intro other hother
        cases hterminal : status.terminal with
        | false =>
          rw [hterminal, if_neg (by simp)] at hother
          exact ⟨hother, by simp⟩
        | true =>
          rw [hterminal, if_pos rfl] at hother
          obtain ⟨hmem, hne⟩ := List.mem_filter.mp hother
          refine ⟨hmem, fun _ heq => of_decide_eq_true hne ?_⟩
          exact congrArg Prod.fst (List.inj_on_of_nodup_map hs.forks hmem hchild heq)
      have hsub : (if status.terminal then s.release process else s.forkedChildren).Sublist
          s.forkedChildren := by
        split
        · exact List.filter_sublist
        · exact List.Sublist.refl _
      have hstatuses : ∀ id, ∀ record ∈ t'.members id,
          record.status = Function.update s.reported child (some status) record.commandText := by
        intro id record' hmem
        obtain ⟨record, hrecord, rfl⟩ := hcomes id record' hmem
        rw [reportIn_commandText]
        by_cases heq : record.commandText = child
        · rw [reportIn, if_pos heq, heq, Function.update_self]
        · rw [reportIn, if_neg heq, Function.update_of_ne heq]
          exact hs.statuses id record hrecord
      have hunasked : ∀ other,
          Function.update s.reported child (some status) other ≠ some .continued := by
        intro other
        by_cases heq : other = child
        · rw [heq, Function.update_self]
          exact fun hcontinued => hasked (Option.some.inj hcontinued)
        · rw [Function.update_of_ne heq]
          exact hs.unasked other
      exact {
        listed := waitOnce_listed hwait hs.listed
        fresh := by
          intro id record' hmem
          obtain ⟨record, hrecord, rfl⟩ := hcomes id record' hmem
          rw [reportIn_commandText]
          exact hs.fresh id record hrecord
        once := by
          intro id
          show ((t'.members id).map _).Nodup
          have htexts : ((s.table.members id).map (reportIn child status)).map
              ProcessRecord.commandText = (s.table.members id).map ProcessRecord.commandText := by
            simp
          rw [honly id, htexts]
          exact hs.once id
        apart := by
          intro id id' record hmem record' hmem' heq
          obtain ⟨old, hold, rfl⟩ := hcomes id record hmem
          obtain ⟨old', hold', rfl⟩ := hcomes id' record' hmem'
          rw [reportIn_commandText, reportIn_commandText] at heq
          exact hs.apart id id' old hold old' hold' heq
        unforked := by
          intro other hother
          have hne : other ≠ child := fun heq =>
            Nat.lt_irrefl _ (Nat.lt_of_lt_of_le (hs.children _ hchild) (heq ▸ hother))
          show Function.update s.reported child (some status) other = none
          rw [Function.update_of_ne hne]
          exact hs.unforked other hother
        children := fun other hother => hs.children other (hkept other hother).1
        pids := hs.pids.sublist (hsub.map _)
        forks := hs.forks.sublist (hsub.map _)
        living := by
          intro other hother reported hreported
          obtain ⟨hmem, hne⟩ := hkept other hother
          by_cases heq : other.2 = child
          · have hupdate : Function.update s.reported child (some status) other.2 = some reported :=
              hreported
            rw [heq, Function.update_self] at hupdate
            cases hupdate
            cases hterminal : status.terminal with
            | false => rfl
            | true => exact absurd heq (hne hterminal)
          · have hupdate : Function.update s.reported child (some status) other.2 = some reported :=
              hreported
            rw [Function.update_of_ne heq] at hupdate
            exact hs.living other hmem reported hupdate
        named := by
          intro other hother id record' hmem heq
          obtain ⟨record, hrecord, rfl⟩ := hcomes id record' hmem
          rw [reportIn_commandText] at heq
          rw [reportIn_processId]
          exact hs.named other (hkept other hother).1 id record hrecord heq
        statuses := hstatuses
        unasked := hunasked
        settled := waitOnce_settled hs hwait fun id record hmem => by
          rw [hstatuses id record hmem]
          exact hunasked _ }

/-! ### Whole runs -/

/-- Whoever reports first among those with its pid stands first among their records. -/
def Reaper.Clear (s : Reaper) : ReaperEvent → Prop
  | .reaped process _ =>
    ∀ child, (process, child) ∈ s.forkedChildren → OwnFirst s.table process child
  | _ => True

def Reaper.ClearAll (s : Reaper) : List ReaperEvent → Prop
  | [] => True
  | event :: events => s.Clear event ∧ ∀ s', s.perform event = some s' → s'.ClearAll events

theorem clearAll_cons {s next : Reaper} {event : ReaperEvent} {events : List ReaperEvent}
    (hclear : s.Clear event) (h : s.perform event = some next) (hrest : next.ClearAll events) :
    s.ClearAll (event :: events) := by
  refine ⟨hclear, fun s' hs' => ?_⟩
  rw [h] at hs'
  cases hs'
  exact hrest

/-- Every status taken is recorded with the child that reported it, and nowhere else. -/
def Reaper.RecordsAll (s : Reaper) : List ReaperEvent → Prop
  | [] => True
  | event :: events => ∀ s', s.perform event = some s' →
    (∀ process status, event = .reaped process status →
      ∀ child, (process, child) ∈ s.forkedChildren →
        RecordsOnly s.table s'.table child status) ∧ s'.RecordsAll events

theorem perform_sound {s s' : Reaper} {event : ReaperEvent} (hs : Sound s)
    (hclear : s.Clear event) (h : s.perform event = some s') : Sound s' := by
  cases event with
  | job event => exact perform_job_sound hs h
  | forked => exact perform_forked_sound hs h
  | reaped => exact (perform_reaped_sound hs hclear h).1
  | lost => exact perform_lost_sound hs h

theorem performAll_sound {s s' : Reaper} {events : List ReaperEvent} (hs : Sound s)
    (hclear : s.ClearAll events) (h : s.performAll events = some s') : Sound s' := by
  induction events generalizing s with
  | nil => cases h; exact hs
  | cons event events ih =>
    obtain ⟨next, hnext, hrest⟩ := Option.bind_eq_some_iff.mp h
    exact ih (perform_sound hs hclear.1 hnext) (hclear.2 next hnext) hrest

theorem recordsAll {s : Reaper} {events : List ReaperEvent} (hs : Sound s)
    (hclear : s.ClearAll events) : s.RecordsAll events := by
  induction events generalizing s with
  | nil => trivial
  | cons event events ih =>
    refine fun s' hs' => ⟨?_, ih (perform_sound hs hclear.1 hs') (hclear.2 s' hs')⟩
    rintro process status rfl
    exact (perform_reaped_sound hs hclear.1 hs').2

/-- What a child that is gone has reported stays what it is. -/
theorem perform_gone {s s' : Reaper} {event : ReaperEvent} (hs : Sound s)
    (h : s.perform event = some s') {child : Fork} {status : ChildStatus}
    (hreported : s.reported child = some status) (hgone : status.terminal = true) :
    s'.reported child = some status := by
  cases event with
  | job event =>
    simp only [Reaper.perform] at h
    split at h
    · cases h
    · obtain ⟨session, -, rfl⟩ := Option.map_eq_some_iff.mp h
      show s.reportedAfter event child = _
      unfold Reaper.reportedAfter
      split
      · split
        · rw [hreported]
          cases status with
          | exited | signaled => rfl
          | stopped | continued => cases hgone
        · exact hreported
      · exact hreported
  | forked =>
    simp only [Reaper.perform] at h
    split at h
    · cases h
    · obtain ⟨session, -, rfl⟩ := Option.map_eq_some_iff.mp h
      exact hreported
  | reaped process taken =>
    simp only [Reaper.perform] at h
    split at h
    · cases h
    · next pid other hfind =>
      split at h
      · cases h
      · obtain ⟨session, -, rfl⟩ := Option.map_eq_some_iff.mp h
        have hne : child ≠ other := by
          rintro rfl
          have hterminal := hs.living _ (List.mem_of_find?_eq_some hfind) status hreported
          rw [hgone] at hterminal
          cases hterminal
        show Function.update s.reported other (some taken) child = _
        rw [Function.update_of_ne hne]
        exact hreported
  | lost => cases h; exact hreported

theorem performAll_gone {s s' : Reaper} {events : List ReaperEvent} (hs : Sound s)
    (hclear : s.ClearAll events) (h : s.performAll events = some s') {child : Fork}
    {status : ChildStatus} (hreported : s.reported child = some status)
    (hgone : status.terminal = true) : s'.reported child = some status := by
  induction events generalizing s with
  | nil => cases h; exact hreported
  | cons event events ih =>
    obtain ⟨next, hnext, hrest⟩ := Option.bind_eq_some_iff.mp h
    exact ih (perform_sound hs hclear.1 hnext) (hclear.2 next hnext) hrest
      (perform_gone hs hnext hreported hgone)

/-- **Statuses go to the children that reported them**, in every run in which no other process
with the pid of a child whose status is taken stands before its record.  Each record then holds
what its own child has reported, a job whose processes have all terminated is done, and what a
process has exited with never changes. -/
theorem statuses_recorded (jobControl : Bool) (events : List ReaperEvent) (s : Reaper)
    (h : Reaper.performAll { session := { table := { jobControl := jobControl } } } events = some s)
    (hclear : Reaper.ClearAll { session := { table := { jobControl := jobControl } } } events) :
    Reaper.RecordsAll { session := { table := { jobControl := jobControl } } } events ∧
      (∀ id, ∀ record ∈ s.table.members id, record.status = s.reported record.commandText) ∧
      (∀ id job, s.table.job? id = some job → job.processes ≠ [] →
        (∀ record ∈ job.processes,
          (s.reported record.commandText).any ChildStatus.terminal = true) → job.isDone = true) ∧
      ∀ later s', s.performAll later = some s' → s.ClearAll later →
        ∀ id id', ∀ record ∈ s.table.members id, ∀ record' ∈ s'.table.members id',
          record'.commandText = record.commandText →
          record.status.any ChildStatus.terminal = true → record'.status = record.status := by
  have hs := performAll_sound (sound_start jobControl) hclear h
  refine ⟨recordsAll (sound_start jobControl) hclear, hs.statuses, ?_, ?_⟩
  · intro id job hjob hnonempty hgone
    refine (hs.settled id job hjob).mpr ⟨hnonempty, fun record hmem => ?_⟩
    rw [hs.statuses id record (mem_members.mpr ⟨job, hjob, hmem⟩)]
    exact hgone record hmem
  · intro later s' hlater hclear' id id' record hmem record' hmem' heq hgone
    have hs' := performAll_sound hs hclear' hlater
    obtain ⟨status, hstatus, hterminal⟩ := (Option.any_eq_true _ _).mp hgone
    have hreported : s.reported record.commandText = some status := by
      rw [← hs.statuses id record hmem, hstatus]
    rw [hs'.statuses id' record' hmem', heq, hstatus]
    exact performAll_gone hs hclear' hlater hreported hterminal

/-- A foreground command that exits with three. -/
theorem statuses_recorded_one :
    ∃ s : Reaper, Reaper.performAll { session := { table := { jobControl := true } } }
        [.job .create, .forked (some 0) .foreground 10 true, .reaped 10 (.exited 3)] = some s ∧
      (∀ id, ∀ record ∈ s.table.members id, record.status = s.reported record.commandText) ∧
      ∀ job, s.table.job? 0 = some job → job.isDone = true := by
  refine ⟨_, rfl, ?_⟩
  have hclear : Reaper.ClearAll { session := { table := { jobControl := true } } }
      [.job .create, .forked (some 0) .foreground 10 true, .reaped 10 (.exited 3)] := by
    refine clearAll_cons trivial rfl (clearAll_cons trivial rfl (clearAll_cons ?_ rfl trivial))
    intro child hchild before other after hsplit hpid
    have hone : [⟨10, none, 0⟩] = before ++ other :: after := hsplit
    have hother : other ∈ [(⟨10, none, 0⟩ : ProcessRecord Fork)] := by rw [hone]; simp
    have hfirst : (10, child) ∈ [((10, 0) : ProcessId × Fork)] := hchild
    simp only [List.mem_singleton, Prod.mk.injEq, true_and] at hother hfirst
    exact .inl (by rw [hother, hfirst])
  have hrun := statuses_recorded true
    [.job .create, .forked (some 0) .foreground 10 true, .reaped 10 (.exited 3)] _ rfl hclear
  refine ⟨hrun.2.1, fun job hjob => hrun.2.2.1 0 job hjob ?_ ?_⟩
  · cases hjob; simp
  · cases hjob; decide

/-- A background pipeline whose second process has exited is stopped; a new background job's
process is given the pid of the second one.  The new process exits with seven, and the status is
recorded with the old one: the new job never ends. -/
theorem not_statuses_recorded :
    ∃ s s' : Reaper, Reaper.performAll { session := { table := { jobControl := true } } }
        [.job .create, .forked (some 0) .background 10 true, .forked (some 0) .background 11 true,
          .reaped 11 (.exited 0), .reaped 10 (.stopped 19),
          .job .create, .forked (some 1) .background 11 true] = some s ∧
      s.perform (.reaped 11 (.exited 7)) = some s' ∧ s.forkedChildren = [(10, 0), (11, 2)] ∧
      s.table.members 0 = [⟨10, some (.stopped 19), 0⟩, ⟨11, some (.exited 0), 1⟩] ∧
      s'.table.members 0 = [⟨10, some (.stopped 19), 0⟩, ⟨11, some (.exited 7), 1⟩] ∧
      s'.table.members 1 = [⟨11, none, 2⟩] ∧ s'.forkedChildren = [(10, 0)] ∧
      ¬RecordsOnly s.table s'.table 2 (.exited 7) := by
  refine ⟨_, _, rfl, rfl, rfl, rfl, rfl, rfl, rfl, fun honly => ?_⟩
  exact absurd (honly 0) (by decide)

end Nsh.Jobs
