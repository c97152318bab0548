import Nsh.Jobs.Wait

/-!
# The current job

The stopped jobs are meant to lead the order, so that the current job is a
stopped one whenever any is, and the warning before an exit looks at nothing
else.  A foreground command's job may stand before them while it runs.  What
breaks the rule is a job that stops being stopped, or being in the foreground,
where it stands: a stopped job that is found finished, and a foreground command
that is left by an error.
-/

namespace Nsh.Jobs

variable {Text : Type}

/-! ### What happens to a session's jobs -/

/-- How far `bg` came with a job: not past the line it writes, not past the signal, all the way. -/
inductive Resumption where
  | unwritten
  | unsent
  | sent
deriving DecidableEq, Repr

inductive JobEvent (Text : Type) where
  /-- A command, a pipeline or a substitution gets a job. -/
  | create
  | forked (id : JobId) (mode : ForkMode) (process : ProcessId) (text : Text) (announced : Bool)
  | forkFailed (id : JobId)
  | reaped (process : ProcessId) (status : ChildStatus)
  /-- `wait_for_job` is through with a job. -/
  | waitEnded (id : JobId)
  /-- An error or a transfer of control left the command of a job before its wait was through. -/
  | abandoned (id : JobId)
  | bg (id : JobId) (progress : Resumption)
  | fg (id : JobId) (continued : Bool)
  | written (id : JobId)
  | waited (id : JobId)
  | setJobControl (on : Bool)
  | exitAsked
  | commandRead
deriving DecidableEq, Repr

/-- The table, and the jobs whose commands the shell has yet to get back from. -/
structure Session (Text : Type) where
  table : JobTable Text := {}
  foreground : List JobId := []
deriving DecidableEq, Repr

namespace Session

/-- The command of a job is no longer in progress. -/
def leave (s : Session Text) (id : JobId) (table : JobTable Text) : Session Text :=
  { table := table, foreground := s.foreground.filter (· ≠ id) }

/-- A job that was removed is not in progress either. -/
def dropped (s : Session Text) (id : JobId) (table : JobTable Text) : Session Text :=
  if (table.job? id).isSome then { s with table := table } else s.leave id table

def perform (s : Session Text) : JobEvent Text → Option (Session Text)
  | .create => s.table.createJob.map fun (id, table) => ⟨table, id :: s.foreground⟩
  | .forked id mode process text announced =>
    (s.table.recordForkedChild id mode process text announced).map fun table =>
      if mode = .background then s.leave id table else { s with table := table }
  | .forkFailed id => (s.table.remove id).map (s.leave id)
  | .reaped process status => (s.table.waitOnce process status).map ({ s with table := · })
  | .waitEnded id => (s.table.removeDone id).map (s.leave id)
  | .abandoned id => some (s.leave id s.table)
  | .bg id progress =>
    (s.table.positionRunning id).bind fun table =>
      (if progress = .unwritten then some table else table.restartJob id (progress = .sent)).map
        ({ s with table := · })
  | .fg id continued =>
    (s.table.restartJob id continued).map fun table => ⟨table, id :: s.foreground⟩
  | .written id => (s.table.writeJob id).map (s.dropped id)
  | .waited id => (s.table.waitedFor id).map (s.dropped id)
  | .setJobControl on => some { s with table := { s.table with jobControl := on } }
  | .exitAsked => some { s with table := s.table.hasStoppedJobs.2 }
  | .commandRead => some { s with table := s.table.advanceWarning }

def performAll (s : Session Text) : List (JobEvent Text) → Option (Session Text)
  | [] => some s
  | event :: events => (s.perform event).bind fun s => s.performAll events

end Session

/-! ### The order names the live slots -/

open JobTable

theorem listed_of_update {t t' : JobTable Text} {id : JobId} {job job' : Job Text}
    (hl : t.Listed) (horder : t'.order.Perm t.order) (hjob : t.job? id = some job)
    (hjobs : ∀ other, t'.job? other = if other = id then some job' else t.job? other) :
    t'.Listed := by
  refine hl.of_same horder fun other => ?_
  rw [hjobs]
  by_cases heq : other = id
  · rw [if_pos heq, heq, hjob]; rfl
  · rw [if_neg heq]

theorem behindStopped_perm {t : JobTable Text} {id : JobId} {job : Job Text} (hl : t.Listed)
    (hjob : t.job? id = some job) : (t.behindStopped id).Perm t.order :=
  perm_move hl.nodup (hl.mem hjob) List.takeWhile_append_dropWhile

theorem restartJob_listed {t t' : JobTable Text} {id : JobId} {continued : Bool}
    (h : t.restartJob id continued = some t') (hl : t.Listed) : t'.Listed := by
  obtain ⟨horder, job, job', hjob, -, hjobs⟩ := restartJob_some h
  exact listed_of_update hl (by rw [horder]) hjob hjobs

theorem removeDone_listed {t t' : JobTable Text} {id : JobId} (h : t.removeDone id = some t')
    (hl : t.Listed) : t'.Listed := by
  obtain ⟨job, -, ⟨-, hremove⟩ | ⟨-, rfl⟩⟩ := removeDone_some h
  · exact remove_listed hremove hl
  · exact hl

theorem createJob_listed {t t' : JobTable Text} {id : JobId} (h : t.createJob = some (id, t'))
    (hl : t.Listed) : t'.Listed := by
  obtain ⟨-, horder, hjobs⟩ := createJob_some h
  refine ⟨?_, fun other => ?_⟩
  · rw [horder]
    refine List.nodup_cons.mpr ⟨fun hmem => ?_, hl.nodup.filter _⟩
    simp at hmem
  · rw [horder, hjobs]
    by_cases heq : other = id
    · simp [heq]
    · rw [if_neg heq, ← hl.live]; simp [heq]

theorem waitOnce_listed {t t' : JobTable Text} {process : ProcessId} {status : ChildStatus}
    (h : t.waitOnce process status = some t') (hl : t.Listed) : t'.Listed := by
  rcases recordReaped_some h with ⟨rfl, -⟩ | ⟨before, id, after, job, processes, -, hreaped⟩
  · exact hl
  · obtain ⟨job', -, -, hjobs, horder⟩ := settle_some hreaped.found hreaped.settled
    refine listed_of_update hl ?_ hreaped.found hjobs
    rcases horder with ⟨horder, -⟩ | ⟨horder, -⟩
    · rw [horder]
    · rw [horder]
      exact @perm_move _ [] _ _ hl.nodup (hl.mem hreaped.found) rfl

/-- Whatever happens to the jobs, the order goes on naming each live slot once. -/
theorem perform_listed {s s' : Session Text} {event : JobEvent Text}
    (h : s.perform event = some s') (hl : s.table.Listed) : s'.table.Listed := by
  cases event with
  | create =>
    obtain ⟨⟨id, table⟩, hcreate, rfl⟩ := Option.map_eq_some_iff.mp h
    exact createJob_listed hcreate hl
  | forked id mode process text announced =>
    obtain ⟨table, hfork, rfl⟩ := Option.map_eq_some_iff.mp h
    obtain ⟨horder, job, job', hjob, -, -, hjobs⟩ := recordForkedChild_some hfork
    have htable : table.Listed := by
      refine listed_of_update hl ?_ hjob hjobs
      rw [horder]
      split
      · exact behindStopped_perm hl hjob
      · exact List.Perm.refl _
    split <;> exact htable
  | forkFailed id =>
    obtain ⟨table, hremove, rfl⟩ := Option.map_eq_some_iff.mp h
    exact remove_listed hremove hl
  | reaped process status =>
    obtain ⟨table, hreap, rfl⟩ := Option.map_eq_some_iff.mp h
    exact waitOnce_listed hreap hl
  | waitEnded id =>
    obtain ⟨table, hended, rfl⟩ := Option.map_eq_some_iff.mp h
    exact removeDone_listed hended hl
  | abandoned id => cases h; exact hl
  | bg id progress =>
    obtain ⟨moved, hmoved, h⟩ := Option.bind_eq_some_iff.mp h
    obtain ⟨table, hrestart, rfl⟩ := Option.map_eq_some_iff.mp h
    have hl' := positionRunning_listed hmoved hl
    split at hrestart
    · cases hrestart; exact hl'
    · exact restartJob_listed hrestart hl'
  | fg id continued =>
    obtain ⟨table, hrestart, rfl⟩ := Option.map_eq_some_iff.mp h
    exact restartJob_listed hrestart hl
  | written id =>
    obtain ⟨table, hwritten, rfl⟩ := Option.map_eq_some_iff.mp h
    obtain ⟨marked, hmark, hremove⟩ := Option.bind_eq_some_iff.mp hwritten
    have htable := removeDone_listed hremove (update_listed hmark hl)
    unfold Session.dropped
    split <;> exact htable
  | waited id =>
    obtain ⟨table, hwaited, rfl⟩ := Option.map_eq_some_iff.mp h
    obtain ⟨marked, hmark, hremove⟩ := Option.bind_eq_some_iff.mp hwaited
    have htable := removeDone_listed hremove (update_listed hmark hl)
    unfold Session.dropped
    split <;> exact htable
  | setJobControl on => cases h; exact ⟨hl.nodup, hl.live⟩
  | exitAsked =>
    cases h
    show (s.table.hasStoppedJobs.2).Listed
    unfold hasStoppedJobs
    split_ifs <;> exact ⟨hl.nodup, hl.live⟩
  | commandRead => cases h; exact ⟨hl.nodup, hl.live⟩

/-! ### The stopped jobs lead the order -/

/-- The stopped jobs stand before the others, the jobs in progress apart. -/
def StoppedFirst (t : JobTable Text) (foreground : List JobId) : Prop :=
  MarkedFirst (fun id => t.isStopped id = true) (· ∈ foreground) t.order

def NoneStopped (t : JobTable Text) : Prop := ∀ id ∈ t.order, t.isStopped id = false

/-- No stopped job stands behind this one. -/
def NoneStoppedBehind (t : JobTable Text) (id : JobId) : Prop :=
  ∀ other, [id, other].Sublist t.order → t.isStopped other = false

/-- The status finds a stopped job finished. -/
def Finishes (t : JobTable Text) (process : ProcessId) (status : ChildStatus) (id : JobId) : Prop :=
  ∃ before after job, t.order = before ++ id :: after ∧
    (∀ other ∈ before, t.Lacks process other) ∧ t.job? id = some job ∧ job.state = .stopped ∧
    (recordChildStatus job process status).map Prod.snd = some .done

/-- What keeps the stopped jobs in front. -/
def Session.Keeps (s : Session Text) : JobEvent Text → Prop
  | .forked id .background _ _ _ | .bg id _ =>
    (∀ other ∈ s.foreground, other = id) ∨ NoneStopped s.table
  | .reaped process status =>
    ∀ id, Finishes s.table process status id → id ∈ s.foreground ∨ NoneStoppedBehind s.table id
  | .waitEnded id =>
    ∀ job, s.table.job? id = some job → job.state = .running → NoneStoppedBehind s.table id
  | .abandoned id => s.table.isStopped id = false → NoneStoppedBehind s.table id
  | _ => True

theorem isStopped_of_jobs {t t' : JobTable Text} {id : JobId} {slot : Option (Job Text)}
    (h : ∀ other, t'.job? other = if other = id then slot else t.job? other) (other : JobId) :
    t'.isStopped other = if other = id then slot.any Job.isStopped else t.isStopped other := by
  unfold JobTable.isStopped
  rw [h]
  split <;> rfl

theorem isStopped_of_ne {t t' : JobTable Text} {id : JobId} {slot : Option (Job Text)}
    (h : ∀ other, t'.job? other = if other = id then slot else t.job? other) {other : JobId}
    (hne : other ≠ id) : t'.isStopped other = t.isStopped other := by
  rw [isStopped_of_jobs h, if_neg hne]

theorem StoppedFirst.without {t t' : JobTable Text} {foreground foreground' : List JobId}
    {id : JobId} (h : StoppedFirst t foreground)
    (hsame : ∀ other, other ≠ id → t'.isStopped other = t.isStopped other)
    (hforeground : ∀ other ∈ foreground, other ≠ id → other ∈ foreground') :
    MarkedFirst (fun id => t'.isStopped id = true) (· ∈ foreground')
      (t.order.filter (· ≠ id)) := by
  refine (h.sublist List.filter_sublist).change fun a b hab hb => ?_
  have ha := (List.mem_filter.mp (hab.subset List.mem_cons_self)).2
  have hb' := (List.mem_filter.mp (hab.subset (List.mem_cons_of_mem a List.mem_cons_self))).2
  simp only [decide_eq_true_eq] at ha hb'
  refine ⟨(hsame b hb').symm.trans hb, fun hfront => ?_⟩
  rcases hfront with hfront | hfront
  · exact .inl ((hsame a ha).trans hfront)
  · exact .inr (hforeground a hfront ha)

/-- A job whose state changes where it stands: it was stopped before if it is now, and if it is
not, it is in progress or has no stopped job behind it. -/
theorem StoppedFirst.in_place {t t' : JobTable Text} {foreground foreground' : List JobId}
    {id : JobId} (h : StoppedFirst t foreground) (hnodup : t.order.Nodup)
    (horder : t'.order = t.order)
    (hsame : ∀ other, other ≠ id → t'.isStopped other = t.isStopped other)
    (hforeground : ∀ other ∈ foreground, other ≠ id → other ∈ foreground')
    (hback : t'.isStopped id = true → t.isStopped id = true)
    (hfront : t'.isStopped id = true ∨ id ∈ foreground' ∨ NoneStoppedBehind t id ∨
      t.isStopped id = false ∧ id ∉ foreground) :
    StoppedFirst t' foreground' := by
  unfold StoppedFirst
  rw [horder]
  refine h.change fun a b hab hb => ?_
  have hne : a ≠ b := by
    have hpair := hnodup.sublist hab
    simp only [List.nodup_cons, List.mem_singleton] at hpair
    exact hpair.1
  have hbwas : t.isStopped b = true := by
    by_cases hbid : b = id
    · rw [hbid] at hb ⊢; exact hback hb
    · rw [← hsame b hbid]; exact hb
  refine ⟨hbwas, fun hled => ?_⟩
  by_cases haid : a = id
  · rw [haid] at hled hab ⊢
    rcases hfront with hfront | hfront | hfront | ⟨hfront, hfront'⟩
    · exact .inl hfront
    · exact .inr hfront
    · have := hfront b hab
      rw [hbwas] at this
      cases this
    · rcases hled with hled | hled
      · rw [hfront] at hled; cases hled
      · exact absurd hled hfront'
  · rcases hled with hled | hled
    · exact .inl ((hsame a haid).trans hled)
    · exact .inr (hforeground a hled haid)

/-- A job put behind the leading stopped ones stands right whether or not it is stopped. -/
theorem StoppedFirst.behind {t t' : JobTable Text} {foreground foreground' : List JobId}
    {id : JobId} (h : StoppedFirst t foreground) (horder : t'.order = t.behindStopped id)
    (hsame : ∀ other, other ≠ id → t'.isStopped other = t.isStopped other)
    (hforeground : ∀ other ∈ foreground, other = id) : StoppedFirst t' foreground' := by
  unfold StoppedFirst
  rw [horder]
  refine MarkedFirst.insert_after (fun other hother => ?_) ?_ id
  · have hne := (List.mem_filter.mp hother).2
    simp only [decide_eq_true_eq] at hne
    rw [hsame other hne]
  · have hkept : ∀ other ∈ foreground, other ≠ id → other ∈ ([] : List JobId) :=
      fun other hother hne => absurd (hforeground other hother) hne
    have hwithout := h.without hsame hkept
    refine hwithout.change fun a b _ hb => ⟨hb, fun hled => ?_⟩
    rcases hled with hled | hled
    · exact .inl hled
    · cases hled

theorem StoppedFirst.of_none {t t' : JobTable Text} {foreground : List JobId} {id : JobId}
    (hnone : NoneStopped t) (horder : t'.order.Perm t.order)
    (hsame : ∀ other, other ≠ id → t'.isStopped other = t.isStopped other)
    (hback : t'.isStopped id = true → t.isStopped id = true) : StoppedFirst t' foreground := by
  refine MarkedFirst.of_none fun other hother hstopped => ?_
  have hwas : t.isStopped other = true := by
    by_cases heq : other = id
    · rw [heq] at hstopped ⊢; exact hback hstopped
    · rw [← hsame other heq]; exact hstopped
  rw [hnone other (horder.mem_iff.mp hother)] at hwas
  cases hwas

theorem restarted_not_stopped {t t' : JobTable Text} {id : JobId} {job job' : Job Text}
    {processes : List (ProcessRecord Text)}
    (hstate : if job.isDone then job' = job else job'.state = .running ∧ job'.processes = processes)
    (hjobs : ∀ other, t'.job? other = if other = id then some job' else t.job? other) :
    ¬t'.isStopped id = true := by
  rw [isStopped_of_jobs hjobs, if_pos rfl, Option.any_some, Job.isStopped]
  cases hdone : job.isDone with
  | true =>
    rw [if_pos hdone] at hstate
    rw [hstate, of_decide_eq_true hdone]
    simp
  | false =>
    rw [if_neg (by rw [hdone]; simp)] at hstate
    rw [hstate.1]
    simp

/-- Marking a job without changing its state, or removing it when it is done. -/
theorem dropped_stoppedFirst {s : Session Text} {table : JobTable Text} {id : JobId}
    {mark : Job Text → Job Text} (hl : s.table.Listed) (hs : StoppedFirst s.table s.foreground)
    (h : ∃ job, s.table.job? id = some job ∧
      ((job.isDone = true ∧ table.order = s.table.order.filter (· ≠ id) ∧
          ∀ other, table.job? other = if other = id then none else s.table.job? other) ∨
        (job.isDone = false ∧ table.order = s.table.order ∧
          ∀ other, table.job? other = if other = id then some (mark job) else s.table.job? other)))
    (hmark : ∀ job, (mark job).state = job.state) :
    StoppedFirst (s.dropped id table).table (s.dropped id table).foreground := by
  obtain ⟨job, hjob, ⟨-, horder, hjobs⟩ | ⟨-, horder, hjobs⟩⟩ := h
  · have hgone : table.job? id = none := by rw [hjobs, if_pos rfl]
    rw [Session.dropped, hgone, if_neg (by simp)]
    show MarkedFirst _ _ table.order
    rw [horder]
    refine hs.without (fun other hne => isStopped_of_ne hjobs hne) fun other hother hne => ?_
    exact List.mem_filter.mpr ⟨hother, by simpa using hne⟩
  · have hlive : table.job? id = some (mark job) := by rw [hjobs, if_pos rfl]
    have hstays : table.isStopped id = s.table.isStopped id := by
      rw [JobTable.isStopped, JobTable.isStopped, hlive, hjob]
      simp only [Option.any_some, Job.isStopped, hmark]
    rw [Session.dropped, hlive, if_pos (by simp)]
    refine hs.in_place hl.nodup horder (fun other hne => isStopped_of_ne hjobs hne)
      (fun other hother _ => hother) (fun h => hstays.symm.trans h) ?_
    by_cases hstopped : s.table.isStopped id = true
    · exact .inl (hstays.trans hstopped)
    · by_cases hforeground : id ∈ s.foreground
      · exact .inr (.inl hforeground)
      · exact .inr (.inr (.inr ⟨Bool.eq_false_iff.mpr hstopped, hforeground⟩))

/-- **Each event keeps the stopped jobs in front**, as far as it is one that does. -/
theorem perform_stoppedFirst {s s' : Session Text} {event : JobEvent Text}
    (h : s.perform event = some s') (hl : s.table.Listed) (hkeeps : s.Keeps event)
    (hs : StoppedFirst s.table s.foreground) : StoppedFirst s'.table s'.foreground := by
  -- a job that has left the foreground is the only one that has
  have hleft : ∀ id, ∀ other ∈ s.foreground, other ≠ id →
      other ∈ s.foreground.filter (· ≠ id) := fun id other hother hne => by
    simp [hother, hne]
  cases event with
  | create =>
    obtain ⟨⟨id, table⟩, hcreate, rfl⟩ := Option.map_eq_some_iff.mp h
    obtain ⟨-, horder, hjobs⟩ := createJob_some hcreate
    have hsame : ∀ other, other ≠ id → table.isStopped other = s.table.isStopped other :=
      fun other hne => isStopped_of_ne hjobs hne
    have hkept : ∀ other ∈ s.foreground, other ≠ id → other ∈ id :: s.foreground :=
      fun other hother _ => List.mem_cons_of_mem id hother
    have hrest := hs.without hsame hkept
    show MarkedFirst _ _ table.order
    rw [horder]
    exact hrest.cons (.inr (.inl List.mem_cons_self))
  | forked id mode process text announced =>
    obtain ⟨table, hfork, rfl⟩ := Option.map_eq_some_iff.mp h
    obtain ⟨horder, job, job', hjob, hstate, -, hjobs⟩ := recordForkedChild_some hfork
    have hsame : ∀ other, other ≠ id → table.isStopped other = s.table.isStopped other :=
      fun other hne => isStopped_of_ne hjobs hne
    have hstays : table.isStopped id = s.table.isStopped id := by
      rw [isStopped_of_jobs hjobs, if_pos rfl, JobTable.isStopped, hjob]
      simp only [Option.any_some, Job.isStopped, hstate]
    by_cases hmode : mode = .background
    · rw [hmode] at hkeeps
      rw [if_pos hmode] at horder ⊢
      rcases hkeeps with hkeeps | hkeeps
      · exact hs.behind horder hsame hkeeps
      · refine StoppedFirst.of_none hkeeps ?_ hsame fun hstopped => hstays.symm.trans hstopped
        show table.order.Perm _
        rw [horder]
        exact behindStopped_perm hl hjob
    · rw [if_neg hmode] at horder ⊢
      unfold StoppedFirst
      rw [horder]
      refine hs.change fun a b _ hb => ?_
      have heq : ∀ other, table.isStopped other = s.table.isStopped other := fun other => by
        by_cases hid : other = id
        · rw [hid, hstays]
        · exact hsame other hid
      simp only [heq] at hb ⊢
      exact ⟨hb, fun hled => hled⟩
  | forkFailed id =>
    obtain ⟨table, hremove, rfl⟩ := Option.map_eq_some_iff.mp h
    obtain ⟨-, horder, hjobs⟩ := remove_some hremove
    show MarkedFirst _ _ table.order
    rw [horder]
    exact hs.without (fun other hne => isStopped_of_ne hjobs hne) (hleft id)
  | reaped process status =>
    obtain ⟨table, hreap, rfl⟩ := Option.map_eq_some_iff.mp h
    rcases recordReaped_some hreap with
      ⟨rfl, -⟩ | ⟨before, id, after, job, processes, hsplit, hreaped⟩
    · exact hs
    · obtain ⟨job', -, hstate, hjobs, horder⟩ := settle_some hreaped.found hreaped.settled
      have hsame : ∀ other, other ≠ id → table.isStopped other = s.table.isStopped other :=
        fun other hne => isStopped_of_ne hjobs hne
      have hid : table.isStopped id = decide (job'.state = .stopped) := by
        rw [isStopped_of_jobs hjobs, if_pos rfl]
        rfl
      have hwas : s.table.isStopped id = decide (job.state = .stopped) := by
        rw [JobTable.isStopped, hreaped.found]
        rfl
      rcases horder with ⟨horder, hback⟩ | ⟨horder, hstopped⟩
      · refine hs.in_place hl.nodup horder hsame (fun other hother _ => hother) ?_ ?_
        · rw [hid, hwas]
          simpa using hback
        · -- the job was not stopped, or it still is, or the status finds it finished
          by_cases hstopped : job.state = .stopped
          · cases hnext : nextState processes with
            | running =>
              rw [if_pos hnext] at hstate
              exact .inl (by rw [hid, hstate]; exact decide_eq_true hstopped)
            | stopped =>
              rw [if_neg (by rw [hnext]; simp)] at hstate
              exact .inl (by rw [hid, hstate]; exact decide_eq_true hnext)
            | done =>
              have hfinishes : Finishes s.table process status id := by
                refine ⟨before, after, job, hsplit, hreaped.lacks, hreaped.found, hstopped, ?_⟩
                rw [recordChildStatus, hreaped.recorded, Option.map_some, Option.map_some, hnext]
              rcases hkeeps id hfinishes with hforeground | hbehind
              · exact .inr (.inl hforeground)
              · exact .inr (.inr (.inl hbehind))
          · by_cases hforeground : id ∈ s.foreground
            · exact .inr (.inl hforeground)
            · exact .inr (.inr (.inr ⟨by rw [hwas]; exact decide_eq_false hstopped, hforeground⟩))
      · show MarkedFirst _ _ table.order
        rw [horder]
        exact (hs.without hsame fun other hother _ => hother).cons
          (.inl (hid.trans (decide_eq_true hstopped)))
  | waitEnded id =>
    obtain ⟨table, hended, rfl⟩ := Option.map_eq_some_iff.mp h
    obtain ⟨job, hjob, ⟨-, hremove⟩ | ⟨hnot, rfl⟩⟩ := removeDone_some hended
    · obtain ⟨-, horder, hjobs⟩ := remove_some hremove
      show MarkedFirst _ _ table.order
      rw [horder]
      exact hs.without (fun other hne => isStopped_of_ne hjobs hne) (hleft id)
    · refine hs.in_place hl.nodup rfl (fun _ _ => rfl) (hleft id) (fun h => h) ?_
      cases hstate : job.state with
      | running => exact .inr (.inr (.inl (hkeeps job hjob hstate)))
      | stopped => exact .inl (isStopped_iff.mpr ⟨job, hjob, hstate⟩)
      | done => rw [Job.isDone, hstate] at hnot; cases hnot
  | abandoned id =>
    cases h
    refine hs.in_place hl.nodup rfl (fun _ _ => rfl) (hleft id) (fun h => h) ?_
    by_cases hstopped : s.table.isStopped id = true
    · exact .inl hstopped
    · exact .inr (.inr (.inl (hkeeps (Bool.eq_false_iff.mpr hstopped))))
  | bg id progress =>
    obtain ⟨moved, hmoved, h⟩ := Option.bind_eq_some_iff.mp h
    obtain ⟨table, hrestart, rfl⟩ := Option.map_eq_some_iff.mp h
    obtain ⟨hlive, hjobs, horder⟩ := positionRunning_some hmoved
    obtain ⟨job, hjob⟩ := Option.isSome_iff_exists.mp hlive
    have hmovedSame : ∀ other, moved.isStopped other = s.table.isStopped other := fun other => by
      rw [JobTable.isStopped, hjobs]
      rfl
    -- a job that `bg` has resumed is not stopped, the others are what they were
    have hresumed : table.order = s.table.behindStopped id ∧
        (∀ other, other ≠ id → table.isStopped other = s.table.isStopped other) ∧
        (table.isStopped id = true → s.table.isStopped id = true) := by
      split at hrestart
      · cases hrestart
        exact ⟨horder, fun other _ => hmovedSame other, fun h => (hmovedSame id).symm.trans h⟩
      · obtain ⟨horder', old, job', hold, hstate, hjobs'⟩ := restartJob_some hrestart
        refine ⟨horder'.trans horder, fun other hne => ?_, fun h => ?_⟩
        · rw [isStopped_of_ne hjobs' hne, hmovedSame]
        · exact absurd h (restarted_not_stopped hstate hjobs')
    obtain ⟨horder', hsame, hback⟩ := hresumed
    rcases hkeeps with hkeeps | hkeeps
    · exact hs.behind horder' hsame hkeeps
    · refine StoppedFirst.of_none hkeeps ?_ hsame hback
      rw [horder']
      exact behindStopped_perm hl hjob
  | fg id continued =>
    obtain ⟨table, hrestart, rfl⟩ := Option.map_eq_some_iff.mp h
    obtain ⟨horder, job, job', hjob, hstate, hjobs⟩ := restartJob_some hrestart
    refine hs.in_place hl.nodup horder (fun other hne => isStopped_of_ne hjobs hne)
      (fun other hother _ => List.mem_cons_of_mem id hother) (fun h => ?_)
      (.inr (.inl List.mem_cons_self))
    exact absurd h (restarted_not_stopped hstate hjobs)
  | written id =>
    obtain ⟨table, hwritten, rfl⟩ := Option.map_eq_some_iff.mp h
    have hmark : ∀ job : Job Text, ({ job with changed := false } : Job Text).state = job.state :=
      fun _ => rfl
    exact dropped_stoppedFirst hl hs (mark_removeDone_some hmark hwritten) hmark
  | waited id =>
    obtain ⟨table, hwaited, rfl⟩ := Option.map_eq_some_iff.mp h
    have hmark : ∀ job : Job Text, ({ job with waited := true } : Job Text).state = job.state :=
      fun _ => rfl
    exact dropped_stoppedFirst hl hs (mark_removeDone_some hmark hwaited) hmark
  | setJobControl on => cases h; exact hs
  | exitAsked =>
    cases h
    show StoppedFirst s.table.hasStoppedJobs.2 s.foreground
    unfold hasStoppedJobs
    split_ifs <;> exact hs
  | commandRead => cases h; exact hs

/-! ### Whole sessions -/

def Session.KeepsAll (s : Session Text) : List (JobEvent Text) → Prop
  | [] => True
  | event :: events => s.Keeps event ∧ ∀ s', s.perform event = some s' → s'.KeepsAll events

theorem keepsAll_cons {s next : Session Text} {event : JobEvent Text}
    {events : List (JobEvent Text)} (hkeeps : s.Keeps event) (h : s.perform event = some next)
    (hrest : next.KeepsAll events) : s.KeepsAll (event :: events) := by
  refine ⟨hkeeps, fun s' hs' => ?_⟩
  rw [h] at hs'
  cases hs'
  exact hrest

theorem performAll_listed {s s' : Session Text} {events : List (JobEvent Text)}
    (h : s.performAll events = some s') (hl : s.table.Listed) : s'.table.Listed := by
  induction events generalizing s with
  | nil => cases h; exact hl
  | cons event events ih =>
    obtain ⟨next, hnext, hrest⟩ := Option.bind_eq_some_iff.mp h
    exact ih hrest (perform_listed hnext hl)

theorem performAll_stoppedFirst {s s' : Session Text} {events : List (JobEvent Text)}
    (h : s.performAll events = some s') (hl : s.table.Listed) (hkeeps : s.KeepsAll events)
    (hs : StoppedFirst s.table s.foreground) : StoppedFirst s'.table s'.foreground := by
  induction events generalizing s with
  | nil => cases h; exact hs
  | cons event events ih =>
    obtain ⟨next, hnext, hrest⟩ := Option.bind_eq_some_iff.mp h
    exact ih hrest (perform_listed hnext hl) (hkeeps.2 next hnext)
      (perform_stoppedFirst hnext hl hkeeps.1 hs)

theorem StoppedFirst.current {t : JobTable Text} (h : StoppedFirst t [])
    (hsome : ∃ id ∈ t.order, t.isStopped id = true) :
    ∃ id, t.current = some id ∧ t.isStopped id = true :=
  MarkedFirst.head_marked
    (h.change fun _ _ _ hb => ⟨hb, fun ha => ha.imp id fun hnil => nomatch hnil⟩)
    hsome

/-- The warning looks at the current job alone. -/
theorem hasStoppedJobs_iff {t : JobTable Text} (hready : t.jobWarning = .ready) :
    t.hasStoppedJobs.1 = true ↔ ∃ id, t.current = some id ∧ t.isStopped id = true := by
  unfold hasStoppedJobs
  rw [if_neg (by rw [hready]; simp), ← Option.any_eq_true]
  split_ifs with hcurrent
  · simp [hcurrent]
  · simp [hcurrent]

/-- **The order and the current job.**  In every session the order names each live slot once and
nothing else.  Where the stopped jobs are kept in front, between commands a session with a
stopped job has one for its current job, and the exit warning is given exactly then. -/
theorem order_and_current (jobControl : Bool) (events : List (JobEvent Text)) (s : Session Text)
    (h : Session.performAll { table := { jobControl := jobControl } } events = some s) :
    (s.table.order.Nodup ∧ ∀ id, id ∈ s.table.order ↔ (s.table.job? id).isSome = true) ∧
      (Session.KeepsAll { table := { jobControl := jobControl } } events → s.foreground = [] →
        ((∃ id ∈ s.table.order, s.table.isStopped id = true) →
          ∃ id, s.table.current = some id ∧ s.table.isStopped id = true) ∧
        (s.table.jobWarning = .ready →
          (s.table.hasStoppedJobs.1 = true ↔
            ∃ id ∈ s.table.order, s.table.isStopped id = true))) := by
  have hempty : ({ jobControl := jobControl } : JobTable Text).Listed :=
    listed_empty jobControl .ready
  have hl := performAll_listed h hempty
  refine ⟨⟨hl.nodup, hl.live⟩, fun hkeeps hbetween => ?_⟩
  have hs := performAll_stoppedFirst h hempty hkeeps List.Pairwise.nil
  rw [hbetween] at hs
  refine ⟨hs.current, fun hready => ?_⟩
  rw [hasStoppedJobs_iff hready]
  refine ⟨fun ⟨id, hcurrent, hstopped⟩ => ⟨id, List.mem_of_head? hcurrent, hstopped⟩, hs.current⟩

/-- A foreground command that is stopped is the current job. -/
theorem order_and_current_one :
    ∃ s : Session Unit, Session.performAll { table := { jobControl := true } }
        [.create, .forked 0 .foreground 10 () true, .reaped 10 (.stopped 20), .waitEnded 0] =
          some s ∧
      ∃ id, s.table.current = some id ∧ s.table.isStopped id = true := by
  refine ⟨_, rfl, ?_⟩
  have hkeeps : Session.KeepsAll ({ table := { jobControl := true } } : Session Unit)
      [.create, .forked 0 .foreground 10 () true, .reaped 10 (.stopped 20), .waitEnded 0] := by
    refine keepsAll_cons trivial rfl (keepsAll_cons trivial rfl (keepsAll_cons ?_ rfl
      (keepsAll_cons ?_ rfl trivial)))
    · rintro id ⟨before, after, job, hsplit, -⟩
      have hlist : [0] = before ++ id :: after := hsplit
      have hmem : id ∈ [0] := by rw [hlist]; simp
      exact .inl hmem
    · intro job hjob hrunning
      cases hjob
      cases hrunning
  have hrun := order_and_current true
    [.create, .forked 0 .foreground 10 () true, .reaped 10 (.stopped 20), .waitEnded 0] _ rfl
  exact (hrun.2 hkeeps rfl).1 ⟨0, List.mem_cons_self, rfl⟩

/-- With two stopped jobs, the current one is killed while the shell waits for another command.
It is done and still the current job, and the exit warning is not given. -/
theorem not_order_and_current :
    ∃ s : Session Unit, Session.performAll { table := { jobControl := true } }
        [.create, .forked 0 .foreground 10 () true, .reaped 10 (.stopped 20), .waitEnded 0,
          .create, .forked 1 .foreground 11 () true, .reaped 11 (.stopped 20), .waitEnded 1,
          .create, .forked 2 .foreground 12 () true, .reaped 11 (.signaled 9 false),
          .reaped 12 (.exited 0), .waitEnded 2] = some s ∧
      s.foreground = [] ∧ s.table.order = [1, 0] ∧ s.table.isStopped 0 = true ∧
      ¬(∃ id, s.table.current = some id ∧ s.table.isStopped id = true) ∧
      s.table.jobWarning = .ready ∧ s.table.hasStoppedJobs.1 = false := by
  refine ⟨_, rfl, rfl, rfl, rfl, ?_, rfl, rfl⟩
  rintro ⟨id, hcurrent, hstopped⟩
  cases hcurrent
  cases hstopped

end Nsh.Jobs
