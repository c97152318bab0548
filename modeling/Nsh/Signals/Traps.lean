import Mathlib.Logic.Relation
import Nsh.Shell.Flow

/-!
# Trapped signals

A handler stores into the inbox and returns; the shell runs the actions at the
commands it reaches.  One word says that something was caught and one flag a
signal says what.  A run of the pending traps clears the word first and then
visits the flags in order, so a signal it does not come to waits for the word to
be set again.
-/

namespace Nsh.Signals

/-- `SIGNAL_SLOT_COUNT`, slot 0 being the `EXIT` trap. -/
def signalSlotCount : Nat := 65

@[ext] structure Signal where
  number : Nat
  pos : 0 < number
  lt : number < signalSlotCount
deriving DecidableEq, Repr

def childSignal : Signal := ⟨17, by decide, by decide⟩

def interruptSignal : Signal := ⟨2, by decide, by decide⟩

inductive TrapAction where
  | default
  | ignore
  | command (text : Bytes)
deriving DecidableEq, Repr

/-- What is run for it, if anything is. -/
def TrapAction.commandText : TrapAction → Option Bytes
  | .command text => some text
  | .default | .ignore => none

/-! ### The inbox -/

/-- What a handler may read and write. -/
structure SignalSink where
  trapped : Nat → Bool
  caught : Signal → Bool
  pending : Option Signal
  childPending : Bool
  interruptPending : Bool

namespace SignalSink

def setSignalPending (sink : SignalSink) (signal : Signal) (pending : Bool) : SignalSink :=
  { sink with caught := Function.update sink.caught signal pending }

def isTrapped (sink : SignalSink) (signal : Signal) : Bool := sink.trapped signal.number

def setTrapped (sink : SignalSink) (slot : Nat) (trapped : Bool) : SignalSink :=
  { sink with trapped := Function.update sink.trapped slot trapped }

/-- Deliver a signal to the shell. -/
def raise (sink : SignalSink) (signal : Signal) : SignalSink :=
  let sink := if signal = childSignal then { sink with childPending := true } else sink
  if signal = childSignal ∧ sink.isTrapped signal = false then sink
  else
    let sink := { sink.setSignalPending signal true with pending := some signal }
    if signal = interruptSignal ∧ sink.isTrapped signal = false then
      { sink with interruptPending := true }
    else sink

theorem raise_pending (sink : SignalSink) (signal : Signal) :
    (sink.raise signal).pending = some signal ∨
      ((sink.raise signal).pending = sink.pending ∧ (sink.raise signal).caught = sink.caught) := by
  unfold raise
  by_cases hchild : signal = childSignal
  · simp only [hchild, if_true, true_and]
    split_ifs <;> simp
  · simp only [hchild, if_false, false_and]
    split_ifs <;> simp

/-- Delivering a signal forgets no other. -/
theorem raise_caught {sink : SignalSink} {signal : Signal} (raised : Signal)
    (h : sink.caught signal = true) : (sink.raise raised).caught signal = true := by
  have hset : Function.update sink.caught raised true signal = true := by
    by_cases heq : signal = raised
    · rw [heq, Function.update_self]
    · rw [Function.update_of_ne heq, h]
  unfold raise setSignalPending
  by_cases hchild : raised = childSignal
  · simp only [hchild, if_true, true_and]
    split_ifs <;> first | exact h | (rw [hchild] at hset; exact hset)
  · simp only [hchild, if_false, false_and]
    split_ifs <;> exact hset

end SignalSink

/-! ### The shell between two commands -/

/-- A call of `runPendingTraps` that has not returned. -/
structure Scan where
  /-- The status it interrupted. -/
  status : ExitStatus
  /-- The signal number the loop comes to next; 0 before the word is cleared. -/
  next : Nat
  /-- The outer action's status, while an action runs. -/
  running : Option (Option ExitStatus)
deriving DecidableEq, Repr

/-- What a call came to. -/
inductive Ending where
  | flow (flow : Flow)
  | interrupted
  | error
deriving DecidableEq, Repr

structure Machine where
  sink : SignalSink
  /-- `TrapTable::action`. -/
  action : Nat → TrapAction
  status : ExitStatus := 0
  signalTrapDepth : Nat := 0
  trapDefaultExitStatus : Option ExitStatus := none
  /-- Whether interrupts are deferred. -/
  deferred : Bool := false
  interactiveRoot : Bool := true
  /-- The calls in progress, innermost first. -/
  scans : List Scan := []
  /-- What the last call to return came to. -/
  ended : Option Ending := none

namespace Machine

/-- `TrapTable::set`: the slot and the bit the handler reads change together. -/
def setAction (machine : Machine) (slot : Nat) (action : TrapAction) : Machine :=
  { machine with
    action := Function.update machine.action slot action
    sink := machine.sink.setTrapped slot (decide (action ≠ .default)) }

/-- Whether shell code is running here: no call is between two of its steps. -/
def runsCommands (machine : Machine) : Bool :=
  match machine.scans with
  | [] => true
  | scan :: _ => scan.running.isSome

/-- The entry of `runPendingTraps`: `pollInterrupt`, then the test of the word.  A
    shell that is not an interactive root dies of the interrupt. -/
def call (machine : Machine) : Option Machine :=
  if machine.runsCommands then
    if machine.deferred = false ∧ machine.sink.interruptPending then
      if machine.interactiveRoot then
        some { machine with
          sink := { machine.sink with interruptPending := false }
          ended := some .interrupted }
      else none
    else if machine.sink.pending = none then
      some { machine with ended := some (.flow (.done 0)) }
    else some { machine with scans := ⟨machine.status, 0, none⟩ :: machine.scans }
  else none

/-- One step of a call before it runs an action: clear the word, or take a turn of
    the loop. -/
def turn (machine : Machine) : Option Machine :=
  match machine.scans with
  | ⟨status, next, none⟩ :: outer =>
    if next = 0 then
      some { machine with
        sink := { machine.sink with pending := none }
        scans := ⟨status, 1, none⟩ :: outer }
    else if h : 0 < next ∧ next < signalSlotCount then
      let signal : Signal := ⟨next, h.1, h.2⟩
      if machine.sink.caught signal then
        let sink := machine.sink.setSignalPending signal false
        match (machine.action signal.number).commandText with
        | some _ =>
          some { machine with
            sink := sink
            trapDefaultExitStatus := some status
            signalTrapDepth := machine.signalTrapDepth + 1
            scans := ⟨status, next, some machine.trapDefaultExitStatus⟩ :: outer }
        | none =>
          some { machine with sink := sink, scans := ⟨status, next + 1, none⟩ :: outer }
      else some { machine with scans := ⟨status, next + 1, none⟩ :: outer }
    else
      some { machine with scans := outer, ended := some (.flow (.done machine.status)) }
  | _ => none

/-- The action the innermost call runs comes to an ending. -/
def finish (machine : Machine) (ending : Ending) : Option Machine :=
  match machine.scans with
  | ⟨status, next, some outerStatus⟩ :: outer =>
    let machine := { machine with
      signalTrapDepth := machine.signalTrapDepth - 1
      trapDefaultExitStatus := outerStatus }
    match ending with
    | .flow (.done _) =>
      some { machine with status := status, scans := ⟨status, next + 1, none⟩ :: outer }
    | .flow (.returning returned true) =>
      some { machine with scans := outer, ended := some (.flow (.returning returned true)) }
    | .flow (.exit selected) =>
      some { machine with scans := outer, ended := some (.flow (.exit selected)) }
    | .flow control =>
      some { machine with
        status := status
        scans := outer
        ended := some (.flow (control.withStatus status)) }
    | ending => some { machine with scans := outer, ended := some ending }
  | _ => none

end Machine

inductive Event where
  | deliver (signal : Signal)
  | setAction (slot : Nat) (action : TrapAction)
  | defer (deferred : Bool)
  /-- A command of the shell, or of the action running, set the status. -/
  | command (status : ExitStatus)
  | call
  | turn
  | finish (ending : Ending)
deriving DecidableEq, Repr

/-- What an event does.  Deliveries come at any time; everything else is what the
    shell does where it stands. -/
def Machine.perform (machine : Machine) : Event → Option Machine
  | .deliver signal => some { machine with sink := machine.sink.raise signal }
  | .setAction slot action =>
    if machine.runsCommands then some (machine.setAction slot action) else none
  | .defer deferred => if machine.runsCommands then some { machine with deferred } else none
  | .command status => if machine.runsCommands then some { machine with status } else none
  | .call => machine.call
  | .turn => machine.turn
  | .finish ending => machine.finish ending

def Machine.performAll (machine : Machine) : List Event → Option Machine
  | [] => some machine
  | event :: rest => (machine.perform event).bind (·.performAll rest)

/-- The runs whose events are all `allowed` where they happen. -/
def Runs (allowed : Event → Machine → Prop) : Machine → Machine → Prop :=
  Relation.ReflTransGen fun m m' => ∃ event, allowed event m ∧ m.perform event = some m'

theorem Runs.of_performAll {allowed : Event → Machine → Prop} : ∀ {events : List Event}
    {m m' : Machine}, (∀ event ∈ events, ∀ m, allowed event m) →
    m.performAll events = some m' → Runs allowed m m'
  | [], m, m', _, h => by cases h; exact .refl
  | event :: rest, m, m', hallowed, h => by
    obtain ⟨next, hnext, hrest⟩ := Option.bind_eq_some_iff.mp h
    exact .head ⟨event, hallowed event List.mem_cons_self m, hnext⟩
      (Runs.of_performAll (fun event hmem => hallowed event (List.mem_cons_of_mem _ hmem)) hrest)

/-! ### What accounts for a caught signal -/

/-- A caught signal with an action to run. -/
def Machine.awaits (m : Machine) (signal : Signal) : Prop :=
  m.sink.caught signal = true ∧ ∃ text, m.action signal.number = .command text

/-- A call in progress has yet to come to a signal. -/
def Scan.reaches (scan : Scan) (signal : Signal) : Prop :=
  scan.next ≤ signal.number ∧ (scan.running.isSome → scan.next < signal.number)

/-- The word is set, or some call in progress has yet to come to the signal. -/
def Machine.accounts (m : Machine) (signal : Signal) : Prop :=
  m.sink.pending.isSome ∨ ∃ scan ∈ m.scans, scan.reaches signal

def Machine.kept (m : Machine) : Prop := ∀ signal, m.sink.caught signal = true → m.accounts signal

/-- No action leaves its call early while a signal is caught that neither the word
    nor an enclosing call accounts for. -/
def Event.keepsPending : Event → Machine → Prop
  | .finish (.flow (.done _)), _ => True
  | .finish _, m => m.sink.pending.isSome ∨
      ∀ signal, m.sink.caught signal = true → ∃ scan ∈ m.scans.tail, scan.reaches signal
  | _, _ => True

theorem kept_congr {m m' : Machine} (h : m.kept) (hcaught : m'.sink.caught = m.sink.caught)
    (hpending : m'.sink.pending = m.sink.pending) (hscans : m'.scans = m.scans) : m'.kept := by
  intro signal hsignal
  rw [hcaught] at hsignal
  unfold Machine.accounts
  rw [hpending, hscans]
  exact h signal hsignal

theorem kept_call {m m' : Machine} (h : m.kept) (hcall : m.call = some m') : m'.kept := by
  unfold Machine.call at hcall
  split_ifs at hcall with hruns hdue hroot hpending
  · cases hcall; exact h
  · cases hcall; exact h
  · cases hcall
    rintro signal -
    exact .inr ⟨_, List.mem_cons_self, Nat.zero_le _, nofun⟩

/-- One turn of the innermost call: what it passes is no longer caught. -/
theorem kept_turn {m m' : Machine} (h : m.kept) (hturn : m.turn = some m') : m'.kept := by
  obtain ⟨sink, action, status, depth, default, deferred, root, scans, ended⟩ := m
  rcases scans with _ | ⟨⟨status', next, running⟩, outer⟩
  · cases hturn
  rcases running with _ | running
  swap
  · cases hturn
  simp only [Machine.turn] at hturn
  -- whatever the rest of the turn does, a signal not visited is still accounted for
  have hpassed : ∀ {signal : Signal} {scan : Scan}, sink.caught signal = true →
      (Scan.reaches ⟨status', next, none⟩ signal → scan.reaches signal) →
      sink.pending.isSome ∨ ∃ other ∈ scan :: outer, other.reaches signal := by
    intro signal scan hcaught hreaches
    rcases h signal hcaught with hpending | ⟨other, hmem, hother⟩
    · exact .inl hpending
    · rcases List.mem_cons.mp hmem with rfl | hmem
      · exact .inr ⟨scan, List.mem_cons_self, hreaches hother⟩
      · exact .inr ⟨other, List.mem_cons_of_mem _ hmem, hother⟩
  split_ifs at hturn with hfirst hwithin hcaught
  · cases hturn
    intro signal _
    exact .inr ⟨_, List.mem_cons_self, signal.pos, nofun⟩
  · have hother : ∀ {signal : Signal},
        (sink.setSignalPending ⟨next, hwithin.1, hwithin.2⟩ false).caught signal = true →
        sink.caught signal = true ∧ signal.number ≠ next := by
      intro signal hsignal
      by_cases heq : signal = ⟨next, hwithin.1, hwithin.2⟩
      · rw [heq] at hsignal
        simp [SignalSink.setSignalPending] at hsignal
      · refine ⟨?_, fun hnumber => heq (Signal.ext hnumber)⟩
        simpa [SignalSink.setSignalPending, Function.update_of_ne heq] using hsignal
    cases haction : (action next).commandText with
    | some text =>
      simp only [haction] at hturn
      cases hturn
      intro signal hsignal
      obtain ⟨hbefore, hne⟩ := hother hsignal
      exact hpassed hbefore fun hreaches =>
        ⟨hreaches.1, fun _ => lt_of_le_of_ne hreaches.1 hne.symm⟩
    | none =>
      simp only [haction] at hturn
      cases hturn
      intro signal hsignal
      obtain ⟨hbefore, hne⟩ := hother hsignal
      exact hpassed hbefore fun hreaches => ⟨lt_of_le_of_ne hreaches.1 hne.symm, nofun⟩
  · cases hturn
    intro signal hsignal
    have hne : signal.number ≠ next := by
      rintro rfl
      exact hcaught hsignal
    exact hpassed hsignal fun hreaches => ⟨lt_of_le_of_ne hreaches.1 hne.symm, nofun⟩
  · cases hturn
    intro signal hsignal
    have hlt := signal.lt
    rcases h signal hsignal with hpending | ⟨other, hmem, hother⟩
    · exact .inl hpending
    · rcases List.mem_cons.mp hmem with rfl | hmem
      · exact absurd ⟨Nat.pos_of_ne_zero hfirst, lt_of_le_of_lt hother.1 hlt⟩ hwithin
      · exact .inr ⟨other, hmem, hother⟩

theorem kept_finish {m m' : Machine} {ending : Ending} (h : m.kept)
    (hkeeps : (Event.finish ending).keepsPending m) (hfinish : m.finish ending = some m') :
    m'.kept := by
  obtain ⟨sink, action, status, depth, default, deferred, root, scans, ended⟩ := m
  rcases scans with _ | ⟨⟨status', next, running⟩, outer⟩
  · cases hfinish
  rcases running with _ | running
  · cases hfinish
  -- the endings but the normal one give the call up
  have hleft : (sink.pending.isSome ∨ ∀ signal, sink.caught signal = true →
      ∃ scan ∈ outer, scan.reaches signal) → ∀ signal, sink.caught signal = true →
      sink.pending.isSome ∨ ∃ scan ∈ outer, scan.reaches signal := by
    rintro (hpending | houter) signal hsignal
    · exact .inl hpending
    · exact .inr (houter signal hsignal)
  cases ending with
  | interrupted => cases hfinish; exact hleft hkeeps
  | error => cases hfinish; exact hleft hkeeps
  | flow flow =>
    cases flow with
    | done value =>
      cases hfinish
      intro signal hsignal
      rcases h signal hsignal with hpending | ⟨other, hmem, hother⟩
      · exact .inl hpending
      · rcases List.mem_cons.mp hmem with rfl | hmem
        · exact .inr ⟨_, List.mem_cons_self, hother.2 rfl, nofun⟩
        · exact .inr ⟨other, List.mem_cons_of_mem _ hmem, hother⟩
    | exit selected => cases hfinish; exact hleft hkeeps
    | breakLoops levels value => cases hfinish; exact hleft hkeeps
    | continueLoop levels value => cases hfinish; exact hleft hkeeps
    | returning value explicit => cases explicit <;> cases hfinish <;> exact hleft hkeeps

/-- One event. -/
theorem kept_perform {m m' : Machine} {event : Event} (h : m.kept) (hkeeps : event.keepsPending m)
    (hperform : m.perform event = some m') : m'.kept := by
  cases event with
  | deliver raised =>
    cases hperform
    intro signal hsignal
    rcases m.sink.raise_pending raised with hset | ⟨hpending, hcaught⟩
    · exact .inl (by rw [hset]; rfl)
    · have hkept : ({ m with sink := m.sink.raise raised } : Machine).kept :=
        kept_congr h hcaught hpending rfl
      exact hkept signal hsignal
  | setAction slot action =>
    simp only [Machine.perform] at hperform
    split_ifs at hperform
    cases hperform
    exact kept_congr h rfl rfl rfl
  | defer deferred =>
    simp only [Machine.perform] at hperform
    split_ifs at hperform
    cases hperform
    exact kept_congr h rfl rfl rfl
  | command status =>
    simp only [Machine.perform] at hperform
    split_ifs at hperform
    cases hperform
    exact kept_congr h rfl rfl rfl
  | call => exact kept_call h hperform
  | turn => exact kept_turn h hperform
  | finish ending => exact kept_finish h hkeeps hperform

/-! ### A call starts what was caught -/

/-- The event starts the action of a signal. -/
def Event.starts (event : Event) (m : Machine) (signal : Signal) : Prop :=
  event = .turn ∧ m.awaits signal ∧ ∃ scan outer, m.scans = scan :: outer ∧ scan.running = none ∧
    scan.next = signal.number

/-- The event leaves the trap of a signal alone, and no action leaves the outermost
    call early. -/
def Event.staysIn (event : Event) (m : Machine) (signal : Signal) : Prop :=
  (∀ action, event ≠ .setAction signal.number action) ∧
    ∀ ending, event = .finish ending → m.scans.length = 1 → ∃ status, ending = .flow (.done status)

/-- A signal is caught and the outermost call has yet to come to it. -/
def Machine.ahead (m : Machine) (signal : Signal) : Prop :=
  m.awaits signal ∧ ∃ scan, m.scans.getLast? = some scan ∧ scan.reaches signal

theorem last_replaced {scan scan' last : Scan} {outer : List Scan} {signal : Signal}
    (hlast : (scan :: outer).getLast? = some last) (hreaches : last.reaches signal)
    (h : scan.reaches signal → scan'.reaches signal) :
    ∃ last', (scan' :: outer).getLast? = some last' ∧ last'.reaches signal := by
  rcases outer with _ | ⟨next, outer⟩
  · cases hlast
    exact ⟨scan', rfl, h hreaches⟩
  · exact ⟨last, hlast, hreaches⟩

theorem ahead_turn {m m' : Machine} {signal : Signal} (h : m.ahead signal)
    (hstarts : ¬ Event.starts .turn m signal) (hturn : m.turn = some m') : m'.ahead signal := by
  obtain ⟨sink, action, status, depth, default, deferred, root, scans, ended⟩ := m
  rcases scans with _ | ⟨⟨status', next, running⟩, outer⟩
  · cases hturn
  rcases running with _ | running
  swap
  · cases hturn
  obtain ⟨hawaits, last, hlast, hreaches⟩ := h
  have hne : next ≠ signal.number := fun hnext =>
    hstarts ⟨rfl, hawaits, _, outer, rfl, rfl, hnext⟩
  have hpast : Scan.reaches ⟨status', next, none⟩ signal →
      Scan.reaches ⟨status', next + 1, none⟩ signal := fun hbefore =>
    ⟨lt_of_le_of_ne hbefore.1 hne, nofun⟩
  simp only [Machine.turn] at hturn
  split_ifs at hturn with hfirst hwithin hcaught
  · cases hturn
    exact ⟨hawaits, last_replaced hlast hreaches fun _ => ⟨signal.pos, nofun⟩⟩
  · have hkept :
        (sink.setSignalPending ⟨next, hwithin.1, hwithin.2⟩ false).caught signal = true := by
      have hdiffers : signal ≠ ⟨next, hwithin.1, hwithin.2⟩ := by
        rintro rfl
        exact hne rfl
      simpa [SignalSink.setSignalPending, Function.update_of_ne hdiffers] using hawaits.1
    cases haction : (action next).commandText with
    | some text =>
      simp only [haction] at hturn
      cases hturn
      exact ⟨⟨hkept, hawaits.2⟩, last_replaced hlast hreaches fun hbefore =>
        ⟨hbefore.1, fun _ => lt_of_le_of_ne hbefore.1 hne⟩⟩
    | none =>
      simp only [haction] at hturn
      cases hturn
      exact ⟨⟨hkept, hawaits.2⟩, last_replaced hlast hreaches hpast⟩
  · cases hturn
    exact ⟨hawaits, last_replaced hlast hreaches hpast⟩
  · cases hturn
    refine ⟨hawaits, ?_⟩
    rcases outer with _ | ⟨inner, outer⟩
    · cases hlast
      exact absurd ⟨Nat.pos_of_ne_zero hfirst, lt_of_le_of_lt hreaches.1 signal.lt⟩ hwithin
    · exact ⟨last, hlast, hreaches⟩

theorem ahead_finish {m m' : Machine} {signal : Signal} {ending : Ending} (h : m.ahead signal)
    (hstays : (Event.finish ending).staysIn m signal) (hfinish : m.finish ending = some m') :
    m'.ahead signal := by
  obtain ⟨sink, action, status, depth, default, deferred, root, scans, ended⟩ := m
  rcases scans with _ | ⟨⟨status', next, running⟩, outer⟩
  · cases hfinish
  rcases running with _ | running
  · cases hfinish
  obtain ⟨hawaits, last, hlast, hreaches⟩ := h
  -- an ending that gives the call up leaves an enclosing one
  have hleft : (∀ value, ending ≠ .flow (.done value)) →
      ∃ last, outer.getLast? = some last ∧ last.reaches signal := by
    intro hending
    rcases outer with _ | ⟨inner, outer⟩
    · obtain ⟨value, hvalue⟩ := hstays.2 ending rfl rfl
      exact absurd hvalue (hending value)
    · exact ⟨last, hlast, hreaches⟩
  cases ending with
  | interrupted => cases hfinish; exact ⟨hawaits, hleft nofun⟩
  | error => cases hfinish; exact ⟨hawaits, hleft nofun⟩
  | flow flow =>
    cases flow with
    | done value =>
      cases hfinish
      exact ⟨hawaits, last_replaced hlast hreaches fun hbefore => ⟨hbefore.2 rfl, nofun⟩⟩
    | exit selected => cases hfinish; exact ⟨hawaits, hleft nofun⟩
    | breakLoops levels value => cases hfinish; exact ⟨hawaits, hleft nofun⟩
    | continueLoop levels value => cases hfinish; exact ⟨hawaits, hleft nofun⟩
    | returning value explicit => cases explicit <;> cases hfinish <;> exact ⟨hawaits, hleft nofun⟩

/-- Until its action starts, a caught signal stays ahead of the call. -/
theorem ahead_perform {m m' : Machine} {event : Event} {signal : Signal} (h : m.ahead signal)
    (hstays : event.staysIn m signal) (hstarts : ¬ event.starts m signal)
    (hperform : m.perform event = some m') : m'.ahead signal := by
  cases event with
  | deliver raised =>
    cases hperform
    exact ⟨⟨SignalSink.raise_caught raised h.1.1, h.1.2⟩, h.2⟩
  | setAction slot action =>
    simp only [Machine.perform] at hperform
    split_ifs at hperform
    cases hperform
    have hslot : signal.number ≠ slot := by
      rintro rfl
      exact hstays.1 action rfl
    refine ⟨⟨h.1.1, ?_⟩, h.2⟩
    simpa [Machine.setAction, Function.update_of_ne hslot] using h.1.2
  | defer deferred =>
    simp only [Machine.perform] at hperform
    split_ifs at hperform
    cases hperform
    exact h
  | command status =>
    simp only [Machine.perform] at hperform
    split_ifs at hperform
    cases hperform
    exact h
  | call =>
    simp only [Machine.perform, Machine.call] at hperform
    obtain ⟨hawaits, last, hlast, hreaches⟩ := h
    split_ifs at hperform
    · cases hperform; exact ⟨hawaits, last, hlast, hreaches⟩
    · cases hperform; exact ⟨hawaits, last, hlast, hreaches⟩
    · cases hperform
      refine ⟨hawaits, last, ?_, hreaches⟩
      rcases hscans : m.scans with _ | ⟨scan, outer⟩
      · rw [hscans] at hlast
        cases hlast
      · rw [hscans] at hlast
        exact hlast
  | turn => exact ahead_turn h hstarts hperform
  | finish ending => exact ahead_finish h hstays hperform

/-- Every run from a state that keeps every caught signal does. -/
theorem kept_runs {start m : Machine} (hstart : start.kept)
    (run : Runs Event.keepsPending start m) :
    m.kept := by
  induction run with
  | refl => exact hstart
  | tail _ hstep ih =>
    obtain ⟨event, hkeeps, hperform⟩ := hstep
    exact kept_perform ih hkeeps hperform

theorem ahead_runs {m m' : Machine} {signal : Signal} (h : m.ahead signal)
    (run : Runs (fun event m => event.staysIn m signal ∧ ¬ event.starts m signal) m m') :
    m'.ahead signal := by
  induction run with
  | refl => exact h
  | tail _ hstep ih =>
    obtain ⟨event, ⟨hstays, hstarts⟩, hperform⟩ := hstep
    exact ahead_perform ih hstays hstarts hperform

/-- **A caught signal with an action is accounted for** in every run whose actions
    leave no other behind: between two calls the word is set, and a call made then,
    outside an interrupt, does not return before it has started the action, unless an
    action leaves it early or the trap is changed. -/
theorem trapped_signals_pending {start m : Machine}
    (hcaught : ∀ signal, start.sink.caught signal = false)
    (run : Runs Event.keepsPending start m) {signal : Signal} (hawaits : m.awaits signal) :
    m.accounts signal ∧
      (m.scans = [] → m.sink.pending.isSome ∧
        ∀ called, m.call = some called → (m.deferred = true ∨ m.sink.interruptPending = false) →
          ∀ {m'}, Runs (fun event m => event.staysIn m signal ∧ ¬ event.starts m signal) called m' →
            m'.awaits signal ∧ m'.scans ≠ []) := by
  have hkept : m.kept := kept_runs (fun signal hsignal => by
    rw [hcaught signal] at hsignal
    cases hsignal) run
  have haccounts := hkept signal hawaits.1
  refine ⟨haccounts, fun hidle => ?_⟩
  have hpending : m.sink.pending.isSome := by
    rcases haccounts with hpending | ⟨scan, hmem, _⟩
    · exact hpending
    · rw [hidle] at hmem
      cases hmem
  refine ⟨hpending, fun called hcall hfree m' hrun => ?_⟩
  have hahead : called.ahead signal := by
    have hdue : ¬ (m.deferred = false ∧ m.sink.interruptPending = true) := by
      rintro ⟨hdeferred, hinterrupt⟩
      rcases hfree with hfree | hfree
      · rw [hdeferred] at hfree
        cases hfree
      · rw [hinterrupt] at hfree
        cases hfree
    have hset : m.sink.pending ≠ none := Option.isSome_iff_ne_none.mp hpending
    have hruns : m.runsCommands = true := by
      unfold Machine.runsCommands
      rw [hidle]
    unfold Machine.call at hcall
    rw [if_pos hruns, if_neg hdue, if_neg hset, hidle] at hcall
    cases hcall
    exact ⟨hawaits, _, rfl, Nat.zero_le _, nofun⟩
  obtain ⟨hafter, scan, hscan, _⟩ := ahead_runs hahead hrun
  refine ⟨hafter, fun hempty => ?_⟩
  rw [hempty] at hscan
  cases hscan

/-- A shell with nothing caught and no traps set. -/
def Machine.fresh : Machine where
  sink := ⟨fun _ => false, fun _ => false, none, false, false⟩
  action _ := .default

def hangup : Signal := ⟨1, by decide, by decide⟩

def terminate : Signal := ⟨15, by decide, by decide⟩

/-- Two signals are caught; the first action returns normally and leaves the second
    to the same call. -/
theorem trapped_signals_pending_two :
    ∃ m, Machine.fresh.performAll [.setAction 1 (.command (text "echo hup")),
        .setAction 15 (.command (text "echo term")), .deliver hangup, .deliver terminate, .call,
        .turn, .turn, .finish (.flow (.done 0))] = some m ∧ m.accounts terminate := by
  have hany : (Machine.fresh.performAll [.setAction 1 (.command (text "echo hup")),
      .setAction 15 (.command (text "echo term")), .deliver hangup, .deliver terminate, .call,
      .turn, .turn, .finish (.flow (.done 0))]).any
      (fun m => m.sink.caught terminate && m.action 15 == .command (text "echo term")) = true := by
    decide +kernel
  obtain ⟨m, hrun, hcaught⟩ := (Option.any_eq_true _ _).mp hany
  rw [Bool.and_eq_true] at hcaught
  refine ⟨m, hrun, (trapped_signals_pending (fun _ => rfl) (Runs.of_performAll ?_ hrun)
    ⟨hcaught.1, text "echo term", eq_of_beq hcaught.2⟩).1⟩
  intro event hmem m
  simp only [List.mem_cons, List.not_mem_nil, or_false] at hmem
  rcases hmem with rfl | rfl | rfl | rfl | rfl | rfl | rfl | rfl <;> trivial

/-- The action of the first signal leaves its call by `break`: the second is caught,
    the word is clear, and the next call returns without running it. -/
theorem not_trapped_signals_pending :
    ∃ m called, Machine.fresh.performAll [.setAction 1 (.command (text "break")),
        .setAction 15 (.command (text "echo term")), .deliver hangup, .deliver terminate, .call,
        .turn, .turn, .finish (.flow (.breakLoops 1 0))] = some m ∧
      m.awaits terminate ∧ m.scans = [] ∧ m.sink.pending = none ∧
      m.call = some called ∧ called.awaits terminate ∧ called.scans = [] := by
  have hany : (Machine.fresh.performAll [.setAction 1 (.command (text "break")),
      .setAction 15 (.command (text "echo term")), .deliver hangup, .deliver terminate, .call,
      .turn, .turn, .finish (.flow (.breakLoops 1 0))]).any
      (fun m => m.sink.caught terminate && m.action 15 == .command (text "echo term") &&
        m.scans == [] && m.sink.pending == none && !m.sink.interruptPending) = true := by
    decide +kernel
  obtain ⟨m, hrun, hleft⟩ := (Option.any_eq_true _ _).mp hany
  simp only [Bool.and_eq_true, Bool.not_eq_true'] at hleft
  obtain ⟨⟨⟨⟨hcaught, haction⟩, hscans⟩, hpending⟩, hinterrupt⟩ := hleft
  have hawaits : m.awaits terminate := ⟨hcaught, text "echo term", eq_of_beq haction⟩
  have hscans := eq_of_beq hscans
  have hpending := eq_of_beq hpending
  refine ⟨m, { m with ended := some (.flow (.done 0)) }, hrun, hawaits, hscans, hpending, ?_,
    hawaits, hscans⟩
  unfold Machine.call Machine.runsCommands
  rw [hscans, hpending, hinterrupt]
  simp

end Nsh.Signals
