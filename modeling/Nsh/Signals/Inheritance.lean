import Nsh.Signals.Calls

/-!
# What a call leaves of what its body installed

A call saves the whole table when any of the three conditions has an action, and saves
nothing otherwise.  So what a body installs for one condition is lost when another condition
had an action, and only then.
-/

namespace Nsh.Pseudo

open Signals (TrapAction)

/-- A call that is over. -/
structure Call where
  entry : Actions
  inside : List Event
  left : Actions

/-- The calls among some events, and those inside them. -/
inductive CalledIn (call : Call) : List Event → Prop
  | here (rest : List Event) : CalledIn call (.called call.entry call.inside call.left :: rest)
  | within {entry left : Actions} {inside : List Event} (rest : List Event)
      (h : CalledIn call inside) : CalledIn call (.called entry inside left :: rest)
  | later (event : Event) {rest : List Event} (h : CalledIn call rest) :
      CalledIn call (event :: rest)

theorem CalledIn.inside {call nested : Call} {events : List Event} (h : CalledIn call events)
    (hnested : CalledIn nested call.inside) : CalledIn nested events := by
  induction h with
  | here rest => exact .within rest hnested
  | within rest _ ih => exact .within rest ih
  | later event _ ih => exact .later event ih

/-- Whether the action of a condition is not inherited by a call. -/
def suppressed (options : Options) (entry : Actions) (condition : BashCondition) : Bool :=
  isCommand (entry condition) && !options.enabled condition.inheritanceOption

section Last

variable (drops : Actions → BashCondition → Bool) (condition : BashCondition)

mutual

/-- The last action an event installs for a condition, where some calls do not count. -/
def lastOf : Event → Option TrapAction
  | .installed other action => if other = condition then some action else none
  | .called entry inside _ => if drops entry condition then none else lastBut inside

def lastBut : List Event → Option TrapAction
  | [] => none
  | event :: rest => (lastBut rest).or (lastOf event)

end

end Last

/-- The last action a body installs for a condition.  A call in it counts with what its own
    body installs, unless the condition was suppressed when it was entered. -/
def lastInstalled (options : Options) (condition : BashCondition) (events : List Event) :
    Option TrapAction :=
  lastBut (suppressed options) condition events

/-- The last action a body installs outside the calls that were entered with any action. -/
def lasting (condition : BashCondition) (events : List Event) : Option TrapAction :=
  lastBut (fun entry _ => anyAction entry) condition events

/-- A call changes the actions its body changes: a condition that was not suppressed has the
    last action installed for it, and one that was has its action back if it was left alone. -/
def Call.Kept (options : Options) (call : Call) : Prop :=
  (∀ condition, suppressed options call.entry condition = false →
    call.left condition =
      (lastInstalled options condition call.inside).getD (call.entry condition)) ∧
  (∀ condition, suppressed options call.entry condition = true →
    lastInstalled options condition call.inside = none → call.left condition = call.entry condition)

/-- What was installed last for the conditions that were not suppressed was not installed in a
    call that was entered with an action, this one or one inside it, or changed nothing. -/
def Call.Lasts (options : Options) (call : Call) : Prop :=
  ∀ condition, suppressed options call.entry condition = false →
    (lastInstalled options condition call.inside).getD (call.entry condition) =
      if anyAction call.entry then call.entry condition
      else (lasting condition call.inside).getD (call.entry condition)

/-- Where any condition has an action on entry, the body installs nothing new for those that
    were not suppressed. -/
def Call.Uncoupled (options : Options) (call : Call) : Prop :=
  anyAction call.entry = true → ∀ condition, suppressed options call.entry condition = false →
    (lastInstalled options condition call.inside).getD (call.entry condition) = call.entry condition

section Follows

variable {options : Options}

theorem isCommand_anyAction {entry : Actions} {condition : BashCondition}
    (h : isCommand (entry condition) = true) : anyAction entry = true :=
  List.any_eq_true.mpr ⟨condition, mem_conditions condition, h⟩

theorem suppressed_anyAction {entry : Actions} {condition : BashCondition}
    (h : suppressed options entry condition = true) : anyAction entry = true := by
  rw [suppressed, Bool.and_eq_true] at h
  exact isCommand_anyAction h.1

theorem getD_or (first second : Option TrapAction) (action : TrapAction) :
    (second.or first).getD action = second.getD (first.getD action) := by
  cases second <;> rfl

theorem update_getD (actions : Actions) (other condition : BashCondition) (action : TrapAction) :
    Function.update actions other action condition =
      (if other = condition then some action else none).getD (actions condition) := by
  by_cases h : other = condition
  · rw [if_pos h, h, Function.update_self]
    rfl
  · rw [if_neg h, Function.update_of_ne (Ne.symm h)]
    rfl

/-- What some events leave is what they installed last outside the calls that put everything
    back. -/
theorem Follows.lasting {first last : Actions} {events : List Event}
    (h : Follows options first events last) (condition : BashCondition) :
    last condition = (Pseudo.lasting condition events).getD (first condition) := by
  unfold Pseudo.lasting
  induction h with
  | done => rfl
  | installed other action hrest ih =>
    rw [ih, lastBut, lastOf, getD_or, update_getD]
  | @called entry ended left last inside rest hinside hleft hrest ihinside ih =>
    rw [ih, lastBut, lastOf, getD_or]
    congr 1
    rw [hleft, afterCall]
    cases hany : anyAction entry with
    | true => rfl
    | false =>
      rw [startOf, hany] at ihinside
      exact ihinside

/-- Every call among the events did to the table what a call does. -/
theorem Follows.call {first last : Actions} {events : List Event} {call : Call}
    (h : Follows options first events last) (hcall : CalledIn call events) :
    ∃ ended, Follows options (startOf options call.entry) call.inside ended ∧
      call.left = afterCall call.entry ended := by
  induction h with
  | done => cases hcall
  | installed condition action hrest ih =>
    cases hcall with
    | later _ hcall => exact ih hcall
  | called hinside hleft hrest ihinside ih =>
    cases hcall with
    | here => exact ⟨_, hinside, hleft⟩
    | within _ hcall => exact ihinside hcall
    | later _ hcall => exact ih hcall

/-- What a call leaves. -/
theorem Follows.left_eq {first last : Actions} {events : List Event} {call : Call}
    (h : Follows options first events last) (hcall : CalledIn call events)
    (condition : BashCondition) :
    call.left condition =
      if anyAction call.entry then call.entry condition
      else (Pseudo.lasting condition call.inside).getD (call.entry condition) := by
  obtain ⟨ended, hinside, hleft⟩ := h.call hcall
  rw [hleft, afterCall]
  cases hany : anyAction call.entry with
  | true => rfl
  | false =>
    rw [startOf, hany] at hinside
    exact hinside.lasting condition

/-- **One call.** -/
theorem Follows.kept_iff {first last : Actions} {events : List Event} {call : Call}
    (h : Follows options first events last) (hcall : CalledIn call events) :
    call.Kept options ↔ call.Lasts options := by
  have hleft := h.left_eq hcall
  constructor
  · rintro ⟨hkept, -⟩ condition hfree
    rw [← hkept condition hfree, hleft condition]
  · intro hlasts
    refine ⟨fun condition hfree => ?_, fun condition hsuppressed _ => ?_⟩
    · rw [hleft condition, hlasts condition hfree]
    · rw [hleft condition, suppressed_anyAction hsuppressed]
      rfl

theorem Follows.uncoupled {first last : Actions} {events : List Event} {call : Call}
    (h : Follows options first events last) (hcall : CalledIn call events)
    (hkept : call.Kept options) : call.Uncoupled options := by
  intro hany condition hfree
  rw [← hkept.1 condition hfree, h.left_eq hcall condition, hany]
  rfl

/-- Where no call loses anything, the table has what was installed last. -/
theorem Follows.lastInstalled {first last : Actions} {events : List Event}
    (h : Follows options first events last)
    (huncoupled : ∀ call, CalledIn call events → call.Uncoupled options)
    (condition : BashCondition) :
    last condition = (Pseudo.lastInstalled options condition events).getD (first condition) := by
  unfold Pseudo.lastInstalled
  induction h with
  | done => rfl
  | installed other action hrest ih =>
    rw [ih fun call hcall => huncoupled call (.later _ hcall), lastBut, lastOf, getD_or,
      update_getD]
  | @called entry ended left last inside rest hinside hleft hrest ihinside ih =>
    have hended := ihinside fun call hcall => huncoupled call (.within rest hcall)
    rw [ih fun call hcall => huncoupled call (.later _ hcall), lastBut, lastOf, getD_or]
    congr 1
    rw [hleft, afterCall]
    cases hany : anyAction entry with
    | true =>
      have hself := huncoupled ⟨entry, inside, left⟩ (.here rest) hany condition
      cases hfree : suppressed options entry condition with
      | true => rfl
      | false => exact (hself hfree).symm
    | false =>
      have hfree : suppressed options entry condition = false := by
        cases hsuppressed : suppressed options entry condition with
        | false => rfl
        | true =>
          rw [suppressed_anyAction hsuppressed] at hany
          cases hany
      rw [startOf, hany] at hended
      rw [hfree]
      exact hended

/-- **All calls of a run.** -/
theorem Follows.all_kept_iff {first last : Actions} {events : List Event}
    (h : Follows options first events last) :
    (∀ call, CalledIn call events → call.Kept options) ↔
      ∀ call, CalledIn call events → call.Uncoupled options := by
  refine ⟨fun hkept call hcall => h.uncoupled hcall (hkept call hcall),
    fun huncoupled call hcall => ?_⟩
  have hself := huncoupled call hcall
  rw [h.kept_iff hcall]
  intro condition hfree
  cases hany : anyAction call.entry with
  | true => exact hself hany condition hfree
  | false =>
    obtain ⟨ended, hinside, -⟩ := h.call hcall
    have hinner : ∀ nested, CalledIn nested call.inside → nested.Uncoupled options :=
      fun nested hnested => huncoupled nested (CalledIn.inside hcall hnested)
    rw [startOf, hany] at hinside
    exact (hinside.lastInstalled hinner condition).symm.trans (hinside.lasting condition)

end Follows

/-! ### A call of a function -/

/-- How many evaluations can be open inside one another, from any shell. -/
def evaluationRoom : ℕ := Evaluation.maxEvaluationDepth + conditions.length

def callFunction (host : Host) (options : Options) (tested : Bool) (name : Bytes) : Running Flow :=
  runCommand host options (evaluateTree host options evaluationRoom) tested (.call name)

/-- How a run ended, whether it came to a flow or failed. -/
def EndsIn (told : Told Shell Error Event Flow) (t : Shell) : Prop :=
  (∃ flow, told.outcome = .done flow t) ∨ ∃ error, told.outcome = .failed error t

theorem room_le (s : Shell) : room s ≤ evaluationRoom :=
  Nat.add_le_add (Nat.sub_le _ _) List.countP_le_length

section Call

variable {host : Host} {options : Options}

theorem soundAt_callFunction (hbash : options.dialect = .bash) (tested : Bool) (name : Bytes)
    (s : Shell) : SoundAt options (callFunction host options tested name) s :=
  soundAt_runCommand hbash (soundAt_evaluateTree hbash evaluationRoom) tested (.call name)
    (room_le s)

theorem SoundAt.ends {m : Running Flow} {s : Shell} (h : SoundAt options m s) :
    ∃ t, EndsIn (m s) t ∧ Ends options s (m s).events t := by
  unfold SoundAt at h
  cases hout : (m s).outcome with
  | done flow t =>
    rw [hout] at h
    exact ⟨t, Or.inl ⟨flow, hout⟩, h⟩
  | failed error t =>
    rw [hout] at h
    exact ⟨t, Or.inr ⟨error, hout⟩, h⟩
  | unfinished =>
    rw [hout] at h
    exact h.elim

/-- A call that may be made is told between the table it found and the one it left. -/
theorem evaluateFunction_event {body runReturn : Running Flow} {s t : Shell}
    (hdepth : s.evaluationDepth < Evaluation.maxEvaluationDepth)
    (hends : EndsIn (evaluateFunction host options body runReturn s) t) :
    ∃ inside, (evaluateFunction host options body runReturn s).events =
      [.called s.traps.action inside t.traps.action] := by
  have hcall : evaluateFunction host options body runReturn s =
      (if s.evaluationDepth ≥ Evaluation.maxEvaluationDepth then
        Traced.silently (Run.fail (shellError host.diagnosticLine Evaluation.recursionMessage))
      else callBody options body runReturn >>= fun flow => pure (Evaluation.callFlow flow) :
        Running Flow) s :=
    rfl
  have htold : (callBody options body runReturn s).events =
      callEvent s ⟨(((Traced.silently (Run.modify (Shell.enterFunction options)) >>=
        fun _ => finishing body runReturn).leaving (Shell.leaveFunction options)) s).events,
        (callBody options body runReturn s).outcome⟩ := rfl
  rw [if_neg (Nat.not_le_of_lt hdepth), Traced.bind_apply] at hcall
  rw [hcall] at hends ⊢
  cases hout : (callBody options body runReturn s).outcome with
  | done flow u =>
    rw [hout] at hends htold
    have htu : u = t := by
      rcases hends with ⟨flow', hends⟩ | ⟨error, hends⟩ <;> cases hends
      rfl
    exact ⟨_, by rw [← htu, htold]; rfl⟩
  | failed error u =>
    rw [hout] at hends htold
    have htu : u = t := by
      rcases hends with ⟨flow', hends⟩ | ⟨error', hends⟩ <;> cases hends
      rfl
    exact ⟨_, by rw [← htu, htold]; rfl⟩
  | unfinished =>
    rw [hout] at hends
    rcases hends with ⟨flow', hends⟩ | ⟨error', hends⟩ <;> cases hends

end Call

/-- **What a call leaves.**  A call of a function ends, and is told with the table it found and
    the one it left.  It changes the actions its body changes exactly as far as what was
    installed last lasts, and all calls of the run do exactly as long as none that was entered
    with an action installs anything new. -/
theorem callFunction_kept (host : Host) {options : Options} (hbash : options.dialect = .bash)
    (tested : Bool) (name : Bytes) (s : Shell) :
    (∃ t, EndsIn (callFunction host options tested name s) t ∧
      (s.evaluationDepth < Evaluation.maxEvaluationDepth → ∃ inside,
        (callFunction host options tested name s).events =
          [.called s.traps.action inside t.traps.action])) ∧
    (∀ call, CalledIn call (callFunction host options tested name s).events →
      (call.Kept options ↔ call.Lasts options)) ∧
    ((∀ call, CalledIn call (callFunction host options tested name s).events →
        call.Kept options) ↔
      ∀ call, CalledIn call (callFunction host options tested name s).events →
        call.Uncoupled options) := by
  obtain ⟨t, hends, hrun⟩ := (@soundAt_callFunction host options hbash tested name s).ends
  refine ⟨⟨t, hends, fun hdepth => evaluateFunction_event hdepth hends⟩, fun call hcall => ?_, ?_⟩
  · exact hrun.follows.kept_iff hcall
  · exact hrun.follows.all_kept_iff

/-- `trap e ERR` is installed, and `f` runs `trap x DEBUG`. -/
def installing : Host where
  parse _ := []
  functions _ := [.trap [text "x", text "DEBUG"]]
  other _ status := .ok (.done status)
  diagnosticLine := 1

def tracing : Options := ⟨.bash, false, false, false⟩

def withErr : Shell where
  traps := ⟨fun condition => if condition = .err then .command (text "e") else .default,
    fun _ => false⟩
  status := 0
  evaluationDepth := 0

theorem callFunction_kept_installing :
    (∀ call, CalledIn call (callFunction installing tracing false (text "f") withErr).events →
        call.Kept tracing) ↔
      ∀ call, CalledIn call (callFunction installing tracing false (text "f") withErr).events →
        call.Uncoupled tracing :=
  (callFunction_kept installing rfl false (text "f") withErr).2.2

/-- With an action for `ERR`, what the body installs for `DEBUG` is lost. -/
theorem not_callFunction_keeps_debug : ¬ ∀ (host : Host) (options : Options),
    options.dialect = .bash → ∀ (tested : Bool) (name : Bytes) (s : Shell) (call : Call),
      CalledIn call (callFunction host options tested name s).events → call.Kept options := by
  intro h
  have hevents : (callFunction installing tracing false (text "f") withErr).events =
      [.called withErr.traps.action [.installed .debug (.command (text "x"))]
        withErr.traps.action] := by rfl
  have hkept := h installing tracing rfl false (text "f") withErr
    ⟨withErr.traps.action, [.installed .debug (.command (text "x"))], withErr.traps.action⟩
    (by rw [hevents]; exact .here [])
  have hdebug := hkept.1 .debug (by rfl)
  revert hdebug
  decide

end Nsh.Pseudo
