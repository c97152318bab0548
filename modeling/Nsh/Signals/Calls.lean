import Nsh.Signals.Pseudo

/-!
# What runs do to the table

Every run leaves the table its events make of the one it found, each call among them having
found the table of the moment, and it ends: an action is not run inside itself, and calls
nest so deep and no deeper.
-/

namespace Nsh.Pseudo

open Evaluation (taking)
open Signals (TrapAction)

/-- What a call makes of the table, from the one its body ended with. -/
def afterCall (entry ended : Actions) : Actions := if anyAction entry then entry else ended

/-- The table a body starts with. -/
def startOf (options : Options) (entry : Actions) : Actions :=
  if anyAction entry then inherited options entry else entry

/-- Some events lead from one table to another. -/
inductive Follows (options : Options) : Actions → List Event → Actions → Prop
  | done (actions : Actions) : Follows options actions [] actions
  | installed {actions last : Actions} {rest : List Event} (condition : BashCondition)
      (action : TrapAction)
      (hrest : Follows options (Function.update actions condition action) rest last) :
      Follows options actions (.installed condition action :: rest) last
  | called {entry ended left last : Actions} {inside rest : List Event}
      (hinside : Follows options (startOf options entry) inside ended)
      (hleft : left = afterCall entry ended) (hrest : Follows options left rest last) :
      Follows options entry (.called entry inside left :: rest) last

section Runs

variable {host : Host} {options : Options}

theorem Follows.append {first between last : Actions} {events more : List Event}
    (h : Follows options first events between) (h' : Follows options between more last) :
    Follows options first (events ++ more) last := by
  induction h with
  | done => exact h'
  | installed condition action hrest ih => exact .installed condition action (ih h')
  | called hinside hleft hrest ihinside ih => exact .called hinside hleft (ih h')

/-- The end of a run of `events` that found the shell `s`. -/
structure Ends (options : Options) (s : Shell) (events : List Event) (t : Shell) : Prop where
  running : t.traps.running = s.traps.running
  depth : t.evaluationDepth = s.evaluationDepth
  follows : Follows options s.traps.action events t.traps.action

theorem Ends.refl (s : Shell) : Ends options s [] s := ⟨rfl, rfl, .done _⟩

theorem Ends.trans {s t u : Shell} {events more : List Event} (h : Ends options s events t)
    (h' : Ends options t more u) : Ends options s (events ++ more) u :=
  ⟨h'.running.trans h.running, h'.depth.trans h.depth, h.follows.append h'.follows⟩

/-- A run from `s` ends, and as its events say. -/
def SoundAt {α : Type} (options : Options) (m : Running α) (s : Shell) : Prop :=
  match (m s).outcome with
  | .done _ t | .failed _ t => Ends options s (m s).events t
  | .unfinished => False

/-- How many calls and actions may still be opened inside one another. -/
def room (s : Shell) : ℕ :=
  (Evaluation.maxEvaluationDepth - s.evaluationDepth) +
    conditions.countP fun condition => !s.traps.running condition

theorem Ends.room_eq {s t : Shell} {events : List Event} (h : Ends options s events t) :
    room t = room s := by
  rw [room, room, h.running, h.depth]

theorem soundAt_pure {α : Type} (a : α) (s : Shell) : SoundAt options (pure a) s := Ends.refl s

theorem soundAt_fail {α : Type} (error : Error) (s : Shell) :
    SoundAt options (Traced.silently (Run.fail error) : Running α) s := Ends.refl s

theorem soundAt_setStatus (status : ExitStatus) (s : Shell) :
    SoundAt options (setStatus status) s := ⟨rfl, rfl, .done _⟩

theorem soundAt_bind {α β : Type} {m : Running α} {f : α → Running β} {s : Shell}
    (hm : SoundAt options m s) (hf : ∀ a t, room t = room s → SoundAt options (f a) t) :
    SoundAt options (m >>= f) s := by
  unfold SoundAt at hm ⊢
  rw [Traced.bind_apply]
  cases hout : (m s).outcome with
  | done a t =>
    rw [hout] at hm
    simp only at hm ⊢
    have hrest := hf a t hm.room_eq
    unfold SoundAt at hrest
    cases hend : (f a t).outcome with
    | done b u =>
      rw [hend] at hrest
      exact hm.trans hrest
    | failed error u =>
      rw [hend] at hrest
      exact hm.trans hrest
    | unfinished =>
      rw [hend] at hrest
      exact hrest.elim
  | failed error t =>
    rw [hout] at hm
    exact hm
  | unfinished =>
    rw [hout] at hm
    exact hm.elim

/-- A run that first looks at the shell. -/
theorem soundAt_get {α : Type} {f : Shell → Running α} {s : Shell}
    (h : SoundAt options (f s) s) : SoundAt options (Traced.silently Run.get >>= f) s := by
  have hsame : (Traced.silently Run.get >>= f) s = f s s := by
    rw [Traced.bind_apply]
    rfl
  unfold SoundAt at h ⊢
  rw [hsame]
  exact h

theorem soundAt_taking {next : ExitStatus → Running Flow} {s : Shell}
    (h : ∀ status, SoundAt options (next status) s) (flow : Flow) :
    SoundAt options (taking next flow) s := by
  cases flow with
  | done status => exact h status
  | _ => exact soundAt_pure _ s

theorem soundAt_bind_taking {m : Running Flow} {next : ExitStatus → Running Flow} {s : Shell}
    (hm : SoundAt options m s) (h : ∀ status t, room t = room s → SoundAt options (next status) t) :
    SoundAt options (m >>= taking next) s :=
  soundAt_bind hm fun flow t ht => soundAt_taking (fun status => h status t ht) flow

/-! ### `trap` -/

theorem soundAt_set (condition : BashCondition) (action : TrapAction) (s : Shell) :
    SoundAt options (set condition action) s :=
  ⟨rfl, rfl, .installed condition action (.done _)⟩

theorem soundAt_trapWords (words : List Bytes) : ∀ (action : Option Bytes) (s : Shell),
    SoundAt options (trapWords options action words) s := by
  induction words with
  | nil => exact fun action s => soundAt_pure _ s
  | cons word words ih =>
    intro action s
    rw [trapWords]
    cases bashCondition options word with
    | some condition => exact soundAt_bind (soundAt_set _ _ s) fun _ t _ => ih _ t
    | none =>
      by_cases hsignal : (decodeSignal word).isSome = true
      · simp only [hsignal, if_true]
        exact ih _ s
      · simp only [hsignal]
        exact soundAt_pure _ s

theorem soundAt_trap (operands : List Bytes) (s : Shell) :
    SoundAt options (trap options operands) s := by
  cases operands with
  | nil => exact soundAt_pure _ s
  | cons first words =>
    rw [trap]
    split
    · exact soundAt_trapWords _ _ s
    · exact soundAt_trapWords _ _ s

/-! ### Actions -/

theorem room_setRunning {s : Shell} {condition : BashCondition}
    (h : s.traps.running condition = false) :
    room (s.setRunning condition true) + 1 = room s := by
  rw [room, room]
  have hcount : (conditions.countP fun other =>
      !(s.setRunning condition true).traps.running other) + 1 =
      conditions.countP fun other => !s.traps.running other := by
    have hrunning : (s.setRunning condition true).traps.running =
        Function.update s.traps.running condition true := rfl
    rw [hrunning]
    cases condition <;> simp [conditions, List.countP_cons, Function.update, h] <;> omega
  rw [← hcount]
  rfl

/-- An action that is run is one more that runs. -/
theorem soundAt_action {run : Running Flow} {condition : BashCondition} {s : Shell}
    (hfree : s.traps.running condition = false)
    (hrun : SoundAt options run (s.setRunning condition true)) :
    SoundAt options ((Traced.silently (Run.modify fun shell => shell.setRunning condition true) >>=
      fun _ => run).leaving fun _ after => after.setRunning condition false) s := by
  have hback : ∀ {events : List Event} {t : Shell},
      Ends options (s.setRunning condition true) events t →
        Ends options s events (t.setRunning condition false) := by
    rintro events t ⟨hrunning, hdepth, hfollows⟩
    refine ⟨?_, hdepth, hfollows⟩
    show Function.update t.traps.running condition false = s.traps.running
    rw [hrunning]
    show Function.update (Function.update s.traps.running condition true) condition false = _
    rw [Function.update_idem, ← hfree, Function.update_eq_self]
  have hbind : (Traced.silently (Run.modify fun shell => Shell.setRunning shell condition true) >>=
      fun _ => run) s = run (s.setRunning condition true) := by
    rw [Traced.bind_apply]
    rfl
  unfold SoundAt at hrun ⊢
  rw [Traced.leaving_events, Traced.leaving_outcome, hbind]
  cases hout : (run (s.setRunning condition true)).outcome with
  | done flow t =>
    rw [hout] at hrun
    exact hback hrun
  | failed error t =>
    rw [hout] at hrun
    exact hback hrun
  | unfinished =>
    rw [hout] at hrun
    exact hrun

theorem soundAt_dispatch {run : Bytes → Running Flow} (condition : BashCondition) {s : Shell}
    (hrun : ∀ command t, room t + 1 = room s → SoundAt options (run command) t) :
    SoundAt options (dispatch options run condition) s := by
  refine soundAt_get ?_
  by_cases hskip : options.dialect ≠ .bash ∨ s.traps.running condition = true
  · rw [if_pos hskip]
    exact soundAt_pure _ s
  · rw [if_neg hskip]
    have hfree : s.traps.running condition = false := by
      rw [not_or] at hskip
      exact Bool.eq_false_of_not_eq_true hskip.2
    cases (s.traps.action condition).commandText with
    | some command =>
      refine soundAt_bind (soundAt_action hfree (hrun command _ (room_setRunning hfree))) ?_
      intro outcome t _
      cases outcome with
      | exit status => exact soundAt_pure _ t
      | _ => exact soundAt_bind (soundAt_setStatus _ t) fun _ u _ => soundAt_pure _ u
    | none => exact soundAt_pure _ s

theorem soundAt_evaluateList {κ : Type} {element : κ → Running Flow} {k : ℕ}
    (helement : ∀ next t, room t ≤ k → SoundAt options (element next) t) (elements : List κ) :
    ∀ (status : ExitStatus) (s : Shell), room s ≤ k →
      SoundAt options (evaluateList element elements status) s := by
  induction elements with
  | nil => exact fun status s _ => soundAt_pure _ s
  | cons next elements ih =>
    intro status s hs
    exact soundAt_bind_taking (helement next s hs) fun status t ht => ih status t (ht ▸ hs)

theorem soundAt_rescuing {h : Error → Running Flow} {m : Running Flow} {s : Shell}
    (hm : SoundAt options m s) (hh : ∀ error t, SoundAt options (h error) t) :
    SoundAt options (m.rescuing h) s := by
  unfold SoundAt at hm ⊢
  unfold Traced.rescuing
  cases hout : (m s).outcome with
  | done flow t =>
    rw [hout] at hm
    simp only [hout]
    exact hm
  | failed error t =>
    rw [hout] at hm
    simp only at hm ⊢
    have hrest := hh error t
    unfold SoundAt at hrest
    cases hend : (h error t).outcome with
    | done flow u =>
      rw [hend] at hrest
      exact hm.trans hrest
    | failed error u =>
      rw [hend] at hrest
      exact hm.trans hrest
    | unfinished =>
      rw [hend] at hrest
      exact hrest.elim
  | unfinished =>
    rw [hout] at hm
    exact hm.elim

theorem soundAt_evaluateRecord {run : Running Flow} {s : Shell} (h : SoundAt options run s) :
    SoundAt options (evaluateRecord options run) s := by
  refine soundAt_rescuing h fun error t => ?_
  by_cases hrecovers : recovers options error = true
  · rw [if_pos hrecovers]
    exact soundAt_bind (soundAt_setStatus _ t) fun _ u _ => soundAt_pure _ u
  · rw [if_neg hrecovers]
    exact soundAt_fail error t

/-! ### Calls -/

theorem enterFunction_running (s : Shell) :
    (s.enterFunction options).traps.running = s.traps.running := by
  unfold Shell.enterFunction suppressUninherited
  split <;> rfl

theorem leaveFunction_running (s t : Shell) :
    (Shell.leaveFunction options s t).traps.running = t.traps.running := by
  unfold Shell.leaveFunction suppressUninherited
  split <;> rfl

theorem room_enterFunction {s : Shell} (h : s.evaluationDepth < Evaluation.maxEvaluationDepth) :
    room (s.enterFunction options) + 1 = room s := by
  have hdepth : (s.enterFunction options).evaluationDepth = s.evaluationDepth + 1 := rfl
  rw [room, room, enterFunction_running, hdepth]
  omega

theorem enterFunction_action (hbash : options.dialect = .bash) (s : Shell) :
    (s.enterFunction options).traps.action = startOf options s.traps.action := by
  rw [Shell.enterFunction, suppressUninherited, startOf]
  cases hany : anyAction s.traps.action with
  | false => rw [if_pos (Or.inr rfl)]; rfl
  | true => rw [if_neg (by simp [hbash])]; rfl

theorem leaveFunction_action (hbash : options.dialect = .bash) (s t : Shell) :
    (Shell.leaveFunction options s t).traps.action = afterCall s.traps.action t.traps.action := by
  rw [Shell.leaveFunction, suppressUninherited, afterCall]
  cases hany : anyAction s.traps.action with
  | false => rw [if_pos (Or.inr rfl)]; rfl
  | true => rw [if_neg (by simp [hbash])]; rfl

/-- A call is told as one event, between the table it found and the one it left. -/
theorem soundAt_callBody (hbash : options.dialect = .bash) {body runReturn : Running Flow}
    {s : Shell} (hbody : SoundAt options body (s.enterFunction options))
    (hreturn : ∀ t, room t = room (s.enterFunction options) → SoundAt options runReturn t) :
    SoundAt options (callBody options body runReturn) s := by
  have hwhole : SoundAt options (finishing body runReturn) (s.enterFunction options) :=
    soundAt_bind hbody fun flow t ht => soundAt_bind (hreturn t ht) fun _ u _ => soundAt_pure _ u
  -- The events of the body are told inside the one of the call.
  have hcall : ∀ {events : List Event} {t : Shell},
      Ends options (s.enterFunction options) events t →
        Ends options s
          [.called s.traps.action events (Shell.leaveFunction options s t).traps.action]
          (Shell.leaveFunction options s t) := by
    rintro events t ⟨hrunning, hdepth, hfollows⟩
    refine ⟨?_, ?_, ?_⟩
    · rw [leaveFunction_running, hrunning, enterFunction_running]
    · show t.evaluationDepth - 1 = s.evaluationDepth
      rw [hdepth]
      exact Nat.add_sub_cancel s.evaluationDepth 1
    · rw [enterFunction_action hbash] at hfollows
      exact .called hfollows (leaveFunction_action hbash s t) (.done _)
  unfold SoundAt at hwhole ⊢
  unfold callBody Traced.telling
  simp only [callEvent]
  rw [Traced.leaving_events, Traced.leaving_outcome, Traced.bind_apply]
  simp only [Traced.silently, Run.modify_apply, List.nil_append]
  split at hwhole
  · next a t hout =>
    rw [hout]
    exact hcall hwhole
  · next error t hout =>
    rw [hout]
    exact hcall hwhole
  · exact hwhole.elim

theorem soundAt_evaluateFunction (hbash : options.dialect = .bash) {body runReturn : Running Flow}
    {s : Shell} (hbody : ∀ t, room t + 1 = room s → SoundAt options body t)
    (hreturn : ∀ t, room t + 1 = room s → SoundAt options runReturn t) :
    SoundAt options (evaluateFunction host options body runReturn) s := by
  refine soundAt_get ?_
  by_cases hdeep : s.evaluationDepth ≥ Evaluation.maxEvaluationDepth
  · rw [if_pos hdeep]
    exact soundAt_fail _ s
  · rw [if_neg hdeep]
    have hroom := @room_enterFunction options s (Nat.lt_of_not_le hdeep)
    refine soundAt_bind (soundAt_callBody hbash (hbody _ hroom) fun t ht => hreturn t ?_)
      fun flow t _ => soundAt_pure _ t
    rw [ht, hroom]

/-! ### The evaluator -/

theorem soundAt_conclude {raise : Running Flow} {s : Shell} (h : SoundAt options raise s)
    (tested : Bool) : SoundAt options (conclude options raise tested) s := by
  refine soundAt_get ?_
  split
  · exact soundAt_bind_taking h fun status t _ => soundAt_pure _ t
  · exact soundAt_pure _ s

section Tree

variable {tree : Bool → Command → Running Flow} {k : ℕ}

/-- What the text of an action is run as, with less room. -/
theorem soundAt_executeText
    (htree : ∀ tested command t, room t < k → SoundAt options (tree tested command) t)
    {s : Shell} (hs : room s ≤ k) (command : Bytes) (t : Shell) (ht : room t + 1 = room s) :
    SoundAt options (executeText host options (tree false) command) t :=
  soundAt_evaluateList (k := room t) (fun record u hu => soundAt_evaluateRecord
    (soundAt_evaluateList (fun command v hv => htree false command v (by omega)) record _ u hu))
    _ _ t le_rfl

theorem soundAt_runCommand (hbash : options.dialect = .bash)
    (htree : ∀ tested command t, room t < k → SoundAt options (tree tested command) t)
    (tested : Bool) (command : Command) {s : Shell} (hs : room s ≤ k) :
    SoundAt options (runCommand host options tree tested command) s := by
  cases command with
  | trap operands => exact soundAt_bind (soundAt_trap operands s) fun _ t _ => soundAt_pure _ t
  | call name =>
    refine soundAt_evaluateFunction hbash (fun t ht => ?_) fun t ht => ?_
    · exact soundAt_evaluateList (k := room t)
        (fun command u hu => htree tested command u (by omega)) _ _ t le_rfl
    · exact soundAt_dispatch _ fun command u hu =>
        soundAt_executeText htree (by omega : room t ≤ k) command u hu
  | other word =>
    refine soundAt_get ?_
    cases host.other word s.status with
    | ok flow => exact soundAt_pure flow s
    | error error => exact soundAt_fail error s

theorem soundAt_evaluateCommand (hbash : options.dialect = .bash)
    (htree : ∀ tested command t, room t < k → SoundAt options (tree tested command) t)
    (tested : Bool) (command : Command) {s : Shell} (hs : room s ≤ k) :
    SoundAt options (evaluateCommand host options tree tested command) s := by
  have hdispatch : ∀ condition t, room t ≤ k →
      SoundAt options (dispatch options (executeText host options (tree false)) condition) t :=
    fun condition t ht => soundAt_dispatch condition fun command u hu =>
      soundAt_executeText htree ht command u hu
  refine soundAt_bind_taking (hdispatch .debug s hs) fun _ t ht => ?_
  refine soundAt_bind_taking (soundAt_runCommand hbash htree tested command (ht ▸ hs))
    fun status u hu => ?_
  refine soundAt_bind (soundAt_setStatus status u) fun _ v hv => ?_
  exact soundAt_conclude (hdispatch .err v (by omega)) tested

end Tree

/-- **Runs end**, and what they do to the table is what their events say, as long as there
    are more evaluations than room to open them. -/
theorem soundAt_evaluateTree (hbash : options.dialect = .bash) (n : ℕ) :
    ∀ (tested : Bool) (command : Command) (s : Shell), room s < n →
      SoundAt options (evaluateTree host options n tested command) s := by
  induction n with
  | zero => exact fun _ _ _ h => absurd h (Nat.not_lt_zero _)
  | succ n ih => exact fun tested command s hs =>
      soundAt_evaluateCommand hbash ih tested command (Nat.le_of_lt_succ hs)

end Runs

end Nsh.Pseudo
