import Nsh.Evaluation.Meaning

/-!
# Where `-e` ends the shell

Under `-e` the evaluator runs the commands of a tree's meaning up to the first that
fails untested, and ends there (`evaluateTree_cut`).  The contexts it passes down are
what the meaning says of each command; the induction is on the evaluations that are
open at once, with the left sides of a list taken together as `evaluate_list` does.
-/

namespace Nsh.Evaluation

open Nodes

variable {W ι : Type}

/-! ### Taking statuses -/

theorem taking_bind (m : Running W ι Flow) (f g : ExitStatus → Running W ι Flow) :
    (m >>= taking f) >>= taking g = m >>= taking fun status => f status >>= taking g := by
  rw [Traced.bind_assoc]
  congr 1
  funext flow
  cases flow <;> rfl

theorem taking_done (m : Running W ι Flow) :
    (m >>= taking fun status => pure (.done status)) = m := by
  funext s
  rw [Traced.bind_apply]
  obtain ⟨events, outcome⟩ := m s
  cases outcome with
  | done flow u => cases flow <;> simp [taking, Pure.pure]
  | failed e u => rfl
  | unfinished => rfl

theorem ending_false (m : Running W ι Flow) : ending false m = m := taking_done m

theorem ending_taking (exits : Bool) (m : Running W ι Flow) (f : ExitStatus → Running W ι Flow) :
    ending exits (m >>= taking f) = m >>= taking fun status => ending exits (f status) :=
  taking_bind m f _

/-- What the evaluation of a tree is next to its meaning. -/
abbrev CutAt (m : Told (Shell W) Error Ran Flow) (t : Told (Shell W) Error Placed Flow) : Prop :=
  Cut Placed.fails Placed.ran .end_ m t

theorem CutAt.taking {m : Running W Ran Flow} {t : Running W Placed Flow} {s : Shell W}
    {f : ExitStatus → Running W Ran Flow} {g : ExitStatus → Running W Placed Flow}
    (h : CutAt (m s) (t s)) (hf : ∀ status u, CutAt (f status u) (g status u)) :
    CutAt ((m >>= taking f) s) ((t >>= taking g) s) := by
  refine Cut.bind h (fun u => rfl) fun flow u => ?_
  cases flow with
  | done status => exact hf status u
  | _ => exact Cut.pure

/-! ### Statuses already settled -/

theorem answering_done (status : ExitStatus) (s : Shell W) :
    answering (.done status) s = ⟨[], .done (.done status) { s with status := status }⟩ := rfl

/-- A part that comes to a status leaves it as `$?`. -/
def Answers (m : Running W ι Flow) : Prop :=
  ∀ s status u, (m s).outcome = .done (.done status) u → u.status = status

theorem answers_answering (m : Running W Placed Flow) : Answers (m >>= answering) := by
  intro s status u h
  rw [Traced.bind_apply] at h
  cases hout : (m s).outcome with
  | done flow v =>
    rw [hout] at h
    cases flow with
    | done status' => cases h; rfl
    | _ => cases h
  | failed e v => rw [hout] at h; cases h
  | unfinished => rw [hout] at h; cases h

theorem answers_meaning (host : Host W) (n : ℕ) (tested : Bool) (node : Node) :
    Answers (meaning host n tested node) := by
  cases n with
  | zero => intro s status u h; cases h
  | succ n => exact answers_answering _

theorem Answers.answering {m : Running W Placed Flow} (h : Answers m) : m >>= answering = m := by
  funext s
  have hs := h s
  rw [Traced.bind_apply]
  generalize m s = told at hs
  obtain ⟨events, outcome⟩ := told
  cases outcome with
  | done flow u =>
    cases flow with
    | done status =>
      obtain rfl : u.status = status := hs status u rfl
      simp only [answering_done, List.append_nil]
    | _ => simp [Evaluation.answering, taking, Pure.pure]
  | failed e u => rfl
  | unfinished => rfl

/-! ### Settling a construct -/

section Settle

variable {options : Options} {context : EvaluationContext}

/-- Whether `-e` ends the shell at a status. -/
def Options.aborts (options : Options) (context : EvaluationContext) (checkExit : Bool)
    (status : ExitStatus) : Bool :=
  checkExit && !context.tested && !context.forkedAsThisCommand && !status.success &&
    options.errexit

theorem settle_done (checkExit : Bool) (status : ExitStatus) (s : Shell W) :
    settle options context checkExit (.done status) s =
      ⟨[], .done (if options.aborts context checkExit status || context.exit then .end_
        else .done status) { s with status := status }⟩ := by
  simp only [settle, taking, Traced.bind_apply, setStatus, conclude, Traced.silently,
    Run.modify_apply, Run.get_apply, List.nil_append]
  unfold Options.aborts
  split <;> rfl

theorem ending_answering_done (exits : Bool) (status : ExitStatus) (s : Shell W) :
    ending exits (answering (.done status)) s =
      ⟨[], .done (if exits then .end_ else .done status) { s with status := status }⟩ := rfl

theorem CutAt.settle_done (status : ExitStatus) (s : Shell W) :
    CutAt (settle options context false (.done status) s)
      (ending context.exit (answering (.done status)) s) := by
  refine Cut.of_silent ?_ rfl ?_
  · rw [Evaluation.settle_done]
  · rw [Evaluation.settle_done, ending_answering_done]
    rfl

/-- The status of a part that does not end the shell is settled once. -/
theorem CutAt.settle {m : Running W Ran Flow} {t : Running W Placed Flow} {s : Shell W}
    (h : CutAt (m s) (t s)) :
    CutAt ((m >>= settle options context false) s) (ending context.exit (t >>= answering) s) := by
  have hending : ending context.exit (t >>= Evaluation.answering) =
      t >>= Evaluation.taking fun status =>
        ending context.exit (Evaluation.answering (.done status)) := by
    rw [← ending_taking]
    rfl
  rw [hending]
  exact h.taking fun status u => CutAt.settle_done status u

/-- An evaluation that ends the shell comes to no status, and any other leaves it. -/
theorem Answers.ending {exits : Bool} {t : Running W ι Flow} (ht : Answers t) {s u : Shell W}
    {status : ExitStatus} (h : (Evaluation.ending exits t s).outcome = .done (.done status) u) :
    exits = false ∧ u.status = status := by
  unfold Evaluation.ending at h
  rw [Traced.bind_apply] at h
  cases hout : (t s).outcome with
  | done flow v =>
    rw [hout] at h
    cases flow with
    | done status' =>
      cases exits with
      | false => cases h; exact ⟨rfl, ht s status u hout⟩
      | true => cases h
    | _ => cases h
  | failed e v => rw [hout] at h; cases h
  | unfinished => rw [hout] at h; cases h

/-- The status of a node is settled already where it is the construct's. -/
theorem CutAt.resettle {m : Running W Ran Flow} {t : Running W Placed Flow} {s : Shell W}
    (ht : Answers t) (h : CutAt (m s) (ending context.exit t s)) :
    CutAt ((m >>= Evaluation.settle options context false) s)
      (ending context.exit (t >>= answering) s) := by
  rw [ht.answering, Traced.bind_apply]
  cases h with
  | stopped before u hbefore hevents houtcome =>
    rw [houtcome]
    exact .stopped before u hbefore (by rw [← hevents]; exact List.append_nil _) rfl
  | whole hnone hevents houtcome =>
    cases hout : (m s).outcome with
    | done flow u =>
      rw [hout] at houtcome
      cases flow with
      | done status =>
        obtain ⟨hexit, hstatus⟩ := ht.ending houtcome.symm
        refine .whole hnone ?_ ?_
        · simp only [Evaluation.settle_done, List.append_nil, hevents]
        · rw [← houtcome]
          simp only [Evaluation.settle_done, hexit]
          subst hstatus
          rfl
      | _ => exact .whole hnone (by rw [← hevents]; exact List.append_nil _) houtcome
    | failed e u => exact .whole hnone hevents (hout.symm.trans houtcome)
    | unfinished => exact .whole hnone hevents (hout.symm.trans houtcome)

/-- A construct that goes on behind a part ends in what it goes on with. -/
theorem CutAt.thenSettle {m : Running W Ran Flow} {t : Running W Placed Flow} {s : Shell W}
    {f : ExitStatus → Running W Ran Flow} {g : ExitStatus → Running W Placed Flow}
    (hm : CutAt (m s) (t s))
    (hfg : ∀ status u, CutAt ((f status >>= Evaluation.settle options context false) u)
      (ending context.exit (g status >>= answering) u)) :
    CutAt (((m >>= Evaluation.taking f) >>= Evaluation.settle options context false) s)
      (ending context.exit ((t >>= Evaluation.taking g) >>= answering) s) := by
  have hm' : (m >>= Evaluation.taking f) >>= Evaluation.settle options context false =
      m >>= Evaluation.taking fun status => f status >>= Evaluation.settle options context false :=
    taking_bind m f _
  have ht' : ending context.exit ((t >>= Evaluation.taking g) >>= answering) =
      t >>= Evaluation.taking fun status => ending context.exit (g status >>= answering) := by
    rw [← ending_taking]
    exact congrArg _ (taking_bind t g _)
  rw [hm', ht']
  exact hm.taking hfg

end Settle

/-! ### Lists -/

section Lists

theorem evaluateJoins_append {κ : Type} (element : κ → Running W ι Flow) (join : ListJoin)
    (last : κ) (joins : List (ListJoin × κ)) (status : ExitStatus) :
    evaluateJoins element (joins ++ [(join, last)]) status =
      evaluateJoins element joins status >>= taking fun status =>
        if join.shortCircuits status then pure (.done status) else element last := by
  induction joins generalizing status with
  | nil =>
    change (if _ then _ else _) = (if _ then _ else _)
    split
    · rfl
    · exact taking_done _
  | cons head joins ih =>
    obtain ⟨join', next⟩ := head
    simp only [List.cons_append, evaluateJoins]
    split
    · exact ih status
    · rw [taking_bind]
      congr 1
      exact congrArg taking (funext ih)

variable (tree : EvaluationContext → Node → Running W ι Flow)

/-- A list is its left side and then, where the join goes on, its right side. -/
theorem evaluateList_join (join : ListJoin) {context : EvaluationContext}
    (leftContext : EvaluationContext) {left right node : Node}
    (h : listJoins context node =
      ((join, right, context) :: (listJoins leftContext left).1, (listJoins leftContext left).2)) :
    evaluateList tree context node =
      evaluateList tree leftContext left >>= taking fun status =>
        if join.shortCircuits status then pure (.done status) else tree context right := by
  unfold evaluateList
  rw [h]
  simp only [List.reverse_cons, taking_bind]
  congr 1
  exact congrArg taking (funext fun status => evaluateJoins_append _ join _ _ status)

theorem evaluateList_single {context : EvaluationContext} {node : Node}
    (h : listJoins context node = ([], node, context)) :
    evaluateList tree context node = tree context node := by
  unfold evaluateList
  rw [h]
  exact taking_done _

theorem evaluateList_and (context : EvaluationContext) (left right : Node) :
    evaluateList tree context (.and left right) =
      evaluateList tree .underTest left >>= taking fun status =>
        if status.success then tree context right else pure (.done status) := by
  rw [evaluateList_join tree .and .underTest rfl]
  congr 2
  funext status
  cases h : status.success <;> simp [ListJoin.shortCircuits, h]

theorem evaluateList_or (context : EvaluationContext) (left right : Node) :
    evaluateList tree context (.or left right) =
      evaluateList tree .underTest left >>= taking fun status =>
        if status.success then pure (.done status) else tree context right :=
  evaluateList_join tree .or .underTest rfl

theorem evaluateList_sequence (context : EvaluationContext) (left right : Node) :
    evaluateList tree context (.sequence left right) =
      evaluateList tree context.testedOnly left >>= taking fun _ => tree context right :=
  evaluateList_join tree .sequence context.testedOnly rfl

end Lists

/-! ### Parts that both share -/

section Parts

variable {host : Host W} {s : Shell W}

theorem CutAt.onWorld_bind {α : Type} (m : Run W Error α) {f : α → Running W Ran Flow}
    {g : α → Running W Placed Flow}
    (h : ∀ a world u, m s.world = .done a world → CutAt (f a u) (g a u)) :
    CutAt ((onWorld m >>= f) s) ((onWorld m >>= g) s) := by
  refine Cut.silently_bind _ fun a u hm => ?_
  unfold Run.within at hm
  cases hworld : m s.world with
  | done a' world =>
    rw [hworld] at hm
    cases hm
    exact h _ world _ hworld
  | failed e world => rw [hworld] at hm; cases hm
  | unfinished => rw [hworld] at hm; cases hm

theorem CutAt.function {m : Running W Ran Flow} {t : Running W Placed Flow}
    (h : ∀ u, CutAt (m u) (t u)) :
    CutAt (evaluateFunction host m s) (evaluateFunction host t s) := by
  refine Cut.silently_bind _ fun shell u _ => ?_
  split
  · exact Cut.of_silent rfl rfl rfl
  · refine Cut.bind (show CutAt _ _ from ?_) (fun _ => rfl) fun flow w => Cut.pure
    exact Cut.silently_bind _ fun _ v _ => Cut.leaving _ (h v)

theorem CutAt.loop {condition body : Running W Ran Flow} {condition' body' : Running W Placed Flow}
    (until_ : Bool) (hcondition : ∀ u, CutAt (condition u) (condition' u))
    (hbody : ∀ u, CutAt (body u) (body' u)) (turns : ℕ) (status : ExitStatus) :
    CutAt (evaluateLoopFrom condition body until_ turns status s)
      (evaluateLoopFrom condition' body' until_ turns status s) := by
  induction turns generalizing status s with
  | zero => exact Cut.of_silent rfl rfl rfl
  | succ turns ih =>
    refine Cut.bind (hcondition s) (fun _ => rfl) fun flow u => ?_
    cases catchOneLoop flow with
    | value tested =>
      simp only
      split
      · exact Cut.pure
      · refine Cut.bind (hbody u) (fun _ => rfl) fun flow v => ?_
        cases catchOneLoop flow with
        | value status => exact ih status
        | continueLoop status => exact ih status
        | breakLoop status => exact Cut.pure
        | propagate control => exact Cut.pure
    | breakLoop status => exact Cut.pure
    | continueLoop status => exact ih status
    | propagate control => exact Cut.pure

theorem CutAt.forLoop {body : Running W Ran Flow} {body' : Running W Placed Flow}
    (name : Bytes) (hbody : ∀ u, CutAt (body u) (body' u)) (fields : List Bytes)
    (status : ExitStatus) :
    CutAt (evaluateForFrom host name body fields status s)
      (evaluateForFrom host name body' fields status s) := by
  induction fields generalizing status s with
  | nil => exact Cut.pure
  | cons field fields ih =>
    refine CutAt.onWorld_bind _ fun _ _ u _ => ?_
    refine Cut.bind (hbody u) (fun _ => rfl) fun flow v => ?_
    cases catchOneLoop flow with
    | value status => exact ih status
    | continueLoop status => exact ih status
    | breakLoop status => exact Cut.pure
    | propagate control => exact Cut.pure

theorem CutAt.clauses {run : Node → Running W Ran Flow} {run' : Node → Running W Placed Flow}
    (word : Bytes) {clauses : List CaseClause}
    (hbodies : ∀ clause ∈ clauses, ∀ body ∈ clause.body, ∀ u, CutAt (run body u) (run' body u))
    (fallthrough : Bool) (status : ExitStatus) :
    CutAt (evaluateClauses host run word clauses fallthrough status s)
      (evaluateClauses host run' word clauses fallthrough status s) := by
  induction clauses generalizing fallthrough status s with
  | nil => exact Cut.pure
  | cons clause clauses ih =>
    obtain ⟨hbody, hrest⟩ := List.forall_mem_cons.mp hbodies
    refine CutAt.onWorld_bind _ fun selected _ u _ => ?_
    cases selected with
    | false => exact ih hrest fallthrough status
    | true =>
      refine CutAt.taking ?_ fun last v => ?_
      · cases hclause : clause.body with
        | none => exact Cut.pure
        | some body => exact hbody body hclause u
      · split
        · exact ih hrest true last
        · exact Cut.pure

end Parts

/-! ### The simulation -/

/-- Evaluations that cut what trees mean. -/
structure Simulates (tree : EvaluationContext → Node → Running W Ran Flow)
    (mean : Bool → Node → Running W Placed Flow) : Prop where
  cut : ∀ context node, Plain node → (context.exit = true ∨ context.forkedAsThisCommand = false) →
    (context.exit = true → EndsInOneClause node) → ∀ s,
      CutAt (tree context node s) (ending context.exit (mean context.tested node) s)
  answers : ∀ tested node, Answers (mean tested node)

namespace Simulates

variable {tree : EvaluationContext → Node → Running W Ran Flow}
  {mean : Bool → Node → Running W Placed Flow}

/-- Inside a construct that goes on behind its parts, no part ends the shell. -/
theorem inside (h : Simulates tree mean) (tested : Bool) {node : Node} (hplain : Plain node)
    (s : Shell W) : CutAt (tree ⟨false, tested, false⟩ node s) (mean tested node s) := by
  have hcut := h.cut ⟨false, tested, false⟩ node hplain (.inr rfl) nofun s
  rw [ending_false] at hcut
  exact hcut

theorem single (h : Simulates tree mean) {node : Node} (hplain : Plain node)
    (hjoins : ∀ context, listJoins context node = ([], node, context))
    (hmean : ∀ tested, listMeaning mean tested node = mean tested node) (tested : Bool)
    (s : Shell W) :
    CutAt (evaluateList tree ⟨false, tested, false⟩ node s) (listMeaning mean tested node s) := by
  rw [evaluateList_single tree (hjoins _), hmean]
  exact h.inside tested hplain s

/-- The left side of a list, with all the left sides in it. -/
theorem leftSide (h : Simulates tree mean) {node : Node} (hplain : Plain node) :
    ∀ tested s, CutAt (evaluateList tree ⟨false, tested, false⟩ node s)
      (listMeaning mean tested node s) := by
  induction hplain with
  | and hleft hright ihleft =>
    intro tested s
    rw [evaluateList_and]
    refine (ihleft true s).taking fun status u => ?_
    split
    · exact h.inside tested hright u
    · exact Cut.pure
  | or hleft hright ihleft =>
    intro tested s
    rw [evaluateList_or]
    refine (ihleft true s).taking fun status u => ?_
    split
    · exact Cut.pure
    · exact h.inside tested hright u
  | sequence hleft hright ihleft =>
    intro tested s
    rw [evaluateList_sequence]
    exact (ihleft tested s).taking fun status u => h.inside tested hright u
  | command assignments arguments redirections =>
    exact h.single (.command assignments arguments redirections) (fun _ => rfl) fun _ => rfl
  | group hcommand => exact h.single (.group hcommand) (fun _ => rfl) fun _ => rfl
  | ifCommand hcondition hthen helse =>
    exact h.single (.ifCommand hcondition hthen helse) (fun _ => rfl) fun _ => rfl
  | whileCommand hcondition hbody =>
    exact h.single (.whileCommand hcondition hbody) (fun _ => rfl) fun _ => rfl
  | untilCommand hcondition hbody =>
    exact h.single (.untilCommand hcondition hbody) (fun _ => rfl) fun _ => rfl
  | forCommand words name hbody =>
    exact h.single (.forCommand words name hbody) (fun _ => rfl) fun _ => rfl
  | caseCommand word hbodies =>
    exact h.single (.caseCommand word hbodies) (fun _ => rfl) fun _ => rfl
  | not hcommand => exact h.single (.not hcommand) (fun _ => rfl) fun _ => rfl

section Construct

variable {options : Options} {context : EvaluationContext}

/-- A construct that ends in a status it computes, or in a part whose status it takes. -/
theorem branch (h : Simulates tree mean) {node : Node} (hplain : Plain node)
    (hcontext : context.exit = true ∨ context.forkedAsThisCommand = false)
    (hends : context.exit = true → EndsInOneClause node) (s : Shell W) :
    CutAt ((tree context node >>= settle options context false) s)
      (ending context.exit (mean context.tested node >>= answering) s) :=
  CutAt.resettle (h.answers _ _) (h.cut context node hplain hcontext hends s)

end Construct

end Simulates

section Body

variable {host : Host W} {options : Options} {context : EvaluationContext}
  {tree : EvaluationContext → Node → Running W Ran Flow}
  {mean : Bool → Node → Running W Placed Flow}

/-- A list ends in its last side, or in the status that side is not asked for behind. -/
theorem Simulates.listEnd (h : Simulates tree mean) {node : Node} (hplain : Plain node)
    (hcontext : context.exit = true ∨ context.forkedAsThisCommand = false)
    (hends : context.exit = true → EndsInOneClause node)
    (hlist : ∀ context, listJoins context node ≠ ([], node, context)) (s : Shell W) :
    CutAt ((evaluateList tree context node >>= settle options context false) s)
      (ending context.exit (listMeaning mean context.tested node >>= answering) s) := by
  have hright : ∀ right, Plain right → (context.exit = true → EndsInOneClause right) → ∀ u,
      CutAt ((tree context right >>= settle options context false) u)
        (ending context.exit (mean context.tested right >>= answering) u) :=
    fun right hplain hends u => h.branch hplain hcontext hends u
  cases hplain with
  | and hleft hr =>
    have hlast := hright _ hr fun hexit => by cases hends hexit; assumption
    rw [evaluateList_and]
    refine CutAt.thenSettle (h.leftSide hleft true s) fun status u => ?_
    split
    · exact hlast u
    · exact CutAt.settle_done status u
  | or hleft hr =>
    have hlast := hright _ hr fun hexit => by cases hends hexit; assumption
    rw [evaluateList_or]
    refine CutAt.thenSettle (h.leftSide hleft true s) fun status u => ?_
    split
    · exact CutAt.settle_done status u
    · exact hlast u
  | sequence hleft hr =>
    have hlast := hright _ hr fun hexit => by cases hends hexit; assumption
    rw [evaluateList_sequence]
    exact CutAt.thenSettle (h.leftSide hleft context.tested s) fun status u => hlast u
  | _ => exact absurd rfl (hlist context)

/-- What the evaluator does behind a command that came to a status. -/
def afterCommand (host : Host W) (options : Options) (context : EvaluationContext)
    (status : ExitStatus) : Running W Ran Flow := do
  onWorld (Run.modify (host.setPipelineStatus status))
  settle options context true (.done status)

/-- What its meaning is from there on. -/
def afterMeaning (host : Host W) (exits : Bool) (status : ExitStatus) : Running W Placed Flow :=
  ending exits (onWorld (Run.modify (host.setPipelineStatus status)) >>= fun _ =>
    answering (.done status))

theorem afterCommand_eq (status : ExitStatus) (s : Shell W) :
    afterCommand host options context status s =
      ⟨[], .done (if options.aborts context true status || context.exit then .end_
        else .done status) ⟨host.setPipelineStatus status s.world, status, s.evaluationDepth⟩⟩ := by
  have h : settle options context true (.done status)
      ⟨host.setPipelineStatus status s.world, s.status, s.evaluationDepth⟩ = _ :=
    settle_done true status _
  exact h

theorem afterMeaning_eq (exits : Bool) (status : ExitStatus) (s : Shell W) :
    afterMeaning host exits status s =
      ⟨[], .done (if exits then .end_ else .done status)
        ⟨host.setPipelineStatus status s.world, status, s.evaluationDepth⟩⟩ := rfl

/-- The event of a command is what `-e` reads. -/
theorem CutAt.told (herrexit : options.errexit = true)
    (hcontext : context.exit = true ∨ context.forkedAsThisCommand = false) (command : Node)
    (status : ExitStatus) (s : Shell W) :
    CutAt ((Traced.tell ⟨command, .done status⟩ >>= fun _ =>
        afterCommand host options context status) s)
      ((Traced.tell ⟨⟨command, .done status⟩, context.tested⟩ >>= fun _ =>
        afterMeaning host context.exit status) s) := by
  have hm : (Traced.tell ⟨command, .done status⟩ >>= fun _ =>
      afterCommand host options context status) s =
        ⟨[⟨command, .done status⟩], (afterCommand host options context status s).outcome⟩ := by
    rw [Traced.bind_apply]
    simp only [Traced.tell, afterCommand_eq, List.append_nil]
  have ht : (Traced.tell ⟨⟨command, .done status⟩, context.tested⟩ >>= fun _ =>
      afterMeaning host context.exit status) s =
        ⟨[⟨⟨command, .done status⟩, context.tested⟩],
          (afterMeaning host context.exit status s).outcome⟩ := rfl
  rw [hm, ht, afterCommand_eq, afterMeaning_eq]
  cases hfails : Placed.fails ⟨⟨command, .done status⟩, context.tested⟩ with
  | true =>
    have hfails' : (!context.tested && !status.success) = true := hfails
    have haborts : (options.aborts context true status || context.exit) = true := by
      unfold Options.aborts
      simp only [Bool.and_eq_true] at hfails'
      rcases hcontext with hexit | hforked
      · rw [hexit, Bool.or_true]
      · simp [hfails'.1, hfails'.2, hforked, herrexit]
    refine .stopped [⟨⟨command, .done status⟩, context.tested⟩]
      ⟨host.setPipelineStatus status s.world, status, s.evaluationDepth⟩ ?_ rfl ?_
    · exact if_pos hfails
    · rw [if_pos haborts]
  | false =>
    have hfails' : (!context.tested && !status.success) = false := hfails
    have haborts : options.aborts context true status = false := by
      unfold Options.aborts
      cases htested : context.tested <;> cases hsuccess : status.success <;>
        simp_all
    refine .whole ?_ rfl ?_
    · simp [upTo, hfails]
    · rw [haborts, Bool.false_or]

/-- The command itself: what it tells is what `-e` reads. -/
theorem Simulates.command (h : Simulates tree mean) (herrexit : options.errexit = true)
    (hcontext : context.exit = true ∨ context.forkedAsThisCommand = false)
    (hbodies : ∀ command status world body world',
      host.command command status world = .done (.function body) world' → Plain body)
    (command : Node) (s : Shell W) :
    CutAt ((evaluateCommand host tree context command >>=
        taking (afterCommand host options context)) s)
      (ending context.exit ((commandMeaning host mean context.tested command >>=
        taking fun status => do
          onWorld (Run.modify (host.setPipelineStatus status))
          pure (.done status)) >>= answering) s) := by
  have hmean : ending context.exit ((commandMeaning host mean context.tested command >>=
        taking fun status => do
          onWorld (Run.modify (host.setPipelineStatus status))
          pure (.done status)) >>= answering) =
      commandMeaning host mean context.tested command >>=
        taking (afterMeaning host context.exit) := by
    have hbind : (commandMeaning host mean context.tested command >>=
        taking fun status => do
          onWorld (Run.modify (host.setPipelineStatus status))
          pure (.done status)) >>= answering =
        commandMeaning host mean context.tested command >>= taking fun status =>
          (onWorld (Run.modify (host.setPipelineStatus status)) >>= fun _ =>
            (pure (.done status) : Running W Placed Flow)) >>= answering :=
      taking_bind _ _ _
    rw [hbind, ending_taking]
    rfl
  rw [hmean]
  unfold evaluateCommand commandMeaning
  simp only [Traced.bind_assoc]
  refine Cut.silently_bind _ fun shell u hu => ?_
  refine CutAt.onWorld_bind _ fun resolved world v hresolved => ?_
  cases resolved with
  | ran flow =>
    cases flow with
    | done status => exact CutAt.told herrexit hcontext command status v
    | _ => exact .whole rfl rfl rfl
  | function body =>
    have hplain : Plain body := hbodies _ _ _ _ _ hresolved
    have hcall : CutAt (evaluateFunction host (tree context.testedOnly body) v)
        (evaluateFunction host (mean context.tested body) v) :=
      CutAt.function fun u => h.inside context.tested hplain u
    have hcode := taking_bind (evaluateFunction host (tree context.testedOnly body))
      (fun status => Traced.tell ⟨command, .done status⟩ >>= fun _ => pure (.done status))
      (afterCommand host options context)
    have hsem := taking_bind (evaluateFunction host (mean context.tested body))
      (fun status => Traced.tell ⟨⟨command, .done status⟩, context.tested⟩ >>= fun _ =>
        pure (.done status)) (afterMeaning host context.exit)
    simp only
    rw [hcode, hsem]
    exact hcall.taking fun status w => CutAt.told herrexit hcontext command status w

/-- The body of a clause; a clause without one leaves the status. -/
def clauseBody (run : Node → Running W ι Flow) (clause : CaseClause) (status : ExitStatus) :
    Running W ι Flow :=
  match clause.body with
  | none => pure (.done status)
  | some body => run body

theorem evaluateClauses_one (run : Node → Running W ι Flow) (word : Bytes) {clause : CaseClause}
    (hone : clause.fallthrough = false) (clauses : List CaseClause) (fallthrough : Bool)
    (status : ExitStatus) :
    evaluateClauses host run word (clause :: clauses) fallthrough status =
      onWorld (if fallthrough then pure true else selects host word clause.patterns) >>=
        fun selected => if selected then clauseBody run clause status
          else evaluateClauses host run word clauses fallthrough status := by
  rw [evaluateClauses]
  congr 1
  funext selected
  split
  · simp only [hone, Bool.false_eq_true, if_false]
    exact taking_done _
  · rfl

/-- A `case` ends in its one clause. -/
theorem Simulates.clauseEnd (h : Simulates tree mean) {clauses : List CaseClause}
    (hcontext : context.exit = true ∨ context.forkedAsThisCommand = false)
    (hbodies : ∀ clause ∈ clauses, ∀ body ∈ clause.body, Plain body)
    (hone : ∀ clause ∈ clauses, clause.fallthrough = false)
    (hends : ∀ clause ∈ clauses, ∀ body ∈ clause.body, EndsInOneClause body)
    (word : Bytes) (status : ExitStatus) (s : Shell W) :
    CutAt ((evaluateClauses host (tree context) word clauses false status >>=
        settle options context false) s)
      (ending context.exit (evaluateClauses host (mean context.tested) word clauses false status >>=
        answering) s) := by
  induction clauses generalizing status s with
  | nil => exact CutAt.settle_done status s
  | cons clause clauses ih =>
    obtain ⟨hbody, hbodies⟩ := List.forall_mem_cons.mp hbodies
    obtain ⟨hone, hothers⟩ := List.forall_mem_cons.mp hone
    obtain ⟨hend, hends⟩ := List.forall_mem_cons.mp hends
    rw [evaluateClauses_one _ _ hone, evaluateClauses_one _ _ hone, Traced.bind_assoc,
      Traced.bind_assoc, ending, Traced.bind_assoc]
    refine CutAt.onWorld_bind _ fun selected _ u _ => ?_
    cases selected with
    | false => exact ih hbodies hothers hends status u
    | true =>
      simp only [if_true]
      unfold clauseBody
      cases hclause : clause.body with
      | none => exact CutAt.settle_done status u
      | some body =>
        exact h.branch (hbody body hclause) hcontext (fun _ => hend body hclause) u

theorem Simulates.caseEnd (h : Simulates tree mean) (word : Node) {clauses : List CaseClause}
    (hcontext : context.exit = true ∨ context.forkedAsThisCommand = false)
    (hbodies : ∀ clause ∈ clauses, ∀ body ∈ clause.body, Plain body)
    (hends : context.exit = true → EndsInOneClause (.caseCommand word clauses)) (s : Shell W) :
    CutAt ((evaluateCase host (tree context) word clauses >>= settle options context false) s)
      (ending context.exit (evaluateCase host (mean context.tested) word clauses >>=
        answering) s) := by
  unfold evaluateCase
  by_cases hexit : context.exit = true
  · cases hends hexit with
    | caseCommand _ hone hlast =>
      rw [Traced.bind_assoc, Traced.bind_assoc, ending, Traced.bind_assoc]
      refine CutAt.onWorld_bind _ fun text _ u _ => ?_
      exact h.clauseEnd hcontext hbodies hone hlast text ExitStatus.ofSuccess u
  · have hforked : context.forkedAsThisCommand = false := hcontext.resolve_left hexit
    have hinside : context = ⟨false, context.tested, false⟩ := by
      obtain ⟨exit, tested, forked⟩ := context
      obtain rfl : exit = false := Bool.eq_false_iff.mpr hexit
      obtain rfl : forked = false := hforked
      rfl
    refine CutAt.settle ?_
    refine CutAt.onWorld_bind _ fun text _ u _ => ?_
    refine CutAt.clauses text (fun clause hclause body hbody v => ?_) false _
    rw [hinside]
    exact h.inside context.tested (hbodies clause hclause body hbody) v

/-- One evaluation of a node, where those it calls cut what their nodes mean. -/
theorem Simulates.body (h : Simulates tree mean) (herrexit : options.errexit = true)
    (hexec : options.noExec = false)
    (hfunctions : ∀ command status world body world',
      host.command command status world = .done (.function body) world' → Plain body)
    (turns : ℕ) {node : Node} (hplain : Plain node)
    (hcontext : context.exit = true ∨ context.forkedAsThisCommand = false)
    (hends : context.exit = true → EndsInOneClause node) (s : Shell W) :
    CutAt (evaluateTreeBody host options tree turns context node s)
      (ending context.exit (meaningBody host mean turns context.tested node) s) := by
  unfold evaluateTreeBody
  rw [if_neg (by rw [hexec]; exact Bool.false_ne_true)]
  cases hplain with
  | command assignments arguments redirections =>
    exact h.command herrexit hcontext hfunctions _ s
  | group hcommand => exact CutAt.settle (h.inside context.tested hcommand s)
  | and hleft hright => exact h.listEnd (.and hleft hright) hcontext hends nofun s
  | or hleft hright => exact h.listEnd (.or hleft hright) hcontext hends nofun s
  | sequence hleft hright => exact h.listEnd (.sequence hleft hright) hcontext hends nofun s
  | ifCommand hcondition hthen helse =>
    refine CutAt.thenSettle (h.inside true hcondition s) fun status u => ?_
    split
    · exact h.branch hthen hcontext (fun hexit => by cases hends hexit; assumption) u
    · split
      · next branch =>
        refine h.branch (helse branch rfl) hcontext (fun hexit => ?_) u
        cases hends hexit with
        | ifCommand _ _ hlast => exact hlast branch rfl
      · exact CutAt.settle_done _ u
  | whileCommand hcondition hbody =>
    exact CutAt.settle (CutAt.loop false (h.inside true hcondition)
      (h.inside context.tested hbody) turns _)
  | untilCommand hcondition hbody =>
    exact CutAt.settle (CutAt.loop true (h.inside true hcondition)
      (h.inside context.tested hbody) turns _)
  | forCommand words name hbody =>
    refine CutAt.settle (CutAt.onWorld_bind _ fun fields _ u _ => ?_)
    exact CutAt.forLoop name (h.inside context.tested hbody) fields _
  | caseCommand word hbodies => exact h.caseEnd word hcontext hbodies hends s
  | not hcommand =>
    exact CutAt.thenSettle (h.inside true hcommand s) fun status u => CutAt.settle_done _ u

end Body

/-! ### Where the shell ends -/

section Ends

variable (host : Host W) (options : Options)

theorem simulates (herrexit : options.errexit = true) (hexec : options.noExec = false)
    (hfunctions : ∀ command status world body world',
      host.command command status world = .done (.function body) world' → Plain body) (n : ℕ) :
    Simulates (evaluateTree host options n) (meaning host n) := by
  induction n with
  | zero =>
    exact ⟨fun _ _ _ _ _ _ => Cut.of_silent rfl rfl rfl, fun _ _ => answers_meaning host 0 _ _⟩
  | succ n ih =>
    refine ⟨fun context node hplain hcontext hends s => ?_, fun _ _ => answers_meaning host _ _ _⟩
    exact ih.body herrexit hexec hfunctions n hplain hcontext hends s

/-- **`-e` ends the shell at the first command or call that fails untested**, and the
    commands up to it are those of the tree's meaning; where there is none, the
    evaluation is the meaning. -/
theorem errexit_ends (herrexit : options.errexit = true) (hexec : options.noExec = false)
    (hfunctions : ∀ command status world body world',
      host.command command status world = .done (.function body) world' → Plain body)
    (n : ℕ) (context : EvaluationContext) (huntested : context.tested = false)
    (hcontext : context.exit = true ∨ context.forkedAsThisCommand = false) (node : Node)
    (hplain : Plain node) (hends : context.exit = true → EndsInOneClause node) (shell : Shell W) :
    let run := evaluateTree host options n context node shell
    let means := ending context.exit (meaning host n false node) shell
    (∀ before command rest, means.events = before ++ command :: rest → command.fails = true →
      (∀ other ∈ before, other.fails = false) →
        run.events = (before ++ [command]).map Placed.ran ∧
          ∃ last, run.outcome = .done .end_ last) ∧
    ((∀ command ∈ means.events, command.fails = false) →
      run.events = means.events.map Placed.ran ∧ run.outcome = means.outcome) := by
  have hcut := (simulates host options herrexit hexec hfunctions n).cut context node hplain hcontext
    hends shell
  rw [huntested] at hcut
  constructor
  · intro before command rest hevents hfails hbefore
    have hfirst := upTo_first hfails hbefore rest
    rw [← hevents] at hfirst
    cases hcut with
    | stopped before' last hbefore' hevents' houtcome =>
      cases hfirst.symm.trans hbefore'
      exact ⟨hevents', last, houtcome⟩
    | whole hnone _ _ => cases hfirst.symm.trans hnone
  · intro hnone
    have hfirst := upTo_none hnone
    cases hcut with
    | stopped before last hbefore _ _ => cases hfirst.symm.trans hbefore
    | whole _ hevents houtcome => exact ⟨hevents, houtcome⟩

end Ends

/-! ### Calls -/

/-- A shell in which `f` is a function, every other command succeeds and nothing is
    expanded. -/
def callingHost (body : Node) : Host Unit where
  command
    | .command _ [.word [.text name _]] _, _ =>
      if name = text "f" then pure (.function body) else pure (.ran (.done ExitStatus.ofSuccess))
    | _, _ => pure (.ran (.done ExitStatus.ofSuccess))
  leave _ world := world
  setPipelineStatus _ world := world
  loopFields _ := pure []
  assignLoopVariable _ _ := pure ()
  caseWord _ := pure []
  casePatternMatches _ _ := pure false
  diagnosticLine _ := 1
  other _ _ := pure (false, .done ExitStatus.ofSuccess)

theorem callingHost_plain {body : Node} (hbody : Plain body) (command : Node) (status : ExitStatus)
    (world : Unit) (called : Node) (world' : Unit)
    (h : (callingHost body).command command status world = .done (.function called) world') :
    Plain called := by
  simp only [callingHost] at h
  split at h
  · split at h
    · cases h; exact hbody
    · cases h
  · cases h

def named (name : Bytes) : Node := .command [] [.word [.text name false]] []

/-- `true` and `f`. -/
def succeeds : Node := named (text "true")

def call : Node := named (text "f")

def shellAt (depth : ℕ) : Shell Unit := ⟨(), ExitStatus.ofSuccess, depth⟩

/-- `f() { ! true; }; f; true`: the call fails untested. -/
theorem errexit_ends_call :
    (evaluateTree (callingHost (.not succeeds)) ⟨true, false⟩ 4 .plain (.sequence call succeeds)
      (shellAt 0)).events = [⟨succeeds, .done 0⟩, ⟨call, .done 1⟩] := by
  have h := errexit_ends (callingHost (.not succeeds)) ⟨true, false⟩ rfl rfl
    (callingHost_plain (.not (.command _ _ _))) 4 .plain rfl (.inr rfl) (.sequence call succeeds)
    (.sequence (.command _ _ _) (.command _ _ _)) nofun (shellAt 0)
  exact (h.1 [⟨⟨succeeds, .done 0⟩, true⟩] ⟨⟨call, .done 1⟩, false⟩ _ rfl rfl (by decide)).1

/-- A call that fails ends the shell though no simple command does, and a call that
    nests too deep is an error though all that it would run succeeds. -/
theorem not_errexit_ends :
    evaluateTree (callingHost (.not succeeds)) ⟨true, false⟩ 4 .plain (.sequence call succeeds)
        (shellAt 0) =
      ⟨[⟨succeeds, .done 0⟩, ⟨call, .done 1⟩], .done .end_ ⟨(), 1, 0⟩⟩ ∧
    evaluateTree (callingHost succeeds) ⟨true, false⟩ 4 .plain call (shellAt maxEvaluationDepth) =
      ⟨[], .failed (shellError 1 recursionMessage) (shellAt maxEvaluationDepth)⟩ ∧
    meaning (callingHost succeeds) 4 false call (shellAt 0) =
      ⟨[⟨⟨succeeds, .done 0⟩, false⟩, ⟨⟨call, .done 0⟩, false⟩], .done (.done 0) (shellAt 0)⟩ :=
  ⟨rfl, rfl, rfl⟩

end Nsh.Evaluation
