import Nsh.Lib.Traced
import Nsh.Nodes.Tree
import Nsh.Shell.Error
import Nsh.Shell.Flow

/-!
# Evaluation of a tree

`evaluateTree` with what it calls to run lists, loops, `case` and function calls,
while no trap is set.  What a simple command does, and what expanding a word and
matching a pattern come to, is the `Host`'s; so are the nodes that run in a process
of their own or that only Bash has.  A command that was run is told as an event.
-/

namespace Nsh.Evaluation

open Nodes

/-- How the caller intends an evaluation to return. -/
structure EvaluationContext where
  exit : Bool
  tested : Bool
  /-- The child this runs in was forked for this command. -/
  forkedAsThisCommand : Bool
deriving DecidableEq, Repr

namespace EvaluationContext

/-- `EvaluationContext::DEFAULT`. -/
def plain : EvaluationContext := ⟨false, false, false⟩

/-- `EvaluationContext::EXITING`. -/
def exiting : EvaluationContext := ⟨true, false, false⟩

/-- `EvaluationContext::TESTED`. -/
def underTest : EvaluationContext := ⟨false, true, false⟩

def testedOnly (context : EvaluationContext) : EvaluationContext := ⟨false, context.tested, false⟩

end EvaluationContext

/-- The state of the shell: what the commands see and change, `$?`, and how many
    calls, dot scripts and `eval`s are open. -/
structure Shell (W : Type) where
  world : W
  status : ExitStatus
  evaluationDepth : ℕ

/-- `-e` and `-n`. -/
structure Options where
  errexit : Bool
  noExec : Bool
deriving DecidableEq, Repr

/-- What a simple command turned out to be. -/
inductive Resolved where
  /-- A built-in, an external command or none; it has been run. -/
  | ran (flow : Flow)
  /-- A function, whose call has been prepared. -/
  | function (body : Node)

/-- A simple command that was run, and what it came to. -/
structure Ran where
  command : Node
  flow : Flow

/-- What the evaluator is given. -/
structure Host (W : Type) where
  /-- Expand a simple command, find it and run it unless it is a function. -/
  command : Node → ExitStatus → Run W Error Resolved
  /-- What a call does to the caller's state when it is over, given what stood before it. -/
  leave : W → W → W
  /-- `special::set_pipeline_status`. -/
  setPipelineStatus : ExitStatus → W → W
  /-- The fields a `for` loop runs over. -/
  loopFields : List Node → Run W Error (List Bytes)
  assignLoopVariable : Bytes → Bytes → Run W Error Unit
  caseWord : Node → Run W Error Bytes
  casePatternMatches : Node → Bytes → Run W Error Bool
  diagnosticLine : W → Int
  /-- The nodes that are not evaluated here, and whether `-e` reads their status. -/
  other : EvaluationContext → Node → Run (Shell W) Error (Bool × Flow)

/-- How deep evaluation may nest. -/
def maxEvaluationDepth : ℕ := 512

/-- What a call answers that would nest deeper. -/
def recursionMessage : Bytes := text "Maximum function recursion depth (512) reached"

/-! ### Flows, over any state -/

section Flows

variable {σ ι : Type}

/-- `flow!`: take the status, or return the control to the caller. -/
def taking (status : ExitStatus → Traced σ Error ι Flow) : Flow → Traced σ Error ι Flow
  | .done s => status s
  | control => pure control

/-- A `return` goes no further than the call. -/
def callFlow : Flow → Flow
  | .returning status _ => .done status
  | control => control

/-- A call of a function, which may not nest too deep. -/
def calling (depth : σ → ℕ) (diagnosticLine : σ → Int) (call : σ → Traced σ Error ι Flow) :
    Traced σ Error ι Flow := do
  let shell ← Traced.silently Run.get
  if depth shell ≥ maxEvaluationDepth then
    Traced.silently (Run.fail (shellError (diagnosticLine shell) recursionMessage))
  else do
    let flow ← call shell
    pure (callFlow flow)

inductive ListJoin where
  | and
  | or
  | sequence
deriving DecidableEq, Repr

def ListJoin.shortCircuits (join : ListJoin) (status : ExitStatus) : Bool :=
  match join with
  | .and => !status.success
  | .or => status.success
  | .sequence => false

/-- The loop of `evaluate_list`, over what stands behind each join. -/
def evaluateJoins {κ : Type} (element : κ → Traced σ Error ι Flow) :
    List (ListJoin × κ) → ExitStatus → Traced σ Error ι Flow
  | [], status => pure (.done status)
  | (join, next) :: joins, status =>
    if join.shortCircuits status then evaluateJoins element joins status
    else element next >>= taking (evaluateJoins element joins)

end Flows

section Told

variable {W ι : Type}

/-- A part of an evaluation, which tells events. -/
abbrev Running (W ι α : Type) := Traced (Shell W) Error ι α

def onWorld {α : Type} (m : Run W Error α) : Running W ι α :=
  Traced.silently (Run.within Shell.world (fun world shell => { shell with world := world }) m)

def setStatus (status : ExitStatus) : Running W ι Unit :=
  Traced.silently (Run.modify fun shell => { shell with status := status })

/-- What a loop does with what its condition or its body came to. -/
inductive LoopStep where
  | value (status : ExitStatus)
  | breakLoop (status : ExitStatus)
  | continueLoop (status : ExitStatus)
  | propagate (flow : Flow)

def catchOneLoop : Flow → LoopStep
  | .done status => .value status
  | .breakLoops 1 status => .breakLoop status
  | .continueLoop 1 status => .continueLoop status
  | .breakLoops levels status => .propagate (.breakLoops (levels - 1) status)
  | .continueLoop levels status => .propagate (.continueLoop (levels - 1) status)
  | control => .propagate control

end Told

section Evaluator

variable {W : Type} (host : Host W) (options : Options)

/-! ### Calls -/

/-- `evaluate_function`: the body runs one deeper, and the caller's state is put back
    however it ends. -/
def evaluateFunction {ι : Type} (run : Running W ι Flow) : Running W ι Flow :=
  calling Shell.evaluationDepth (fun shell => host.diagnosticLine shell.world) fun shell => do
    Traced.silently (Run.modify fun shell =>
      { shell with evaluationDepth := shell.evaluationDepth + 1 })
    run.leaving fun before after =>
      { after with
        world := host.leave shell.world after.world
        evaluationDepth := before.evaluationDepth - 1 }

/-- A call is told when it came to a status; a command that was run is told in any case. -/
def evaluateCommand (tree : EvaluationContext → Node → Running W Ran Flow)
    (context : EvaluationContext) (command : Node) : Running W Ran Flow := do
  let shell ← Traced.silently Run.get
  let resolved ← onWorld (host.command command shell.status)
  match resolved with
  | .ran flow => do
    Traced.tell ⟨command, flow⟩
    pure flow
  | .function body => do
    let flow ← evaluateFunction host (tree context.testedOnly body)
    taking (fun status => do
      Traced.tell ⟨command, .done status⟩
      pure (.done status)) flow

/-! ### Lists -/

/-- The joins of a list from its last to its first, each with the element at its right
    and the context that runs in, and the element the spine ends at. -/
def listJoins (context : EvaluationContext) : Node →
    List (ListJoin × Node × EvaluationContext) × Node × EvaluationContext
  | .and left right =>
    let (joins, first) := listJoins .underTest left
    ((.and, right, context) :: joins, first)
  | .or left right =>
    let (joins, first) := listJoins .underTest left
    ((.or, right, context) :: joins, first)
  | .sequence left right =>
    let (joins, first) := listJoins context.testedOnly left
    ((.sequence, right, context) :: joins, first)
  | node => ([], node, context)

def evaluateList {ι : Type} (tree : EvaluationContext → Node → Running W ι Flow)
    (context : EvaluationContext) (node : Node) : Running W ι Flow :=
  let (joins, element, elementContext) := listJoins context node
  tree elementContext element >>=
    taking (evaluateJoins (fun (element, context) => tree context element) joins.reverse)

/-! ### Loops and `case` -/

/-- The loop of `evaluate_loop`, in so many turns. -/
def evaluateLoopFrom {ι : Type} (condition body : Running W ι Flow) (until_ : Bool) :
    ℕ → ExitStatus → Running W ι Flow
  | 0, _ => Traced.unfinished
  | turns + 1, status => do
    let flow ← condition
    match catchOneLoop flow with
    | .value tested =>
      if tested.success = until_ then pure (.done status)
      else do
        let flow ← body
        match catchOneLoop flow with
        | .value status | .continueLoop status =>
          evaluateLoopFrom condition body until_ turns status
        | .breakLoop status => pure (.done status)
        | .propagate control => pure control
    | .breakLoop status => pure (.done status)
    | .continueLoop status => evaluateLoopFrom condition body until_ turns status
    | .propagate control => pure control

/-- The loop of `evaluate_for`. -/
def evaluateForFrom {ι : Type} (name : Bytes) (body : Running W ι Flow) :
    List Bytes → ExitStatus → Running W ι Flow
  | [], status => pure (.done status)
  | field :: fields, _ => do
    onWorld (host.assignLoopVariable name field)
    let flow ← body
    match catchOneLoop flow with
    | .value status | .continueLoop status => evaluateForFrom name body fields status
    | .breakLoop status => pure (.done status)
    | .propagate control => pure control

def evaluateFor {ι : Type} (words : List Node) (name : Bytes) (body : Running W ι Flow) :
    Running W ι Flow := do
  let fields ← onWorld (host.loopFields words)
  evaluateForFrom host name body fields ExitStatus.ofSuccess

/-- Whether one of the patterns of a clause matches, asking each until one does. -/
def selects (word : Bytes) : List Node → Run W Error Bool
  | [] => pure false
  | pattern :: patterns => do
    let matched ← host.casePatternMatches pattern word
    if matched then pure true else selects word patterns

/-- The clauses of a `case`; a clause behind one that falls through is run unasked. -/
def evaluateClauses {ι : Type} (run : Node → Running W ι Flow) (word : Bytes) :
    List CaseClause → (fallthrough : Bool) → ExitStatus → Running W ι Flow
  | [], _, status => pure (.done status)
  | clause :: clauses, fallthrough, status => do
    let selected ← onWorld (if fallthrough then pure true else selects host word clause.patterns)
    if selected then
      (match clause.body with
        | none => pure (.done status)
        | some body => run body) >>= taking fun last =>
          if clause.fallthrough then evaluateClauses run word clauses true last
          else pure (.done last)
    else evaluateClauses run word clauses fallthrough status

def evaluateCase {ι : Type} (run : Node → Running W ι Flow) (word : Node)
    (clauses : List CaseClause) : Running W ι Flow := do
  let word ← onWorld (host.caseWord word)
  evaluateClauses host run word clauses false ExitStatus.ofSuccess

/-! ### The tree -/

/-- What the evaluation of a node returns: `-e` reads the status here. -/
def conclude (context : EvaluationContext) (checkExit : Bool) : Running W Ran Flow := do
  let shell ← Traced.silently Run.get
  let actedOnFailure := checkExit && !context.tested && !context.forkedAsThisCommand &&
    !shell.status.success
  if actedOnFailure && options.errexit || context.exit then pure .end_
  else pure (.done shell.status)

/-- Take the status of a construct as the node's. -/
def settle (context : EvaluationContext) (checkExit : Bool) :
    Flow → Running W Ran Flow :=
  taking fun status => do
    setStatus status
    conclude options context checkExit

/-- One evaluation of a node, over the ones it calls. -/
def evaluateTreeBody (tree : EvaluationContext → Node → Running W Ran Flow) (turns : ℕ)
    (context : EvaluationContext) (node : Node) : Running W Ran Flow :=
  if options.noExec then conclude options context false
  else
    match node with
    | .command assignments arguments redirections =>
      evaluateCommand host tree context (.command assignments arguments redirections) >>=
        taking fun status => do
          onWorld (Run.modify (host.setPipelineStatus status))
          settle options context true (.done status)
    | .group command [] => tree context.testedOnly command >>= settle options context false
    | .and _ _ | .or _ _ | .sequence _ _ =>
      evaluateList tree context node >>= settle options context false
    | .ifCommand condition thenBranch elseBranch =>
      (tree .underTest condition >>= taking fun status =>
        if status.success then tree context thenBranch
        else match elseBranch with
          | some branch => tree context branch
          | none => pure (.done ExitStatus.ofSuccess)) >>= settle options context false
    | .whileCommand condition body =>
      evaluateLoopFrom (tree .underTest condition) (tree context.testedOnly body) false turns
        ExitStatus.ofSuccess >>= settle options context false
    | .untilCommand condition body =>
      evaluateLoopFrom (tree .underTest condition) (tree context.testedOnly body) true turns
        ExitStatus.ofSuccess >>= settle options context false
    | .forCommand words body name =>
      evaluateFor host words name (tree context.testedOnly body) >>= settle options context false
    | .caseCommand word clauses =>
      evaluateCase host (tree context) word clauses >>= settle options context false
    | .not command =>
      (tree .underTest command >>= taking fun status =>
        pure (.done (if status.success then ExitStatus.ofFailure else ExitStatus.ofSuccess))) >>=
          settle options context false
    | node => do
      let (checkExit, flow) ← Traced.silently (host.other context node)
      settle options context checkExit flow

/-- `evaluate_tree`, with at most `n` evaluations open at once and as many turns of each
    loop. -/
def evaluateTree : ℕ → EvaluationContext → Node → Running W Ran Flow
  | 0 => fun _ _ => Traced.unfinished
  | n + 1 => evaluateTreeBody host options (evaluateTree n) n

end Evaluator

end Nsh.Evaluation
