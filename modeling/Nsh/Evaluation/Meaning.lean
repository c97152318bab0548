import Nsh.Evaluation.Tree

/-!
# What a tree means

The commands of a tree, run as the shell language says, with no thought of `-e`.  Each
is told with whether its status is tested: whether it, or a construct or call around
it, is the condition of an `if` or a loop, stands at the left of `&&` or `||`, or
behind `!`.
-/

namespace Nsh.Evaluation

open Nodes

variable {W : Type}

/-- A command that was run, and whether its status is tested around it. -/
structure Placed where
  ran : Ran
  tested : Bool

/-- What `-e` ends the shell at. -/
def Placed.fails (placed : Placed) : Bool :=
  match placed.ran.flow with
  | .done status => !placed.tested && !status.success
  | _ => false

section Meaning

variable (host : Host W)

/-- A status is what `$?` is from there on. -/
def answering : Flow → Running W Placed Flow :=
  taking fun status => do
    setStatus status
    pure (.done status)

def commandMeaning (tree : Bool → Node → Running W Placed Flow) (tested : Bool)
    (command : Node) : Running W Placed Flow := do
  let shell ← Traced.silently Run.get
  let resolved ← onWorld (host.command command shell.status)
  match resolved with
  | .ran flow => do
    Traced.tell ⟨⟨command, flow⟩, tested⟩
    pure flow
  | .function body => do
    let flow ← evaluateFunction host (tree tested body)
    taking (fun status => do
      Traced.tell ⟨⟨command, .done status⟩, tested⟩
      pure (.done status)) flow

/-- The sides of a list, from the left. -/
def listMeaning (tree : Bool → Node → Running W Placed Flow) (tested : Bool) :
    Node → Running W Placed Flow
  | .and left right => listMeaning tree true left >>= taking fun status =>
    if status.success then tree tested right else pure (.done status)
  | .or left right => listMeaning tree true left >>= taking fun status =>
    if status.success then pure (.done status) else tree tested right
  | .sequence left right => listMeaning tree tested left >>= taking fun _ => tree tested right
  | node => tree tested node

def meaningBody (tree : Bool → Node → Running W Placed Flow) (turns : ℕ) (tested : Bool)
    (node : Node) : Running W Placed Flow :=
  (match node with
    | .command assignments arguments redirections =>
      commandMeaning host tree tested (.command assignments arguments redirections) >>=
        taking fun status => do
          onWorld (Run.modify (host.setPipelineStatus status))
          pure (.done status)
    | .group command [] => tree tested command
    | .and _ _ | .or _ _ | .sequence _ _ => listMeaning tree tested node
    | .ifCommand condition thenBranch elseBranch =>
      tree true condition >>= taking fun status =>
        if status.success then tree tested thenBranch
        else match elseBranch with
          | some branch => tree tested branch
          | none => pure (.done ExitStatus.ofSuccess)
    | .whileCommand condition body =>
      evaluateLoopFrom (tree true condition) (tree tested body) false turns ExitStatus.ofSuccess
    | .untilCommand condition body =>
      evaluateLoopFrom (tree true condition) (tree tested body) true turns ExitStatus.ofSuccess
    | .forCommand words body name => evaluateFor host words name (tree tested body)
    | .caseCommand word clauses => evaluateCase host (tree tested) word clauses
    | .not command => tree true command >>= taking fun status =>
        pure (.done (if status.success then ExitStatus.ofFailure else ExitStatus.ofSuccess))
    | node => do
      let (_, flow) ← Traced.silently (host.other ⟨false, tested, false⟩ node)
      pure flow) >>= answering

/-- What a tree means, with at most `n` constructs open at once and as many turns of each
    loop. -/
def meaning : ℕ → Bool → Node → Running W Placed Flow
  | 0 => fun _ _ => Traced.unfinished
  | n + 1 => meaningBody host (meaning n) n

/-- An evaluation that ends the shell leaves it with its status. -/
def ending {ι : Type} (exits : Bool) (m : Running W ι Flow) : Running W ι Flow :=
  m >>= taking fun status => pure (if exits then .end_ else .done status)

end Meaning

/-! ### The trees of the language -/

/-- The trees made of simple commands, `;`, `&&`, `||`, `!`, `if`, `while`, `until`, `for`,
    `case` and brace groups without redirections. -/
inductive Plain : Node → Prop where
  | command (assignments arguments : List Node) (redirections : List Redirection) :
      Plain (.command assignments arguments redirections)
  | group {command : Node} (h : Plain command) : Plain (.group command [])
  | and {left right : Node} (hleft : Plain left) (hright : Plain right) : Plain (.and left right)
  | or {left right : Node} (hleft : Plain left) (hright : Plain right) : Plain (.or left right)
  | sequence {left right : Node} (hleft : Plain left) (hright : Plain right) :
      Plain (.sequence left right)
  | ifCommand {condition thenBranch : Node} {elseBranch : Option Node}
      (hcondition : Plain condition) (hthen : Plain thenBranch)
      (helse : ∀ branch ∈ elseBranch, Plain branch) :
      Plain (.ifCommand condition thenBranch elseBranch)
  | whileCommand {condition body : Node} (hcondition : Plain condition) (hbody : Plain body) :
      Plain (.whileCommand condition body)
  | untilCommand {condition body : Node} (hcondition : Plain condition) (hbody : Plain body) :
      Plain (.untilCommand condition body)
  | forCommand (words : List Node) {body : Node} (name : Bytes) (hbody : Plain body) :
      Plain (.forCommand words body name)
  | caseCommand (word : Node) {clauses : List CaseClause}
      (hbodies : ∀ clause ∈ clauses, ∀ body ∈ clause.body, Plain body) :
      Plain (.caseCommand word clauses)
  | not {command : Node} (h : Plain command) : Plain (.not command)

/-- No clause falls through of a `case` that an evaluation of the node ends in. -/
inductive EndsInOneClause : Node → Prop where
  | command (assignments arguments : List Node) (redirections : List Redirection) :
      EndsInOneClause (.command assignments arguments redirections)
  | group (command : Node) : EndsInOneClause (.group command [])
  | and (left : Node) {right : Node} (h : EndsInOneClause right) :
      EndsInOneClause (.and left right)
  | or (left : Node) {right : Node} (h : EndsInOneClause right) : EndsInOneClause (.or left right)
  | sequence (left : Node) {right : Node} (h : EndsInOneClause right) :
      EndsInOneClause (.sequence left right)
  | ifCommand (condition : Node) {thenBranch : Node} {elseBranch : Option Node}
      (hthen : EndsInOneClause thenBranch)
      (helse : ∀ branch ∈ elseBranch, EndsInOneClause branch) :
      EndsInOneClause (.ifCommand condition thenBranch elseBranch)
  | whileCommand (condition body : Node) : EndsInOneClause (.whileCommand condition body)
  | untilCommand (condition body : Node) : EndsInOneClause (.untilCommand condition body)
  | forCommand (words : List Node) (body : Node) (name : Bytes) :
      EndsInOneClause (.forCommand words body name)
  | caseCommand (word : Node) {clauses : List CaseClause}
      (hone : ∀ clause ∈ clauses, clause.fallthrough = false)
      (hbodies : ∀ clause ∈ clauses, ∀ body ∈ clause.body, EndsInOneClause body) :
      EndsInOneClause (.caseCommand word clauses)
  | not (command : Node) : EndsInOneClause (.not command)

end Nsh.Evaluation
