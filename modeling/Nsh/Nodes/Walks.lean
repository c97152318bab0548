import Nsh.Lib.Depth
import Nsh.Nodes.Tree

/-!
# How deep the walks over a tree recurse

Each recursive function that walks a syntax tree is an `Activation`, with what it
is called on; `calls` is what it may call in turn, in the order of its body.
Functions on the way that open nothing of their own (`evaluate_for`,
`evaluate_subshell`, `expand_redirections` and their like) are folded into the
call they make.  A printed tree is one that was read, so `Printer::command` writes
its run of tokens.

`inside` says what is directly nested in what, the elements of a list all one
level down, and `nesting` is the depth of that.  A walk is bounded by the nesting
exactly when the lists it takes element by element are
(`bounded_iff_lists_bounded`).
-/

namespace Nsh.Nodes

open Nsh Nsh.Depth

/-- What a walk is on: a node, a word of it or a `[[ … ]]` expression. -/
inductive Syntax
  | node (node : Node)
  | word (word : ParsedWord)
  | conditional (expression : BashConditionalExpr)

/-! ### Nesting -/

def insidePart : WordPart → List Syntax
  | .text _ _ => []
  | .parameter _ operand _ => operand.toList.map .word
  | .command command _ => command.toList.map .node
  | .arithmetic expression _ => [.word expression]

def insideConditional : BashConditionalExpr → List Syntax
  | .empty => []
  | .word word => [.word word]
  | .unary _ operand => [.word operand]
  | .binary left _ right => [.word left, .word right]
  | .not inner | .group inner => [.conditional inner]
  | .and left right | .or left right => [.conditional left, .conditional right]

def insideBash : BashNode → List Syntax
  | .conditional expression => [.conditional expression]
  | .arithmeticCommand _ => []
  | .arithmeticFor _ _ _ body => [.node body]
  | .function _ _ body => [.node body]
  | .arrayAssignment _ subscript _ value => (subscript.toList ++ value.words).map .word
  | .processSubstitution _ body => body.toList.map .node

def redirectionWords (redirections : List Redirection) : List ParsedWord :=
  redirections.flatMap Redirection.words

def insideNode : Node → List Syntax
  | .command assignments arguments redirections =>
    (assignments ++ arguments).map .node ++ (redirectionWords redirections).map .word
  | .pipeline _ commands => commands.map .node
  | .redirect command redirections | .background command redirections
  | .subshell command redirections | .group command redirections =>
    .node command :: (redirectionWords redirections).map .word
  | .and left right | .or left right | .sequence left right =>
    (left.elements ++ [right]).map .node
  | .ifCommand condition thenBranch elseBranch =>
    .node condition :: .node thenBranch :: elseBranch.toList.map .node
  | .whileCommand condition body | .untilCommand condition body => [.node condition, .node body]
  | .forCommand words body _ | .select words body _ => words.map .node ++ [.node body]
  | .timed _ command => command.toList.map .node
  | .caseCommand word clauses =>
    .node word :: clauses.flatMap fun clause => (clause.patterns ++ clause.body.toList).map .node
  | .function _ body => [.node body]
  | .word word => [.word word]
  | .not command => [.node command]
  | .bash node => insideBash node

/-- What is directly nested in a piece of syntax; the elements of a list are all
    directly in it. -/
def inside : Syntax → List Syntax
  | .node node => insideNode node
  | .word word => word.flatMap insidePart
  | .conditional expression => insideConditional expression

def Inside (s t : Syntax) : Prop := t ∈ inside s

/-- The depth of the nesting constructs of a tree. -/
noncomputable def nesting (tree : Node) : ℕ := depth Inside (.node tree)

/-! ### Activations -/

/-- An activation of one of the functions that walk a tree. -/
inductive Activation
  | evaluateInteractiveSequence (node : Node)
  | evaluateTree (node : Node)
  | evaluateList (node : Node)
  | expandArgument (node : Node)
  | expandWord (word : ParsedWord)
  | evaluateConditional (expression : BashConditionalExpr)
  | prehashTree (node : Node)
  | clone (of : Syntax)
  | renderNode (node : Node)
  | renderWord (word : ParsedWord)
  | functionDefinition (body : Node)
  | printList (node : Node)
  | flatten (node : Node)
  | printCommand (node : Node)
  | hereDocuments (node : Node)
  | spelledWord (word : ParsedWord)
  | scriptCommand (node : Node)

def Activation.subject : Activation → Syntax
  | evaluateInteractiveSequence node | evaluateTree node | evaluateList node
  | expandArgument node | prehashTree node | renderNode node | functionDefinition node
  | printList node | flatten node | printCommand node | hereDocuments node
  | scriptCommand node => .node node
  | expandWord word | renderWord word | spelledWord word => .word word
  | evaluateConditional expression => .conditional expression
  | clone syntax' => syntax'

open Activation

/-! ### The evaluator -/

def callsInteractive : Node → List Activation
  | .sequence left right => [evaluateInteractiveSequence left, evaluateInteractiveSequence right]
  | node => [evaluateTree node]

/-- A word that is expanded, copied first where it is handed on as a node. -/
def expandRedirections (redirections : List Redirection) : List Activation :=
  (redirectionWords redirections).flatMap fun word => [clone (.word word), expandWord word]

/-- A function definition is prehashed under `set -h` and copied. -/
def defineFunction (hashAll : Bool) (body : Node) : List Activation :=
  (if hashAll then [prehashTree body] else []) ++ [clone (.node body)]

/-- A child with a job of its own is described in the job table. -/
def forkShell (node : Node) : List Activation := [renderNode node, evaluateTree node]

def callsTree (hashAll : Bool) : Node → List Activation
  | .redirect command redirections | .group command redirections =>
    expandRedirections redirections ++ [evaluateTree command]
  | .command assignments arguments redirections =>
    (assignments ++ arguments).map expandArgument ++ expandRedirections redirections ++
      [clone (.node (.command assignments arguments redirections)),
        renderNode (.command assignments arguments redirections)]
  | .forCommand words body _ | .select words body _ =>
    words.map expandArgument ++ [evaluateTree body]
  | .timed _ command => command.toList.map evaluateTree
  | .whileCommand condition body | .untilCommand condition body =>
    [evaluateTree condition, evaluateTree body]
  | .subshell command redirections | .background command redirections =>
    expandRedirections redirections ++ forkShell command
  | .pipeline _ commands => commands.flatMap forkShell
  | .caseCommand word clauses =>
    expandArgument word :: clauses.flatMap fun clause =>
      clause.patterns.map expandArgument ++ clause.body.toList.map evaluateTree
  | .and left right => [evaluateList (.and left right)]
  | .or left right => [evaluateList (.or left right)]
  | .sequence left right => [evaluateList (.sequence left right)]
  | .ifCommand condition thenBranch elseBranch =>
    evaluateTree condition :: evaluateTree thenBranch :: elseBranch.toList.map evaluateTree
  | .function _ body => defineFunction hashAll body
  | .bash (.arrayAssignment _ subscript _ value) =>
    (subscript.toList ++ value.words).map expandWord
  | .bash (.function _ _ body) => defineFunction hashAll body
  | .bash (.conditional expression) => [evaluateConditional expression]
  | .bash (.arithmeticCommand _) => []
  | .bash (.arithmeticFor _ _ _ body) => [evaluateTree body]
  | .bash (.processSubstitution _ _) => []
  | .not command => [evaluateTree command]
  | .word _ => []

def callsArgument : Node → List Activation
  | .word word => [expandWord word]
  | .bash (.arrayAssignment _ subscript _ value) =>
    (subscript.toList ++ value.words).map expandWord
  | _ => []

/-- A process substitution is evaluated in a child without a job. -/
def callsExpansion : WordPart → List Activation
  | .text _ _ => []
  | .parameter _ operand _ => operand.toList.map expandWord
  | .command none _ => []
  | .command (some (.bash (.processSubstitution _ body))) _ => body.toList.map evaluateTree
  | .command (some node) _ => forkShell node
  | .arithmetic expression _ => [expandWord expression]

def callsConditional : BashConditionalExpr → List Activation
  | .empty => []
  | .word word => [expandWord word]
  | .unary _ operand => [expandWord operand]
  | .binary left _ right => [expandWord left, expandWord right]
  | .not inner | .group inner => [evaluateConditional inner]
  | .and left right | .or left right => [evaluateConditional left, evaluateConditional right]

def callsPrehash : Node → List Activation
  | .command _ _ _ => []
  | .pipeline _ commands => commands.map prehashTree
  | .redirect command _ | .background command _ | .subshell command _ | .group command _ =>
    [prehashTree command]
  | .and left right | .or left right | .sequence left right | .whileCommand left right
  | .untilCommand left right => [prehashTree left, prehashTree right]
  | .ifCommand condition thenBranch elseBranch =>
    prehashTree condition :: prehashTree thenBranch :: elseBranch.toList.map prehashTree
  | .forCommand _ body _ | .select _ body _ => [prehashTree body]
  | .timed _ command => command.toList.map prehashTree
  | .caseCommand _ clauses => clauses.flatMap fun clause => clause.body.toList.map prehashTree
  | .function _ body => [prehashTree body]
  | .bash (.function _ _ body) => [prehashTree body]
  | .not command => [prehashTree command]
  | .word _ | .bash _ => []

/-- The derived copy follows the fields: a list's left operand, then its right. -/
def callsClone : Syntax → List Activation
  | .node (.and left right) | .node (.or left right) | .node (.sequence left right) =>
    [clone (.node left), clone (.node right)]
  | syntax' => (inside syntax').map clone

/-! ### The printers and the projection -/

def callsRender : Node → List Activation
  | .sequence left right | .and left right | .or left right | .whileCommand left right
  | .untilCommand left right => [renderNode left, renderNode right]
  | .redirect command redirections | .subshell command redirections
  | .group command redirections =>
    renderNode command :: (redirectionWords redirections).map renderWord
  | .background command _ => [renderNode command]
  | .not command => [renderNode command]
  | .ifCommand condition thenBranch elseBranch =>
    renderNode condition :: renderNode thenBranch :: elseBranch.toList.map renderNode
  | .timed _ command => command.toList.map renderNode
  | .select words body _ | .forCommand words body _ => words.map renderNode ++ [renderNode body]
  | .function _ _ => []
  | .command assignments arguments redirections =>
    (assignments ++ arguments).map renderNode ++ (redirectionWords redirections).map renderWord
  | .word word => [renderWord word]
  | .caseCommand word clauses =>
    renderNode word :: clauses.flatMap fun clause =>
      (clause.patterns ++ clause.body.toList).map renderNode
  | .pipeline _ commands => commands.map renderNode
  | .bash _ => []

def callsRenderPart : WordPart → List Activation
  | .text _ _ | .command _ _ => []
  | .parameter _ operand _ => operand.toList.map renderWord
  | .arithmetic expression _ => [renderWord expression]

/-- A body that is a brace group contributes its list. -/
def callsDefinition : Node → List Activation
  | .group command [] => [printList command]
  | body => [printList body]

/-- The commands `flatten` collects from a `;` list. -/
def Node.items : Node → List Node
  | .sequence left right => left.items ++ right.items
  | node => [node]

def callsFlatten : Node → List Activation
  | .sequence left right => [flatten left, flatten right]
  | _ => []

/-- The nodes directly under a node, in the order they were read; a list's left
    operand is one of them. -/
def children : Node → List Node
  | .command assignments arguments _ => assignments ++ arguments
  | .pipeline _ commands => commands
  | .redirect command _ | .background command _ | .subshell command _ | .group command _ =>
    [command]
  | .and left right | .or left right | .sequence left right | .whileCommand left right
  | .untilCommand left right => [left, right]
  | .ifCommand condition thenBranch elseBranch =>
    condition :: thenBranch :: elseBranch.toList
  | .forCommand words body _ | .select words body _ => words ++ [body]
  | .timed _ command => command.toList
  | .caseCommand word clauses =>
    word :: clauses.flatMap fun clause => clause.patterns ++ clause.body.toList
  | .function _ body => [body]
  | .not command => [command]
  | .bash (.arithmeticFor _ _ _ body) => [body]
  | .bash (.function _ _ body) => [body]
  | .bash (.processSubstitution _ body) => body.toList
  | .word _ | .bash (.conditional _) | .bash (.arithmeticCommand _)
  | .bash (.arrayAssignment _ _ _ _) => []

/-- A word the shell cut is spelled from its parts. -/
def callsSpelled : WordPart → List Activation
  | .text _ _ => []
  | .parameter _ operand _ => operand.toList.map spelledWord
  | .command none _ => []
  | .command (some (.bash (.processSubstitution _ body))) _ => body.toList.map printList
  | .command (some node) _ => [printList node]
  | .arithmetic expression _ => [spelledWord expression]

/-- An assignment's value is a word the shell cut from the one it read. -/
def callsAssignment : Node → List Activation
  | .word word => [clone (.word word), spelledWord word]
  | _ => []

def callsScript : Node → List Activation
  | .command assignments _ _ => assignments.flatMap callsAssignment
  | .pipeline _ commands => commands.map scriptCommand
  | .redirect command _ | .background command _ | .subshell command _ | .group command _ =>
    [scriptCommand command]
  | .and left right | .or left right | .sequence left right | .whileCommand left right
  | .untilCommand left right => [scriptCommand left, scriptCommand right]
  | .ifCommand condition thenBranch elseBranch =>
    scriptCommand condition :: scriptCommand thenBranch :: elseBranch.toList.map scriptCommand
  | .forCommand _ body _ => [scriptCommand body]
  | .caseCommand _ clauses => clauses.flatMap fun clause => clause.body.toList.map scriptCommand
  | .function _ body => [scriptCommand body]
  | .not command => [scriptCommand command]
  | .select _ _ _ | .timed _ _ | .word _ | .bash _ => []

/-- The calls an activation may make. -/
def Activation.calls (hashAll : Bool) : Activation → List Activation
  | evaluateInteractiveSequence node => callsInteractive node
  | evaluateTree node => callsTree hashAll node
  | evaluateList node => node.elements.map evaluateTree
  | expandArgument node => callsArgument node
  | expandWord word => word.flatMap callsExpansion
  | evaluateConditional expression => callsConditional expression
  | prehashTree node => callsPrehash node
  | clone syntax' => callsClone syntax'
  | renderNode node => callsRender node
  | renderWord word => word.flatMap callsRenderPart
  | functionDefinition body => callsDefinition body
  | printList node => flatten node :: node.items.map printCommand
  | flatten node => callsFlatten node
  | printCommand node => [hereDocuments node]
  | hereDocuments node => (children node).map hereDocuments
  | spelledWord word => word.flatMap callsSpelled
  | scriptCommand node => callsScript node

def Calls (hashAll : Bool) (a b : Activation) : Prop := b ∈ a.calls hashAll

end Nsh.Nodes
