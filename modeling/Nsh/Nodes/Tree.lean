import Nsh.Shell.Bytes

/-!
# The syntax tree

The tree the parser builds and the evaluator walks.  Line numbers and the runs of
tokens a node was read from are left out.
-/

namespace Nsh.Nodes

open Nsh

inductive FileRedirectionOperator
  | write | clobber | read | readWrite | append
  deriving DecidableEq, Repr

inductive DescriptorRedirectionOperator
  | input | output
  deriving DecidableEq, Repr

/-- Which descriptor a redirection acts on: a number, or the `{name}` a free one
    is to be stored in. -/
inductive RedirectionDescriptor
  | fixed (descriptor : ℕ)
  | allocated (name : Bytes)
  deriving DecidableEq, Repr

inductive BashFunctionStyle
  | function | functionParens
  deriving DecidableEq, Repr

inductive BashAssignmentOperator
  | set | append
  deriving DecidableEq, Repr

inductive BashProcessDirection
  | input | output
  deriving DecidableEq, Repr

mutual

/-- One part of a word. -/
inductive WordPart
  | text (bytes : Bytes) (quoted : Bool)
  | parameter (name : Bytes) (operand : Option (List WordPart)) (quoted : Bool)
  | command (command : Option Node) (quoted : Bool)
  | arithmetic (expression : List WordPart) (quoted : Bool)

inductive DescriptorTarget
  | number (descriptor : ℕ)
  | close
  | word (word : List WordPart)

inductive Redirection
  | file (operator : FileRedirectionOperator) (descriptor : RedirectionDescriptor)
      (target : List WordPart) (withStderr : Bool)
  | descriptor (operator : DescriptorRedirectionOperator) (descriptor : RedirectionDescriptor)
      (target : DescriptorTarget)
  | hereDocument (descriptor : RedirectionDescriptor) (expand : Bool) (body : List WordPart)
      (delimiter : Bytes)
  | hereString (descriptor : RedirectionDescriptor) (word : List WordPart)

/-- The expression inside `[[ … ]]`. -/
inductive BashConditionalExpr
  | empty
  | word (word : List WordPart)
  | unary (operator : Bytes) (operand : List WordPart)
  | binary (left : List WordPart) (operator : Bytes) (right : List WordPart)
  | not (inner : BashConditionalExpr)
  | and (left right : BashConditionalExpr)
  | or (left right : BashConditionalExpr)
  | group (inner : BashConditionalExpr)

inductive BashArrayElement
  | mk (subscript : Option (List WordPart)) (operator : BashAssignmentOperator)
      (value : List WordPart)

inductive BashArrayValue
  | word (word : List WordPart)
  | compound (elements : List BashArrayElement)

inductive CaseClause
  | mk (patterns : List Node) (body : Option Node) (fallthrough : Bool)

inductive BashNode
  | conditional (expression : BashConditionalExpr)
  | arithmeticCommand (expression : Bytes)
  | arithmeticFor (init test update : Bytes) (body : Node)
  | function (name : Bytes) (style : BashFunctionStyle) (body : Node)
  | arrayAssignment (name : Bytes) (subscript : Option (List WordPart))
      (operator : BashAssignmentOperator) (value : BashArrayValue)
  | processSubstitution (direction : BashProcessDirection) (body : Option Node)

/-- The shell syntax tree. -/
inductive Node
  | command (assignments arguments : List Node) (redirections : List Redirection)
  | pipeline (background : Bool) (commands : List Node)
  | redirect (command : Node) (redirections : List Redirection)
  | background (command : Node) (redirections : List Redirection)
  | subshell (command : Node) (redirections : List Redirection)
  | group (command : Node) (redirections : List Redirection)
  | and (left right : Node)
  | or (left right : Node)
  | sequence (left right : Node)
  | ifCommand (condition thenBranch : Node) (elseBranch : Option Node)
  | whileCommand (condition body : Node)
  | untilCommand (condition body : Node)
  | forCommand (words : List Node) (body : Node) (name : Bytes)
  | select (words : List Node) (body : Node) (name : Bytes)
  | timed (posixFormat : Bool) (command : Option Node)
  | caseCommand (word : Node) (clauses : List CaseClause)
  | function (name : Bytes) (body : Node)
  | word (word : List WordPart)
  | not (command : Node)
  | bash (node : BashNode)

end

abbrev ParsedWord := List WordPart

def CaseClause.patterns : CaseClause → List Node
  | ⟨patterns, _, _⟩ => patterns

def CaseClause.body : CaseClause → Option Node
  | ⟨_, body, _⟩ => body

def CaseClause.fallthrough : CaseClause → Bool
  | ⟨_, _, fallthrough⟩ => fallthrough

/-- The words a redirection expands. -/
def Redirection.words : Redirection → List ParsedWord
  | .file _ _ target _ => [target]
  | .descriptor _ _ (.word target) => [target]
  | .descriptor _ _ _ => []
  | .hereDocument _ _ body _ => [body]
  | .hereString _ word => [word]

def BashArrayElement.words : BashArrayElement → List ParsedWord
  | ⟨subscript, _, value⟩ => subscript.toList ++ [value]

def BashArrayValue.words : BashArrayValue → List ParsedWord
  | .word value => [value]
  | .compound elements => elements.flatMap BashArrayElement.words

/-! ### Lists -/

/-- The elements of a `;`, `&&` and `||` list, in the order they are written in.
    The parser leaves a list leaning left; what is not a list is one element. -/
def Node.elements : Node → List Node
  | .and left right | .or left right | .sequence left right => left.elements ++ [right]
  | node => [node]

/-- How many joins the left spine of a list has. -/
def Node.spine : Node → ℕ
  | .and left _ | .or left _ | .sequence left _ => left.spine + 1
  | _ => 0

/-- How many `;` the left spine of a list starts with. -/
def Node.sequenceSpine : Node → ℕ
  | .sequence left _ => left.sequenceSpine + 1
  | _ => 0

end Nsh.Nodes
