import Nsh.Arithmetic.Lexer
import Nsh.Lib.Nested
import Nsh.Variables.Arrays

/-!
# The arithmetic parser

Recursive descent over the tokens still to read, evaluating as it goes.  The
rules call each other; each is written here over the calls it makes.  `descend`
answers a call to a tighter rule, or to one behind a parenthesis or a prefix
operator.  `operand` answers a rule that calls itself, or a looser one, for its
right operand at the depth it stands at.  `walk` ties the knot, allowing a
number of nested activations.
-/

namespace Nsh.Arithmetic

open Variables

variable {W : Type}

/-- How deep an expression may nest before the evaluator refuses it. -/
def maxNameDepth : Nat := 1024

/-- What the parser refuses an expression for. -/
inductive Complaint where
  | expectingColon
  | expectingParenthesis
  | expectingPrimary
  | expectingName
  | expectingEof
  | recursionLevel
  | negativeExponent
  | divisionError
deriving DecidableEq, Repr

namespace Complaint

def message : Complaint → Bytes
  | .expectingColon => text "expecting ':'"
  | .expectingParenthesis => text "expecting ')'"
  | .expectingPrimary => text "expecting primary"
  | .expectingName => text "expecting a name to increment"
  | .expectingEof => text "expecting EOF"
  | .recursionLevel => text "expression recursion level exceeded"
  | .negativeExponent => text "exponent less than 0"
  | .divisionError => text "division error"

end Complaint

/-- `Parser::error`. -/
def arithmeticError (input : Bytes) (complaint : Complaint) (shell : Shell W) : Error :=
  (Nsh.dialectError shell.options.dialect shell.diagnosticLine
    (text "arithmetic expression: " ++ complaint.message ++ text ": \"" ++ input ++
      text "\"")).markArithmetic

/-- What one evaluation keeps fixed: its text, its dialect, and the evaluations
    it opens.  `nested` is `evaluate_at_depth`, for the value of a name;
    `restart` is `evaluate`, for what the variables evaluate themselves. -/
structure Setting (W : Type) where
  host : Host W
  input : Bytes
  bash : Bool
  nested : Bytes → Nat → ShellRun W Int64
  restart : Bytes → ShellRun W Int64

/-- The shell and the tokens still to read. -/
structure Parser (W : Type) where
  shell : Shell W
  rest : List Token

/-- A computation of the parser. -/
abbrev Walk (W α : Type) := Run (Parser W) Error α

/-- The rules that call each other. -/
inductive Rule where
  | assignment
  | conditional
  | logicalOr
  | logicalAnd
  | power
  | primary
  | prefixed
deriving DecidableEq, Repr

/-- One call of a rule: whether it evaluates, and the depth it stands at. -/
structure Call where
  rule : Rule
  evaluate : Bool
  depth : Nat
deriving DecidableEq, Repr

/-! ### Tokens -/

def Parser.current (s : Parser W) : Token := s.rest.headD .eof

/-- Take the current token if `pick` wants it. -/
def accept {α β : Type} (pick : Token → Option β) (taken : β → Walk W α) (otherwise : Walk W α) :
    Walk W α := fun s =>
  match pick s.current with
  | some b => taken b { s with rest := s.rest.drop 1 }
  | none => otherwise s

theorem accept_some {α β : Type} {pick : Token → Option β} {s : Parser W} {b : β}
    (h : pick s.current = some b) (taken : β → Walk W α) (otherwise : Walk W α) :
    accept pick taken otherwise s = taken b { s with rest := s.rest.drop 1 } := by
  unfold accept
  rw [h]

theorem accept_none {α β : Type} {pick : Token → Option β} {s : Parser W}
    (h : pick s.current = none) (taken : β → Walk W α) (otherwise : Walk W α) :
    accept pick taken otherwise s = otherwise s := by
  unfold accept
  rw [h]

/-- Take the current token if it is `token`. -/
def acceptToken {α : Type} (token : Token) (taken otherwise : Walk W α) : Walk W α :=
  accept (fun t => if t = token then some () else none) (fun _ => taken) otherwise

theorem acceptToken_cons {α : Type} (token : Token) (taken otherwise : Walk W α)
    (shell : Shell W) (rest : List Token) :
    acceptToken token taken otherwise ⟨shell, token :: rest⟩ = taken ⟨shell, rest⟩ :=
  accept_some (s := ⟨shell, token :: rest⟩) (b := ()) (if_pos rfl) (fun _ => taken) otherwise

theorem acceptToken_of_ne {α : Type} {token : Token} {s : Parser W} (h : s.current ≠ token)
    (taken otherwise : Walk W α) : acceptToken token taken otherwise s = otherwise s :=
  accept_none (if_neg h) (fun _ => taken) otherwise

/-- Take a name and the assignment operator behind it, if both are there. -/
def acceptAssignment {α : Type} (taken : Name → Option BinaryOperator → Walk W α)
    (otherwise : Walk W α) : Walk W α := fun s =>
  match s.rest with
  | .name name :: .assign op :: rest => taken name op { s with rest := rest }
  | _ => otherwise s

/-- Decide on the current token without taking it. -/
def lookahead {α : Type} (test : Token → Bool) (yes no : Walk W α) : Walk W α := fun s =>
  if test s.current then yes s else no s

/-- A loop given a turn for each token left, and one more. -/
def inTurns {α : Type} (loop : Nat → Walk W α) : Walk W α := fun s => loop (s.rest.length + 1) s

/-- Run a computation of the shell. -/
def onShell {α : Type} (m : ShellRun W α) : Walk W α :=
  Run.within Parser.shell (fun shell s => { s with shell := shell }) m

/-- An `i64` truth value. -/
def flag (b : Bool) : Int64 := if b then 1 else 0

section Rules

variable (p : Setting W)

def complain {α : Type} (complaint : Complaint) : Walk W α := fun s =>
  .failed (arithmeticError p.input complaint s.shell) s

/-! ### Operators -/

/-- The number of places `wrapping_shl` and `wrapping_shr` shift by: the count
    as a `u32`, modulo the width. -/
def shiftCount (right : Int64) : Int64 := Int64.ofNat ((right.toInt % 2 ^ 32).toNat % 64)

/-- `left.saturating_pow(right.min(u32::MAX) as u32)`, for a count that is not
    negative. -/
def saturatingPower (left right : Int64) : Int64 :=
  saturate (left.toInt ^ (min right.toInt (2 ^ 32 - 1)).toNat)

def apply (op : BinaryOperator) (left right : Int64) : Walk W Int64 :=
  match op with
  | .multiply => pure (left * right)
  | .add => pure (left + right)
  | .subtract => pure (left - right)
  | .shiftLeft => pure (left <<< shiftCount right)
  | .shiftRight => pure (left >>> shiftCount right)
  | .less => pure (flag (left < right))
  | .lessEqual => pure (flag (left ≤ right))
  | .greater => pure (flag (left > right))
  | .greaterEqual => pure (flag (left ≥ right))
  | .equal => pure (flag (left == right))
  | .notEqual => pure (flag (left != right))
  | .bitAnd => pure (left &&& right)
  | .bitXor => pure (left ^^^ right)
  | .bitOr => pure (left ||| right)
  | .power =>
    if right < 0 then complain p .negativeExponent else pure (saturatingPower left right)
  | .remainder =>
    if right = 0 ∨ (left = Int64.minValue ∧ right = -1) then complain p .divisionError
    else pure (left % right)
  | .divide =>
    if right = 0 ∨ (left = Int64.minValue ∧ right = -1) then complain p .divisionError
    else pure (left / right)

/-! ### Names -/

/-- The stored text of one array element, empty when it is unset. -/
def elementText (shell : Shell W) (base : Bytes) (selector : ArraySelector) : Bytes :=
  match variableValue shell base with
  | none => []
  | some stored =>
    match selector with
    | .index index =>
      ((stored.indexedAt index).orElse fun _ =>
        if index = 0 then stored.scalarOwned else none).getD []
    | .key key => (stored.associativeAt key).getD []
    | .missing => []
    | .all | .joined => stored.elements.headD []

/-- Evaluate the text of a variable as an expression, one deeper. -/
def valueOf (depth : Nat) (value : Bytes) : Walk W Int64 :=
  if value.all isAsciiWhitespace then pure 0
  else if depth ≥ maxNameDepth then complain p .recursionLevel
  else onShell (p.nested value (depth + 1))

/-- Read one plain name. -/
def scalar (depth : Nat) (name : Bytes) : Walk W Int64 :=
  if p.bash then do
    let value ← onShell (lookupBytes p.host name)
    match value with
    | some value => valueOf p depth value
    | none => do
      let s ← Run.get
      if s.shell.options.nounset then onShell (unsetParameter name) else pure 0
  else onShell (lookupIntegerBytes p.host name)

/-- Read one name, or one array element. -/
def read (depth : Nat) (name : Name) : Walk W Int64 :=
  match name.subscript with
  | none => scalar p depth name.base
  | some subscript => do
    let selector ← onShell (resolveTextSelector p.host p.restart name.base subscript)
    let s ← Run.get
    valueOf p depth (elementText s.shell name.base selector)

/-- Assign one name, or one array element. -/
def write (name : Name) (value : Int64) : Walk W Int64 :=
  match name.subscript with
  | none => onShell (setIntegerBytes p.host name.base value VariableAttributes.none .run)
  | some subscript => do
    let selector ← onShell (resolveTextSelector p.host p.restart name.base subscript)
    onShell (assignElement p.host p.restart name.base selector (decimal value) false .enforce)
    pure value

/-- The value a postfix operator stores beside the one it answers with. -/
def postfixed (name : Name) (delta value : Int64) (evaluate : Bool) : Walk W Int64 :=
  if evaluate then do
    let _ ← write p name (value + delta)
    pure value
  else pure value

/-- A name, with the postfix `++`/`--` that may follow it. -/
def namePrimary (depth : Nat) (name : Name) (evaluate : Bool) : Walk W Int64 := do
  let value ← (if evaluate then read p depth name else pure 0 : Walk W Int64)
  acceptToken .increment (postfixed p name 1 value evaluate)
    (acceptToken .decrement (postfixed p name (-1) value evaluate) (pure value))

/-- The value a prefix `++`/`--` stores and answers with. -/
def stepped (depth : Nat) (name : Name) (delta : Int64) (evaluate : Bool) : Walk W Int64 :=
  if evaluate then do
    let value ← read p depth name
    write p name (value + delta)
  else pure 0

/-- The name a prefix `++`/`--` applies to. -/
def asName : Token → Option Name
  | .name name => some name
  | _ => none

/-- Prefix `++`/`--`, which answer with the value they stored. -/
def step (depth : Nat) (delta : Int64) (evaluate : Bool) : Walk W Int64 :=
  accept asName (fun name => stepped p depth name delta evaluate) (complain p .expectingName)

/-! ### The rules -/

section Body

variable (descend operand : Call → Walk W Int64) (evaluate : Bool) (depth : Nat)

/-- The value an assignment operator stores. -/
def assignedValue (name : Name) (op : Option BinaryOperator) (result : Int64) : Walk W Int64 :=
  match op with
  | none => pure result
  | some op => do
    let value ← read p depth name
    apply p op value result

/-- Store the right side of an assignment. -/
def assigned (name : Name) (op : Option BinaryOperator) (result : Int64) : Walk W Int64 :=
  if evaluate then do
    let value ← assignedValue p depth name op result
    write p name value
  else pure result

def assignment : Walk W Int64 :=
  acceptAssignment
    (fun name op => do
      let result ← operand ⟨.assignment, evaluate, depth⟩
      assigned p evaluate depth name op result)
    (descend ⟨.conditional, evaluate, depth⟩)

def conditional : Walk W Int64 := do
  let condition ← descend ⟨.logicalOr, evaluate, depth⟩
  acceptToken .question
    (do
      let thenValue ← operand ⟨.assignment, evaluate && condition != 0, depth⟩
      acceptToken .colon
        (do
          let elseValue ← operand ⟨.conditional, evaluate && condition == 0, depth⟩
          pure (if condition != 0 then thenValue else elseValue))
        (complain p .expectingColon))
    (pure condition)

def logicalOr : Walk W Int64 := do
  let left ← descend ⟨.logicalAnd, evaluate, depth⟩
  acceptToken .logicalOr
    (do
      let right ← operand ⟨.logicalOr, evaluate && left == 0, depth⟩
      pure (flag (left != 0 || right != 0)))
    (pure left)

/-- The operators a climb that stands at `minPower` takes. -/
def climbing (minPower : Nat) : Token → Option BinaryOperator
  | .binary op => if op.bindingPower < minPower then none else some op
  | _ => none

/-- Whether a token is an operator that binds tighter than `power`. -/
def tighter (power : Nat) : Token → Bool
  | .binary op => decide (op.bindingPower > power)
  | _ => false

/-- The result of an operator; an operand that is only parsed is not applied. -/
def applied (op : BinaryOperator) (left right : Int64) : Walk W Int64 :=
  if evaluate then apply p op left right else pure right

/-- The precedence climb, in so many turns: each takes an operator. -/
def binaryRhsFrom : Nat → Int64 → Nat → Walk W Int64
  | 0, _, _ => ⊥
  | turns + 1, left, minPower =>
    accept (climbing minPower)
      (fun op => do
        let first ← descend ⟨.power, evaluate, depth⟩
        let right ← lookahead (tighter op.bindingPower)
          (binaryRhsFrom turns first (op.bindingPower + 1)) (pure first)
        let left ← applied p evaluate op left right
        binaryRhsFrom turns left minPower)
      (pure left)

def binaryRhs (left : Int64) (minPower : Nat) : Walk W Int64 :=
  inTurns fun turns => binaryRhsFrom p descend evaluate depth turns left minPower

def binary : Walk W Int64 := do
  let left ← descend ⟨.power, evaluate, depth⟩
  binaryRhs p descend evaluate depth left 1

def logicalAnd : Walk W Int64 := do
  let left ← binary p descend evaluate depth
  acceptToken .logicalAnd
    (do
      let right ← operand ⟨.logicalAnd, evaluate && left != 0, depth⟩
      pure (flag (left != 0 && right != 0)))
    (pure left)

/-- The result of `**`; an exponent that is only parsed stands for it. -/
def raised (base exponent : Int64) : Walk W Int64 :=
  if evaluate then apply p .power base exponent else pure exponent

/-- `**`, which is right-associative and binds tighter than a sign. -/
def power : Walk W Int64 := do
  let base ← descend ⟨.primary, evaluate, depth⟩
  acceptToken .power
    (do
      let exponent ← operand ⟨.power, evaluate, depth⟩
      raised p evaluate base exponent)
    (pure base)

/-- The further sides of a comma list, in so many turns. -/
def commaFrom : Nat → Int64 → Walk W Int64
  | 0, _ => ⊥
  | turns + 1, value =>
    acceptToken .comma
      (do
        let value ← descend ⟨.assignment, evaluate, depth⟩
        commaFrom turns value)
      (pure value)

/-- The comma operator: evaluate each side, answer with the right. -/
def comma : Walk W Int64 := do
  let value ← descend ⟨.assignment, evaluate, depth⟩
  inTurns fun turns => commaFrom descend evaluate depth turns value

/-- What stands between parentheses, one deeper. -/
def parenthesised : Walk W Int64 :=
  if depth ≥ maxNameDepth then complain p .recursionLevel
  else do
    let value ← comma descend evaluate (depth + 1)
    acceptToken .rParen (pure value) (complain p .expectingParenthesis)

/-- Any token but the end of the input. -/
def anyToken (token : Token) : Option Token := if token = .eof then none else some token

/-- A primary, from the token it begins with. -/
def primaryFrom (token : Token) : Walk W Int64 :=
  match token with
  | .number value => pure value
  | .name name => namePrimary p depth name evaluate
  | .increment => step p depth 1 evaluate
  | .decrement => step p depth (-1) evaluate
  | .lParen => parenthesised p descend evaluate depth
  | .binary .add => descend ⟨.prefixed, evaluate, depth⟩
  | .binary .subtract => do
    let value ← descend ⟨.prefixed, evaluate, depth⟩
    pure (-value)
  | .not => do
    let value ← descend ⟨.prefixed, evaluate, depth⟩
    pure (flag (value == 0))
  | .bitNot => do
    let value ← descend ⟨.prefixed, evaluate, depth⟩
    pure (~~~value)
  | _ => complain p .expectingPrimary

def primary : Walk W Int64 :=
  accept anyToken (primaryFrom p descend evaluate depth) (complain p .expectingPrimary)

/-- The operand of a prefix operator, charged what a parenthesis is charged. -/
def prefixed : Walk W Int64 :=
  if depth ≥ maxNameDepth then complain p .recursionLevel
  else descend ⟨.power, evaluate, depth + 1⟩

end Body

/-- The body of each rule, over the calls it makes. -/
def body (descend operand : Call → Walk W Int64) (call : Call) : Walk W Int64 :=
  match call with
  | ⟨.assignment, evaluate, depth⟩ => assignment p descend operand evaluate depth
  | ⟨.conditional, evaluate, depth⟩ => conditional p descend operand evaluate depth
  | ⟨.logicalOr, evaluate, depth⟩ => logicalOr descend operand evaluate depth
  | ⟨.logicalAnd, evaluate, depth⟩ => logicalAnd p descend operand evaluate depth
  | ⟨.power, evaluate, depth⟩ => power p descend operand evaluate depth
  | ⟨.primary, evaluate, depth⟩ => primary p descend evaluate depth
  | ⟨.prefixed, evaluate, depth⟩ => prefixed p descend evaluate depth

/-- A call of a rule, with at most `nesting` activations of rules open at once. -/
def walk (nesting : Nat) : Call → Walk W Int64 := Nested.unrolled (body p) nesting

end Rules

end Nsh.Arithmetic
