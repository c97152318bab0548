import Nsh.Lib.Absorb
import Nsh.Shell.Bytes

/-!
# From lexer events to words

The lexer hands over a word as a flat run of events; `TokenDecoder::word_until` nests
them.  Every `${…}` with an operand and every `$((…))` is one more activation of it, and
`expansion_nesting` reads off the events how many stand above the outermost one before
any is made.  The syntax tree a command substitution holds is a parameter.
-/

namespace Nsh.Words

open Nsh

/-- The operation selected by a parameter expansion. -/
inductive ParameterOperation
  | value | default | alternate | error | assign
  | removeSmallestSuffix | removeLargestSuffix | removeSmallestPrefix | removeLargestPrefix
  | length | substring | substituteFirst | substituteAll
  | upperFirst | upperAll | lowerFirst | lowerAll | transform | invalid
deriving DecidableEq, Repr

def ParameterOperation.operator : ParameterOperation → Bytes
  | .value => text ""
  | .default => text "-"
  | .alternate => text "+"
  | .error => text "?"
  | .assign => text "="
  | .removeSmallestSuffix => text "%"
  | .removeLargestSuffix => text "%%"
  | .removeSmallestPrefix => text "#"
  | .removeLargestPrefix => text "##"
  | .substring => text ":"
  | .substituteFirst => text "/"
  | .substituteAll => text "//"
  | .upperFirst => text "^"
  | .upperAll => text "^^"
  | .lowerFirst => text ","
  | .lowerAll => text ",,"
  | .transform => text "@"
  | .length | .invalid => text ""

mutual

/-- One structural part of a parsed word. -/
inductive WordPart (Node : Type)
  | text (bytes : Bytes) (quoted : Bool)
  | parameter (name : Bytes) (operation : ParameterOperation) (colon indirect : Bool)
      (operand : Option (ParsedWord Node)) (quoted : Bool)
  | command (command : Option Node) (quoted : Bool)
  | arithmetic (expression : ParsedWord Node) (quoted : Bool)

/-- A word, and its parts flattened to bytes. -/
inductive ParsedWord (Node : Type)
  | mk (parts : List (WordPart Node)) (spelling : Bytes)

end

/-- What the lexer emits while it reads a word.  A character is one the locale completed,
    of two bytes or more. -/
inductive WordToken (Node : Type)
  | literal (byte : UInt8)
  | inert (byte : UInt8)
  | character (bytes : Bytes) (complete : bytes ≠ []) (inert : Bool)
  | quoteOpen
  | quoteClose
  | parameterStart (name : Bytes) (operation : ParameterOperation) (colon indirect : Bool)
  | parameterEnd
  | command (command : Option Node)
  | arithmeticStart
  | arithmeticEnd

variable {Node : Type}

def ParsedWord.parts : ParsedWord Node → List (WordPart Node)
  | .mk parts _ => parts

def ParsedWord.spelling : ParsedWord Node → Bytes
  | .mk _ spelling => spelling

/-! ### The spelling -/

mutual

/-- `append` of `render_spelling`, for one part. -/
def WordPart.append : WordPart Node → Bytes
  | .text bytes _ => bytes
  | .command _ _ => text "$(...)"
  | .arithmetic expression _ => text "$((" ++ expression.append ++ text "))"
  | .parameter name operation colon indirect operand _ =>
    text "$\x7b" ++ (if operation = .length then text "#" else []) ++
      (if indirect then text "!" else []) ++ name ++ (if colon then text ":" else []) ++
      operation.operator ++ appendOperand operand ++ text "\x7d"

def ParsedWord.append : ParsedWord Node → Bytes
  | .mk parts _ => appendParts parts

def appendOperand : Option (ParsedWord Node) → Bytes
  | none => []
  | some operand => operand.append

def appendParts : List (WordPart Node) → Bytes
  | [] => []
  | part :: parts => part.append ++ appendParts parts

end

/-- An empty run that nothing quoted. -/
def WordPart.isEmptyRun : WordPart Node → Bool
  | .text bytes quoted => bytes.isEmpty && !quoted
  | _ => false

/-- `ParsedWord::from_parts`. -/
def ParsedWord.fromParts (parts : List (WordPart Node)) : ParsedWord Node :=
  let parts := parts.filter fun part => !part.isEmptyRun
  .mk parts (appendParts parts)

/-- A run of the same quoting takes further bytes in. -/
def WordPart.takeText (bytes : Bytes) (quoted : Bool) : WordPart Node → Option (WordPart Node)
  | .text run runQuoted => if runQuoted = quoted then some (.text (run ++ bytes) quoted) else none
  | _ => none

/-- Append bytes to the run being built, or start a new one. -/
def pushText (parts : List (WordPart Node)) (bytes : Bytes) (quoted : Bool) :
    List (WordPart Node) :=
  absorb (WordPart.takeText bytes quoted) (.text bytes quoted) parts

/-- How much of the word has been built. -/
def writtenSoFar (parts : List (WordPart Node)) : ℕ × ℕ :=
  match parts.getLast? with
  | some (.text bytes _) => (parts.length, bytes.length)
  | _ => (parts.length, 0)

/-! ### The decoder -/

/-- The locals of one activation of `word_until`. -/
structure Building (Node : Type) where
  parts : List (WordPart Node) := []
  depth : ℕ := 0
  opened : List (ℕ × ℕ) := []

namespace Building

variable (b : Building Node)

def quoted : Bool := decide (0 < b.depth)

def text (bytes : Bytes) (quoted : Bool) : Building Node :=
  { b with parts := pushText b.parts bytes quoted }

def part (part : WordPart Node) : Building Node := { b with parts := b.parts ++ [part] }

def quoteOpen : Building Node :=
  { b with depth := b.depth + 1, opened := writtenSoFar b.parts :: b.opened }

def quoteClose : Building Node :=
  let closed := { b with depth := b.depth - 1, opened := b.opened.tail }
  if b.opened.head? = some (writtenSoFar b.parts) then closed.text [] true else closed

end Building

/-- A decoded word, the events behind it, and how many activations stood above the one
    that decoded it at most. -/
structure Decoded (Node : Type) where
  word : ParsedWord Node
  rest : List (WordToken Node)
  activations : ℕ

/-- `TokenDecoder::word_until`.  An end marker ends the activation whatever its boundary
    is, so the boundary is left out. -/
def wordUntil : ℕ → Building Node → ℕ → List (WordToken Node) → Option (Decoded Node)
  | _, b, deepest, [] => some ⟨.fromParts b.parts, [], deepest⟩
  | 0, _, _, _ :: _ => none
  | fuel + 1, b, deepest, token :: rest =>
    match token with
    | .literal byte => wordUntil fuel (b.text [byte] b.quoted) deepest rest
    | .inert byte => wordUntil fuel (b.text [byte] true) deepest rest
    | .character bytes _ inert => wordUntil fuel (b.text bytes (inert || b.quoted)) deepest rest
    | .quoteOpen => wordUntil fuel b.quoteOpen deepest rest
    | .quoteClose => wordUntil fuel b.quoteClose deepest rest
    | .parameterStart name operation colon indirect =>
      if operation = .value then
        wordUntil fuel (b.part (.parameter name operation colon indirect none b.quoted))
          deepest rest
      else
        (wordUntil fuel {} 0 rest).bind fun operand =>
          wordUntil fuel
            (b.part (.parameter name operation colon indirect (some operand.word) b.quoted))
            (max deepest (operand.activations + 1)) operand.rest
    | .command command => wordUntil fuel (b.part (.command command b.quoted)) deepest rest
    | .arithmeticStart =>
      (wordUntil fuel {} 0 rest).bind fun expression =>
        wordUntil fuel (b.part (.arithmetic expression.word b.quoted))
          (max deepest (expression.activations + 1)) expression.rest
    | .parameterEnd => some ⟨.fromParts b.parts, rest, deepest⟩
    | .arithmeticEnd => some ⟨.fromParts b.parts, rest, deepest⟩

/-- The outermost activation, over a whole run of events. -/
def decode (tokens : List (WordToken Node)) : Option (Decoded Node) :=
  wordUntil tokens.length {} 0 tokens

/-- `ParsedWord::from_tokens`. -/
def ParsedWord.fromTokens (tokens : List (WordToken Node)) : Option (ParsedWord Node) :=
  (decode tokens).map Decoded.word

/-- An activation takes its events one at a time, so as much fuel as there are events is
    enough for it and for every activation above it. -/
theorem wordUntil_returns (fuel : ℕ) : ∀ (b : Building Node) (deepest : ℕ)
    (tokens : List (WordToken Node)), tokens.length ≤ fuel →
    ∃ decoded, wordUntil fuel b deepest tokens = some decoded ∧
      decoded.rest.length ≤ tokens.length := by
  induction fuel with
  | zero =>
    intro b deepest tokens hfuel
    obtain rfl := List.length_eq_zero_iff.mp (Nat.le_zero.mp hfuel)
    exact ⟨_, rfl, le_refl _⟩
  | succ fuel ih =>
    intro b deepest tokens hfuel
    cases tokens with
    | nil => exact ⟨_, rfl, le_refl _⟩
    | cons token rest =>
      have hrest : rest.length ≤ fuel := Nat.le_of_succ_le_succ hfuel
      have step : ∀ (b' : Building Node) (deepest' : ℕ) (behind : List (WordToken Node)),
          behind.length ≤ rest.length →
          ∃ decoded, wordUntil fuel b' deepest' behind = some decoded ∧
            decoded.rest.length ≤ (token :: rest).length := by
        intro b' deepest' behind hbehind
        obtain ⟨decoded, hdecoded, hle⟩ := ih b' deepest' behind (le_trans hbehind hrest)
        exact ⟨decoded, hdecoded, by simp only [List.length_cons]; omega⟩
      obtain ⟨inner, hinner, hbehind⟩ := ih {} 0 rest hrest
      cases token with
      | literal byte => exact step _ _ rest (le_refl _)
      | inert byte => exact step _ _ rest (le_refl _)
      | character bytes complete inert => exact step _ _ rest (le_refl _)
      | quoteOpen => exact step _ _ rest (le_refl _)
      | quoteClose => exact step _ _ rest (le_refl _)
      | command command => exact step _ _ rest (le_refl _)
      | parameterStart name operation colon indirect =>
        by_cases hvalue : operation = .value
        · simpa only [wordUntil, if_pos hvalue] using step _ _ rest (le_refl _)
        · simpa only [wordUntil, if_neg hvalue, hinner, Option.bind_some]
            using step _ _ inner.rest hbehind
      | arithmeticStart =>
        simpa only [wordUntil, hinner, Option.bind_some] using step _ _ inner.rest hbehind
      | parameterEnd => exact ⟨_, rfl, Nat.le_succ _⟩
      | arithmeticEnd => exact ⟨_, rfl, Nat.le_succ _⟩

theorem decode_returns (tokens : List (WordToken Node)) :
    ∃ decoded, decode tokens = some decoded := by
  obtain ⟨decoded, hdecoded, -⟩ := wordUntil_returns tokens.length {} 0 tokens (le_refl _)
  exact ⟨decoded, hdecoded⟩

/-! ### The nesting read off the events -/

/-- The loop of `expansion_nesting`, on from a depth and the deepest so far. -/
def nestingFrom : ℕ → ℕ → List (WordToken Node) → ℕ
  | _, deepest, [] => deepest
  | depth, deepest, token :: rest =>
    match token with
    | .parameterStart _ operation _ _ =>
      if operation ≠ .value then nestingFrom (depth + 1) (max deepest (depth + 1)) rest
      else nestingFrom depth deepest rest
    | .arithmeticStart => nestingFrom (depth + 1) (max deepest (depth + 1)) rest
    | .parameterEnd | .arithmeticEnd =>
      match depth with
      | 0 => deepest
      | depth + 1 => nestingFrom depth deepest rest
    | _ => nestingFrom depth deepest rest

/-- How deep `word_until` will recurse over these events. -/
def expansionNesting (tokens : List (WordToken Node)) : ℕ := nestingFrom 0 0 tokens

/-- Where the counter is when the activation it stands in has ended: out of the outermost
    one it stops. -/
def nestingBehind : ℕ → ℕ → List (WordToken Node) → ℕ
  | 0, deepest, _ => deepest
  | depth + 1, deepest, rest => nestingFrom depth deepest rest

/-- One activation, seen from the counter `depth` levels up: it comes out with what the
    activation counted. -/
theorem nestingFrom_wordUntil (fuel : ℕ) : ∀ (b : Building Node) (deepest : ℕ)
    (tokens : List (WordToken Node)) (decoded : Decoded Node),
    wordUntil fuel b deepest tokens = some decoded → ∀ depth before,
    nestingFrom depth (max before (depth + deepest)) tokens =
      nestingBehind depth (max before (depth + decoded.activations)) decoded.rest := by
  have hend : ∀ (b : Building Node) (deepest : ℕ) (decoded : Decoded Node),
      some ⟨.fromParts b.parts, [], deepest⟩ = some decoded → ∀ depth before,
      nestingFrom depth (max before (depth + deepest)) ([] : List (WordToken Node)) =
        nestingBehind depth (max before (depth + decoded.activations)) decoded.rest := by
    intro b deepest decoded h depth before
    obtain rfl := Option.some.inj h
    cases depth with
    | zero => rfl
    | succ depth => rfl
  induction fuel with
  | zero =>
    intro b deepest tokens decoded h depth before
    cases tokens with
    | nil => exact hend b deepest decoded h depth before
    | cons token rest => cases h
  | succ fuel ih =>
    intro b deepest tokens decoded h depth before
    cases tokens with
    | nil => exact hend b deepest decoded h depth before
    | cons token rest =>
      -- An activation above this one: the counter goes one level up and comes back.
      have above : ∀ (inner : Decoded Node) (b' : Building Node),
          wordUntil fuel {} 0 rest = some inner →
          wordUntil fuel b' (max deepest (inner.activations + 1)) inner.rest = some decoded →
          nestingFrom (depth + 1) (max (max before (depth + deepest)) (depth + 1)) rest =
            nestingBehind depth (max before (depth + decoded.activations)) decoded.rest := by
        intro inner b' hinner hrest
        have hup := ih {} 0 rest inner hinner (depth + 1) (max before (depth + deepest))
        have hdown := ih b' _ inner.rest decoded hrest depth before
        rw [Nat.add_zero, nestingBehind] at hup
        rw [hup, ← hdown]
        congr 1
        omega
      cases token with
      | literal byte => exact ih _ deepest rest decoded h depth before
      | inert byte => exact ih _ deepest rest decoded h depth before
      | character bytes complete inert => exact ih _ deepest rest decoded h depth before
      | quoteOpen => exact ih _ deepest rest decoded h depth before
      | quoteClose => exact ih _ deepest rest decoded h depth before
      | command command => exact ih _ deepest rest decoded h depth before
      | parameterStart name operation colon indirect =>
        by_cases hvalue : operation = .value
        · simp only [wordUntil, if_pos hvalue] at h
          simpa only [nestingFrom, hvalue, ne_eq, not_true_eq_false, if_false]
            using ih _ deepest rest decoded h depth before
        · simp only [wordUntil, if_neg hvalue] at h
          obtain ⟨inner, hinner, hrest⟩ := Option.bind_eq_some_iff.mp h
          simpa only [nestingFrom, ne_eq, hvalue, not_false_eq_true, if_true]
            using above inner _ hinner hrest
      | arithmeticStart =>
        obtain ⟨inner, hinner, hrest⟩ := Option.bind_eq_some_iff.mp h
        exact above inner _ hinner hrest
      | parameterEnd =>
        obtain rfl := Option.some.inj h
        cases depth with
        | zero => rfl
        | succ depth => rfl
      | arithmeticEnd =>
        obtain rfl := Option.some.inj h
        cases depth with
        | zero => rfl
        | succ depth => rfl

/-- The counter goes up with events only, so it never passes how many there are. -/
theorem nestingFrom_le (tokens : List (WordToken Node)) : ∀ depth deepest,
    nestingFrom depth deepest tokens ≤ max deepest (depth + tokens.length) := by
  induction tokens with
  | nil =>
    intro depth deepest
    exact le_max_left _ _
  | cons token rest ih =>
    intro depth deepest
    have hsame := ih depth deepest
    have hup := ih (depth + 1) (max deepest (depth + 1))
    have hlength : (token :: rest).length = rest.length + 1 := rfl
    cases token with
    | parameterStart name operation colon indirect =>
      simp only [nestingFrom]
      split
      · omega
      · omega
    | arithmeticStart => simp only [nestingFrom]; omega
    | parameterEnd =>
      cases depth with
      | zero => exact le_max_left _ _
      | succ depth =>
        have hdown := ih depth deepest
        simp only [nestingFrom]
        omega
    | arithmeticEnd =>
      cases depth with
      | zero => exact le_max_left _ _
      | succ depth =>
        have hdown := ih depth deepest
        simp only [nestingFrom]
        omega
    | _ => simp only [nestingFrom]; omega

/-- No word of fewer than `2^32` events runs the source's 32-bit counter over. -/
theorem expansionNesting_le_length (tokens : List (WordToken Node)) :
    expansionNesting tokens ≤ tokens.length := by
  simpa [expansionNesting] using nestingFrom_le tokens 0 0

/-- **The pre-check measures the recursion.**  The counter over the flat events, balanced
    or not, is the greatest number of activations above the outermost one; it never passes
    the number of events. -/
theorem decode_activations (tokens : List (WordToken Node)) :
    (decode tokens).map Decoded.activations = some (expansionNesting tokens) ∧
      expansionNesting tokens ≤ tokens.length := by
  refine ⟨?_, expansionNesting_le_length tokens⟩
  obtain ⟨decoded, hdecoded⟩ := decode_returns tokens
  have := nestingFrom_wordUntil tokens.length {} 0 tokens decoded hdecoded 0 0
  simp only [Nat.zero_add, Nat.zero_max, nestingBehind] at this
  rw [hdecoded, Option.map_some, expansionNesting, ← Nat.zero_max 0, Nat.zero_max 0, this]

end Nsh.Words
