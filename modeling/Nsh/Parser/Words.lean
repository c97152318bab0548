import Nsh.Lib.Absorb
import Nsh.Shell.Bytes

/-!
# Parsed words

The lexer collects a word as tokens; its bytes become runs of text, each marked with
whether the source made it inert.  Of the tokens, only the ones a word without quotes and
expansions is made of stand here.
-/

namespace Nsh.Parser

inductive WordToken where
  | literal (byte : UInt8)
  | inert (byte : UInt8)
deriving DecidableEq, Repr

/-- A run of bytes (`WordPart::Text`). -/
structure TextPart where
  bytes : Bytes
  quoted : Bool
deriving DecidableEq, Repr

structure ParsedWord where
  parts : List TextPart
  spelling : Bytes
deriving DecidableEq, Repr

/-- A run of the same kind takes further bytes in. -/
def TextPart.takeText (bytes : Bytes) (quoted : Bool) (run : TextPart) : Option TextPart :=
  if run.quoted = quoted then some { run with bytes := run.bytes ++ bytes } else none

/-- `push_text`. -/
def pushText (parts : List TextPart) (bytes : Bytes) (quoted : Bool) : List TextPart :=
  absorb (TextPart.takeText bytes quoted) ⟨bytes, quoted⟩ parts

def TextPart.isEmptyRun (part : TextPart) : Bool := part.bytes.isEmpty && !part.quoted

/-- `ParsedWord::from_parts`, with `render_spelling`. -/
def ParsedWord.fromParts (parts : List TextPart) : ParsedWord :=
  let parts := parts.filter fun part => !part.isEmptyRun
  ⟨parts, parts.flatMap (·.bytes)⟩

def pushToken (parts : List TextPart) : WordToken → List TextPart
  | .literal byte => pushText parts [byte] false
  | .inert byte => pushText parts [byte] true

/-- `ParsedWord::from_tokens`, of a word with no quotes and no expansions. -/
def ParsedWord.fromTokens (tokens : List WordToken) : ParsedWord :=
  .fromParts (tokens.foldl pushToken [])

def ParsedWord.isEmpty (word : ParsedWord) : Bool := word.parts.isEmpty

/-- `push_literal_byte`. -/
def ParsedWord.pushLiteralByte (word : ParsedWord) (byte : UInt8) : ParsedWord :=
  ⟨pushText word.parts [byte] false, word.spelling ++ [byte]⟩

/-- The word that is exactly these bytes, none of them inert. -/
def ParsedWord.plain (bytes : Bytes) : ParsedWord :=
  ⟨if bytes = [] then [] else [⟨bytes, false⟩], bytes⟩

theorem pushText_run (bytes more : Bytes) (quoted : Bool) :
    pushText [⟨bytes, quoted⟩] more quoted = [⟨bytes ++ more, quoted⟩] := by
  have htake : TextPart.takeText more quoted ⟨bytes, quoted⟩ = some ⟨bytes ++ more, quoted⟩ :=
    if_pos rfl
  rw [pushText, ← List.nil_append [TextPart.mk bytes quoted], absorb_some htake, List.nil_append]

theorem foldl_pushToken_run (bytes more : Bytes) :
    (more.map WordToken.literal).foldl pushToken [⟨bytes, false⟩] = [⟨bytes ++ more, false⟩] := by
  induction more generalizing bytes with
  | nil => rw [List.map_nil, List.foldl_nil, List.append_nil]
  | cons byte more ih =>
    rw [List.map_cons, List.foldl_cons, pushToken, pushText_run, ih, List.append_assoc,
      List.singleton_append]

/-- Literal bytes alone make the plain word of them. -/
theorem fromTokens_literal (bytes : Bytes) :
    ParsedWord.fromTokens (bytes.map .literal) = .plain bytes := by
  cases bytes with
  | nil => rfl
  | cons byte more =>
    have hrun : ((byte :: more).map WordToken.literal).foldl pushToken [] =
        [⟨byte :: more, false⟩] := foldl_pushToken_run [byte] more
    rw [ParsedWord.fromTokens, hrun]
    simp [ParsedWord.fromParts, TextPart.isEmptyRun, ParsedWord.plain]

theorem plain_isEmpty (bytes : Bytes) : (ParsedWord.plain bytes).isEmpty = decide (bytes = []) := by
  cases bytes <;> simp [ParsedWord.plain, ParsedWord.isEmpty]

theorem plain_pushLiteralByte (bytes : Bytes) (byte : UInt8) :
    (ParsedWord.plain bytes).pushLiteralByte byte = .plain (bytes ++ [byte]) := by
  cases bytes with
  | nil => rfl
  | cons first rest =>
    simp [ParsedWord.plain, ParsedWord.pushLiteralByte, pushText_run]

end Nsh.Parser
