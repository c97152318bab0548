import Nsh.Parser.Syntax
import Nsh.Quoting.Quote
import Nsh.Words.Decoder

/-!
# Reading a word of bytes and quotes

`read_word_token` on a word that holds bytes, characters, backslashes and the three
quotes: `'…'`, `"…"` and `$'…'`.  It has no answer for a word that goes on with an
expansion, a substitution, a group of an extended pattern or a subscript, nor for one
that is the prefix of a redirection.  The input is the text that is left.
-/

namespace Nsh.Quoting

open Nsh.Parser (SyntaxClass SyntaxContext classify controlBytes separators)
open Nsh.Words

/-! ### Escapes -/

/-- What stands for a character in the charmap (`CharacterEncoding`). -/
inductive CharacterEncoding where
  | utf8
  | bytes (encoded : Bytes)
  | unrepresentable
deriving DecidableEq, Repr

/-- Bytes written, and bytes consumed (`EscapeChunk`). -/
structure EscapeChunk where
  bytes : Bytes
  consumed : Nat
deriving DecidableEq, Repr

def hexadecimalDigitValue (byte : UInt8) : Option Nat :=
  if isAsciiDigit byte then some (byte.toNat - 48)
  else if chr 'a' ≤ byte ∧ byte ≤ chr 'f' then some (byte.toNat - 97 + 10)
  else if chr 'A' ≤ byte ∧ byte ≤ chr 'F' then some (byte.toNat - 65 + 10)
  else none

/-- `hexadecimal_value`: the value of the digits in front, and how many they are. -/
def hexadecimalValue : Nat → Nat → Bytes → Nat × Nat
  | 0, value, _ => (value, 0)
  | _, value, [] => (value, 0)
  | maximum + 1, value, byte :: rest =>
    match hexadecimalDigitValue byte with
    | none => (value, 0)
    | some digit =>
      let (value, consumed) := hexadecimalValue maximum (value * 16 + digit) rest
      (value, consumed + 1)

def isOctalDigit (byte : UInt8) : Bool := decide (chr '0' ≤ byte) && decide (byte ≤ chr '7')

/-- The digits of an octal escape. -/
def octalValue : Nat → Nat → Bytes → Nat × Nat
  | 0, value, _ => (value, 0)
  | _, value, [] => (value, 0)
  | maximum + 1, value, byte :: rest =>
    if isOctalDigit byte then
      let (value, consumed) := octalValue maximum (value * 8 + (byte.toNat - 48)) rest
      (value, consumed + 1)
    else (value, 0)

/-- How many bytes UTF-8's original form takes. -/
def utf8Length (value : Nat) : Nat :=
  if value ≤ 0x7ff then 2 else if value ≤ 0xffff then 3 else if value ≤ 0x1fffff then 4
  else if value ≤ 0x3ffffff then 5 else 6

/-- `utf8_bytes` -/
def utf8Bytes (value : Nat) : Bytes :=
  let length := utf8Length value
  UInt8.ofNat (256 - 2 ^ (8 - length) + value / 2 ^ (6 * (length - 1))) ::
    (List.range (length - 1)).map fun index =>
      UInt8.ofNat (0x80 + value / 2 ^ (6 * (length - 2 - index)) % 64)

/-- An upper-case hexadecimal number of a fixed width. -/
def hexadecimalText (width value : Nat) : Bytes :=
  (List.range width).map fun index =>
    let digit := value / 16 ^ (width - 1 - index) % 16
    UInt8.ofNat (if digit < 10 then 48 + digit else 55 + digit)

/-- What is asked of the shell around the lexer.  `isBlank` is `wide_is_blank` of the
character that some bytes spell. -/
structure Surroundings where
  locale : Locale
  isBlank : Bytes → Bool
  characterEncoding : Nat → CharacterEncoding
  bash : Bool
  extGlob : Bool
  /-- Whether a `[` may open a subscript. -/
  subscripts : Bool

variable (s : Surroundings)

/-- `unicode_bytes` -/
def unicodeBytes (value : Nat) : Bytes :=
  if value < 0x80 then [UInt8.ofNat value]
  else if 0x7fffffff < value then []
  else
    match s.characterEncoding value with
    | .utf8 => utf8Bytes value
    | .bytes encoded => encoded.take 16
    | .unrepresentable =>
      if value < 0x10000 then text "\\u" ++ hexadecimalText 4 value
      else text "\\U" ++ hexadecimalText 8 value

/-- An escape of hexadecimal digits, or the backslash alone where there are none. -/
def hexadecimalEscape (maximum : Nat) (written : Nat → Bytes) (rest : Bytes) : EscapeChunk :=
  let (value, digits) := hexadecimalValue maximum 0 rest
  if digits = 0 then ⟨[chr '\\'], 0⟩ else ⟨written value, digits + 1⟩

/-- `parse_escape`, behind the backslash. -/
def parseEscape (singleQuoted : Bool) : Bytes → EscapeChunk
  | [] => ⟨[chr '\\'], 0⟩
  | character :: rest =>
    if character = chr '\\' then ⟨[chr '\\'], 1⟩
    else if character = chr 'a' then ⟨[0x07], 1⟩
    else if character = chr 'b' then ⟨[0x08], 1⟩
    else if character = chr 'f' then ⟨[0x0c], 1⟩
    else if character = chr 'e' ∨ character = chr 'E' then ⟨[0x1b], 1⟩
    else if character = chr 'n' then ⟨[0x0a], 1⟩
    else if character = chr 'r' then ⟨[0x0d], 1⟩
    else if character = chr 't' then ⟨[0x09], 1⟩
    else if character = chr 'v' then ⟨[0x0b], 1⟩
    else if (character = 0x27 ∨ character = chr '"') ∧ singleQuoted then ⟨[character], 1⟩
    else if character = chr 'x' then
      hexadecimalEscape 2 (fun value => [UInt8.ofNat value]) rest
    else if character = chr 'u' then hexadecimalEscape 4 (unicodeBytes s) rest
    else if character = chr 'U' then hexadecimalEscape 8 (unicodeBytes s) rest
    else if isOctalDigit character then
      let (value, consumed) := octalValue 3 0 (character :: rest)
      ⟨[UInt8.ofNat value], consumed⟩
    else ⟨[chr '\\'], 0⟩

/-- `\c`: the control character that the byte behind it names. -/
def controlEscape (window : Bytes) : EscapeChunk :=
  match window.drop 1 with
  | [] => ⟨[], 1⟩
  | control :: behind =>
    ⟨[((control &&& ~~~((control &&& 0x40) >>> 1)) &&& 0x7f) ^^^ 0x40],
      2 + if control = chr '\\' ∧ behind.head? = some (chr '\\') then 1 else 0⟩

/-- The bytes an escape may look at: nine, and none behind an apostrophe. -/
def escapeWindow : Nat → Bytes → Bytes
  | 0, _ => []
  | _, [] => []
  | room + 1, byte :: rest => byte :: if byte = 0x27 then [] else escapeWindow room rest

/-- `parse_dollar_single_quote_escape`: the bytes behind a backslash, decoded. -/
def parseDollarSingleQuoteEscape (rest : Bytes) : EscapeChunk :=
  let window := escapeWindow 9 rest
  if window.head? = some (chr 'c') then controlEscape window else parseEscape s true window

/-! ### Classes -/

/-- The quoting a unit is read in: the syntax, and for an apostrophe whether a dollar opened
it. -/
inductive Context where
  | base
  | doubleQuoted
  | singleQuoted
  | dollarSingleQuoted
deriving DecidableEq, Repr

/-- The syntax a context is classified in. -/
def Context.syntaxContext : Context → SyntaxContext
  | .base => .base
  | .doubleQuoted => .doubleQuoted
  | .singleQuoted | .dollarSingleQuoted => .singleQuoted

/-- The class of a byte in a context. -/
def Context.classOf (context : Context) (byte : UInt8) : SyntaxClass :=
  classify context.syntaxContext (.byte byte)

/-- The bytes that open a group in front of a parenthesis. -/
def groupBytes : Bytes := [chr '?', chr '*', chr '+', chr '@', chr '!']

/-! ### The lexer -/

variable {N : Type}

/-- What is left once the line continuations in front have been joined. -/
def skipContinuations : Bytes → Bytes
  | [] => []
  | [byte] => [byte]
  | byte :: next :: rest =>
    if byte = chr '\\' ∧ next = 0x0a then skipContinuations rest else byte :: next :: rest

/-- `read_unit_for_syntax`: what is left from the next unit on. -/
def nextUnit : Context → Bytes → Bytes
  | .singleQuoted, rest | .dollarSingleQuoted, rest => rest
  | .base, rest | .doubleQuoted, rest => skipContinuations rest

/-- The width of the character in front, where it takes several bytes
(`read_multibyte_character`). -/
def characterWidth (bytes : Bytes) : Option Nat :=
  match bytes with
  | [] => none
  | byte :: _ =>
    if isAscii byte then none
    else (s.locale.multibyteLen bytes).filter fun width => decide (1 < width)

/-- A character of several bytes, as an event. -/
def characterToken (bytes : Bytes) (inert : Bool) : List (WordToken N) :=
  if h : bytes = [] then [] else [.character bytes h inert]

/-- A byte that opens a process substitution or a group of an extended pattern. -/
def opensGroup (byte : UInt8) (rest : Bytes) : Bool :=
  s.bash && (byte == chr '<' || byte == chr '>' || (s.extGlob && decide (byte ∈ groupBytes))) &&
    (skipContinuations rest).head? == some (chr '(')

/-- The events of a null byte, at which `$'…'` is cut off. -/
def isNull : WordToken N → Bool
  | .literal byte | .inert byte => byte == 0
  | _ => false

/-- `close_quote` -/
def closeQuote (context : Context) (output : List (WordToken N)) : List (WordToken N) :=
  (if context = .dollarSingleQuoted then output.takeWhile fun token => !isNull token
    else output) ++ [.quoteClose]

/-- `read_backslash`: the events, and what is left behind them. -/
def readBackslash (context : Context) : Bytes → List (WordToken N) × Bytes
  | [] => ([], [])
  | byte :: rest =>
    let kept : List (WordToken N) :=
      if context = .doubleQuoted ∧ byte ∉ [chr '\\', 0x60, chr '$', chr '"'] then
        [.inert (chr '\\')]
      else []
    match characterWidth s (byte :: rest) with
    | some width =>
      (kept ++ characterToken ((byte :: rest).take width) true, (byte :: rest).drop width)
    | none => (kept ++ [.inert byte], rest)

/-- The loop of `read_word_token`. -/
def lexWord : Nat → Context → List (WordToken N) → Bytes → Option (List (WordToken N) × Bytes)
  | 0, _, _, _ => none
  | fuel + 1, context, output, left =>
    match nextUnit context left with
    | [] => if context = .base then some (output, []) else none
    | byte :: rest =>
      if context = .base ∧ opensGroup s byte rest then none
      else
        match characterWidth s (byte :: rest) with
        | some width =>
          if context = .base ∧ s.isBlank ((byte :: rest).take width) then
            some (output, (byte :: rest).drop width)
          else
            lexWord fuel context (output ++ characterToken ((byte :: rest).take width) false)
              ((byte :: rest).drop width)
        | none =>
          match context.classOf byte with
          | .newline =>
            if context = .base then some (output, byte :: rest)
            else lexWord fuel context (output ++ [.literal byte]) rest
          | .word =>
            if context = .base ∧ s.bash ∧ s.subscripts ∧ (byte = chr '[' ∨ byte = chr ']') then
              none
            else lexWord fuel context (output ++ [.literal byte]) rest
          | .control =>
            if context = .dollarSingleQuoted ∧ byte = chr '\\' then
              let chunk := parseDollarSingleQuoteEscape s rest
              lexWord fuel context (output ++ chunk.bytes.map .literal) (rest.drop chunk.consumed)
            else lexWord fuel context (output ++ [.inert byte]) rest
          | .backslash =>
            let (tokens, behind) := readBackslash s context rest
            lexWord fuel context (output ++ tokens) behind
          | .singleQuote => lexWord fuel .singleQuoted (output ++ [.quoteOpen]) rest
          | .doubleQuote => lexWord fuel .doubleQuoted (output ++ [.quoteOpen]) rest
          | .endQuote => lexWord fuel .base (closeQuote context output) rest
          | .variable =>
            match skipContinuations rest with
            | [] => none
            | next :: behind =>
              if context = .base ∧ next = 0x27 then
                lexWord fuel .dollarSingleQuoted (output ++ [.quoteOpen]) behind
              else none
          | .endVariable => lexWord fuel context (output ++ [.literal byte]) rest
          | .wordSeparator => some (output, byte :: rest)
          | .backquote | .endOfInput => none

/-- What stands in front of `<` or `>` may belong to the redirection. -/
def mayBePrefix (output : List (WordToken N)) : Bool :=
  output.all (fun token => match token with | .literal byte => isAsciiDigit byte | _ => false) ||
    (s.bash && match output.head? with | some (.literal byte) => byte == 0x7b | _ => false)

/-- `read_word_token` and `finish_word_token`: the word, and the text that is left. -/
def readWord (left : Bytes) : Option (ParsedWord N × Bytes) := do
  let (output, rest) ← lexWord s (left.length + 1) .base [] left
  if (rest.head? = some (chr '<') ∨ rest.head? = some (chr '>')) ∧ mayBePrefix s output then none
  else
    let decoded ← decode output
    some (decoded.word, rest)

end Nsh.Quoting
