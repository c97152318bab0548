import Nsh.Shell.Locale

/-!
# Quoting a value so that the shell can read it back

What `set`, `declare -p`, `printf %q`, `${x@Q}`, `alias`, `trap` and `set -x` print.  A
value that holds something the locale cannot print can only be written as `$'…'`;
everything else takes the caller's own spelling.  A byte above ASCII belongs to a
character of the locale, so the walks over a value skip the bytes of a character they
have seen the head of.
-/

namespace Nsh.Quoting

/-- `NEEDS_BACKSLASH` -/
def needsBackslash : Bytes :=
  [chr ' ', chr '\t', chr '\n', chr '!', chr '"', chr '$', chr '&', 0x27, chr '(', chr ')', chr '*',
    chr ',', chr ';', chr '<', chr '>', chr '?', chr '[', chr '\\', chr ']', chr '^', 0x60, 0x7b,
    chr '|', 0x7d]

def isAscii (byte : UInt8) : Bool := byte < 0x80

section

variable (locale : Locale)

/-- `printable_character_width` -/
def printableCharacterWidth (bytes : Bytes) : Option Nat := do
  let width ← (locale.multibyteLen bytes).filter fun width => decide (0 < width)
  let printable ← locale.wideClassMatches (text "print") (bytes.take width)
  if printable then some width else none

/-- `needs_ansi_c`, past the bytes of a character that are still to be skipped. -/
def needsAnsiCFrom : Nat → Bytes → Bool
  | _, [] => false
  | skip + 1, _ :: rest => needsAnsiCFrom skip rest
  | 0, byte :: rest =>
    if byte < 0x20 ∨ byte = 0x7f then true
    else if isAscii byte then needsAnsiCFrom 0 rest
    else
      match printableCharacterWidth locale (byte :: rest) with
      | some width => needsAnsiCFrom (width - 1) rest
      | none => true

def needsAnsiC (value : Bytes) : Bool := needsAnsiCFrom locale 0 value

/-- `short_escape` -/
def shortEscape (byte : UInt8) : Option UInt8 :=
  if byte = 0x07 then some (chr 'a')
  else if byte = 0x08 then some (chr 'b')
  else if byte = 0x09 then some (chr 't')
  else if byte = 0x0a then some (chr 'n')
  else if byte = 0x0b then some (chr 'v')
  else if byte = 0x0c then some (chr 'f')
  else if byte = 0x0d then some (chr 'r')
  else if byte = 0x1b then some (chr 'E')
  else if byte = chr '\\' then some (chr '\\')
  else if byte = 0x27 then some 0x27
  else none

def octalByte (digit : Nat) : UInt8 := UInt8.ofNat (48 + digit)

/-- `\\{byte:03o}` -/
def octalEscape (byte : UInt8) : Bytes :=
  [chr '\\', octalByte (byte.toNat / 64), octalByte (byte.toNat / 8 % 8),
    octalByte (byte.toNat % 8)]

/-- The body of `ansi_c_quote`, past the bytes of a character that are still to be copied. -/
def ansiCBody : Nat → Bytes → Bytes
  | _, [] => []
  | skip + 1, byte :: rest => byte :: ansiCBody skip rest
  | 0, byte :: rest =>
    match shortEscape byte with
    | some letter => chr '\\' :: letter :: ansiCBody 0 rest
    | none =>
      if 0x20 ≤ byte ∧ byte < 0x7f then byte :: ansiCBody 0 rest
      else
        match if isAscii byte then none else printableCharacterWidth locale (byte :: rest) with
        | some width => byte :: ansiCBody (width - 1) rest
        | none => octalEscape byte ++ ansiCBody 0 rest

/-- `ansi_c_quote` -/
def ansiCQuote (value : Bytes) : Bytes :=
  chr '$' :: 0x27 :: ansiCBody locale 0 value ++ [0x27]

/-- `is_syntax_here`, behind the byte in front. -/
def isSyntaxHere (before : Option UInt8) (byte : UInt8) : Bool :=
  if byte = chr '#' then before.isNone
  else if byte = chr '~' then
    before.isNone || before == some (chr ':') || before == some (chr '=')
  else false

/-- The loop of `requote`. -/
def requoteFrom : Option UInt8 → Bytes → Bytes
  | _, [] => []
  | before, byte :: rest =>
    if byte ∈ needsBackslash ∨ isSyntaxHere before byte then
      chr '\\' :: byte :: requoteFrom (some byte) rest
    else byte :: requoteFrom (some byte) rest

/-- `requote`: `printf %q` -/
def requote (value : Bytes) : Bytes :=
  if value = [] then [0x27, 0x27]
  else if needsAnsiC locale value then ansiCQuote locale value
  else requoteFrom none value

/-- What `declaration_quote` writes for one byte. -/
def declarationByte (byte : UInt8) : Bytes :=
  if byte = chr '"' ∨ byte = chr '\\' ∨ byte = chr '$' ∨ byte = 0x60 then [chr '\\', byte]
  else [byte]

/-- `declaration_quote`: `declare -p` -/
def declarationQuote (value : Bytes) : Bytes :=
  if needsAnsiC locale value then ansiCQuote locale value
  else chr '"' :: value.flatMap declarationByte ++ [chr '"']

/-- What `bash_quote` writes for one byte. -/
def bashByte (byte : UInt8) : Bytes := if byte = 0x27 then [0x27, chr '\\', 0x27, 0x27] else [byte]

/-- `bash_quote` -/
def bashQuote (value : Bytes) : Bytes :=
  if value = [] then [0x27, 0x27]
  else if value = [0x27] then [chr '\\', 0x27]
  else 0x27 :: value.flatMap bashByte ++ [0x27]

/-- `readable_quote`: `${x@Q}` -/
def readableQuote (value : Bytes) : Bytes :=
  if needsAnsiC locale value then ansiCQuote locale value else bashQuote value

/-- The bytes `contains_shell_metacharacter` finds wherever they stand. -/
def metacharacters : Bytes :=
  [chr ' ', chr '\t', chr '\n', chr '*', chr '?', chr '[', chr ']', 0x7b, 0x7d, chr '(', chr ')',
    chr '$', 0x60, chr '\\', chr '"', 0x27, chr '|', chr '&', chr ';', chr '<', chr '>', chr '!',
    chr '^']

/-- The search of `contains_shell_metacharacter`, behind the byte in front. -/
def metacharacterFrom : Option UInt8 → Bytes → Bool
  | _, [] => false
  | before, byte :: rest =>
    decide (byte ∈ metacharacters) || isSyntaxHere before byte || metacharacterFrom (some byte) rest

/-- `contains_shell_metacharacter` -/
def containsShellMetacharacter (value : Bytes) : Bool := metacharacterFrom none value

/-- `listed_quote`: `set` -/
def listedQuote (value : Bytes) : Bytes :=
  if containsShellMetacharacter value = false ∧ needsAnsiC locale value = false then value
  else readableQuote locale value

/-- `trace_quote`: `set -x` -/
def traceQuote (value : Bytes) : Bytes :=
  if value = [] then [0x27, 0x27]
  else if containsShellMetacharacter value then bashQuote value
  else if needsAnsiC locale value then ansiCQuote locale value
  else value

end

/-- What stands behind the first apostrophes of a value is shorter. -/
theorem length_behind_quotes {input : Bytes}
    (h : (input.dropWhile (· != 0x27)).takeWhile (· == 0x27) ≠ []) :
    ((input.dropWhile (· != 0x27)).dropWhile (· == 0x27)).length < input.length := by
  have hbehind := (List.dropWhile_suffix (l := input) (· != 0x27)).length_le
  have hsplit := congrArg List.length
    (List.takeWhile_append_dropWhile (p := (· == 0x27)) (l := input.dropWhile (· != 0x27)))
  have hpos := List.length_pos_iff.mpr h
  rw [List.length_append] at hsplit
  omega

/-- `shell_quote`: `alias`, `trap` and a POSIX `set` -/
def shellQuote (input : Bytes) : Bytes :=
  0x27 :: input.takeWhile (· != 0x27) ++ [0x27] ++
    if h : (input.dropWhile (· != 0x27)).takeWhile (· == 0x27) = [] then []
    else
      chr '"' :: (input.dropWhile (· != 0x27)).takeWhile (· == 0x27) ++ [chr '"'] ++
        if (input.dropWhile (· != 0x27)).dropWhile (· == 0x27) = [] then []
        else shellQuote ((input.dropWhile (· != 0x27)).dropWhile (· == 0x27))
termination_by input.length
decreasing_by exact length_behind_quotes h

end Nsh.Quoting
