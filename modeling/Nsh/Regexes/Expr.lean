import Nsh.Patterns.Pattern

/-!
# Extended regular expressions

The operand of `=~` is compiled from its bytes and the quote bit each of them carries:
a quoted byte is a literal character, except between brackets, where quoting is
discarded.  `Parser` walks the operand with the count of groups it has met and of
groups it is inside.
-/

namespace Nsh.Regexes

open Nsh.Patterns (Subject)

inductive Member where
  | character (bytes : Bytes)
  | range (low high : UInt8)
  | class (name : Bytes)
  | collating (body : Bytes)
deriving DecidableEq

structure Bracket where
  negated : Bool
  members : List Member
deriving DecidableEq

/-- `Start` and `End` of the source are `start` and `finish`, `Repeat` is `repeated`. -/
inductive Expr where
  | empty
  | literal (bytes : Bytes)
  | anyCharacter
  | bracket (bracket : Bracket)
  | start
  | finish
  | sequence (parts : List Expr)
  | alternation (branches : List Expr)
  | repeated (body : Expr) (min : Nat) (max : Option Nat)
  | group (index : Nat) (body : Expr)

/-- How much of the search space one whole search may visit. -/
def stepBudget : Nat := 400000

/-- How deeply the continuation chain may nest. -/
def maxDepth : Nat := 2000

/-- The largest repetition count an interval may name. -/
def maxRepeat : Nat := 1000

/-- How deeply the compiler may nest a group. -/
def maxGroupDepth : Nat := 256

/-- A compiled extended regular expression. -/
structure Regex where
  root : Expr
  groupCount : Nat
  ignoreCase : Bool

/-! ### Literal characters -/

/-- The width the lead byte of a UTF-8 character asks for. -/
def leadWidth (lead : UInt8) : Nat :=
  if lead ≤ 0x7f then 1
  else if 0xc2 ≤ lead ∧ lead ≤ 0xdf then 2
  else if 0xe0 ≤ lead ∧ lead ≤ 0xef then 3
  else if 0xf0 ≤ lead ∧ lead ≤ 0xf4 then 4
  else 1

def utf8Width (bytes : Bytes) (offset : Nat) : Nat :=
  match bytes[offset]? with
  | none => 1
  | some lead =>
    let width := leadWidth lead
    let tail := bytes.extract (offset + 1) (offset + width)
    if tail.length = width - 1 ∧ tail.all (fun byte => decide (0x80 ≤ byte) && decide (byte < 0xc0))
    then width else 1

/-- One literal character, treating a malformed multibyte lead as one byte. -/
def literalEnd (bytes : Bytes) (offset : Nat) : Nat :=
  min (offset + utf8Width bytes offset) bytes.length

/-! ### Parsing -/

structure Parser where
  bytes : Bytes
  quoted : List Bool
  pos : Nat
  groups : Nat
  depth : Nat

/-- What a parsing function returns: the error's text, or what it read and the parser
    behind it. -/
abbrev Read (α : Type) := Except Bytes (α × Parser)

def unmatchedClose : Bytes := text "Unmatched ) or \\)"
def unmatchedOpen : Bytes := text "Unmatched ( or \\("
def unmatchedBracket : Bytes := text "Unmatched [, [^, [:, [., or [="
def invalidPreceding : Bytes := text "Invalid preceding regular expression"
def invalidInterval : Bytes := text "Invalid content of \\\x7b\\\x7d"
def tooBig : Bytes := text "Regular expression too big"
def tooDeep : Bytes := text "Regular expression nested too deeply"

namespace Parser

/-- Whether the byte at `offset` is this one, unquoted. -/
def active (p : Parser) (offset : Nat) (byte : UInt8) : Bool :=
  p.bytes[offset]? == some byte && !(p.quoted[offset]?.getD true)

def here (p : Parser) (byte : UInt8) : Bool := p.active p.pos byte

def advance (p : Parser) (count : Nat) : Parser := { p with pos := p.pos + count }

/-- A digit at `offset` that is not quoted. -/
def digitAt (p : Parser) (offset : Nat) : Option Nat :=
  match p.bytes[offset]? with
  | some byte =>
    if isAsciiDigit byte && !(p.quoted[offset]?.getD true) then some (byte.toNat - 48) else none
  | none => none

/-- The loop of `digits`: the value read so far and where the digits end.  A `u32`
    saturates. -/
def digitsFrom (p : Parser) : Nat → Nat → Nat → Nat × Nat
  | 0, offset, value => (value, offset)
  | fuel + 1, offset, value =>
    match p.digitAt offset with
    | some digit =>
      p.digitsFrom fuel (offset + 1) (min (min (value * 10) (2 ^ 32 - 1) + digit) (2 ^ 32 - 1))
    | none => (value, offset)

/-- The number at `offset`, when there is one, and where it ends. -/
def digits (p : Parser) (offset : Nat) : Option Nat × Nat :=
  let (value, after) := p.digitsFrom p.bytes.length offset 0
  (if after ≠ offset then some value else none, after)

/-- `{n}`, `{n,}` or `{n,m}` from the brace on. -/
def interval (p : Parser) : Read (Nat × Option Nat) :=
  match p.digits (p.pos + 1) with
  | (none, _) => .error invalidInterval
  | (some least, after) =>
    let (most, close) :=
      if p.active after (chr ',') then p.digits (after + 1) else (some least, after)
    if !p.active close (chr '\x7d') then .error invalidInterval
    else if decide (maxRepeat < least) || most.any (fun most => decide (maxRepeat < most)) then
      .error tooBig
    else if most.any (fun most => decide (most < least)) then .error invalidInterval
    else .ok ((least, most), { p with pos := close + 1 })

/-- The bounds a quantifier at the parser's place names, and `none` where none stands
    there. -/
def quantifier (p : Parser) : Read (Option (Nat × Option Nat)) :=
  if p.here (chr '*') then .ok (some (0, none), p.advance 1)
  else if p.here (chr '+') then .ok (some (1, none), p.advance 1)
  else if p.here (chr '?') then .ok (some (0, some 1), p.advance 1)
  else if p.here (chr '\x7b') then
    match p.interval with
    | .error message => .error message
    | .ok (bounds, p) => .ok (some bounds, p)
  else .ok (none, p)

/-- Whether nothing may be repeated here: an anchor. -/
def isAnchor : Expr → Bool
  | .start => true
  | .finish => true
  | _ => false

/-- Apply every quantifier that follows one atom. -/
def quantified : Nat → Expr → Parser → Read Expr
  | 0, body, p => .ok (body, p)
  | fuel + 1, body, p =>
    match p.quantifier with
    | .error message => .error message
    | .ok (none, p) => .ok (body, p)
    | .ok (some (least, most), p) =>
      if isAnchor body then .error invalidPreceding
      else quantified fuel (.repeated body least most) p

/-! ### Bracket expressions -/

/-- Where the `:]`, `.]` or `=]` of this delimiter begins, from `offset` on. -/
def memberClose (bytes : Bytes) (delimiter : UInt8) (offset : Nat) : Option Nat :=
  (List.range' offset (bytes.length - 1 - offset)).find? fun close =>
    bytes[close]? == some delimiter && bytes[close + 1]? == some (chr ']')

/-- `[:class:]`, `[.collate.]` and `[=equivalence=]`. -/
def bracketMember (bytes : Bytes) (offset : Nat) : Option (Member × Nat) :=
  match bytes[offset + 1]? with
  | none => none
  | some delimiter =>
    if !(delimiter == chr ':' || delimiter == chr '.' || delimiter == chr '=') then none
    else
      match memberClose bytes delimiter (offset + 2) with
      | none => none
      | some close =>
        let body := bytes.extract (offset + 2) close
        if body = [] then none
        else some (if delimiter = chr ':' then .class body else .collating body, close + 2)

/-- The members `first-last` stands for. -/
def rangeMembers (first last : Bytes) : List Member :=
  match first, last with
  | [low], [high] => [.range low high]
  | first, last => [.character first, .character last]

/-- Whether a `-` at `offset` and a byte other than `]` behind it make a range. -/
def rangeFollows (bytes : Bytes) (offset : Nat) : Bool :=
  bytes[offset]? == some (chr '-') && decide (offset + 1 < bytes.length) &&
    bytes[offset + 1]? != some (chr ']')

/-- The loop of `bracket`: the members and where the list ends. -/
def bracketFrom (bytes : Bytes) : Nat → Nat → Bool → List Member → Option (List Member × Nat)
  | 0, _, _, _ => none
  | fuel + 1, offset, first, members =>
    if bytes.length ≤ offset then none
    else if bytes[offset]? = some (chr ']') ∧ first = false then some (members, offset + 1)
    else
      match (if bytes[offset]? = some (chr '[') then bracketMember bytes offset else none) with
      | some (member, next) => bracketFrom bytes fuel next false (members ++ [member])
      | none =>
        let memberEnd := literalEnd bytes offset
        let member := bytes.extract offset memberEnd
        if rangeFollows bytes memberEnd then
          let rangeEnd := literalEnd bytes (memberEnd + 1)
          bracketFrom bytes fuel rangeEnd false
            (members ++ rangeMembers member (bytes.extract (memberEnd + 1) rangeEnd))
        else bracketFrom bytes fuel memberEnd false (members ++ [.character member])

/-- Parse one bracket expression; quoting inside the brackets is discarded. -/
def bracket (p : Parser) : Read Expr :=
  let negated := p.bytes[p.pos + 1]? == some (chr '^')
  match bracketFrom p.bytes p.bytes.length (if negated then p.pos + 2 else p.pos + 1) true [] with
  | none => .error unmatchedBracket
  | some (members, next) => .ok (.bracket ⟨negated, members⟩, { p with pos := next })

/-! ### Atoms, sequences and alternations

Each walk takes the one it recurses with as an argument; `alternation` closes the
circle, by the groups that may still be opened inside the present ones.
-/

/-- A group from its parenthesis on, `inside` reading what stands in it. -/
def groupWith (inside : Parser → Read Expr) (p : Parser) : Read Expr :=
  if maxGroupDepth ≤ p.depth then .error tooDeep
  else
    let index := p.groups + 1
    match inside { p with pos := p.pos + 1, groups := index, depth := p.depth + 1 } with
    | .error message => .error message
    | .ok (body, q) =>
      let q := { q with depth := q.depth - 1 }
      if !q.here (chr ')') then .error unmatchedOpen
      else .ok (.group index body, q.advance 1)

def atomWith (inside : Parser → Read Expr) (p : Parser) : Read Expr :=
  if p.here (chr '(') then groupWith inside p
  else if p.here (chr '[') then p.bracket
  else if p.here (chr '^') then .ok (.start, p.advance 1)
  else if p.here (chr '$') then .ok (.finish, p.advance 1)
  else if p.here (chr '.') then .ok (.anyCharacter, p.advance 1)
  else if p.here (chr '*') || p.here (chr '+') || p.here (chr '?') then .error invalidPreceding
  else if p.here (chr '\x7b') then .error invalidInterval
  else
    let after := literalEnd p.bytes p.pos
    .ok (.literal (p.bytes.extract p.pos after), { p with pos := after })

/-- One atom and the quantifiers behind it. -/
def pieceWith (inside : Parser → Read Expr) (p : Parser) : Read Expr :=
  match atomWith inside p with
  | .error message => .error message
  | .ok (atom, p) => quantified (p.bytes.length + 1) atom p

def piecesWith (inside : Parser → Read Expr) : Nat → Parser → Read (List Expr)
  | 0, p => .ok ([], p)
  | fuel + 1, p =>
    if decide (p.bytes.length ≤ p.pos) || p.here (chr '|') || p.here (chr ')') then .ok ([], p)
    else
      match pieceWith inside p with
      | .error message => .error message
      | .ok (piece, p) =>
        match piecesWith inside fuel p with
        | .error message => .error message
        | .ok (pieces, p) => .ok (piece :: pieces, p)

/-- What `sequence` makes of its pieces. -/
def sequenceOf : List Expr → Expr
  | [] => .empty
  | [piece] => piece
  | pieces => .sequence pieces

def sequenceWith (inside : Parser → Read Expr) (p : Parser) : Read Expr :=
  match piecesWith inside (p.bytes.length + 1) p with
  | .error message => .error message
  | .ok (pieces, p) => .ok (sequenceOf pieces, p)

def branchesWith (inside : Parser → Read Expr) : Nat → Parser → Read (List Expr)
  | 0, p => .ok ([], p)
  | fuel + 1, p =>
    match sequenceWith inside p with
    | .error message => .error message
    | .ok (branch, p) =>
      if p.here (chr '|') then
        match branchesWith inside fuel (p.advance 1) with
        | .error message => .error message
        | .ok (branches, p) => .ok (branch :: branches, p)
      else .ok ([branch], p)

/-- What `alternation` makes of its branches. -/
def alternationOf : List Expr → Expr
  | [branch] => branch
  | branches => .alternation branches

def alternationWith (inside : Parser → Read Expr) (p : Parser) : Read Expr :=
  match branchesWith inside (p.bytes.length + 1) p with
  | .error message => .error message
  | .ok (branches, p) => .ok (alternationOf branches, p)

/-- `alternation`, with room for so many groups inside one another.  The group that
    there is no room for is the one `groupWith` refuses. -/
def alternation : Nat → Parser → Read Expr
  | 0 => alternationWith fun _ => .error tooDeep
  | room + 1 => alternationWith (alternation room)

end Parser

/-- Compile one operand. -/
def compile (bytes : Bytes) (quoted : List Bool) (ignoreCase : Bool) : Except Bytes Regex :=
  match Parser.alternation maxGroupDepth ⟨bytes, quoted, 0, 0, 0⟩ with
  | .error message => .error message
  | .ok (root, p) =>
    if p.pos ≠ bytes.length then .error unmatchedClose
    else .ok ⟨root, p.groups, ignoreCase⟩

end Nsh.Regexes
