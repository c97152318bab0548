import Nsh.Shell.Characters

/-!
# Shell patterns

A pattern keeps a quote bit beside every byte, so `*`, `?` and `[` are operators
exactly where their byte is unquoted.  This module reads a pattern at one offset:
the extended group that begins there, the bracket expression that begins there,
and which subject characters one pattern character stands for.
-/

namespace Nsh.Patterns

/-- Matching behaviour a pattern inherits from shell options. -/
structure PatternOptions where
  extended : Bool
  ignoreCase : Bool
deriving DecidableEq

/-- One pattern byte and its quote-protection bit. -/
structure Mark where
  byte : UInt8
  quoted : Bool
deriving DecidableEq

/-- A quote-aware shell pattern; `bytes` and `quoted` of the source are the two
    halves of `marks`. -/
structure Pattern where
  marks : List Mark
  options : PatternOptions
deriving DecidableEq

namespace Pattern

def unquoted (bytes : Bytes) (options : PatternOptions) : Pattern where
  marks := bytes.map fun byte => ⟨byte, false⟩
  options := options

def length (p : Pattern) : Nat := p.marks.length

def bytes (p : Pattern) : Bytes := p.marks.map Mark.byte

def slice (p : Pattern) (range : Nat × Nat) : Pattern :=
  { p with marks := p.marks.extract range.1 range.2 }

/-- Whether the byte at `offset` is this one, unquoted. -/
def active (p : Pattern) (offset : Nat) (byte : UInt8) : Bool :=
  p.marks[offset]? == some ⟨byte, false⟩

/-- Where the run of unquoted `*` that begins at `offset` ends. -/
def starRunEnd (p : Pattern) (offset : Nat) : Nat :=
  offset + ((p.marks.drop offset).takeWhile (· == ⟨chr '*', false⟩)).length

end Pattern

/-- One `X(alternative|…)` extended-glob group and where the pattern continues
    after it. -/
structure ExtendedGroup where
  kind : UInt8
  start : Nat
  alternatives : List (Nat × Nat)
  next : Nat

/-- The loop of `extended_group` over the marks from `cursor` on, `start` being
    where the alternative being read begins. -/
def groupScan : List Mark → Nat → Nat → Nat → List (Nat × Nat) → Option (List (Nat × Nat) × Nat)
  | [], _, _, _, _ => none
  | mark :: rest, cursor, start, depth, alternatives =>
    if mark.quoted then groupScan rest (cursor + 1) start depth alternatives
    else if mark.byte = chr '(' then groupScan rest (cursor + 1) start (depth + 1) alternatives
    else if mark.byte = chr ')' then
      if depth = 1 then some (alternatives ++ [(start, cursor)], cursor + 1)
      else groupScan rest (cursor + 1) start (depth - 1) alternatives
    else if mark.byte = chr '|' ∧ depth = 1 then
      groupScan rest (cursor + 1) (cursor + 1) depth (alternatives ++ [(start, cursor)])
    else groupScan rest (cursor + 1) start depth alternatives

def isGroupKind (byte : UInt8) : Bool :=
  byte == chr '?' || byte == chr '*' || byte == chr '+' || byte == chr '@' || byte == chr '!'

/-- The extended-glob group that starts at `offset`, when the option that gives `X(`
    its meaning is on and the group is well formed. -/
def Pattern.extendedGroup (p : Pattern) (offset : Nat) : Option ExtendedGroup :=
  if !p.options.extended then none
  else match p.marks[offset]? with
    | none => none
    | some mark =>
      if !isGroupKind mark.byte || mark.quoted || !p.active (offset + 1) (chr '(') then none
      else (groupScan (p.marks.drop (offset + 2)) (offset + 2) (offset + 2) 1 []).map
        fun read => ⟨mark.byte, offset, read.1, read.2⟩

/-! ### The two strings of one match -/

/-- The two strings one match reads.  Every alternative of a group is a slice of the
    whole pattern, so one table serves them all. -/
structure Characters where
  pattern : Nsh.Characters
  subject : Nsh.Characters

def Characters.subjectBeginsCharacter (c : Characters) (offset : Nat) : Bool :=
  c.subject.boundaries.contains offset

/-- What a walk is asked for: whether the pattern runs out where the subject does,
    every offset it can run out at, or the furthest such offset that begins a
    character. -/
inductive Goal where
  | whole
  | every
  | furthest
deriving DecidableEq

/-- Fold one character for the case-insensitive shell options. -/
def foldCase (locale : Locale) : Bytes → Bytes
  | [b] => [toAsciiLowercase b]
  | bytes => locale.foldWide bytes

/-- Whether one pattern character stands for one subject character. -/
def sameCharacter (locale : Locale) (ignoreCase : Bool) (pattern subject : Bytes) : Bool :=
  pattern == subject ||
    (ignoreCase && foldCase locale pattern == foldCase locale subject)

/-- Whether `low-high` holds the byte, in either case of it under the case option. -/
def rangeHolds (ignoreCase : Bool) (low high byte : UInt8) : Bool :=
  let holds (b : UInt8) : Bool := decide (low ≤ b) && decide (b ≤ high)
  holds byte || (ignoreCase && (holds (toAsciiLowercase byte) || holds (toAsciiUppercase byte)))

/-- The pattern the locale is asked about one collating member with:
    `[[.body.]]` or `[[=body=]]`. -/
def collatingExpression (delimiter : UInt8) (body : Bytes) : Bytes :=
  text "[[" ++ delimiter :: body ++ [delimiter, chr ']', chr ']']

/-! ### The subject of a match

What every matcher of one match shares: the subject, and whether case is ignored.
-/

structure Subject where
  characters : Nsh.Characters
  ignoreCase : Bool

/-- Add a width to those found so far. -/
def addWidth (widths : List Nat) (width : Nat) : List Nat :=
  if widths.contains width then widths else widths ++ [width]

namespace Subject

def locale (s : Subject) : Locale := s.characters.locale

def bytes (s : Subject) : Bytes := s.characters.bytes

def endAt (s : Subject) (offset : Nat) : Nat := s.characters.endAt offset

/-- The width of the character at `offset`, when the subject reaches that far. -/
def widthAt (s : Subject) (offset : Nat) : Option Nat :=
  if offset < s.bytes.length then some (s.endAt offset - offset) else none

/-- The offsets a character walk of the subject steps over from `offset`, its end
    included. -/
def offsetsFrom (s : Subject) : Nat → Nat → List Nat
  | 0, offset => [offset]
  | fuel + 1, offset =>
    if offset = s.bytes.length then [offset] else offset :: s.offsetsFrom fuel (s.endAt offset)

def offsets (s : Subject) (offset : Nat) : List Nat :=
  s.offsetsFrom (s.bytes.length - offset) offset

/-- The widths a `[:…:]` matches at `offset`. -/
def classWidths (s : Subject) (name : Bytes) (offset : Nat) : List Nat :=
  match s.widthAt offset with
  | some width =>
    if s.locale.wideClassMatches name (s.bytes.extract offset (offset + width)) = some true
    then [width] else []
  | none => []

/-- The widths a `[.….]` or `[=…=]` matches at `offset`: the locale is asked about
    the character there and about as many bytes as the body has. -/
def collatingWidths (s : Subject) (delimiter : UInt8) (body : Bytes) (offset : Nat) : List Nat :=
  ((s.widthAt offset).toList ++ [body.length]).foldl (fun widths width =>
    if width ≠ 0 ∧ offset + width ≤ s.bytes.length ∧
        s.locale.collatingBracketMatches (collatingExpression delimiter body)
          (s.bytes.extract offset (offset + width)) = true
    then addWidth widths width else widths) []

/-- Whether `first-last`, each one byte, holds the one-byte character at `offset`. -/
def rangeMatches (s : Subject) (first last : Bytes) (offset : Nat) : Bool :=
  match first, last, s.widthAt offset, s.bytes[offset]? with
  | [low], [high], some 1, some byte => rangeHolds s.ignoreCase low high byte
  | _, _, _, _ => false

/-- The widths a list of members matches, `matched` being those its members match. -/
def keptWidths (s : Subject) (inverted : Bool) (offset : Nat) (matched : List Nat) : List Nat :=
  if inverted then ((s.widthAt offset).filter fun width => !matched.contains width).toList
  else matched

/-- Whether one member character is the subject's character at `offset`. -/
def memberMatches (s : Subject) (member : Bytes) (offset : Nat) : Bool :=
  match s.widthAt offset with
  | some width =>
    sameCharacter s.locale s.ignoreCase member (s.bytes.extract offset (offset + width))
  | none => false

end Subject

/-- One pattern matched against one subject; `patternStart` is where this pattern
    begins in the whole one. -/
structure Matcher where
  characters : Characters
  pattern : Pattern
  patternStart : Nat
  goal : Goal

namespace Matcher

def subject (m : Matcher) : Subject := ⟨m.characters.subject, m.pattern.options.ignoreCase⟩

def patternEnd (m : Matcher) (offset : Nat) : Nat :=
  m.characters.pattern.endWithin (m.patternStart + offset) (m.patternStart + m.pattern.length) -
    m.patternStart

/-- The walk over an alternative of a group of this pattern. -/
def alternative (m : Matcher) (range : Nat × Nat) : Matcher where
  characters := m.characters
  pattern := m.pattern.slice range
  patternStart := m.patternStart + range.1
  goal := .every

/-! ### Bracket expressions -/

/-- The delimiter, the body and the continuation of the `[:…:]`, `[.….]` or `[=…=]`
    whose `[` is at `offset`: the first half of `nested_member`. -/
def nestedBounds (m : Matcher) (offset : Nat) : Option (UInt8 × Bytes × Nat) :=
  match m.pattern.marks[offset + 1]? with
  | none => none
  | some mark =>
    if mark.quoted || !(mark.byte == chr ':' || mark.byte == chr '.' || mark.byte == chr '=')
    then none
    else
      match (List.range' (offset + 2) (m.pattern.length - (offset + 2))).find? (fun close =>
          m.pattern.active close mark.byte && m.pattern.active (close + 1) (chr ']')) with
      | none => none
      | some close =>
        let body := m.pattern.bytes.extract (offset + 2) close
        if body = [] then none else some (mark.byte, body, close + 2)

def nestedMember (m : Matcher) (offset subjectAt : Nat) : Option (Nat × List Nat) :=
  (m.nestedBounds offset).map fun (delimiter, body, continuation) =>
    (continuation,
      if delimiter = chr ':' then m.subject.classWidths body subjectAt
      else m.subject.collatingWidths delimiter body subjectAt)

/-- Whether a `-` at `offset` and a character other than `]` behind it make the member
    before it a range. -/
def rangeFollows (m : Matcher) (offset : Nat) : Bool :=
  m.pattern.active offset (chr '-') && decide (offset + 1 < m.pattern.length) &&
    !m.pattern.active (offset + 1) (chr ']')

/-- The loop of `bracket`. -/
def bracketFrom (m : Matcher) (inverted : Bool) (subjectAt : Nat) :
    Nat → Nat → Bool → List Nat → Option (Nat × List Nat)
  | 0, _, _, _ => none
  | fuel + 1, offset, firstMember, matched =>
    if m.pattern.length ≤ offset then none
    else if m.pattern.active offset (chr ']') && !firstMember then
      some (offset + 1, m.subject.keptWidths inverted subjectAt matched)
    else match (if m.pattern.active offset (chr '[') then m.nestedMember offset subjectAt
      else none) with
      | some (next, widths) =>
        m.bracketFrom inverted subjectAt fuel next false (widths.foldl addWidth matched)
      | none =>
        let memberEnd := m.patternEnd offset
        let member := m.pattern.bytes.extract offset memberEnd
        if m.rangeFollows memberEnd then
          let rangeEnd := m.patternEnd (memberEnd + 1)
          let last := m.pattern.bytes.extract (memberEnd + 1) rangeEnd
          m.bracketFrom inverted subjectAt fuel rangeEnd false
            (if m.subject.rangeMatches member last subjectAt then addWidth matched 1 else matched)
        else
          m.bracketFrom inverted subjectAt fuel memberEnd false
            (if m.subject.memberMatches member subjectAt
              then addWidth matched ((m.subject.widthAt subjectAt).getD 0) else matched)

/-- Whether `!` or `^` at `offset` inverts the list. -/
def bracketInverted (m : Matcher) (offset : Nat) : Bool :=
  m.pattern.active offset (chr '!') || m.pattern.active offset (chr '^')

/-- The continuation and every subject width matched by the bracket expression whose
    `[` is just before `offset`; `none` means that `[` is an ordinary byte. -/
def bracket (m : Matcher) (offset subjectAt : Nat) : Option (Nat × List Nat) :=
  m.bracketFrom (m.bracketInverted offset) subjectAt (m.pattern.length + 1)
    (if m.bracketInverted offset then offset + 1 else offset) true []

end Matcher

end Nsh.Patterns
