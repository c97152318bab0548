import Nsh.Input.Frame
import Nsh.Shell.Error

/-!
# The record of one `read`

The Bash dialect's `read` takes its record from a byte source: the shell's input
stack, or a descriptor read a byte at a time.  Whether a byte begins a character
of several is found out by reading on, and what turned out not to belong to it
is put back.  The loop of `read_record` is a step on its state.
-/

namespace Nsh.Read

open Nsh.Input

/-! ### The source -/

/-- What one byte makes of an incremental decoder (`LocaleDecode`). -/
inductive LocaleDecode where
  | incomplete
  | complete
  | invalid
deriving DecidableEq, Repr

/-- What the front of a byte string is (`LocaleCharacter`). -/
inductive LocaleCharacter where
  | complete (width : Nat)
  | incomplete
  | invalid
deriving DecidableEq, Repr

/-- What the locale says of bytes of several characters. -/
structure Charmap where
  State : Type
  /-- `decoder` -/
  start : State
  push : UInt8 → State → LocaleDecode × State
  decodePrefix : Bytes → LocaleCharacter

/-- Where `read` and `mapfile` get their bytes. -/
structure Source (σ : Type) where
  /-- `next_unit`, with or without the parser's filtering of NUL. -/
  nextUnit : Bool → σ → Except Error (InputUnit × σ)
  unread : Bytes → σ → σ
  /-- `buffered_line_bytes`, which only the input stack has. -/
  bufferedLine : σ → Bytes

/-- One logical descriptor, read a byte at a time. -/
structure Descriptor where
  /-- What the descriptor has still to give. -/
  content : Bytes
  /-- The bytes handed back by `unread`, the next one first. -/
  pushback : Bytes
  exhausted : Bool
deriving DecidableEq, Repr

def Descriptor.open (content : Bytes) : Descriptor := ⟨content, [], false⟩

def Descriptor.nextUnit (d : Descriptor) : InputUnit × Descriptor :=
  match d.pushback with
  | byte :: pushback => (.byte byte, { d with pushback := pushback })
  | [] =>
    if d.exhausted then (.endOfInput, d)
    else
      match d.content with
      | [] => (.endOfInput, { d with exhausted := true })
      | byte :: content => (.byte byte, { d with content := content })

def Descriptor.unread (bytes : Bytes) (d : Descriptor) : Descriptor :=
  { d with pushback := bytes ++ d.pushback }

/-- `ReadStream::Descriptor`, with no buffer to look into. -/
def descriptorSource : Source Descriptor where
  nextUnit _ d := .ok d.nextUnit
  unread := Descriptor.unread
  bufferedLine _ := []

/-! ### The reader -/

/-- How many bytes a record may hold before the read gives up. -/
def recordLimit : Nat := 16 * 1024 * 1024

/-- What one invocation asked for. -/
structure Requested where
  delimiter : UInt8 := 0x0a
  raw : Bool := false
  /-- `-n`: stop after this many characters, or at the delimiter. -/
  limit : Option Nat := none
  /-- `-N`: stop after exactly this many characters, delimiter or not. -/
  exact : Option Nat := none
deriving DecidableEq, Repr

def Requested.characterLimit (requested : Requested) : Option Nat :=
  requested.exact.or requested.limit

/-- The bytes one record held, and which of them a backslash protected. -/
structure Record where
  bytes : Bytes := []
  protection : List Bool := []
  characters : Nat := 0
deriving DecidableEq, Repr

def Record.push (record : Record) (bytes : Bytes) (escaped : Bool) : Record :=
  ⟨record.bytes ++ bytes, record.protection ++ List.replicate bytes.length escaped,
    record.characters + 1⟩

/-- Whether the count of characters is reached. -/
def Requested.reached (requested : Requested) (record : Record) : Bool :=
  requested.characterLimit.any fun limit => decide (limit ≤ record.characters)

variable {σ : Type} (src : Source σ) (charmap : Charmap)

/-- How many bytes a character is looked for in. -/
def longest : Nat := 6

/-- How wide the character at `first` is, when the source already holds the rest of it. -/
def bufferedCharacterWidth (s : σ) (first : UInt8) : Option Nat :=
  if src.bufferedLine s = [] then none
  else
    match charmap.decodePrefix (first :: (src.bufferedLine s).take (longest - 1)) with
    | .complete width => some width
    | .invalid => some 1
    | .incomplete => none

/-- Append so many units, or those there are. -/
def takeUnits : Nat → Bytes → σ → Except Error (Bytes × σ)
  | 0, bytes, s => .ok (bytes, s)
  | count + 1, bytes, s =>
    match src.nextUnit true s with
    | .error e => .error e
    | .ok (.endOfInput, s) => .ok (bytes, s)
    | .ok (.byte byte, s) => takeUnits count (bytes ++ [byte]) s

/-- These bytes were not a character: all but the first are put back. -/
def giveUp (bytes : Bytes) (s : σ) : Option Bytes × σ :=
  (none, if 1 < bytes.length then src.unread (bytes.drop 1) s else s)

/-- Feed the decoder, with room for so many more bytes behind this one. -/
def gather : Nat → charmap.State → Bytes → UInt8 → σ → Except Error (Option Bytes × σ)
  | room, state, bytes, byte, s =>
    let bytes := bytes ++ [byte]
    match charmap.push byte state with
    | (.complete, _) => .ok (if 1 < bytes.length then (some bytes, s) else giveUp src bytes s)
    | (.invalid, _) => .ok (giveUp src bytes s)
    | (.incomplete, state) =>
      match room with
      | 0 => .ok (giveUp src bytes s)
      | room + 1 =>
        match src.nextUnit true s with
        | .error e => .error e
        | .ok (.endOfInput, s) => .ok (giveUp src bytes s)
        | .ok (.byte byte, s) => gather room state bytes byte s

/-- `wide_character`: the character that begins with `first`, or nothing taken. -/
def wideCharacter (first : UInt8) (s : σ) : Except Error (Option Bytes × σ) :=
  match bufferedCharacterWidth src charmap s first with
  | some width =>
    if width = 1 then .ok (none, s)
    else
      match takeUnits src (width - 1) [first] s with
      | .error e => .error e
      | .ok (bytes, s) => .ok (some bytes, s)
  | none => gather src charmap (longest - 1) charmap.start [] first s

/-- `wide_character` where the byte may begin a character of several. -/
def wideAt (byte : UInt8) (s : σ) : Except Error (Option Bytes × σ) :=
  if byte < 0x80 then .ok (none, s) else wideCharacter src charmap byte s

/-- The state of the loop of `read_record`. -/
structure Reading (σ : Type) where
  source : σ
  record : Record := {}
  escaped : Bool := false

/-- How one turn of the loop ends. -/
inductive Turn (σ : Type) where
  | more (reading : Reading σ)
  | ended (record : Record) (complete : Bool) (source : σ)
  | failed (e : Error)

/-- The end of a turn that appended a byte: the count, and then the bound. -/
def afterByte (requested : Requested) (record : Record) (line : Int) (s : σ) : Turn σ :=
  if requested.reached record then .ended record true s
  else if recordLimit ≤ record.bytes.length then
    .failed (shellError line (text "read: record is too long to hold"))
  else .more ⟨s, record, false⟩

/-- A turn on a byte that is a character of its own. -/
def singleByte (requested : Requested) (line : Int) (byte : UInt8) (reading : Reading σ) :
    Turn σ :=
  if reading.escaped then
    if byte = 0x0a then .more { reading with escaped := false }
    else afterByte requested (reading.record.push [byte] true) line reading.source
  else if requested.raw = false ∧ byte = chr '\\' then .more { reading with escaped := true }
  else if byte = requested.delimiter ∧ requested.exact = none then
    .ended reading.record true reading.source
  else afterByte requested (reading.record.push [byte] false) line reading.source

/-- A turn on a character of several bytes, which does not come to the bound. -/
def wideBytes (requested : Requested) (bytes : Bytes) (reading : Reading σ) : Turn σ :=
  let record := reading.record.push bytes reading.escaped
  if requested.reached record then .ended record true reading.source
  else .more ⟨reading.source, record, false⟩

/-- One turn of the loop of `read_record`; `line` is the line a diagnostic names. -/
def turn (requested : Requested) (line : Int) (reading : Reading σ) : Turn σ :=
  match src.nextUnit (requested.delimiter == 0) reading.source with
  | .error e => .failed e
  | .ok (.endOfInput, s) => .ended reading.record false s
  | .ok (.byte byte, s) =>
    if byte = 0 ∧ requested.delimiter ≠ 0 then .more { reading with source := s }
    else
      match wideAt src charmap byte s with
      | .error e => .failed e
      | .ok (some bytes, s) => wideBytes requested bytes { reading with source := s }
      | .ok (none, s) => singleByte requested line byte { reading with source := s }

/-- The loop of `read_record`, with so many turns to take. -/
def readTurns (requested : Requested) (line : Int) : Nat → Reading σ → Option (Turn σ)
  | 0, _ => none
  | fuel + 1, reading =>
    match turn src charmap requested line reading with
    | .more reading => readTurns requested line fuel reading
    | last => some last

def readRecord (requested : Requested) (line : Int) (fuel : Nat) (s : σ) : Option (Turn σ) :=
  if requested.characterLimit = some 0 then some (.ended {} true s)
  else readTurns src charmap requested line fuel ⟨s, {}, false⟩

/-- The states in which a read from `s` asks its source for the next unit. -/
inductive Asks (requested : Requested) (line : Int) (s : σ) : Reading σ → Prop where
  | start : requested.characterLimit ≠ some 0 → Asks requested line s ⟨s, {}, false⟩
  | next {reading reading' : Reading σ} : Asks requested line s reading →
      turn src charmap requested line reading = .more reading' → Asks requested line s reading'

/-! ### The bound -/

/-- The next unit begins a character of several bytes, and with it the record comes to the
bound unfinished. -/
def Outgrows (requested : Requested) (reading : Reading σ) : Prop :=
  ∃ byte bytes s s', src.nextUnit (requested.delimiter == 0) reading.source
      = .ok (.byte byte, s) ∧
    ¬ (byte = 0 ∧ requested.delimiter ≠ 0) ∧
    wideAt src charmap byte s = .ok (some bytes, s') ∧
    requested.reached (reading.record.push bytes reading.escaped) = false ∧
    recordLimit ≤ reading.record.bytes.length + bytes.length

variable {src charmap} {requested : Requested} {line : Int}

theorem length_push (record : Record) (bytes : Bytes) (escaped : Bool) :
    (record.push bytes escaped).bytes.length = record.bytes.length + bytes.length :=
  List.length_append

theorem afterByte_more {record : Record} {s : σ} {reading : Reading σ}
    (h : afterByte requested record line s = .more reading) :
    reading.record.bytes.length < recordLimit := by
  unfold afterByte at h
  split_ifs at h with hreached hlong
  cases h
  exact Nat.lt_of_not_le hlong

theorem singleByte_more {byte : UInt8} {reading reading' : Reading σ}
    (h : singleByte requested line byte reading = .more reading') :
    reading'.record = reading.record ∨ reading'.record.bytes.length < recordLimit := by
  unfold singleByte at h
  split_ifs at h
  · cases h; exact .inl rfl
  · exact .inr (afterByte_more h)
  · cases h; exact .inl rfl
  · exact .inr (afterByte_more h)

/-- What a turn that goes on does to the record: nothing, or it stays under the bound, or a
character of several bytes is appended. -/
theorem turn_more {reading reading' : Reading σ}
    (h : turn src charmap requested line reading = .more reading') :
    reading'.record = reading.record ∨ reading'.record.bytes.length < recordLimit ∨
    ∃ byte bytes s s', src.nextUnit (requested.delimiter == 0) reading.source
        = .ok (.byte byte, s) ∧
      ¬ (byte = 0 ∧ requested.delimiter ≠ 0) ∧
      wideAt src charmap byte s = .ok (some bytes, s') ∧
      requested.reached (reading.record.push bytes reading.escaped) = false ∧
      reading'.record = reading.record.push bytes reading.escaped := by
  unfold turn at h
  split at h
  · cases h
  · cases h
  · next byte s hunit =>
    split_ifs at h with hnul
    · cases h; exact .inl rfl
    · split at h
      · cases h
      · next bytes s' hwide =>
        unfold wideBytes at h
        dsimp only at h
        split_ifs at h with hreached
        cases h
        exact .inr
          (.inr ⟨byte, bytes, s, s', hunit, hnul, hwide, Bool.eq_false_iff.mpr hreached, rfl⟩)
      · rcases singleByte_more h with hsame | hbound
        · exact .inl hsame
        · exact .inr (.inl hbound)

variable (line) in
/-- A character of several bytes that outgrows the record is appended all the same. -/
theorem turn_outgrows {reading : Reading σ} (h : Outgrows src charmap requested reading) :
    ∃ reading', turn src charmap requested line reading = .more reading' ∧
      recordLimit ≤ reading'.record.bytes.length := by
  obtain ⟨byte, bytes, s, s', hunit, hnul, hwide, hreached, hlong⟩ := h
  refine ⟨⟨s', reading.record.push bytes reading.escaped, false⟩, ?_, ?_⟩
  · unfold turn
    rw [hunit]
    dsimp only
    rw [if_neg hnul, hwide]
    dsimp only [wideBytes]
    rw [hreached]
    rfl
  · rw [length_push]
    exact hlong

/-- **The record is under the bound whenever the source is asked exactly where no character
of several bytes brings it there.** -/
theorem record_within_limit_iff (s : σ) :
    (∀ reading, Asks src charmap requested line s reading →
      reading.record.bytes.length < recordLimit) ↔
    ∀ reading, Asks src charmap requested line s reading →
      ¬ Outgrows src charmap requested reading := by
  constructor
  · intro h reading hasks houtgrows
    obtain ⟨reading', hturn, hlong⟩ := turn_outgrows line houtgrows
    exact absurd (h reading' (.next hasks hturn)) (Nat.not_lt_of_le hlong)
  · intro h reading hasks
    induction hasks with
    | start hlimit => show 0 < recordLimit; decide
    | next hasks hturn ih =>
      rcases turn_more hturn with hsame | hbound | ⟨byte, bytes, t, t', hunit, hnul, hwide,
        hreached, hpushed⟩
      · rw [hsame]
        exact ih
      · exact hbound
      · by_contra hlong
        rw [hpushed, length_push] at hlong
        exact h _ hasks ⟨byte, bytes, t, t', hunit, hnul, hwide, hreached, Nat.le_of_not_lt hlong⟩

/-- A charmap whose characters above ASCII take two bytes. -/
def pairCharmap : Charmap where
  State := Bool
  start := false
  push byte begun :=
    if begun then (.complete, false) else if byte < 0x80 then (.complete, false)
    else (.incomplete, true)
  decodePrefix
    | [] => .incomplete
    | byte :: rest =>
      if byte < 0x80 then .complete 1 else if rest = [] then .incomplete else .complete 2

/-- So many two-byte characters. -/
def pairs : Nat → Bytes
  | 0 => []
  | count + 1 => 0xc3 :: 0xa9 :: pairs count

theorem turn_pair (record : Record) (rest : Bytes) :
    turn descriptorSource pairCharmap {} line
      ⟨Descriptor.open (0xc3 :: 0xa9 :: rest), record, false⟩
      = .more ⟨Descriptor.open rest, record.push [0xc3, 0xa9] false, false⟩ := rfl

variable (line) in
/-- After `done` characters a read holds two bytes for each and asks for more. -/
theorem asks_pairs (done left : Nat) :
    ∃ record : Record, record.bytes.length = 2 * done ∧
      Asks descriptorSource pairCharmap {} line (Descriptor.open (pairs (done + left)))
        ⟨Descriptor.open (pairs left), record, false⟩ := by
  induction done generalizing left with
  | zero =>
    refine ⟨{}, rfl, ?_⟩
    rw [Nat.zero_add]
    apply Asks.start
    intro hlimit
    cases hlimit
  | succ done ih =>
    obtain ⟨record, hlength, hasks⟩ := ih (left + 1)
    refine ⟨record.push [0xc3, 0xa9] false, ?_, ?_⟩
    · rw [length_push, hlength]
      rfl
    · rw [Nat.add_assoc, Nat.add_comm 1 left]
      exact hasks.next (turn_pair record (pairs left))

/-- Characters of two bytes bring the record past its bound. -/
theorem record_outgrows_limit :
    ¬ ∀ (charmap : Charmap) (requested : Requested) (line : Int) (content : Bytes)
        (reading : Reading Descriptor),
      Asks descriptorSource charmap requested line (Descriptor.open content) reading →
        reading.record.bytes.length < recordLimit := by
  intro h
  obtain ⟨record, hlength, hasks⟩ := asks_pairs 0 (8 * 1024 * 1024) 0
  have hbound : record.bytes.length < recordLimit := h _ _ _ _ _ hasks
  rw [hlength] at hbound
  exact absurd hbound (by decide)

end Nsh.Read
