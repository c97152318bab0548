import Nsh.Read.Stream
import Nsh.Shell.Flow
import Nsh.Shell.Spaces
import Nsh.Variables.Kept
import Nsh.Variables.Operations

/-!
# `mapfile`

`mapfile` reads every record of its source into an element of an array.  `-s`
passes records over, `-n` counts those that are stored, `-O` says where the first
goes and keeps what the array held.
-/

namespace Nsh.Mapfile

open Nsh.Variables Nsh.Read

variable {W : Type}

/-- What one invocation asked for. -/
structure Requested where
  delimiter : UInt8 := 0x0a
  stripDelimiter : Bool := false
  /-- `-n`: stop after this many records; zero means every record. -/
  count : UInt64 := 0
  /-- `-O`: the first index written. -/
  origin : UInt64 := 0
  /-- `-s`: records discarded before the first one stored. -/
  skip : UInt64 := 0
  /-- `-u`: which descriptor to read. -/
  descriptor : Option UInt8 := none
  /-- Whether `-O` was given, which decides if the array is cleared. -/
  keepsExisting : Bool := false
deriving DecidableEq, Repr

/-! ### The options -/

/-- What `parse::<u64>` reads behind the sign it allows. -/
def unsignedDigits : Bytes → Bytes
  | [] => []
  | sign :: rest => if sign = chr '+' then rest else sign :: rest

def number (letter : UInt8) (argument : Bytes) : Except Bytes UInt64 :=
  let digits := unsignedDigits (trim argument)
  let value := digits.foldl (fun value digit => 10 * value + (digit - chr '0').toNat) 0
  if digits ≠ [] ∧ digits.all isAsciiDigit ∧ value < 2 ^ 64 then .ok (.ofNat value)
  else .error (text "mapfile: " ++ argument ++ text ": invalid " ++ letter :: text " argument\n")

def apply (requested : Requested) (letter : UInt8) (argument : Bytes) : Except Bytes Requested :=
  if letter = chr 'd' then .ok { requested with delimiter := argument.head?.getD 0 }
  else if letter = chr 'u' then do
    let descriptor ← number letter argument
    .ok { requested with descriptor := some descriptor.toUInt8 }
  else if letter = chr 'n' then do
    let count ← number letter argument
    .ok { requested with count := count }
  else if letter = chr 's' then do
    let skip ← number letter argument
    .ok { requested with skip := skip }
  else if letter = chr 'O' then do
    let origin ← number letter argument
    .ok { requested with origin := origin, keepsExisting := true }
  else .error (text "mapfile: -C: running a callback while reading is not supported\n")

/-- The letters of one word, and the letter whose argument is the word behind it. -/
def applyLetters (requested : Requested) : Bytes → Except Bytes (Requested × Option UInt8)
  | [] => .ok (requested, none)
  | letter :: rest =>
    if letter = chr 't' then applyLetters { requested with stripDelimiter := true } rest
    else if letter ∉ text "dnOsucC" then
      .error (text "mapfile: -" ++ letter :: text ": invalid option\n")
    else if rest = [] then .ok (requested, some letter)
    else do
      let requested ← apply requested letter rest
      .ok (requested, none)

/-- The loop of `parse`, with the letter that waits for its argument. -/
def parseWords : Option UInt8 → Requested → List Bytes → Except Bytes (Requested × List Bytes)
  | none, requested, [] => .ok (requested, [])
  | some letter, _, [] =>
    .error (text "mapfile: -" ++ letter :: text ": option requires an argument\n")
  | some letter, requested, argument :: rest => do
    let requested ← apply requested letter argument
    parseWords none requested rest
  | none, requested, word :: rest =>
    if word = text "--" then .ok (requested, rest)
    else if word.head? = some (chr '-') ∧ word.tail ≠ [] then do
      let (requested, waiting) ← applyLetters requested word.tail
      parseWords waiting requested rest
    else .ok (requested, word :: rest)

def parse (args : List Bytes) : Except Bytes (Requested × List Bytes) :=
  parseWords none {} args.tail

/-! ### Reading and storing -/

/-- A record as it is stored. -/
def Requested.stored (requested : Requested) (record : Bytes) : Bytes :=
  if requested.stripDelimiter ∧ record.getLast? = some requested.delimiter then record.dropLast
  else record

section

variable {σ : Type} (src : Source σ) (requested : Requested)

/-- The loop of `read_records`, with so many turns to take.  `seen` counts the records read,
    one at a time. -/
def readRecordsFrom : Nat → List Bytes → Nat → Run σ Error (List Bytes)
  | 0, _, _ => ⊥
  | fuel + 1, records, seen =>
    if requested.count ≠ 0 ∧ requested.count.toNat ≤ records.length then pure records
    else do
      match ← record src requested.delimiter (fuel + 1) with
      | none => pure records
      | some record =>
        if seen + 1 ≤ requested.skip.toNat then readRecordsFrom fuel records (seen + 1)
        else readRecordsFrom fuel (records ++ [requested.stored record]) (seen + 1)

def readRecords (fuel : Nat) : Run σ Error (List Bytes) := readRecordsFrom src requested fuel [] 0

end

/-- `origin.saturating_add(position)` -/
def saturatingAdd (origin : UInt64) (position : Nat) : UInt64 :=
  .ofNat (min (origin.toNat + position) (2 ^ 64 - 1))

/-- The loop of `store`, from this record on. -/
def setRecords (origin : UInt64) : Nat → List Bytes → VariableValue → VariableValue
  | _, [], value => value
  | position, record :: rest, value =>
    setRecords origin (position + 1) rest (value.setIndexed (saturatingAdd origin position) record)

/-- The array `store` builds on. -/
def Requested.base (requested : Requested) (shell : Shell W) (name : Bytes) : VariableValue :=
  if requested.keepsExisting then
    match variableValue shell name with
    | some value => if value.kind = .indexed then value else .empty .indexed
    | none => .empty .indexed
  else .empty .indexed

def storeRecords (host : Host W) (name : Bytes) (requested : Requested) (records : List Bytes) :
    ShellRun W Unit := do
  let shell ← Run.get
  assignValue host name (setRecords requested.origin 0 records (requested.base shell name))

/-- The variables, and the stream behind each descriptor `-u` may name. -/
structure Filling (W : Type) where
  shell : Shell W
  streams : Option UInt8 → ReadStream

def onShell {α : Type} (m : ShellRun W α) : Run (Filling W) Error α :=
  Run.within Filling.shell (fun shell filling => { filling with shell := shell }) m

def onStream {α : Type} (descriptor : Option UInt8) (m : Run ReadStream Error α) :
    Run (Filling W) Error α :=
  Run.within (fun filling => filling.streams descriptor)
    (fun stream filling =>
      { filling with streams := Function.update filling.streams descriptor stream }) m

def nameOf (operands : List Bytes) : Bytes := operands.head?.getD (text "MAPFILE")

/-- `run`; `refused` is what opening a descriptor complains of. -/
def run (host : Host W) (refused : Option UInt8 → Option Error) (fuel : Nat) (args : List Bytes) :
    Run (Filling W) Error ExitStatus :=
  match parse args with
  | .error complaint => do
    onShell (Shell.warn complaint)
    pure 2
  | .ok (requested, operands) => do
    let filling ← Run.get
    if validName filling.shell.locale (nameOf operands) = false then do
      onShell (Shell.warn
        (text "mapfile: " ++ nameOf operands ++ text ": not a valid identifier\n"))
      pure 2
    else
      match refused requested.descriptor with
      | some e => Run.fail e
      | none => do
        let records ← onStream requested.descriptor (readRecords streamSource requested fuel)
        onShell (storeRecords host (nameOf operands) requested records)
        pure 0

/-! ### The records -/

/-- The records an invocation reads. -/
def Requested.taken (requested : Requested) (records : List Bytes) : List Bytes :=
  if requested.count = 0 then records
  else records.take (requested.skip.toNat + requested.count.toNat)

/-- What it stores of them. -/
def Requested.kept (requested : Requested) (records : List Bytes) : List Bytes :=
  ((requested.taken records).drop requested.skip.toNat).map requested.stored

section

variable {σ : Type} {src : Source σ} {holds : σ → Bytes → Prop} (requested : Requested)

/-- How many of these records are still read, some being stored and some seen. -/
def Requested.left (stored seen : Nat) (records : List Bytes) : Nat :=
  if requested.count = 0 then records.length
  else (requested.skip.toNat - seen) + (requested.count.toNat - stored)

/-- The loop reads the records that are left, and stores those behind the ones passed over. -/
theorem readRecordsFrom_takes (h : Serves src holds) {fuel : Nat} {bytes : Bytes}
    (hfuel : bytes.length < fuel) {s : σ} (hs : holds s bytes) (records : List Bytes) {seen : Nat}
    (hfirst : seen < requested.skip.toNat → records = []) :
    ∃ s', readRecordsFrom src requested fuel records seen s =
        .done (records ++ (((Terminated.pieces requested.delimiter bytes).take
          (requested.left records.length seen (Terminated.pieces requested.delimiter bytes))).drop
            (requested.skip.toNat - seen)).map requested.stored) s' ∧
      holds s' ((Terminated.pieces requested.delimiter bytes).drop
        (requested.left records.length seen
          (Terminated.pieces requested.delimiter bytes))).flatten := by
  induction fuel generalizing bytes s records seen with
  | zero => exact absurd hfuel (Nat.not_lt_zero _)
  | succ fuel ih =>
    rw [readRecordsFrom]
    by_cases hcounted : requested.count ≠ 0 ∧ requested.count.toNat ≤ records.length
    · obtain ⟨hcount, hlength⟩ := hcounted
      have hpositive : requested.count.toNat ≠ 0 := fun hzero =>
        hcount (UInt64.toNat_inj.mp hzero)
      have hseen : ¬ seen < requested.skip.toNat := by
        intro hlt
        rw [hfirst hlt] at hlength
        exact hpositive (Nat.le_zero.mp hlength)
      have hleft : requested.left records.length seen
          (Terminated.pieces requested.delimiter bytes) = 0 := by
        unfold Requested.left
        rw [if_neg hcount]
        omega
      rw [if_pos ⟨hcount, hlength⟩, hleft]
      refine ⟨s, ?_, ?_⟩
      · rw [List.take_zero, List.drop_nil, List.map_nil, List.append_nil]
        rfl
      · rw [List.drop_zero, Terminated.pieces_flatten]
        exact hs
    · rw [if_neg hcounted]
      obtain ⟨t, hrecord, hrest⟩ := h.record requested.delimiter hfuel hs
      rw [Run.bind_done hrecord]
      by_cases hbytes : bytes = []
      · rw [if_pos hbytes]
        subst hbytes
        refine ⟨t, ?_, ?_⟩
        · show Outcome.done records t = _
          rw [Terminated.pieces, List.take_nil, List.drop_nil, List.map_nil, List.append_nil]
        · rw [Terminated.pieces, List.drop_nil]
          exact hrest
      · rw [if_neg hbytes]
        have hpieces := Terminated.pieces_eq_front requested.delimiter hbytes
        have hshorter : (Terminated.front requested.delimiter bytes).2.length < fuel := by
          have hfront := Terminated.front_append requested.delimiter bytes
          have hne := Terminated.front_ne_nil requested.delimiter hbytes
          have hlength := congrArg List.length hfront
          have hpos := List.length_pos_iff.mpr hne
          rw [List.length_append] at hlength
          omega
        rw [hpieces]
        generalize (Terminated.front requested.delimiter bytes).1 = first at *
        generalize (Terminated.front requested.delimiter bytes).2 = behind at *
        show ∃ s', (if seen + 1 ≤ requested.skip.toNat then
            readRecordsFrom src requested fuel records (seen + 1)
          else readRecordsFrom src requested fuel (records ++ [requested.stored first])
            (seen + 1)) t = _ ∧ _
        by_cases hskip : seen + 1 ≤ requested.skip.toNat
        · rw [if_pos hskip]
          have hnil : records = [] := hfirst hskip
          obtain ⟨s', hmore, hleftover⟩ := ih hshorter hrest records fun _ => hnil
          have hleft : requested.left records.length seen
              (first :: Terminated.pieces requested.delimiter behind) =
                requested.left records.length (seen + 1)
                  (Terminated.pieces requested.delimiter behind) + 1 := by
            unfold Requested.left
            split
            · rfl
            · omega
          rw [hleft, show requested.skip.toNat - seen = requested.skip.toNat - (seen + 1) + 1 by
            omega, List.take_succ_cons, List.drop_succ_cons, List.drop_succ_cons]
          exact ⟨s', hmore, hleftover⟩
        · rw [if_neg hskip]
          have hpast : seen + 1 < requested.skip.toNat →
              records ++ [requested.stored first] = [] := fun hlt => by omega
          obtain ⟨s', hmore, hleftover⟩ := ih hshorter hrest
            (records ++ [requested.stored first]) hpast
          have hleft : requested.left records.length seen
              (first :: Terminated.pieces requested.delimiter behind) =
                requested.left (records ++ [requested.stored first]).length (seen + 1)
                  (Terminated.pieces requested.delimiter behind) + 1 := by
            unfold Requested.left
            rw [List.length_append, List.length_singleton]
            split
            · rfl
            · next hcount =>
              have hroom : ¬ requested.count.toNat ≤ records.length := fun hle =>
                hcounted ⟨hcount, hle⟩
              omega
          rw [hleft, List.take_succ_cons, List.drop_succ_cons,
            show requested.skip.toNat - seen = 0 by omega, List.drop_zero, List.map_cons]
          rw [List.append_assoc, show requested.skip.toNat - (seen + 1) = 0 by omega,
            List.drop_zero] at hmore
          exact ⟨s', hmore, hleftover⟩

/-- **`read_records`** takes the first records of the source and leaves the rest. -/
theorem readRecords_takes (h : Serves src holds) {fuel : Nat} {bytes : Bytes}
    (hfuel : bytes.length < fuel) {s : σ} (hs : holds s bytes) :
    ∃ s' rest, readRecords src requested fuel s =
        .done (requested.kept (Terminated.pieces requested.delimiter bytes)) s' ∧ holds s' rest ∧
      (requested.taken (Terminated.pieces requested.delimiter bytes)).flatten ++ rest = bytes := by
  obtain ⟨s', hread, hrest⟩ := readRecordsFrom_takes requested h hfuel hs [] fun _ => rfl
  have htaken : (Terminated.pieces requested.delimiter bytes).take (requested.left 0 0
      (Terminated.pieces requested.delimiter bytes)) =
        requested.taken (Terminated.pieces requested.delimiter bytes) := by
    unfold Requested.left Requested.taken
    split
    · exact List.take_length
    · rfl
  refine ⟨s', _, ?_, hrest, ?_⟩
  · rw [readRecords, hread, List.length_nil, htaken]
    rfl
  · rw [← htaken]
    exact Terminated.flatten_take_append bytes _

end

/-! ### The array -/

/-- What an element is named by, over every kind of value. -/
inductive Subscript where
  | index (index : Nat)
  | key (key : Bytes)
deriving DecidableEq, Repr

/-- The elements of a value; a scalar is its element zero. -/
def elementAt : VariableValue → Subscript → Option Bytes
  | .scalar value, .index index => if index = 0 then some value else none
  | .indexed values, .index index => if index < 2 ^ 64 then values[UInt64.ofNat index]? else none
  | .associative values, .key key => values[key]?
  | _, _ => none

/-- The element an array is to have: the record that belongs there, or under `-O` what was
there before. -/
def Requested.element (requested : Requested) (records : List Bytes)
    (before : Option VariableValue) (subscript : Subscript) : Option Bytes :=
  let kept := if requested.keepsExisting then before.bind (elementAt · subscript) else none
  match subscript with
  | .index index =>
    if requested.origin.toNat ≤ index then (records[index - requested.origin.toNat]?).or kept
    else kept
  | .key _ => kept

theorem saturatingAdd_eq {origin : UInt64} {position : Nat} (h : origin.toNat + position < 2 ^ 64) :
    saturatingAdd origin position = UInt64.ofNat (origin.toNat + position) := by
  rw [saturatingAdd, Nat.min_eq_left (by omega)]

theorem kind_setRecords (origin : UInt64) (position : Nat) (records : List Bytes)
    (values : Std.ExtTreeMap UInt64 Bytes) :
    ∃ values', setRecords origin position records (.indexed values) = .indexed values' := by
  induction records generalizing position values with
  | nil => exact ⟨values, rfl⟩
  | cons record rest ih => exact ih _ _

/-- Each record lies at its subscript where they all have one. -/
theorem elementAt_setRecords {origin : UInt64} {position : Nat} {records : List Bytes}
    (hroom : origin.toNat + position + records.length ≤ 2 ^ 64)
    (values : Std.ExtTreeMap UInt64 Bytes) (index : Nat) :
    elementAt (setRecords origin position records (.indexed values)) (.index index) =
      if origin.toNat + position ≤ index then
        (records[index - (origin.toNat + position)]?).or
          (elementAt (.indexed values) (.index index))
      else elementAt (.indexed values) (.index index) := by
  induction records generalizing position values with
  | nil =>
    rw [setRecords, List.getElem?_nil, Option.none_or, ite_self]
  | cons record rest ih =>
    rw [List.length_cons] at hroom
    have hlt : origin.toNat + position < 2 ^ 64 := by omega
    have hset : elementAt (.indexed (values.insert (saturatingAdd origin position) record))
        (.index index) = if index = origin.toNat + position then some record
          else elementAt (.indexed values) (.index index) := by
      rw [saturatingAdd_eq hlt, elementAt, elementAt]
      by_cases hindex : index = origin.toNat + position
      · rw [if_pos hindex, hindex, if_pos hlt, Std.ExtTreeMap.getElem?_insert_self]
      · rw [if_neg hindex]
        by_cases hbound : index < 2 ^ 64
        · have hne : UInt64.ofNat (origin.toNat + position) ≠ UInt64.ofNat index := by
            intro heq
            have hnat := congrArg UInt64.toNat heq
            rw [UInt64.toNat_ofNat_of_lt' hlt, UInt64.toNat_ofNat_of_lt' hbound] at hnat
            exact hindex hnat.symm
          rw [if_pos hbound, if_pos hbound, Std.ExtTreeMap.getElem?_insert, if_neg]
          intro hcompare
          exact hne (Std.LawfulEqCmp.eq_of_compare hcompare)
        · rw [if_neg hbound, if_neg hbound]
    have hstep : setRecords origin position (record :: rest) (.indexed values) =
        setRecords origin (position + 1) rest
          (.indexed (values.insert (saturatingAdd origin position) record)) := rfl
    rw [hstep, ih (by omega), hset]
    rcases Nat.lt_trichotomy index (origin.toNat + position) with hbelow | hindex | habove
    · rw [if_neg (by omega), if_neg (by omega), if_neg (by omega)]
    · rw [if_neg (by omega), if_pos hindex, if_pos (by omega), hindex, Nat.sub_self,
        List.getElem?_cons_zero, Option.some_or]
    · rw [if_pos (by omega), if_neg (by omega), if_pos (by omega),
        show index - (origin.toNat + position) = index - (origin.toNat + (position + 1)) + 1 by
          omega, List.getElem?_cons_succ]

/-! ### The command -/

section

variable {host : Host W} {refused : Option UInt8 → Option Error} {fuel : Nat} {args : List Bytes}
variable {filling : Filling W} {requested : Requested} {name bytes : Bytes}

/-- The invocation comes to its source, which has these bytes to give. -/
structure Begins (refused : Option UInt8 → Option Error) (args : List Bytes) (filling : Filling W)
    (requested : Requested) (name bytes : Bytes) : Prop where
  parsed : ∃ operands, parse args = .ok (requested, operands) ∧ nameOf operands = name
  valid : validName filling.shell.locale name = true
  opened : refused requested.descriptor = none
  holds : (filling.streams requested.descriptor).Holds bytes

/-- The name may be assigned to. -/
def Writable (shell : Shell W) (name : Bytes) : Prop :=
  ((variableAttributes shell name).map (·.readOnly)).getD false = false

/-- The records are taken from the source, and the array that is stored has each of them at its
subscript, and every other element as it is to be. -/
def KeepsEveryRecord (host : Host W) (refused : Option UInt8 → Option Error) (fuel : Nat)
    (args : List Bytes) (filling : Filling W) (requested : Requested) (name bytes : Bytes) : Prop :=
  ∃ after rest, (run host refused fuel args).Ends filling after ∧
    (after.streams requested.descriptor).Holds rest ∧
    (requested.taken (Terminated.pieces requested.delimiter bytes)).flatten ++ rest = bytes ∧
    (Writable filling.shell name →
      run host refused fuel args filling = .done 0 after ∧
      ∃ value, variableValue after.shell name = some value ∧ ∀ subscript,
        elementAt value subscript =
          requested.element (requested.kept (Terminated.pieces requested.delimiter bytes))
            (variableValue filling.shell name) subscript)

/-- So many records have a subscript each, and under `-O` what the name held is an indexed
array or has no element the records do not replace. -/
def RoomFor (requested : Requested) (stored : Nat) (before : Option VariableValue) : Prop :=
  requested.origin.toNat + stored ≤ 2 ^ 64 ∧
    (requested.keepsExisting = true →
      match before with
      | some (.scalar _) => requested.origin = 0 ∧ 0 < stored
      | some (.associative values) => ∀ key : Bytes, values[key]? = none
      | _ => True)

variable (requested) in
/-- Storing where the name may be assigned to is storing the records over the base. -/
theorem storeRecords_done (hhost : Apart host) {shell : Shell W}
    (hvalid : validName shell.locale name = true) (hwritable : Writable shell name)
    (records : List Bytes) :
    ∃ t, storeRecords host name requested records shell = .done () t ∧
      variableValue t name = some
        (setRecords requested.origin 0 records (requested.base shell name)) := by
  have hopen : ∀ old, shell.entry name = some old →
      ¬ (old.attributes.readOnly = true ∧ ReadOnlyGuard.enforce = .enforce) := by
    rintro old hold ⟨hreadOnly, _⟩
    unfold Writable variableAttributes at hwritable
    rw [hold] at hwritable
    exact absurd hreadOnly (Bool.eq_false_iff.mp hwritable)
  obtain ⟨t, hstore, hvalue⟩ := store_writes hhost hvalid
    (setRecords requested.origin 0 records (requested.base shell name)) hopen
  refine ⟨t, ?_, hvalue⟩
  have hname : rejectBadName name shell = .done () shell := by
    unfold rejectBadName
    rw [if_pos hvalid]
  have hreadOnly : rejectReadOnly name .enforce shell = .done () shell := by
    unfold rejectReadOnly
    rw [if_neg (by decide), if_neg (Bool.eq_false_iff.mp hwritable)]
  show assignValue host name _ shell = _
  unfold assignValue
  rw [Run.bind_done hname, Run.bind_done hreadOnly]
  exact hstore

variable (host requested) in
/-- Storing where the name may not be assigned to fails. -/
theorem storeRecords_failed {shell : Shell W} (hvalid : validName shell.locale name = true)
    (hwritable : ¬ Writable shell name) (records : List Bytes) :
    ∃ e t, storeRecords host name requested records shell = .failed e t := by
  have hname : rejectBadName name shell = .done () shell := by
    unfold rejectBadName
    rw [if_pos hvalid]
  have hreadOnly : ∃ e t, rejectReadOnly name .enforce shell = .failed e t := by
    unfold rejectReadOnly
    rw [if_neg (by decide), if_pos (by simpa [Writable] using hwritable)]
    exact ⟨_, _, rfl⟩
  obtain ⟨e, t, hfailed⟩ := hreadOnly
  refine ⟨e, t, ?_⟩
  show assignValue host name _ shell = _
  unfold assignValue
  rw [Run.bind_done hname, Run.bind_failed hfailed]

/-- What an invocation that comes to its source does. -/
theorem run_reads (host : Host W) (h : Begins refused args filling requested name bytes)
    (hfuel : bytes.length < fuel) :
    ∃ stream rest, stream.Holds rest ∧
      (requested.taken (Terminated.pieces requested.delimiter bytes)).flatten ++ rest = bytes ∧
      run host refused fuel args filling =
        (do
          onShell (storeRecords host name requested
            (requested.kept (Terminated.pieces requested.delimiter bytes)))
          pure 0 : Run (Filling W) Error ExitStatus)
        { filling with
          streams := Function.update filling.streams requested.descriptor stream } := by
  obtain ⟨operands, hparse, rfl⟩ := h.parsed
  obtain ⟨stream, rest, hread, hrest, hflatten⟩ :=
    readRecords_takes requested serves_streamSource hfuel h.holds
  refine ⟨stream, rest, hrest, hflatten, ?_⟩
  have hstream : onStream requested.descriptor (readRecords streamSource requested fuel) filling =
      .done (requested.kept (Terminated.pieces requested.delimiter bytes)) { filling with
        streams := Function.update filling.streams requested.descriptor stream } := by
    unfold onStream Run.within
    rw [hread]
  unfold run
  rw [hparse]
  show (if validName filling.shell.locale (nameOf operands) = false then _ else _ :
    Run (Filling W) Error ExitStatus) filling = _
  rw [if_neg (by rw [h.valid]; decide), h.opened]
  exact Run.bind_done hstream _

/-- The elements `store` builds on. -/
def Requested.baseValues (requested : Requested) (before : Option VariableValue) :
    Std.ExtTreeMap UInt64 Bytes :=
  match requested.keepsExisting, before with
  | true, some (.indexed values) => values
  | _, _ => ∅

theorem base_eq (requested : Requested) (shell : Shell W) (name : Bytes) :
    requested.base shell name = .indexed (requested.baseValues (variableValue shell name)) := by
  unfold Requested.base Requested.baseValues
  cases requested.keepsExisting with
  | false => rfl
  | true =>
    rw [if_pos rfl]
    cases variableValue shell name with
    | none => rfl
    | some value => cases value <;> rfl

theorem elementAt_none (index : Nat) :
    elementAt (.indexed ∅) (.index index) = none := by
  rw [elementAt, Std.ExtTreeMap.getElem?_empty, ite_self]

/-- The elements stored are those the array is to have exactly where there is room. -/
theorem element_iff (requested : Requested) (before : Option VariableValue)
    (records : List Bytes) :
    (∀ subscript, elementAt (setRecords requested.origin 0 records
        (.indexed (requested.baseValues before))) subscript =
          requested.element records before subscript) ↔
      RoomFor requested records.length before := by
  constructor
  · intro h
    have hroom : requested.origin.toNat + records.length ≤ 2 ^ 64 := by
      by_contra hfull
      have hbelow := requested.origin.toNat_lt
      obtain ⟨values, hvalues⟩ := kind_setRecords requested.origin 0 records
        (requested.baseValues before)
      have hlast := h (.index (requested.origin.toNat + records.length - 1))
      rw [hvalues, elementAt, if_neg (by omega), Requested.element, if_pos (by omega),
        show requested.origin.toNat + records.length - 1 - requested.origin.toNat =
          records.length - 1 by omega, List.getElem?_eq_getElem (by omega)] at hlast
      cases hlast
    refine ⟨hroom, fun hkeeps => ?_⟩
    cases before with
    | none => trivial
    | some value =>
      cases value with
      | indexed values => trivial
      | associative values =>
        intro key
        obtain ⟨values', hvalues⟩ := kind_setRecords requested.origin 0 records
          (requested.baseValues (some (.associative values)))
        have hkey := h (.key key)
        rw [hvalues, Requested.element, if_pos hkeeps] at hkey
        exact hkey.symm
      | scalar value =>
        have hzero := h (.index 0)
        have hbase : requested.baseValues (some (.scalar value)) = ∅ := by
          unfold Requested.baseValues
          rw [hkeeps]
        rw [elementAt_setRecords (by omega), hbase, elementAt_none, Option.or_none,
          Requested.element, if_pos hkeeps, Option.bind_some] at hzero
        by_cases horigin : requested.origin = 0
        · refine ⟨horigin, ?_⟩
          by_contra hempty
          obtain rfl : records = [] := List.eq_nil_of_length_eq_zero (by omega)
          rw [horigin] at hzero
          cases hzero
        · have hpositive : ¬ requested.origin.toNat + 0 ≤ 0 := fun hle =>
            horigin (UInt64.toNat_inj.mp (by simpa using hle))
          rw [if_neg hpositive, if_neg (by simpa using hpositive)] at hzero
          cases hzero
  · rintro ⟨hroom, hkept⟩ subscript
    cases subscript with
    | key key =>
      obtain ⟨values, hvalues⟩ := kind_setRecords requested.origin 0 records
        (requested.baseValues before)
      rw [hvalues, Requested.element]
      show none = if requested.keepsExisting = true then _ else none
      split
      · next hkeeps =>
        have hother := hkept hkeeps
        cases before with
        | none => rfl
        | some value =>
          cases value with
          | scalar value => rfl
          | indexed values => rfl
          | associative values => exact (hother key).symm
      · rfl
    | index index =>
      rw [elementAt_setRecords (by omega), Nat.add_zero, Requested.element]
      unfold Requested.baseValues
      cases hkeeps : requested.keepsExisting with
      | false =>
        rw [elementAt_none]
        rfl
      | true =>
        have hother := hkept hkeeps
        cases before with
        | none =>
          rw [elementAt_none]
          rfl
        | some value =>
          cases value with
          | indexed values => rfl
          | associative values =>
            rw [elementAt_none]
            rfl
          | scalar value =>
            obtain ⟨horigin, hlength⟩ := hother
            rw [elementAt_none, horigin]
            show (if 0 ≤ index then (records[index - 0]?).or none else none) =
              if 0 ≤ index then (records[index - 0]?).or (if index = 0 then some value else none)
              else if index = 0 then some value else none
            rw [if_pos (Nat.zero_le index), if_pos (Nat.zero_le index), Nat.sub_zero]
            by_cases hindex : index = 0
            · rw [hindex, List.getElem?_eq_getElem hlength]
              rfl
            · rw [if_neg hindex]

/-- Where the name may be assigned to, the records are stored over the base. -/
theorem run_writes (hhost : Apart host) (h : Begins refused args filling requested name bytes)
    (hfuel : bytes.length < fuel) (hwritable : Writable filling.shell name) :
    ∃ after rest, run host refused fuel args filling = .done 0 after ∧
      (after.streams requested.descriptor).Holds rest ∧
      (requested.taken (Terminated.pieces requested.delimiter bytes)).flatten ++ rest = bytes ∧
      variableValue after.shell name = some (setRecords requested.origin 0
        (requested.kept (Terminated.pieces requested.delimiter bytes))
        (.indexed (requested.baseValues (variableValue filling.shell name)))) := by
  obtain ⟨stream, rest, hrest, hflatten, hrun⟩ := run_reads host h hfuel
  obtain ⟨t, hstore, hvalue⟩ := storeRecords_done requested hhost h.valid
    hwritable (requested.kept (Terminated.pieces requested.delimiter bytes))
  rw [base_eq] at hvalue
  refine ⟨⟨t, Function.update filling.streams requested.descriptor stream⟩, rest, ?_, ?_,
    hflatten, hvalue⟩
  · rw [hrun]
    apply Run.bind_done
    unfold onShell Run.within
    rw [hstore]
  · show (Function.update filling.streams requested.descriptor stream
      requested.descriptor).Holds rest
    rw [Function.update_self]
    exact hrest

/-- Where it may not, the records are taken all the same, and nothing is stored. -/
theorem run_denied (host : Host W) (h : Begins refused args filling requested name bytes)
    (hfuel : bytes.length < fuel) (hwritable : ¬ Writable filling.shell name) :
    ∃ after rest, (run host refused fuel args).Ends filling after ∧
      (after.streams requested.descriptor).Holds rest ∧
      (requested.taken (Terminated.pieces requested.delimiter bytes)).flatten ++ rest = bytes := by
  obtain ⟨stream, rest, hrest, hflatten, hrun⟩ := run_reads host h hfuel
  obtain ⟨e, t, hstore⟩ := storeRecords_failed host requested h.valid
    hwritable (requested.kept (Terminated.pieces requested.delimiter bytes))
  refine ⟨⟨t, Function.update filling.streams requested.descriptor stream⟩, rest,
    .inr ⟨e, ?_⟩, ?_, hflatten⟩
  · rw [hrun]
    apply Run.bind_failed
    unfold onShell Run.within
    rw [hstore]
  · show (Function.update filling.streams requested.descriptor stream
      requested.descriptor).Holds rest
    rw [Function.update_self]
    exact hrest

/-- An invocation that keeps every record had room for them. -/
theorem KeepsEveryRecord.room (hhost : Apart host)
    (h : Begins refused args filling requested name bytes) (hfuel : bytes.length < fuel)
    (hkeeps : KeepsEveryRecord host refused fuel args filling requested name bytes)
    (hwritable : Writable filling.shell name) :
    RoomFor requested (requested.kept (Terminated.pieces requested.delimiter bytes)).length
      (variableValue filling.shell name) := by
  obtain ⟨after, rest, hrun, _, _, hvalue⟩ := run_writes hhost h hfuel hwritable
  obtain ⟨_, _, _, _, _, hstored⟩ := hkeeps
  obtain ⟨hafter, value, hholds, hall⟩ := hstored hwritable
  rw [hrun] at hafter
  cases hafter
  rw [hvalue] at hholds
  cases hholds
  exact (element_iff requested (variableValue filling.shell name) _).mp hall

/-- **`mapfile` keeps every record** exactly where each has a subscript and, under `-O`, no
element of a scalar or of an associative array is left out. -/
theorem keepsEveryRecord_iff (hhost : Apart host)
    (h : Begins refused args filling requested name bytes) (hfuel : bytes.length < fuel) :
    KeepsEveryRecord host refused fuel args filling requested name bytes ↔
      (Writable filling.shell name →
        RoomFor requested (requested.kept (Terminated.pieces requested.delimiter bytes)).length
          (variableValue filling.shell name)) := by
  constructor
  · exact fun hkeeps => hkeeps.room hhost h hfuel
  · intro hroom
    by_cases hwritable : Writable filling.shell name
    · obtain ⟨after, rest, hrun, hrest, hflatten, hvalue⟩ := run_writes hhost h hfuel hwritable
      exact ⟨after, rest, .inl ⟨0, hrun⟩, hrest, hflatten, fun _ => ⟨hrun, _, hvalue,
        (element_iff requested (variableValue filling.shell name) _).mpr (hroom hwritable)⟩⟩
    · obtain ⟨after, rest, hrun, hrest, hflatten⟩ := run_denied host h hfuel hwritable
      exact ⟨after, rest, hrun, hrest, hflatten, fun hwrites => absurd hwrites hwritable⟩

end

/-- A shell with a scalar, and a descriptor with one line. -/
def scalarFilling : Filling Unit where
  shell := (blankShell .bash).insert (text "a") (.fresh (.set (.scalar (text "x"))) {} .none)
  streams _ := .descriptor (Descriptor.open (text "y\n"))

/-- `mapfile -u 3 -O 1 a` -/
def fromOne : List Bytes := [text "mapfile", text "-u", text "3", text "-O", text "1", text "a"]

theorem begins_fromOne : Begins (fun _ => none) fromOne scalarFilling
    { origin := 1, descriptor := some 3, keepsExisting := true } (text "a") (text "y\n") :=
  ⟨⟨[text "a"], by rfl, by rfl⟩, by rfl, rfl, by rfl⟩

theorem keepsEveryRecord_fromOne :
    KeepsEveryRecord Host.plain (fun _ => none) 3 fromOne scalarFilling
        { origin := 1, descriptor := some 3, keepsExisting := true } (text "a") (text "y\n") ↔
      (Writable scalarFilling.shell (text "a") →
        RoomFor { origin := 1, descriptor := some 3, keepsExisting := true } 1
          (variableValue scalarFilling.shell (text "a"))) :=
  keepsEveryRecord_iff apart_plain begins_fromOne (by decide)

/-- Under `-O` the value of a scalar is lost. -/
theorem not_keepsEveryRecord_scalar :
    ¬ ∀ (refused : Option UInt8 → Option Error) (fuel : Nat) (args : List Bytes)
        (filling : Filling Unit) (requested : Requested) (name bytes : Bytes),
      Begins refused args filling requested name bytes → bytes.length < fuel →
        KeepsEveryRecord Host.plain refused fuel args filling requested name bytes := by
  intro h
  have hkeeps := h _ 3 _ _ _ _ _ begins_fromOne (by decide)
  have hwritable : Writable scalarFilling.shell (text "a") := by rfl
  have hroom := hkeeps.room apart_plain begins_fromOne (by decide) hwritable
  have hvalue : variableValue scalarFilling.shell (text "a") = some (.scalar (text "x")) := by
    rfl
  rw [hvalue] at hroom
  exact absurd (hroom.2 rfl).1 (by decide)

end Nsh.Mapfile
