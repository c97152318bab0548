import Mathlib.Data.List.TakeWhile
import Nsh.Expand.Split

/-!
# Field splitting of a line

The splitter behind `read`: a pass over the regions of a line that no backslash
protected, which remembers where the field being read begins and whether white space
has just ended one.  Eight bytes at a time are passed over when none of them is in
`IFS`.  `splitFields_eq_split` says that with room for all the fields it is the
splitting of the line at the bytes it takes for separators.
-/

namespace Nsh.Expand

/-- A byte range eligible for field splitting. -/
structure FieldSplitRegion where
  start : Nat
  stop : Nat
deriving DecidableEq, Repr

structure FieldSplitState where
  fieldStart : Nat
  trailingWhitespaceStart : Option Nat
  remainingFields : Nat
  separatorIsWhitespace : Bool
deriving DecidableEq, Repr

structure IfsMembership where
  separator : Bool
  defaultWhitespace : Bool
deriving DecidableEq, Repr

variable {W : Type}

/-- `classify_ifs`. -/
def classifyIfs (shell : Shell W) (bytes : Bytes) (multibyteLength : Nat) : IfsMembership :=
  let first := bytes.headD 0
  let classified (wide : Wide) (separator : Bool) (firstSeparator : Option Wide) : IfsMembership :=
    { separator := separator
      defaultWhitespace := separator &&
        shell.locale.wideIsSpace (if wide ≠ 0 then wide else firstSeparator.getD wide) }
  if shell.ifs.bytes ≠ [] ∧ shell.ifs.wideCharacters ≠ [] then
    match (if first < 0x80 then some first.toNat
        else shell.locale.decodeExact (bytes.take multibyteLength)) with
    | none => ⟨false, false⟩
    | some wide =>
      classified wide (shell.ifs.wideCharacters.contains wide) shell.ifs.wideCharacters.head?
  else if multibyteLength ≤ 1 then
    classified first.toNat (shell.ifs.bytes.contains first) (shell.ifs.bytes.head?.map UInt8.toNat)
  else classified first.toNat false none

/-- One character of a region: the state behind it, the field it ends and where it
    ends. -/
def splitFieldsSlow (shell : Shell W) (state : FieldSplitState) (string : Bytes) (cursor : Nat) :
    FieldSplitState × List Bytes × Nat :=
  let multibyteLength :=
    match string[cursor]? with
    | none => 0
    | some byte => if byte < 0x80 then 1 else shell.locale.width (string.drop cursor)
  let membership := classifyIfs shell (string.drop cursor) multibyteLength
  let next := cursor + max multibyteLength 1
  let settled (state : FieldSplitState) : FieldSplitState :=
    { state with separatorIsWhitespace := false }
  if state.remainingFields = 0 then
    if membership.defaultWhitespace then
      ({ state with trailingWhitespaceStart := state.trailingWhitespaceStart.or (some cursor) }, [],
        next)
    else if !(membership.separator && state.separatorIsWhitespace) then
      (settled { state with trailingWhitespaceStart := none }, [], next)
    else (settled state, [], next)
  else if state.separatorIsWhitespace then
    let state := { state with fieldStart := if membership.separator then next else cursor }
    if membership.defaultWhitespace then (state, [], next) else (settled state, [], next)
  else if membership.separator then
    if cursor = state.fieldStart ∧ membership.defaultWhitespace = true then
      (settled { state with fieldStart := next }, [], next)
    else
      let state := { state with
        separatorIsWhitespace := membership.defaultWhitespace
        remainingFields := state.remainingFields - 1 }
      if state.remainingFields = 0 then
        ({ state with trailingWhitespaceStart := some cursor }, [], next)
      else
        ({ state with fieldStart := next }, [string.extract state.fieldStart cursor], next)
  else (settled state, [], next)

/-- Whether eight bytes are ASCII and none of them is in `IFS`. -/
def plainChunk (shell : Shell W) (chunk : Bytes) : Bool :=
  chunk.all fun byte => decide (byte < 0x80) && !shell.ifs.asciiMembership byte

/-- The loop over eight bytes at a time. -/
def skipChunks (shell : Shell W) (string : Bytes) (stop : Nat) : Nat → Nat → Nat
  | 0, cursor => cursor
  | fuel + 1, cursor =>
    if cursor + 8 ≤ stop ∧ plainChunk shell (string.extract cursor (cursor + 8)) = true then
      skipChunks shell string stop fuel (cursor + 8)
    else cursor

/-- What passing over plain bytes does to the state. -/
def FieldSplitState.passed (state : FieldSplitState) (scanStart : Nat) : FieldSplitState :=
  { state with
    trailingWhitespaceStart :=
      if state.remainingFields = 0 then none else state.trailingWhitespaceStart
    fieldStart :=
      if state.remainingFields ≠ 0 ∧ state.separatorIsWhitespace = true then scanStart
      else state.fieldStart
    separatorIsWhitespace := false }

/-- The loop over one region. -/
def splitRegion (shell : Shell W) (string : Bytes) (stop : Nat) :
    Nat → FieldSplitState → Nat → FieldSplitState × List Bytes
  | 0, state, _ => (state, [])
  | fuel + 1, state, scanStart =>
    let cursor := skipChunks shell string stop (stop - scanStart) scanStart
    let state := if cursor ≠ scanStart then state.passed scanStart else state
    if stop ≤ cursor then (state, [])
    else
      let (state, fields, next) := splitFieldsSlow shell state string cursor
      let (state, others) := splitRegion shell string stop fuel state next
      (state, fields ++ others)

/-- The loop over the regions; `accounted` is how far they have come. -/
def splitRegions (shell : Shell W) (string : Bytes) :
    List FieldSplitRegion → Nat → FieldSplitState → FieldSplitState × List Bytes
  | [], accounted, state =>
    (if accounted < string.length then { state with trailingWhitespaceStart := none }
      else state, [])
  | region :: regions, accounted, state =>
    let state := { state with
      trailingWhitespaceStart :=
        if accounted < region.start then none else state.trailingWhitespaceStart
      separatorIsWhitespace := false }
    let (state, fields) :=
      splitRegion shell string region.stop (region.stop - region.start + 1) state region.start
    let (state, others) := splitRegions shell string regions region.stop state
    (state, fields ++ others)

def splitRegionsIntoFields (shell : Shell W) (regions : List FieldSplitRegion) (string : Bytes)
    (maxFields : Nat) : List Bytes :=
  let (state, fields) := splitRegions shell string regions 0 ⟨0, none, maxFields, false⟩
  let finalEnd := state.trailingWhitespaceStart.getD string.length
  if finalEnd ≤ state.fieldStart then fields
  else fields ++ [string.extract state.fieldStart finalEnd]

/-- The regions of a mask from `index` on, `start` being where an open one began. -/
def unprotectedRegions (length : Nat) : List Bool → Nat → Option Nat → List FieldSplitRegion
  | [], _, none => []
  | [], _, some start => [⟨start, length⟩]
  | false :: mask, index, none => unprotectedRegions length mask (index + 1) (some index)
  | true :: mask, index, some start =>
    ⟨start, index⟩ :: unprotectedRegions length mask (index + 1) none
  | _ :: mask, index, start => unprotectedRegions length mask (index + 1) start

def splitFields (shell : Shell W) (string : Bytes) (mask : List Bool) (maxFields : Nat) :
    List Bytes :=
  splitRegionsIntoFields shell (unprotectedRegions string.length mask 0 none) string maxFields

/-! ### The bytes taken for separators -/

/-- The bytes of `IFS` that the splitter of a line knows: with a byte past ASCII among
    them only those before the first the locale cannot decode. -/
def readableIfs (locale : Locale) (ifs : Bytes) : Bytes :=
  if ifs.any fun byte => decide (0x80 ≤ byte) then
    ifs.takeWhile fun byte => (locale.decodeExact [byte]).isSome
  else ifs

/-- Whether the locale calls the byte a space. -/
def isSpaceByte (locale : Locale) (byte : UInt8) : Bool :=
  ((locale.decodeExact [byte]).map locale.wideIsSpace).getD false

/-- What a byte of the line is, the flag being its protection. -/
def lineRole (locale : Locale) (separators : Bytes) (mark : UInt8 × Bool) : Role :=
  if mark.2 = false ∧ mark.1 ∈ separators then
    if isSpaceByte locale mark.1 then .white else .delimiter
  else .datum

section

variable {shell : Shell W} {ifs : Bytes} {byte : UInt8}

/-- An `IFS` the locale decodes, or one of ASCII bytes, is known as a whole. -/
theorem readableIfs_eq {locale : Locale}
    (h : (∀ byte ∈ ifs, byte < 0x80) ∨ ∀ byte ∈ ifs, (locale.decodeExact [byte]).isSome = true) :
    readableIfs locale ifs = ifs := by
  unfold readableIfs
  split_ifs with hwide
  · rcases h with hascii | hdecodes
    · obtain ⟨byte, hmem, hbyte⟩ := List.any_eq_true.mp hwide
      exact absurd (hascii byte hmem) (UInt8.not_lt.mpr (of_decide_eq_true hbyte))
    · exact List.takeWhile_eq_self_iff.mpr hdecodes
  · rfl

theorem readableIfs_subset (locale : Locale) (ifs : Bytes) (h : byte ∈ readableIfs locale ifs) :
    byte ∈ ifs := by
  unfold readableIfs at h
  split at h
  · exact (List.takeWhile_sublist _).subset h
  · exact h

theorem lt_of_not_any {ifs : Bytes} (h : ¬ (ifs.any fun byte => decide (0x80 ≤ byte)) = true)
    (hmem : byte ∈ ifs) : byte < 0x80 := by
  by_contra hge
  exact h (List.any_eq_true.mpr ⟨byte, hmem, by simpa using hge⟩)

theorem isSpaceByte_ascii (h : shell.locale.Charmap) (hne : byte ≠ 0) (hlt : byte < 0x80) :
    isSpaceByte shell.locale byte = shell.locale.wideIsSpace byte.toNat := by
  rw [isSpaceByte, h.decode_ascii byte hne hlt]
  rfl

/-- Among decoded characters a byte's own is there exactly when the byte is. -/
theorem mem_decoded (h : shell.locale.Charmap) {wide : Wide} {ifs : Bytes} (spare : Nat)
    (hbyte : shell.locale.decodeExact [byte] = some wide) :
    wide ∈ (ifs.takeWhile fun b => (shell.locale.decodeExact [b]).isSome).filterMap
        (fun b => shell.locale.decodeExact [b]) ++ List.replicate spare 0 ↔
      byte ∈ ifs.takeWhile fun b => (shell.locale.decodeExact [b]).isSome := by
  have hzero : wide ≠ 0 := by
    rintro rfl
    exact h.decode_ne_zero byte hbyte
  rw [List.mem_append, List.mem_filterMap, List.mem_replicate]
  constructor
  · rintro (⟨other, hmem, hother⟩ | ⟨-, rfl⟩)
    · rw [h.decode_inj byte other wide hbyte hother]
      exact hmem
    · exact absurd rfl hzero
  · intro hmem
    exact Or.inl ⟨byte, hmem, hbyte⟩

/-- Classifying a byte with a table of decoded characters. -/
theorem classifyIfs_wide (h : shell.locale.Charmap) (hne : byte ≠ 0) (hbytes : shell.ifs.bytes ≠ [])
    (hwide : shell.ifs.wideCharacters ≠ []) (rest : Bytes) :
    classifyIfs shell (byte :: rest) 1 =
      match shell.locale.decodeExact [byte] with
      | none => ⟨false, false⟩
      | some wide => ⟨decide (wide ∈ shell.ifs.wideCharacters),
          decide (wide ∈ shell.ifs.wideCharacters) && isSpaceByte shell.locale byte⟩ := by
  have hnat : byte.toNat ≠ 0 := fun hzero => hne (UInt8.toNat_inj.mp hzero)
  rw [classifyIfs, if_pos ⟨hbytes, hwide⟩]
  by_cases hlt : byte < 0x80
  · rw [isSpaceByte_ascii h hne hlt, h.decode_ascii byte hne hlt]
    simp [hlt, hnat]
  · cases hbyte : shell.locale.decodeExact [byte] with
    | none => simp [hlt, hbyte]
    | some wide =>
      have hzero : wide ≠ 0 := by
        rintro rfl
        exact h.decode_ne_zero byte hbyte
      simp [hlt, hbyte, hzero, isSpaceByte]

/-- Classifying a byte with a table of bytes alone. -/
theorem classifyIfs_narrow (hne : byte ≠ 0) (hwide : shell.ifs.wideCharacters = [])
    (rest : Bytes) :
    classifyIfs shell (byte :: rest) 1 =
      ⟨decide (byte ∈ shell.ifs.bytes),
        decide (byte ∈ shell.ifs.bytes) && shell.locale.wideIsSpace byte.toNat⟩ := by
  have hnat : byte.toNat ≠ 0 := fun hzero => hne (UInt8.toNat_inj.mp hzero)
  rw [classifyIfs, if_neg (by simp [hwide]), if_pos (le_refl 1)]
  simp [hnat]

/-- Classifying a byte asks whether it is a separator and whether it is a space. -/
theorem classifyIfs_eq (h : shell.locale.Charmap) (hne : byte ≠ 0) (rest : Bytes) :
    classifyIfs (Variables.updateIfsCache ifs shell) (byte :: rest) 1 =
      ⟨decide (byte ∈ readableIfs shell.locale ifs),
        decide (byte ∈ readableIfs shell.locale ifs) && isSpaceByte shell.locale byte⟩ := by
  have hchars : (Variables.updateIfsCache ifs shell).ifs.wideCharacters =
      if ifs.any fun byte => decide (0x80 ≤ byte) then (shell.locale.wideChars ifs).2 else [] := rfl
  have hbytes : (Variables.updateIfsCache ifs shell).ifs.bytes = ifs := rfl
  unfold readableIfs
  by_cases hwide : (ifs.any fun byte => decide (0x80 ≤ byte)) = true
  · have hifs : ifs ≠ [] := by
      rintro rfl
      simp at hwide
    obtain ⟨spare, hspare, hdecoded⟩ := h.wideChars ifs hifs
    rw [if_pos hwide] at hchars
    have hfilled : (Variables.updateIfsCache ifs shell).ifs.wideCharacters ≠ [] := by
      rw [hchars, hdecoded]
      simp
      omega
    have hcharmap : (Variables.updateIfsCache ifs shell).locale.Charmap := h
    rw [classifyIfs_wide hcharmap hne hifs hfilled, hchars, hdecoded, if_pos hwide]
    show (match shell.locale.decodeExact [byte] with
      | none => _
      | some wide => _) = _
    cases hbyte : shell.locale.decodeExact [byte] with
    | none =>
      have hout : byte ∉ ifs.takeWhile fun b => (shell.locale.decodeExact [b]).isSome := by
        intro hmem
        have := List.all_eq_true.mp List.all_takeWhile byte hmem
        simp [hbyte] at this
      simp [hout]
    | some wide =>
      simp only [mem_decoded h spare hbyte]
      rfl
  · rw [if_neg hwide] at hchars
    rw [if_neg hwide, classifyIfs_narrow hne hchars, hbytes]
    by_cases hmem : byte ∈ ifs
    · rw [isSpaceByte_ascii h hne (lt_of_not_any hwide hmem)]
      rfl
    · simp [hmem]

/-- A chunk that is passed over holds data only. -/
theorem lineRole_plainChunk {chunk : Bytes}
    (hchunk : plainChunk (Variables.updateIfsCache ifs shell) chunk = true) (hmem : byte ∈ chunk) :
    byte ∉ readableIfs shell.locale ifs := by
  have hplain := List.all_eq_true.mp hchunk byte hmem
  simp only [Variables.updateIfsCache, Bool.and_eq_true, decide_eq_true_eq, Bool.not_eq_true',
    Bool.and_eq_false_iff, decide_eq_false_iff_not] at hplain
  intro hin
  have hifs := readableIfs_subset shell.locale ifs hin
  rcases hplain.2 with hnot | hnot
  · exact hnot hplain.1
  · rw [List.contains_iff_mem.mpr hifs] at hnot
    cases hnot

end

/-! ### Where the pass stands -/

/-- The line as the splitter sees it: every byte with its protection. -/
abbrev Line := List (UInt8 × Bool)

/-- The state stands for this place at the cursor, and fields are left for every byte to
    come. -/
structure Reached (line : Line) (state : FieldSplitState) (place : Place (UInt8 × Bool))
    (cursor : Nat) : Prop where
  within : cursor ≤ line.length
  trailing : state.trailingWhitespaceStart = none
  room : line.length < state.remainingFields + cursor
  started : state.fieldStart ≤ cursor
  stands : place =
    if state.fieldStart < cursor then .field (line.extract state.fieldStart cursor)
    else if state.separatorIsWhitespace = true then .behind else .between
  white : state.separatorIsWhitespace = true → state.fieldStart = cursor

/-- The pass has come from a place at one cursor to a state at a later one, and emitted
    these fields on the way. -/
def Advanced (role : UInt8 × Bool → Role) (line : Line) (place : Place (UInt8 × Bool))
    (cursor : Nat) (fields : List Bytes) (state' : FieldSplitState) (cursor' : Nat) : Prop :=
  ∃ place', Reached line state' place' cursor' ∧
    (splitFrom role place (line.drop cursor)).map (List.map Prod.fst) =
      fields ++ (splitFrom role place' (line.drop cursor')).map (List.map Prod.fst)

section

variable {role : UInt8 × Bool → Role} {line : Line} {state state' : FieldSplitState}
  {place : Place (UInt8 × Bool)} {cursor cursor' : Nat}

theorem Reached.data (h : Reached line state place cursor) :
    place.data = line.extract state.fieldStart cursor := by
  rw [h.stands]
  split
  · rfl
  · have hle := h.started
    obtain heq : state.fieldStart = cursor := by omega
    rw [heq, extract_self]
    split <;> rfl

/-- Nothing is emitted over data, and they leave the pass inside a field. -/
theorem Reached.datums (h : Reached line state place cursor) (hlt : cursor < cursor')
    (hle : cursor' ≤ line.length)
    (hdatum : ∀ mark ∈ line.extract cursor cursor', role mark = .datum)
    (hstart : state'.fieldStart = state.fieldStart)
    (htrailing : state'.trailingWhitespaceStart = none)
    (hremaining : state'.remainingFields = state.remainingFields)
    (hwhite : state'.separatorIsWhitespace = false) :
    Advanced role line place cursor [] state' cursor' := by
  have hstarted := h.started
  refine ⟨.field (line.extract state.fieldStart cursor'), ?_, ?_⟩
  · constructor
    · exact hle
    · exact htrailing
    · have := h.room
      omega
    · omega
    · rw [hstart, if_pos (by omega)]
    · rw [hwhite]
      exact nofun
  · have hsplit : line.drop cursor = line.extract cursor cursor' ++ line.drop cursor' := by
      rw [List.extract_eq_take_drop]
      have hdrop : line.drop cursor' = (line.drop cursor).drop (cursor' - cursor) := by
        rw [List.drop_drop, Nat.add_sub_cancel' (le_of_lt hlt)]
      rw [hdrop, List.take_append_drop]
    have hne : line.extract cursor cursor' ≠ [] := by
      intro hempty
      have hlength := length_extract (i := cursor) hle
      rw [hempty, List.length_nil] at hlength
      omega
    rw [hsplit, splitFrom_datums hdatum hne, h.data, extract_append hstarted (le_of_lt hlt)]
    rfl

theorem Advanced.trans {fields others : List Bytes} {middle : FieldSplitState} {k : Nat}
    (h : Advanced role line place cursor fields middle k)
    (h' : ∀ place', Reached line middle place' k →
      Advanced role line place' k others state' cursor') :
    Advanced role line place cursor (fields ++ others) state' cursor' := by
  obtain ⟨place', hreached, hsplit⟩ := h
  obtain ⟨place'', hreached', hsplit'⟩ := h' place' hreached
  exact ⟨place'', hreached', by rw [hsplit, hsplit', List.append_assoc]⟩

end

/-! ### One character -/

section

variable {shell : Shell W} {ifs string : Bytes} {mask : List Bool} {state : FieldSplitState}
  {place : Place (UInt8 × Bool)} {cursor : Nat} {byte : UInt8}

/-- What one character does to the state while fields are left. -/
theorem splitFieldsSlow_eq (h : shell.locale.Charmap) (hne : byte ≠ 0)
    (hbyte : string[cursor]? = some byte) (hremaining : 2 ≤ state.remainingFields) :
    splitFieldsSlow (Variables.updateIfsCache ifs shell) state string cursor =
      match lineRole shell.locale (readableIfs shell.locale ifs) (byte, false),
        state.separatorIsWhitespace with
      | .datum, true =>
        ({ state with fieldStart := cursor, separatorIsWhitespace := false }, [], cursor + 1)
      | .datum, false => ({ state with separatorIsWhitespace := false }, [], cursor + 1)
      | .white, true => ({ state with fieldStart := cursor + 1 }, [], cursor + 1)
      | .delimiter, true =>
        ({ state with fieldStart := cursor + 1, separatorIsWhitespace := false }, [], cursor + 1)
      | .white, false =>
        if cursor = state.fieldStart then
          ({ state with fieldStart := cursor + 1, separatorIsWhitespace := false }, [], cursor + 1)
        else
          ({ state with
              fieldStart := cursor + 1
              separatorIsWhitespace := true
              remainingFields := state.remainingFields - 1 },
            [string.extract state.fieldStart cursor], cursor + 1)
      | .delimiter, false =>
        ({ state with
            fieldStart := cursor + 1
            separatorIsWhitespace := false
            remainingFields := state.remainingFields - 1 },
          [string.extract state.fieldStart cursor], cursor + 1) := by
  obtain ⟨hlt, hget⟩ := List.getElem?_eq_some_iff.mp hbyte
  have hdrop : string.drop cursor = byte :: string.drop (cursor + 1) := by
    rw [List.drop_eq_getElem_cons hlt, hget]
  have hwidth : (if byte < 0x80 then 1
      else (Variables.updateIfsCache ifs shell).locale.width (string.drop cursor)) = 1 := by
    split
    · rfl
    · exact h.singleByte.width_eq _
  have hzero : state.remainingFields ≠ 0 := by omega
  have hone : state.remainingFields - 1 ≠ 0 := by omega
  unfold splitFieldsSlow
  simp only [hbyte, hwidth]
  rw [hdrop, classifyIfs_eq h hne]
  unfold lineRole
  by_cases hmem : byte ∈ readableIfs shell.locale ifs
  · cases isSpaceByte shell.locale byte with
    | true =>
      cases state.separatorIsWhitespace with
      | true => simp [hmem, hzero]
      | false => simp [hmem, hzero, hone]
    | false =>
      cases state.separatorIsWhitespace with
      | true => simp [hmem, hzero]
      | false => simp [hmem, hzero, hone]
  · cases state.separatorIsWhitespace with
    | true => simp [hmem, hzero]
    | false => simp [hmem, hzero]

theorem zip_getElem? {string : Bytes} {mask : List Bool} {cursor : Nat} {byte : UInt8} {flag : Bool}
    (hbyte : string[cursor]? = some byte) (hflag : mask[cursor]? = some flag) :
    (string.zip mask)[cursor]? = some (byte, flag) := by
  rw [List.getElem?_zip_eq_some]
  exact ⟨hbyte, hflag⟩

theorem map_fst_extract (hlength : mask.length = string.length) (i j : Nat) :
    ((string.zip mask).extract i j).map Prod.fst = string.extract i j := by
  rw [List.extract_eq_take_drop, List.extract_eq_take_drop, List.map_take, List.map_drop,
    List.map_fst_zip (by omega)]

/-- One character of an unprotected stretch. -/
theorem Reached.slow (ifs : Bytes) (h : shell.locale.Charmap)
    (hlength : mask.length = string.length)
    (hreached : Reached (string.zip mask) state place cursor) (hne : byte ≠ 0)
    (hbyte : string[cursor]? = some byte) (hflag : mask[cursor]? = some false) :
    let out := splitFieldsSlow (Variables.updateIfsCache ifs shell) state string cursor
    out.2.2 = cursor + 1 ∧
      Advanced (lineRole shell.locale (readableIfs shell.locale ifs)) (string.zip mask) place cursor
        out.2.1 out.1 (cursor + 1) := by
  have hmark := zip_getElem? hbyte hflag
  obtain ⟨hlt, hget⟩ := List.getElem?_eq_some_iff.mp hmark
  have hroom := hreached.room
  have hstarted := hreached.started
  have hdrop : (string.zip mask).drop cursor =
      (byte, false) :: (string.zip mask).drop (cursor + 1) := by
    rw [List.drop_eq_getElem_cons hlt, hget]
  -- every outcome stands behind the character, with nothing or one field emitted
  have behind {state' : FieldSplitState} {fields : List Bytes} {place' : Place (UInt8 × Bool)}
      (hreached' : Reached (string.zip mask) state' place' (cursor + 1))
      (hsplit : ∀ rest, (splitFrom (lineRole shell.locale (readableIfs shell.locale ifs)) place
          ((byte, false) :: rest)).map (List.map Prod.fst) =
        fields ++ (splitFrom (lineRole shell.locale (readableIfs shell.locale ifs)) place'
          rest).map (List.map Prod.fst)) :
      Advanced (lineRole shell.locale (readableIfs shell.locale ifs)) (string.zip mask) place cursor
        fields state' (cursor + 1) :=
    ⟨place', hreached', by rw [hdrop, hsplit]⟩
  have htrailing := hreached.trailing
  have hdata := hreached.data
  have hstands := hreached.stands
  -- a state that begins a field behind the character
  have fresh (white : Bool) {remaining : Nat} (hremaining : state.remainingFields ≤ remaining + 1) :
      Reached (string.zip mask)
        { state with fieldStart := cursor + 1, separatorIsWhitespace := white,
                     remainingFields := remaining }
        (if white then .behind else .between) (cursor + 1) := by
    constructor
    · exact hlt
    · exact htrailing
    · simp only
      omega
    · exact le_refl _
    · simp
    · intro _
      rfl
  rw [splitFieldsSlow_eq h hne hbyte (by omega)]
  cases hrole : lineRole shell.locale (readableIfs shell.locale ifs) (byte, false) with
  | datum =>
    have hdatum : ∀ mark ∈ (string.zip mask).extract cursor (cursor + 1),
        lineRole shell.locale (readableIfs shell.locale ifs) mark = .datum := by
      intro mark hmem
      have hone : (string.zip mask).extract cursor (cursor + 1) = [(byte, false)] := by
        rw [← hget]
        simp [List.extract_eq_take_drop, List.take_one, List.getElem?_eq_getElem hlt]
      rw [hone, List.mem_singleton] at hmem
      rw [hmem, hrole]
    cases hwhite : state.separatorIsWhitespace with
    | true =>
      exact ⟨rfl, hreached.datums (Nat.lt_succ_self cursor) hlt hdatum (hreached.white hwhite).symm
        htrailing rfl rfl⟩
    | false =>
      exact ⟨rfl, hreached.datums (Nat.lt_succ_self cursor) hlt hdatum rfl htrailing rfl rfl⟩
  | white =>
    cases hwhite : state.separatorIsWhitespace with
    | true =>
      have hplace : place = .behind := by
        rw [hstands, hreached.white hwhite, if_neg (lt_irrefl cursor), hwhite, if_pos rfl]
      refine ⟨rfl, behind (fresh true (Nat.le_succ _)) fun rest => ?_⟩
      rw [hplace, splitFrom_white_behind hrole]
      rfl
    | false =>
      by_cases hstart : cursor = state.fieldStart
      · have hplace : place = .between := by
          rw [hstands, if_neg (by omega), hwhite]
          rfl
        simp only [if_pos hstart]
        refine ⟨trivial, behind (fresh false (Nat.le_succ _)) fun rest => ?_⟩
        rw [hplace, splitFrom_white_between hrole]
        rfl
      · have hplace : place = .field ((string.zip mask).extract state.fieldStart cursor) := by
          rw [hstands, if_pos (by omega)]
        simp only [if_neg hstart]
        refine ⟨trivial, behind (fresh true (by omega)) fun rest => ?_⟩
        rw [hplace, splitFrom_white_field hrole, List.map_cons, map_fst_extract hlength]
        rfl
  | delimiter =>
    cases hwhite : state.separatorIsWhitespace with
    | true =>
      have hplace : place = .behind := by
        rw [hstands, hreached.white hwhite, if_neg (lt_irrefl cursor), hwhite, if_pos rfl]
      refine ⟨rfl, behind (fresh false (Nat.le_succ _)) fun rest => ?_⟩
      rw [hplace, splitFrom_delimiter_behind hrole]
      rfl
    | false =>
      refine ⟨rfl, behind (fresh false (by omega)) fun rest => ?_⟩
      have hout : splitFrom (lineRole shell.locale (readableIfs shell.locale ifs)) place
          ((byte, false) :: rest) =
          place.data :: splitFrom (lineRole shell.locale (readableIfs shell.locale ifs)) .between
            rest := by
        by_cases hstart : state.fieldStart < cursor
        · rw [hstands, if_pos hstart, splitFrom_delimiter_field hrole]
          rfl
        · rw [hstands, if_neg hstart, hwhite]
          exact splitFrom_delimiter_between hrole
      rw [hout, List.map_cons, hdata, map_fst_extract hlength]
      rfl

/-! ### One region -/

theorem Reached.stay {role : UInt8 × Bool → Role} {line : Line}
    (h : Reached line state place cursor) : Advanced role line place cursor [] state cursor :=
  ⟨place, h, rfl⟩

/-- Only data are passed over eight bytes at a time. -/
theorem skipChunks_spec (shell : Shell W) (ifs string : Bytes) {stop : Nat} (fuel : Nat)
    (hle : cursor ≤ stop) :
    let next := skipChunks (Variables.updateIfsCache ifs shell) string stop fuel cursor
    cursor ≤ next ∧ next ≤ stop ∧ ∀ i byte, cursor ≤ i → i < next → string[i]? = some byte →
      byte ∉ readableIfs shell.locale ifs := by
  induction fuel generalizing cursor with
  | zero =>
    refine ⟨le_refl _, hle, ?_⟩
    intro i byte hi hlt
    simp only [skipChunks] at hlt
    omega
  | succ fuel ih =>
    rw [skipChunks]
    split
    · next hchunk =>
      obtain ⟨hwithin, hplain⟩ := hchunk
      obtain ⟨hnext, hstop, hnone⟩ := ih hwithin
      refine ⟨by omega, hstop, ?_⟩
      intro i byte hi hlt hbyte
      by_cases hin : i < cursor + 8
      · apply lineRole_plainChunk hplain
        rw [List.mem_iff_getElem?]
        refine ⟨i - cursor, ?_⟩
        rw [List.extract_eq_take_drop, List.getElem?_take_of_lt (by omega), List.getElem?_drop,
          Nat.add_sub_cancel' hi]
        exact hbyte
      · exact hnone i byte (by omega) hlt hbyte
    · refine ⟨le_refl _, hle, ?_⟩
      intro i byte hi hlt
      omega

theorem splitRegion_advanced (ifs : Bytes) (h : shell.locale.Charmap)
    (hlength : mask.length = string.length)
    (hnul : (0 : UInt8) ∉ string) {stop : Nat} (hstop : stop ≤ string.length) (fuel : Nat)
    (hreached : Reached (string.zip mask) state place cursor) (hle : cursor ≤ stop)
    (hopen : ∀ i, cursor ≤ i → i < stop → mask[i]? = some false) (hfuel : stop - cursor < fuel) :
    let out := splitRegion (Variables.updateIfsCache ifs shell) string stop fuel state cursor
    Advanced (lineRole shell.locale (readableIfs shell.locale ifs)) (string.zip mask) place cursor
      out.2 out.1 stop := by
  have hline : (string.zip mask).length = string.length := by
    rw [List.length_zip, hlength, Nat.min_self]
  induction fuel generalizing state place cursor with
  | zero => omega
  | succ fuel ih =>
    rw [splitRegion]
    obtain ⟨hnext, hnextStop, hdata⟩ := skipChunks_spec shell ifs string
      (stop - cursor) hle
    generalize skipChunks (Variables.updateIfsCache ifs shell) string stop (stop - cursor) cursor =
      next at hnext hnextStop hdata ⊢
    -- the bytes that were passed over are data
    have hpassed : Advanced (lineRole shell.locale (readableIfs shell.locale ifs))
        (string.zip mask) place cursor [] (if next ≠ cursor then state.passed cursor else state)
        next := by
      split
      · next hmoved =>
        have hroom := hreached.room
        have hwithin := hreached.within
        apply hreached.datums (by omega) (by omega)
        · intro mark hmem
          obtain ⟨k, hk⟩ := List.mem_iff_getElem?.mp hmem
          have hlt : k < next - cursor := by
            have := (List.getElem?_eq_some_iff.mp hk).1
            rw [length_extract (by omega)] at this
            exact this
          rw [List.extract_eq_take_drop, List.getElem?_take_of_lt hlt, List.getElem?_drop,
            List.getElem?_zip_eq_some] at hk
          have hout := hdata (cursor + k) mark.1 (by omega) (by omega) hk.1
          rw [lineRole, if_neg (by simp [hout])]
        · unfold FieldSplitState.passed
          simp only
          split
          · next hwhite => exact (hreached.white hwhite.2).symm
          · rfl
        · unfold FieldSplitState.passed
          simp only
          rw [if_neg (by omega)]
          exact hreached.trailing
        · rfl
        · rfl
      · next hsame =>
        obtain rfl : next = cursor := by simpa using hsame
        exact hreached.stay
    simp only
    split
    · next hend =>
      obtain rfl : next = stop := by omega
      exact hpassed
    · next hmore =>
      have hlt : next < string.length := by omega
      have hone : ∀ place', Reached (string.zip mask)
          (if next ≠ cursor then state.passed cursor else state) place' next → _ :=
        fun place' hreached' => hreached'.slow ifs h hlength
          (fun hzero => hnul (hzero ▸ List.getElem_mem hlt)) (List.getElem?_eq_getElem hlt)
          (hopen next hnext (by omega))
      have hstep := hpassed.trans fun place' hreached' => (hone place' hreached').2
      rw [List.nil_append] at hstep
      obtain ⟨-, hnextCursor⟩ : _ ∧ (splitFieldsSlow (Variables.updateIfsCache ifs shell)
          (if next ≠ cursor then state.passed cursor else state) string next).2.2 = next + 1 := by
        obtain ⟨place', hreached', -⟩ := hpassed
        exact ⟨trivial, (hone place' hreached').1⟩
      rw [hnextCursor]
      exact hstep.trans fun place' hreached' =>
        ih hreached' (by omega) (fun i hi hlt => hopen i (by omega) hlt) (by omega)

/-! ### The regions of a mask -/

/-- These regions are the unprotected stretches of the mask from `offset` on. -/
def Covers (mask : List Bool) : Nat → List FieldSplitRegion → Prop
  | offset, [] => ∀ i, offset ≤ i → i < mask.length → mask[i]? = some true
  | offset, region :: regions =>
    offset ≤ region.start ∧ region.start < region.stop ∧ region.stop ≤ mask.length ∧
      (∀ i, offset ≤ i → i < region.start → mask[i]? = some true) ∧
      (∀ i, region.start ≤ i → i < region.stop → mask[i]? = some false) ∧
      mask[region.stop]? ≠ some false ∧ Covers mask region.stop regions

theorem unprotectedRegions_covers (mask : List Bool) :
    Covers mask 0 (unprotectedRegions mask.length mask 0 none) := by
  -- by induction on the rest of the mask, a region being open or not
  have walk : ∀ (rest : List Bool) (index offset : Nat), mask.drop index = rest →
      index ≤ mask.length → offset ≤ index →
      ((∀ i, offset ≤ i → i < index → mask[i]? = some true) →
        Covers mask offset (unprotectedRegions mask.length rest index none)) ∧
      ∀ start, offset ≤ start → start < index →
        (∀ i, offset ≤ i → i < start → mask[i]? = some true) →
        (∀ i, start ≤ i → i < index → mask[i]? = some false) →
        Covers mask offset (unprotectedRegions mask.length rest index (some start)) := by
    intro rest
    induction rest with
    | nil =>
      intro index offset hrest hindex hoffset
      have hend : mask.length ≤ index := by simpa using hrest
      obtain rfl : index = mask.length := by omega
      constructor
      · intro hprotected
        exact hprotected
      · intro start hstart hlt hprotected hopen
        refine ⟨hstart, hlt, le_refl _, hprotected, hopen, ?_, ?_⟩
        · simp
        · intro i (hi : mask.length ≤ i) hlt
          omega
    | cons flag rest ih =>
      intro index offset hrest hindex hoffset
      have hlt : index < mask.length := by
        by_contra hge
        rw [List.drop_of_length_le (by omega)] at hrest
        cases hrest
      have hflag : mask[index]? = some flag := by
        rw [← List.head?_drop, hrest]
        rfl
      have hnext : mask.drop (index + 1) = rest := by
        rw [← List.drop_drop, hrest]
        rfl
      cases flag with
      | false =>
        obtain ⟨-, hopened⟩ := ih (index + 1) offset hnext hlt (by omega)
        have hgrown {start : Nat} (hopen : ∀ i, start ≤ i → i < index → mask[i]? = some false) :
            ∀ i, start ≤ i → i < index + 1 → mask[i]? = some false := by
          intro i hi hlt
          rcases Nat.lt_succ_iff_lt_or_eq.mp hlt with hlt | rfl
          · exact hopen i hi hlt
          · exact hflag
        constructor
        · intro hprotected
          exact hopened index hoffset (Nat.lt_succ_self _) hprotected
            (hgrown fun i hi hlt => absurd hi (by omega))
        · intro start hstart hlt hprotected hopen
          exact hopened start hstart (by omega) hprotected (hgrown hopen)
      | true =>
        constructor
        · intro hprotected
          obtain ⟨hclosed, -⟩ := ih (index + 1) offset hnext hlt (by omega)
          apply hclosed
          intro i hi hlt
          rcases Nat.lt_succ_iff_lt_or_eq.mp hlt with hlt | rfl
          · exact hprotected i hi hlt
          · exact hflag
        · intro start hstart hlt' hprotected hopen
          obtain ⟨hclosed, -⟩ := ih (index + 1) index hnext hlt (by omega)
          refine ⟨hstart, hlt', by simp only; omega, hprotected, hopen, ?_, ?_⟩
          · rw [hflag]
            simp
          · apply hclosed
            intro i hi hlt
            obtain rfl : i = index := by omega
            exact hflag
  exact (walk mask 0 0 rfl (Nat.zero_le _) (le_refl _)).1 fun i _ hlt =>
    absurd hlt (Nat.not_lt_zero i)

/-- A protected stretch is data. -/
theorem Reached.protectedStretch {role : UInt8 × Bool → Role} {state' : FieldSplitState}
    {next : Nat} (hlength : mask.length = string.length)
    (hreached : Reached (string.zip mask) state place cursor)
    (hrole : ∀ byte, role (byte, true) = .datum) (hlt : cursor < next) (hle : next ≤ string.length)
    (hprotected : ∀ i, cursor ≤ i → i < next → mask[i]? = some true)
    (hstart : state'.fieldStart = state.fieldStart)
    (htrailing : state'.trailingWhitespaceStart = none)
    (hremaining : state'.remainingFields = state.remainingFields)
    (hwhite : state'.separatorIsWhitespace = false) :
    Advanced role (string.zip mask) place cursor [] state' next := by
  have hline : (string.zip mask).length = string.length := by
    rw [List.length_zip, hlength, Nat.min_self]
  apply hreached.datums hlt (by omega) ?_ hstart htrailing hremaining hwhite
  intro mark hmem
  obtain ⟨k, hk⟩ := List.mem_iff_getElem?.mp hmem
  have hin : k < next - cursor := by
    have := (List.getElem?_eq_some_iff.mp hk).1
    rw [length_extract (by omega)] at this
    exact this
  rw [List.extract_eq_take_drop, List.getElem?_take_of_lt hin, List.getElem?_drop,
    List.getElem?_zip_eq_some] at hk
  have hflag := hprotected (cursor + k) (by omega) (by omega)
  rw [hflag] at hk
  obtain ⟨byte, flag⟩ := mark
  have hflag : flag = true := (Option.some.inj hk.2).symm
  rw [hflag]
  exact hrole byte

/-! ### The whole line -/

/-- All regions, from where the last one ended; only where the last field begins counts in
    the end. -/
theorem splitRegions_advanced (ifs : Bytes) (h : shell.locale.Charmap)
    (hlength : mask.length = string.length)
    (hnul : (0 : UInt8) ∉ string) (regions : List FieldSplitRegion)
    (hcovers : Covers mask cursor regions) (hreached : Reached (string.zip mask) state place cursor)
    (hbehind : state.separatorIsWhitespace = false ∨ mask[cursor]? ≠ some false) :
    let out := splitRegions (Variables.updateIfsCache ifs shell) string regions cursor state
    out.1.trailingWhitespaceStart = none ∧
      ∃ state', state'.fieldStart = out.1.fieldStart ∧
        Advanced (lineRole shell.locale (readableIfs shell.locale ifs)) (string.zip mask) place
          cursor out.2 state' string.length := by
  have hline : (string.zip mask).length = string.length := by
    rw [List.length_zip, hlength, Nat.min_self]
  have hrole : ∀ byte, lineRole shell.locale (readableIfs shell.locale ifs) (byte, true) = .datum :=
    fun byte => by simp [lineRole]
  have htrailing := hreached.trailing
  have hwithin := hreached.within
  induction regions generalizing state place cursor with
  | nil =>
    rw [splitRegions]
    by_cases hlt : cursor < string.length
    · rw [if_pos hlt]
      refine ⟨rfl, { state with separatorIsWhitespace := false }, rfl, ?_⟩
      exact hreached.protectedStretch hlength hrole hlt (le_refl _)
        (fun i hi hlt => hcovers i hi (by omega)) rfl htrailing rfl rfl
    · rw [if_neg hlt]
      obtain rfl : cursor = string.length := by omega
      exact ⟨htrailing, state, rfl, hreached.stay⟩
  | cons region regions ih =>
    obtain ⟨hstart, hfilled, hstop, hprotected, hopen, hbreak, hrest⟩ := hcovers
    rw [splitRegions]
    -- up to the region
    have hentered : Advanced (lineRole shell.locale (readableIfs shell.locale ifs))
        (string.zip mask) place cursor []
        { state with
          trailingWhitespaceStart :=
            if cursor < region.start then none else state.trailingWhitespaceStart
          separatorIsWhitespace := false } region.start := by
      rcases Nat.eq_or_lt_of_le hstart with heq | hlt
      · have hfalse : state.separatorIsWhitespace = false := by
          rcases hbehind with hfalse | hclosed
          · exact hfalse
          · exact absurd (hopen cursor (by omega) (by omega)) hclosed
        have hsame : { state with
            trailingWhitespaceStart :=
              if cursor < region.start then none else state.trailingWhitespaceStart
            separatorIsWhitespace := false } = state := by
          rw [if_neg (by omega), ← hfalse]
        rw [hsame, ← heq]
        exact hreached.stay
      · exact hreached.protectedStretch hlength hrole hlt (by omega) hprotected rfl
          (by simp [htrailing]) rfl rfl
    have hregion := hentered.trans fun place' hreached' =>
      splitRegion_advanced ifs h hlength hnul (by omega) (region.stop - region.start + 1)
        hreached' (le_of_lt hfilled) hopen (Nat.lt_succ_self _)
    rw [List.nil_append] at hregion
    obtain ⟨place', hreached', hsplit⟩ := hregion
    obtain ⟨hnone, state', hsame, hadvanced⟩ := ih hrest hreached' (Or.inr hbreak)
      hreached'.trailing hreached'.within
    refine ⟨hnone, state', hsame, Advanced.trans ⟨place', hreached', hsplit⟩ ?_⟩
    intro place'' hreached''
    obtain rfl : place'' = place' := hreached''.stands.trans hreached'.stands.symm
    exact hadvanced

/-- **With room for every field** the pass is the splitting of the line at the bytes it
    knows. -/
theorem splitFields_eq_split (h : shell.locale.Charmap) (hlength : mask.length = string.length)
    (hnul : (0 : UInt8) ∉ string) {maxFields : Nat} (hmax : string.length < maxFields) :
    splitFields (Variables.updateIfsCache ifs shell) string mask maxFields =
      (split (lineRole shell.locale (readableIfs shell.locale ifs)) (string.zip mask)).map
        (List.map Prod.fst) := by
  have hline : (string.zip mask).length = string.length := by
    rw [List.length_zip, hlength, Nat.min_self]
  have hcovers := unprotectedRegions_covers mask
  rw [hlength] at hcovers
  have hstart : Reached (string.zip mask) ⟨0, none, maxFields, false⟩ .between 0 := by
    constructor
    · exact Nat.zero_le _
    · rfl
    · simp only
      omega
    · exact le_refl 0
    · simp
    · exact nofun
  obtain ⟨hnone, state', hsame, place', hreached, hsplit⟩ :=
    splitRegions_advanced ifs h hlength hnul _ hcovers hstart (Or.inl rfl)
  unfold splitFields splitRegionsIntoFields
  generalize splitRegions (Variables.updateIfsCache ifs shell) string
    (unprotectedRegions string.length mask 0 none) 0 ⟨0, none, maxFields, false⟩ = out
    at hnone hsame hsplit ⊢
  obtain ⟨state, fields⟩ := out
  simp only at hnone hsame hsplit ⊢
  rw [List.drop_zero] at hsplit
  rw [hnone, Option.getD_none]
  unfold split
  rw [hsplit, ← hline, List.drop_length, hline]
  have hstands := hreached.stands
  have hstarted := hreached.started
  rw [hsame] at hstands hstarted
  split
  · next hend =>
    rw [if_neg (by omega)] at hstands
    rw [hstands]
    split <;> simp
  · next hmore =>
    rw [if_pos (by omega)] at hstands
    rw [hstands, splitFrom_field_nil, List.map_cons, List.map_nil, map_fst_extract hlength]

end

end Nsh.Expand
