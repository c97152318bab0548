import Mathlib.Data.List.DropRight
import Nsh.Expand.ReadSplit

/-!
# Splitting a line for a number of names

With a limit the splitter behind `read` emits one field fewer than there are names and
leaves the rest of the line to the last.  Where the rest ends is a pending offset, which
later characters cancel and set again.  `readLine` is the pass without its regions and
its chunks, one byte after the other; the limited splitting is read off it.
-/

namespace Nsh.Expand

variable {W : Type}

/-! ### The pass, byte by byte -/

/-- What the pass does where a byte ends a field. -/
def endField (string : Bytes) (state : FieldSplitState) (cursor : Nat) (white : Bool) :
    FieldSplitState × List Bytes :=
  if state.remainingFields - 1 = 0 then
    ({ state with
        separatorIsWhitespace := white
        remainingFields := 0
        trailingWhitespaceStart := some cursor }, [])
  else
    ({ state with
        separatorIsWhitespace := white
        remainingFields := state.remainingFields - 1
        fieldStart := cursor + 1 }, [string.extract state.fieldStart cursor])

/-- What the pass does at a byte of this role while fields are left. -/
def readField (role : Role) (string : Bytes) (state : FieldSplitState) (cursor : Nat) :
    FieldSplitState × List Bytes :=
  match role with
  | .datum =>
    if state.separatorIsWhitespace = true then
      ({ state with fieldStart := cursor, separatorIsWhitespace := false }, [])
    else (state, [])
  | .white =>
    if state.separatorIsWhitespace = true then ({ state with fieldStart := cursor + 1 }, [])
    else if cursor = state.fieldStart then ({ state with fieldStart := cursor + 1 }, [])
    else endField string state cursor true
  | .delimiter =>
    if state.separatorIsWhitespace = true then
      ({ state with fieldStart := cursor + 1, separatorIsWhitespace := false }, [])
    else endField string state cursor false

/-- What it does behind the byte that ended the last field. -/
def readRest (role : Role) (state : FieldSplitState) (cursor : Nat) : FieldSplitState :=
  match role with
  | .datum => { state with trailingWhitespaceStart := none, separatorIsWhitespace := false }
  | .white =>
    { state with trailingWhitespaceStart := state.trailingWhitespaceStart.or (some cursor) }
  | .delimiter =>
    { state with
      trailingWhitespaceStart :=
        if state.separatorIsWhitespace = true then state.trailingWhitespaceStart else none
      separatorIsWhitespace := false }

/-- What the pass does at a byte of this role. -/
def readByte (role : Role) (string : Bytes) (state : FieldSplitState) (cursor : Nat) :
    FieldSplitState × List Bytes :=
  if state.remainingFields = 0 then (readRest role state cursor, [])
  else readField role string state cursor

def readLine (role : UInt8 × Bool → Role) (string : Bytes) :
    Line → Nat → FieldSplitState → FieldSplitState × List Bytes
  | [], _, state => (state, [])
  | mark :: rest, cursor, state =>
    let (state, fields) := readByte (role mark) string state cursor
    let (state, others) := readLine role string rest (cursor + 1) state
    (state, fields ++ others)

theorem readLine_cons (role : UInt8 × Bool → Role) (string : Bytes) (mark : UInt8 × Bool)
    (rest : Line) (cursor : Nat) (state : FieldSplitState) :
    readLine role string (mark :: rest) cursor state =
      ((readLine role string rest (cursor + 1) (readByte (role mark) string state cursor).1).1,
        (readByte (role mark) string state cursor).2 ++
          (readLine role string rest (cursor + 1)
            (readByte (role mark) string state cursor).1).2) := rfl

theorem readLine_append (role : UInt8 × Bool → Role) (string : Bytes) (line rest : Line)
    (cursor : Nat) (state : FieldSplitState) :
    readLine role string (line ++ rest) cursor state =
      ((readLine role string rest (cursor + line.length)
          (readLine role string line cursor state).1).1,
        (readLine role string line cursor state).2 ++
          (readLine role string rest (cursor + line.length)
            (readLine role string line cursor state).1).2) := by
  induction line generalizing cursor state with
  | nil => rfl
  | cons mark line ih =>
    rw [List.cons_append, readLine_cons, readLine_cons, ih, List.length_cons,
      Nat.add_right_comm cursor 1 line.length, List.append_assoc]
    rfl

/-- Where fields are left the pass remembers no end, and white space that ended a field is
    passed over. -/
structure Settled (state : FieldSplitState) (cursor : Nat) : Prop where
  trailing : state.remainingFields ≠ 0 → state.trailingWhitespaceStart = none
  white : state.remainingFields ≠ 0 → state.separatorIsWhitespace = true →
    state.fieldStart = cursor

section

variable {role : UInt8 × Bool → Role} {string : Bytes} {state : FieldSplitState} {cursor : Nat}

theorem Settled.readField (h : Settled state cursor) (hne : state.remainingFields ≠ 0) (r : Role) :
    Settled (readField r string state cursor).1 (cursor + 1) := by
  have htrailing := h.trailing hne
  have hend (w : Bool) : Settled (endField string state cursor w).1 (cursor + 1) := by
    unfold endField
    split
    · exact ⟨fun hzero => absurd rfl hzero, fun hzero => absurd rfl hzero⟩
    · exact ⟨fun _ => htrailing, fun _ _ => rfl⟩
  cases r with
  | datum =>
    rw [Nsh.Expand.readField]
    split
    · exact ⟨fun _ => htrailing, fun _ hwhite => Bool.noConfusion hwhite⟩
    · next hwhite => exact ⟨fun _ => htrailing, fun _ hwhite' => absurd hwhite' hwhite⟩
  | white =>
    rw [Nsh.Expand.readField]
    split
    · exact ⟨fun _ => htrailing, fun _ _ => rfl⟩
    · split
      · exact ⟨fun _ => htrailing, fun _ _ => rfl⟩
      · exact hend true
  | delimiter =>
    rw [Nsh.Expand.readField]
    split
    · exact ⟨fun _ => htrailing, fun _ _ => rfl⟩
    · exact hend false

theorem Settled.readByte (h : Settled state cursor) (r : Role) :
    Settled (readByte r string state cursor).1 (cursor + 1) := by
  unfold Nsh.Expand.readByte
  split
  · next hzero =>
    have hrest : (readRest r state cursor).remainingFields = 0 := by
      cases r <;> exact hzero
    exact ⟨fun hne => absurd hrest hne, fun hne => absurd hrest hne⟩
  · next hne => exact h.readField hne r

theorem Settled.readLine (h : Settled state cursor) (role : UInt8 × Bool → Role) (string : Bytes)
    (line : Line) :
    Settled (readLine role string line cursor state).1 (cursor + line.length) := by
  induction line generalizing cursor state with
  | nil => exact h
  | cons mark line ih =>
    rw [readLine_cons, List.length_cons, ← Nat.add_assoc, Nat.add_right_comm]
    exact ih (h.readByte _)

/-- Data passed over leave the state of `passed`. -/
theorem readLine_datums {line : Line} (hdatum : ∀ mark ∈ line, role mark = .datum)
    (hne : line ≠ []) : readLine role string line cursor state = (state.passed cursor, []) := by
  have hfirst : readByte .datum string state cursor = (state.passed cursor, []) := by
    obtain ⟨start, trailing, remaining, white⟩ := state
    unfold readByte readRest readField FieldSplitState.passed
    by_cases hzero : remaining = 0
    · cases white <;> simp [hzero]
    · cases white <;> simp [hzero]
  have hagain (cursor' : Nat) :
      readByte .datum string (state.passed cursor) cursor' = (state.passed cursor, []) := by
    obtain ⟨start, trailing, remaining, white⟩ := state
    unfold readByte readRest readField FieldSplitState.passed
    by_cases hzero : remaining = 0
    · simp [hzero]
    · simp [hzero]
  have hstays : ∀ (rest : Line) (cursor' : Nat), (∀ mark ∈ rest, role mark = .datum) →
      readLine role string rest cursor' (state.passed cursor) = (state.passed cursor, []) := by
    intro rest
    induction rest with
    | nil =>
      intro _ _
      rfl
    | cons mark rest ih =>
      intro cursor' hrest
      rw [readLine_cons, hrest mark List.mem_cons_self, hagain,
        ih _ fun mark' hmem => hrest mark' (List.mem_cons_of_mem mark hmem)]
      rfl
  cases line with
  | nil => exact absurd rfl hne
  | cons mark rest =>
    rw [readLine_cons, hdatum mark List.mem_cons_self, hfirst,
      hstays rest _ fun mark' hmem => hdatum mark' (List.mem_cons_of_mem mark hmem)]
    rfl

end

/-! ### Regions and chunks -/

section

variable {shell : Shell W} {ifs string : Bytes} {mask : List Bool} {state : FieldSplitState}
  {cursor : Nat} {byte : UInt8}

theorem splitFieldsSlow_readByte (h : shell.locale.Charmap) (hne : byte ≠ 0)
    (hbyte : string[cursor]? = some byte) :
    splitFieldsSlow (Variables.updateIfsCache ifs shell) state string cursor =
      ((readByte (lineRole shell.locale (readableIfs shell.locale ifs) (byte, false)) string state
          cursor).1,
        (readByte (lineRole shell.locale (readableIfs shell.locale ifs) (byte, false)) string state
          cursor).2, cursor + 1) := by
  obtain ⟨hlt, hget⟩ := List.getElem?_eq_some_iff.mp hbyte
  have hdrop : string.drop cursor = byte :: string.drop (cursor + 1) := by
    rw [List.drop_eq_getElem_cons hlt, hget]
  have hwidth : (if byte < 0x80 then 1
      else (Variables.updateIfsCache ifs shell).locale.width (string.drop cursor)) = 1 := by
    split
    · rfl
    · exact h.singleByte.width_eq _
  obtain ⟨start, trailing, remaining, white⟩ := state
  unfold splitFieldsSlow
  simp only [hbyte, hwidth]
  rw [hdrop, classifyIfs_eq h hne]
  unfold lineRole readByte readRest readField endField
  by_cases hzero : remaining = 0
  · by_cases hmem : byte ∈ readableIfs shell.locale ifs
    · cases isSpaceByte shell.locale byte with
      | true => simp [hmem, hzero]
      | false => cases white <;> simp [hmem, hzero]
    · cases white <;> simp [hmem, hzero]
  · by_cases hmem : byte ∈ readableIfs shell.locale ifs
    · cases isSpaceByte shell.locale byte with
      | true =>
        cases white with
        | true => simp [hmem, hzero]
        | false =>
          by_cases hstart : cursor = start
          · simp [hmem, hzero, hstart]
          · by_cases hone : remaining - 1 = 0
            · simp [hmem, hzero, hstart, hone]
            · simp [hmem, hzero, hstart, hone]
      | false =>
        cases white with
        | true => simp [hmem, hzero]
        | false =>
          by_cases hone : remaining - 1 = 0
          · simp [hmem, hzero, hone]
          · simp [hmem, hzero, hone]
    · cases white <;> simp [hmem, hzero]

/-- An unprotected stretch, its chunks and its single bytes. -/
theorem splitRegion_readLine (ifs : Bytes) (h : shell.locale.Charmap)
    (hlength : mask.length = string.length) (hnul : (0 : UInt8) ∉ string) {stop : Nat}
    (hstop : stop ≤ string.length) (fuel : Nat) (hle : cursor ≤ stop)
    (hopen : ∀ i, cursor ≤ i → i < stop → mask[i]? = some false) (hfuel : stop - cursor < fuel) :
    splitRegion (Variables.updateIfsCache ifs shell) string stop fuel state cursor =
      readLine (lineRole shell.locale (readableIfs shell.locale ifs)) string
        ((string.zip mask).extract cursor stop) cursor state := by
  have hline : (string.zip mask).length = string.length := by
    rw [List.length_zip, hlength, Nat.min_self]
  induction fuel generalizing state cursor with
  | zero => omega
  | succ fuel ih =>
    rw [splitRegion]
    obtain ⟨hnext, hnextStop, hdata⟩ := skipChunks_spec shell ifs string (stop - cursor) hle
    generalize skipChunks (Variables.updateIfsCache ifs shell) string stop (stop - cursor) cursor =
      next at hnext hnextStop hdata ⊢
    have hdatum : ∀ mark ∈ (string.zip mask).extract cursor next,
        lineRole shell.locale (readableIfs shell.locale ifs) mark = .datum := by
      intro mark hmem
      obtain ⟨k, hk⟩ := List.mem_iff_getElem?.mp hmem
      have hlt : k < next - cursor := by
        have := (List.getElem?_eq_some_iff.mp hk).1
        rw [length_extract (by omega)] at this
        exact this
      rw [List.extract_eq_take_drop, List.getElem?_take_of_lt hlt, List.getElem?_drop,
        List.getElem?_zip_eq_some] at hk
      have hout := hdata (cursor + k) mark.1 (by omega) (by omega) hk.1
      rw [lineRole, if_neg (by simp [hout])]
    have hpassed : readLine (lineRole shell.locale (readableIfs shell.locale ifs)) string
        ((string.zip mask).extract cursor next) cursor state =
          (if next ≠ cursor then state.passed cursor else state, []) := by
      split
      · next hmoved =>
        refine readLine_datums hdatum fun hempty => ?_
        exact extract_ne_nil (string.zip mask) (by omega) (by omega) hempty
      · next hsame =>
        obtain rfl : next = cursor := by simpa using hsame
        rw [extract_self]
        rfl
    rw [← extract_append hnext hnextStop, readLine_append, hpassed, length_extract (by omega),
      Nat.add_sub_cancel' hnext, List.nil_append]
    generalize (if next ≠ cursor then state.passed cursor else state) = state'
    simp only
    split
    · next hend =>
      obtain rfl : next = stop := by omega
      rw [extract_self]
      rfl
    · next hmore =>
      have hlt : next < string.length := by omega
      have hbyte := List.getElem?_eq_getElem hlt
      have hnz : string[next] ≠ 0 := fun hzero => hnul (hzero ▸ List.getElem_mem hlt)
      rw [extract_cons (by omega) (zip_getElem? hbyte (hopen next hnext (by omega))), readLine_cons,
        splitFieldsSlow_readByte h hnz hbyte]
      simp only
      rw [ih (by omega) (fun i hi hlt => hopen i (by omega) hlt) (by omega)]

theorem extract_protected (locale : Locale) (separators : Bytes) (next : Nat)
    (hlength : mask.length = string.length)
    (hprotected : ∀ i, cursor ≤ i → i < next → mask[i]? = some true) :
    ∀ mark ∈ (string.zip mask).extract cursor next, lineRole locale separators mark = .datum := by
  have hline : (string.zip mask).length = string.length := by
    rw [List.length_zip, hlength, Nat.min_self]
  intro mark hmem
  obtain ⟨k, hk⟩ := List.mem_iff_getElem?.mp hmem
  have hin : k < next - cursor := by
    have hlt := (List.getElem?_eq_some_iff.mp hk).1
    rw [List.extract_eq_take_drop, List.length_take] at hlt
    omega
  rw [List.extract_eq_take_drop, List.getElem?_take_of_lt hin, List.getElem?_drop,
    List.getElem?_zip_eq_some] at hk
  have hflag := hprotected (cursor + k) (by omega) (by omega)
  rw [hflag] at hk
  rw [lineRole, if_neg (by simp [← Option.some.inj hk.2])]

/-- Protected bytes cancel a pending end and begin no field. -/
theorem Settled.passed (h : Settled state cursor) :
    state.passed cursor =
      { state with trailingWhitespaceStart := none, separatorIsWhitespace := false } := by
  obtain ⟨start, trailing, remaining, white⟩ := state
  unfold FieldSplitState.passed
  by_cases hzero : remaining = 0
  · simp [hzero]
  · have htrailing : trailing = none := h.trailing hzero
    by_cases hwhite : white = true
    · have hstart : start = cursor := h.white hzero hwhite
      simp [hzero, htrailing, hwhite, hstart]
    · simp [hzero, htrailing, hwhite]

/-- All regions: the end that is pending and the start of the last field are those of the
    pass over the bytes. -/
theorem splitRegions_readLine (ifs : Bytes) (h : shell.locale.Charmap)
    (hlength : mask.length = string.length) (hnul : (0 : UInt8) ∉ string)
    (regions : List FieldSplitRegion) (hcovers : Covers mask cursor regions)
    (hsettled : Settled state cursor) (hwithin : cursor ≤ string.length)
    (hbehind : state.separatorIsWhitespace = false ∨ mask[cursor]? ≠ some false) :
    let out := splitRegions (Variables.updateIfsCache ifs shell) string regions cursor state
    let read := readLine (lineRole shell.locale (readableIfs shell.locale ifs)) string
      ((string.zip mask).drop cursor) cursor state
    out.2 = read.2 ∧ out.1.trailingWhitespaceStart = read.1.trailingWhitespaceStart ∧
      out.1.fieldStart = read.1.fieldStart := by
  have hline : (string.zip mask).length = string.length := by
    rw [List.length_zip, hlength, Nat.min_self]
  have hall (i : Nat) (hi : i ≤ string.length) :
      (string.zip mask).drop i = (string.zip mask).extract i string.length := by
    rw [List.extract_eq_take_drop, List.take_of_length_le]
    rw [List.length_drop, hline]
  induction regions generalizing state cursor with
  | nil =>
    rw [splitRegions]
    by_cases hlt : cursor < string.length
    · have hgap :=
        extract_protected shell.locale (readableIfs shell.locale ifs) string.length hlength
        (fun i hi hlt => hcovers i hi (by omega))
      have hne : (string.zip mask).extract cursor string.length ≠ [] :=
        extract_ne_nil (string.zip mask) (le_of_eq hline.symm) hlt
      rw [hall cursor hwithin, readLine_datums hgap hne, hsettled.passed, if_pos hlt]
      exact ⟨rfl, rfl, rfl⟩
    · have hend : (string.zip mask).drop cursor = [] := List.drop_eq_nil_of_le (by omega)
      rw [hend, if_neg hlt]
      exact ⟨rfl, rfl, rfl⟩
  | cons region regions ih =>
    obtain ⟨hstart, hfilled, hstop, hprotected, hopen, hbreak, hrest⟩ := hcovers
    rw [splitRegions]
    -- up to the region
    have hentered : readLine (lineRole shell.locale (readableIfs shell.locale ifs)) string
        ((string.zip mask).extract cursor region.start) cursor state =
          ({ state with
            trailingWhitespaceStart :=
              if cursor < region.start then none else state.trailingWhitespaceStart
            separatorIsWhitespace := false }, []) := by
      rcases Nat.eq_or_lt_of_le hstart with heq | hlt
      · have hfalse : state.separatorIsWhitespace = false := by
          rcases hbehind with hfalse | hclosed
          · exact hfalse
          · exact absurd (hopen cursor (by omega) (by omega)) hclosed
        rw [if_neg (by omega), ← hfalse, ← heq, extract_self]
        rfl
      · have hne : (string.zip mask).extract cursor region.start ≠ [] :=
          extract_ne_nil (string.zip mask) (by omega) hlt
        rw [readLine_datums (extract_protected _ _ _ hlength hprotected) hne, hsettled.passed,
          if_pos hlt]
    have hsettled' := hsettled.readLine
      (lineRole shell.locale (readableIfs shell.locale ifs)) string
        ((string.zip mask).extract cursor region.start)
    rw [hentered, length_extract (by omega), Nat.add_sub_cancel' hstart] at hsettled'
    generalize hstate : { state with
        trailingWhitespaceStart :=
          if cursor < region.start then none else state.trailingWhitespaceStart
        separatorIsWhitespace := false } = entered at hentered hsettled'
    simp only
    rw [splitRegion_readLine ifs h hlength hnul (by omega) _ (le_of_lt hfilled) hopen
      (Nat.lt_succ_self _)]
    have hsettled'' := hsettled'.readLine
      (lineRole shell.locale (readableIfs shell.locale ifs)) string
        ((string.zip mask).extract region.start region.stop)
    rw [length_extract (by omega), Nat.add_sub_cancel' (le_of_lt hfilled)] at hsettled''
    obtain ⟨hfields, htrailing, hbegins⟩ := ih hrest hsettled'' (by omega) (Or.inr hbreak)
    have hsplit : (string.zip mask).drop cursor =
        (string.zip mask).extract cursor region.start ++
          ((string.zip mask).extract region.start region.stop ++
            (string.zip mask).drop region.stop) := by
      rw [hall cursor hwithin, hall region.stop (by omega),
        extract_append (le_of_lt hfilled) (by omega), extract_append hstart (by omega)]
    rw [hsplit, readLine_append, hentered, length_extract (by omega), Nat.add_sub_cancel' hstart,
      readLine_append, length_extract (by omega), Nat.add_sub_cancel' (le_of_lt hfilled)]
    exact ⟨by rw [hfields]; rfl, htrailing, hbegins⟩

end

/-! ### The rest of the line -/

/-- Where a line ends without its trailing white space. -/
def whiteEnd (role : UInt8 × Bool → Role) (line : Line) : Nat :=
  (line.rdropWhile fun mark => role mark = .white).length

section

variable {role : UInt8 × Bool → Role} {before rest : Line} {string : Bytes}
  {state : FieldSplitState} {place : Place (UInt8 × Bool)} {mark : UInt8 × Bool}

theorem whiteEnd_concat_white (h : role mark = .white) :
    whiteEnd role (before ++ [mark]) = whiteEnd role before := by
  rw [whiteEnd, List.rdropWhile_concat_pos _ _ _ (by simp [h]), whiteEnd]

theorem whiteEnd_concat (h : role mark ≠ .white) :
    whiteEnd role (before ++ [mark]) = before.length + 1 := by
  rw [whiteEnd, List.rdropWhile_concat_neg _ _ _ (by simp [h])]
  simp

/-- A byte that is no white space is kept. -/
theorem lt_whiteEnd (h : role mark ≠ .white) :
    before.length < whiteEnd role (before ++ mark :: rest) := by
  induction rest using List.reverseRecOn with
  | nil => rw [whiteEnd_concat h]; exact Nat.lt_succ_self _
  | append_singleton rest last ih =>
    have hsplit : before ++ mark :: (rest ++ [last]) = (before ++ mark :: rest) ++ [last] := by simp
    rw [hsplit]
    by_cases hlast : role last = .white
    · rw [whiteEnd_concat_white hlast]
      exact ih
    · rw [whiteEnd_concat hlast, List.length_append, List.length_cons]
      omega

/-- Once the rest is known to hold more than one field the pending end is the start of the
    white space read last. -/
theorem readLine_pending (string : Bytes) (rest : Line) (hzero : state.remainingFields = 0)
    (hwhite : state.separatorIsWhitespace = false)
    (hpending : state.trailingWhitespaceStart.getD before.length = whiteEnd role before) :
    let final := readLine role string rest before.length state
    final.2 = [] ∧ final.1.fieldStart = state.fieldStart ∧
      final.1.trailingWhitespaceStart.getD (before ++ rest).length =
        whiteEnd role (before ++ rest) := by
  induction rest generalizing before state with
  | nil =>
    rw [List.append_nil]
    exact ⟨rfl, rfl, hpending⟩
  | cons mark rest ih =>
    have hbyte : readByte (role mark) string state before.length =
        (readRest (role mark) state before.length, []) := by
      rw [readByte, if_pos hzero]
    have hlength : (before ++ [mark]).length = before.length + 1 := by simp
    have hsplit : before ++ mark :: rest = (before ++ [mark]) ++ rest := by simp
    have hstep (hzero' : (readRest (role mark) state before.length).remainingFields = 0)
        (hwhite' : (readRest (role mark) state before.length).separatorIsWhitespace = false)
        (hstart' : (readRest (role mark) state before.length).fieldStart = state.fieldStart)
        (hpending' : (readRest (role mark) state before.length).trailingWhitespaceStart.getD
          (before ++ [mark]).length = whiteEnd role (before ++ [mark])) :
        (readLine role string (mark :: rest) before.length state).2 = [] ∧
          (readLine role string (mark :: rest) before.length state).1.fieldStart =
            state.fieldStart ∧
          (readLine role string (mark :: rest) before.length state).1.trailingWhitespaceStart.getD
            (before ++ mark :: rest).length = whiteEnd role (before ++ mark :: rest) := by
      obtain ⟨hnone, hsame, hend⟩ := ih hzero' hwhite' hpending'
      rw [readLine_cons, hbyte, hsplit, ← hlength]
      exact ⟨(List.nil_append _).trans hnone, hsame.trans hstart', hend⟩
    cases hrole : role mark with
    | datum =>
      rw [hrole] at hstep
      refine hstep hzero rfl rfl ?_
      rw [whiteEnd_concat (by rw [hrole]; decide), hlength]
      rfl
    | white =>
      rw [hrole] at hstep
      refine hstep hzero hwhite rfl ?_
      rw [whiteEnd_concat_white hrole, ← hpending]
      show (state.trailingWhitespaceStart.or (some before.length)).getD _ = _
      cases state.trailingWhitespaceStart with
      | none => rfl
      | some start => rfl
    | delimiter =>
      rw [hrole] at hstep
      refine hstep hzero rfl rfl ?_
      rw [whiteEnd_concat (by rw [hrole]; decide), hlength]
      show (if state.separatorIsWhitespace = true then state.trailingWhitespaceStart
        else none).getD _ = _
      rw [hwhite]
      rfl

/-- Behind the byte that ended the last field the pending end is that byte, unless the
    line goes on with another field. -/
theorem readLine_rest (string : Bytes) (before rest : Line) (start : Nat) {ended : Nat}
    {place : Place (UInt8 × Bool)} (hzero : state.remainingFields = 0)
    (hended : state.trailingWhitespaceStart = some ended)
    (hplace : place = if state.separatorIsWhitespace = true then .behind else .between) :
    let final := readLine role string rest before.length state
    let others := locateFrom role place start before.length rest
    final.2 = [] ∧ final.1.fieldStart = state.fieldStart ∧
      (others = [] → final.1.trailingWhitespaceStart = some ended) ∧
      (others ≠ [] → before.length < whiteEnd role (before ++ rest) ∧
        final.1.trailingWhitespaceStart.getD (before ++ rest).length =
          whiteEnd role (before ++ rest)) := by
  induction rest generalizing before state place with
  | nil =>
    have hnone : locateFrom role place start before.length [] = [] := by
      rw [hplace]
      split <;> rfl
    exact ⟨rfl, rfl, fun _ => hended, fun hmore => absurd hnone hmore⟩
  | cons mark rest ih =>
    have hlength : (before ++ [mark]).length = before.length + 1 := by simp
    have hsplit : before ++ mark :: rest = (before ++ [mark]) ++ rest := by simp
    have hread : readLine role string (mark :: rest) before.length state =
        readLine role string rest (before ++ [mark]).length
          (readRest (role mark) state before.length) := by
      rw [readLine_cons, readByte, if_pos hzero, hlength]
      rfl
    -- a byte of the next field
    have hmore (hnot : role mark ≠ .white)
        (hstate : readRest (role mark) state before.length =
          { state with trailingWhitespaceStart := none, separatorIsWhitespace := false })
        (hothers : locateFrom role place start before.length (mark :: rest) ≠ []) :
        let final := readLine role string (mark :: rest) before.length state
        let others := locateFrom role place start before.length (mark :: rest)
        final.2 = [] ∧ final.1.fieldStart = state.fieldStart ∧
          (others = [] → final.1.trailingWhitespaceStart = some ended) ∧
          (others ≠ [] → before.length < whiteEnd role (before ++ mark :: rest) ∧
            final.1.trailingWhitespaceStart.getD (before ++ mark :: rest).length =
              whiteEnd role (before ++ mark :: rest)) := by
      have hpending : (none : Option Nat).getD (before ++ [mark]).length =
          whiteEnd role (before ++ [mark]) := by
        rw [whiteEnd_concat hnot, hlength]
        rfl
      obtain ⟨hnone, hsame, hend⟩ := readLine_pending string rest
        (show { state with
          trailingWhitespaceStart := none
          separatorIsWhitespace := false }.remainingFields = 0 from hzero) rfl hpending
      rw [hread, hstate]
      refine ⟨hnone, hsame, fun hempty => absurd hempty hothers, fun _ => ⟨lt_whiteEnd hnot, ?_⟩⟩
      rw [hsplit]
      exact hend
    -- a byte that belongs to the separator
    have hstay (place' : Place (UInt8 × Bool))
        (hzero' : (readRest (role mark) state before.length).remainingFields = 0)
        (hended' : (readRest (role mark) state before.length).trailingWhitespaceStart = some ended)
        (hplace' : place' = if (readRest (role mark) state before.length).separatorIsWhitespace =
          true then .behind else .between)
        (hsame' : (readRest (role mark) state before.length).fieldStart = state.fieldStart)
        (hothers : locateFrom role place start before.length (mark :: rest) =
          locateFrom role place' start (before ++ [mark]).length rest) :
        let final := readLine role string (mark :: rest) before.length state
        let others := locateFrom role place start before.length (mark :: rest)
        final.2 = [] ∧ final.1.fieldStart = state.fieldStart ∧
          (others = [] → final.1.trailingWhitespaceStart = some ended) ∧
          (others ≠ [] → before.length < whiteEnd role (before ++ mark :: rest) ∧
            final.1.trailingWhitespaceStart.getD (before ++ mark :: rest).length =
              whiteEnd role (before ++ mark :: rest)) := by
      obtain ⟨hnone, hsame, hempty, hend⟩ := ih (before ++ [mark]) hzero' hended' hplace'
      rw [hread, hothers, hsplit]
      refine ⟨hnone, hsame.trans hsame', hempty, fun hne => ?_⟩
      exact ⟨lt_of_le_of_lt (by simp) (hend hne).1, (hend hne).2⟩
    cases hrole : role mark with
    | datum =>
      refine hmore (by rw [hrole]; decide) (by rw [hrole]; rfl) ?_
      have hdata : splitFrom role place (mark :: rest) ≠ [] := by
        rw [splitFrom_datum hrole]
        intro hempty
        have hflat := flatten_splitFrom role (.field (place.data ++ [mark])) rest
        rw [hempty] at hflat
        simp [Place.data] at hflat
      intro hempty
      apply hdata
      rw [← map_snd_locateFrom role place start before.length, hempty]
      rfl
    | white =>
      rw [hrole] at hstay
      refine hstay place hzero ?_ hplace rfl ?_
      · show state.trailingWhitespaceStart.or _ = _
        rw [hended]
        rfl
      · rw [hlength, hplace]
        split <;> simp [locateFrom, hrole]
    | delimiter =>
      by_cases hwhite : state.separatorIsWhitespace = true
      · rw [hrole] at hstay
        rw [if_pos hwhite] at hplace
        refine hstay .between hzero ?_ rfl rfl ?_
        · show (if state.separatorIsWhitespace = true then _ else _) = _
          rw [if_pos hwhite, hended]
        · rw [hlength, hplace]
          simp [locateFrom, hrole]
      · rw [if_neg hwhite] at hplace
        refine hmore (by rw [hrole]; decide) ?_ ?_
        · rw [hrole, readRest, if_neg hwhite]
        · rw [hplace]
          simp [locateFrom, hrole]

/-! ### The limited splitting -/

/-- What the pass returns from the state it ends in. -/
def finish (string : Bytes) (out : FieldSplitState × List Bytes) : List Bytes :=
  if out.1.trailingWhitespaceStart.getD string.length ≤ out.1.fieldStart then out.2
  else out.2 ++ [string.extract out.1.fieldStart
    (out.1.trailingWhitespaceStart.getD string.length)]

/-- The fields of a line for this many names: the last takes what is left, up to `stop`,
    and an empty last field is left out. -/
def limited (string : Bytes) (stop : Nat) : Nat → List (Nat × Line) → List Bytes
  | 0, _ => []
  | _ + 1, [] => []
  | 1, [(_, data)] => if data = [] then [] else [data.map Prod.fst]
  | 1, (start, _) :: _ :: _ => [string.extract start stop]
  | names + 2, (_, data) :: rest => data.map Prod.fst :: limited string stop (names + 1) rest

theorem finish_cons (string field : Bytes) (state : FieldSplitState) (fields : List Bytes) :
    finish string (state, field :: fields) = field :: finish string (state, fields) := by
  unfold finish
  split <;> rfl

/-- Where the pass stands at a cursor with fields left. -/
structure Standing (line : Line) (state : FieldSplitState) (place : Place (UInt8 × Bool))
    (cursor : Nat) : Prop where
  trailing : state.trailingWhitespaceStart = none
  started : state.fieldStart ≤ cursor
  stands : place =
    if state.fieldStart < cursor then .field (line.extract state.fieldStart cursor)
    else if state.separatorIsWhitespace = true then .behind else .between
  white : state.separatorIsWhitespace = true → state.fieldStart = cursor

/-- The byte that ends a field. -/
theorem readLine_endField {start : Nat} {data : Line} {names : Nat} {white : Bool}
    (hremaining : state.remainingFields = names + 1) (hstarted : state.fieldStart ≤ before.length)
    (hdata : data = (before ++ mark :: rest).extract state.fieldStart before.length)
    (hempty : data = [] → state.fieldStart = before.length)
    (hread : readByte (role mark) string state before.length =
      endField string state before.length white)
    (hstring : string = (before ++ mark :: rest).map Prod.fst)
    (hplace : place = if white = true then .behind else .between)
    (ih : ∀ names', names = names' + 1 →
      finish string (readLine role string rest (before ++ [mark]).length
        { state with
          separatorIsWhitespace := white
          remainingFields := names
          fieldStart := before.length + 1 }) =
        limited string (whiteEnd role (before ++ mark :: rest)) names
          (locateFrom role place start (before ++ [mark]).length rest)) :
    finish string (readLine role string (mark :: rest) before.length state) =
      limited string (whiteEnd role (before ++ mark :: rest)) (names + 1)
        ((state.fieldStart, data) ::
          locateFrom role place start (before ++ [mark]).length rest) := by
  have hlength : (before ++ [mark]).length = before.length + 1 := by simp
  have hfield : string.extract state.fieldStart before.length = data.map Prod.fst := by
    rw [hdata, hstring, List.extract_eq_take_drop, List.extract_eq_take_drop, List.map_take,
      List.map_drop]
  rw [readLine_cons, hread, endField, hremaining, Nat.add_sub_cancel]
  cases names with
  | zero =>
    rw [if_pos rfl]
    obtain ⟨hnone, hsame, hlast, hmore⟩ := readLine_rest string (before ++ [mark]) rest start
      (show { state with
        separatorIsWhitespace := white
        remainingFields := 0
        trailingWhitespaceStart := some before.length }.remainingFields = 0 from rfl) rfl hplace
    rw [← hlength]
    generalize readLine role string rest (before ++ [mark]).length _ = out
      at hnone hsame hlast hmore
    obtain ⟨final, fields⟩ := out
    simp only [List.nil_append] at hnone hsame hlast hmore ⊢
    subst hnone
    have hsplit : (before ++ [mark]) ++ rest = before ++ mark :: rest := by simp
    rw [hsplit] at hmore
    cases hothers : locateFrom role place start (before ++ [mark]).length rest with
    | nil =>
      rw [finish, limited, hsame, hlast hothers, Option.getD_some, hfield]
      by_cases hnil : data = []
      · rw [if_pos (le_of_eq (hempty hnil).symm), if_pos hnil]
      · rw [if_neg, if_neg hnil, List.nil_append]
        intro hle
        apply hnil
        rw [hdata, Nat.le_antisymm hle hstarted, extract_self]
    | cons next others =>
      obtain ⟨hend, hpending⟩ := hmore (by rw [hothers]; exact List.cons_ne_nil next others)
      have htotal : string.length = (before ++ mark :: rest).length := by
        rw [hstring, List.length_map]
      rw [finish, limited, hsame, htotal, hpending, if_neg (by omega), List.nil_append]
  | succ names =>
    rw [if_neg (Nat.succ_ne_zero names)]
    have hrest := ih names rfl
    rw [hlength] at hrest ⊢
    rw [limited, ← hrest, ← hfield, ← finish_cons]
    rfl

variable (role) in
/-- **The pass with fields left** returns the fields to come, the last of them with the rest
    of the line. -/
theorem finish_readLine {names : Nat} (hremaining : state.remainingFields = names + 1)
    (h : Standing (before ++ rest) state place before.length)
    (hstring : string = (before ++ rest).map Prod.fst) :
    finish string (readLine role string rest before.length state) =
      limited string (whiteEnd role (before ++ rest)) (names + 1)
        (locateFrom role place state.fieldStart before.length rest) := by
  induction rest generalizing before state place names with
  | nil =>
    have htotal : string.length = before.length := by
      rw [hstring, List.append_nil, List.length_map]
    have hstands := h.stands
    rw [List.append_nil] at hstands
    rw [readLine, finish, h.trailing, Option.getD_none, htotal, hstands]
    split
    · next hend =>
      have hle : before.length ≤ state.fieldStart := hend
      rw [if_neg (by omega)]
      split <;> cases names <;> rfl
    · next hmore =>
      have hlt : state.fieldStart < before.length := Nat.lt_of_not_le hmore
      have hne : before.extract state.fieldStart before.length ≠ [] :=
        extract_ne_nil before (le_refl before.length) hlt
      have hfield : string.extract state.fieldStart before.length =
          (before.extract state.fieldStart before.length).map Prod.fst := by
        rw [hstring, List.append_nil, List.extract_eq_take_drop, List.extract_eq_take_drop,
          List.map_take, List.map_drop]
      rw [if_pos hlt, locateFrom, hfield, List.nil_append]
      cases names with
      | zero => rw [limited, if_neg hne]
      | succ names => rfl
  | cons mark rest ih =>
    have hlength : (before ++ [mark]).length = before.length + 1 := by simp
    have hsplit : before ++ mark :: rest = (before ++ [mark]) ++ rest := by simp
    have hread : readByte (role mark) string state before.length =
        readField (role mark) string state before.length := by
      rw [readByte, if_neg (by omega)]
    have hstarted := h.started
    -- a byte that ends no field
    have hstep (state' : FieldSplitState) (place' : Place (UInt8 × Bool))
        (hread' : readField (role mark) string state before.length = (state', []))
        (hremaining' : state'.remainingFields = names + 1)
        (hstanding : Standing (before ++ mark :: rest) state' place' (before ++ [mark]).length)
        (hlocate : locateFrom role place state.fieldStart before.length (mark :: rest) =
          locateFrom role place' state'.fieldStart (before ++ [mark]).length rest) :
        finish string (readLine role string (mark :: rest) before.length state) =
          limited string (whiteEnd role (before ++ mark :: rest)) (names + 1)
            (locateFrom role place state.fieldStart before.length (mark :: rest)) := by
      rw [hsplit] at hstanding
      have hrest := ih hremaining' hstanding (by rw [← hsplit]; exact hstring)
      rw [readLine_cons, hread, hread', hlocate, ← hlength, List.nil_append, hsplit]
      exact hrest
    -- a byte that ends one
    have hends (white : Bool) (data : Line)
        (hread' : readField (role mark) string state before.length =
          endField string state before.length white)
        (hdata : data = (before ++ mark :: rest).extract state.fieldStart before.length)
        (hlocate : locateFrom role place state.fieldStart before.length (mark :: rest) =
          (state.fieldStart, data) ::
            locateFrom role (if white = true then .behind else .between) state.fieldStart
              (before ++ [mark]).length rest) :
        finish string (readLine role string (mark :: rest) before.length state) =
          limited string (whiteEnd role (before ++ mark :: rest)) (names + 1)
            (locateFrom role place state.fieldStart before.length (mark :: rest)) := by
      rw [hlocate]
      have hempty : data = [] → state.fieldStart = before.length := by
        intro hnil
        by_contra hne
        exact extract_ne_nil (before ++ mark :: rest) (by simp)
          (show state.fieldStart < before.length by omega) (hdata ▸ hnil)
      refine readLine_endField hremaining hstarted hdata hempty (hread.trans hread') hstring rfl ?_
      rintro names' rfl
      have hstanding : Standing ((before ++ [mark]) ++ rest)
          { state with
            separatorIsWhitespace := white
            remainingFields := names' + 1
            fieldStart := before.length + 1 }
          (if white = true then .behind else .between) (before ++ [mark]).length := by
        refine ⟨h.trailing, le_of_eq hlength.symm, ?_, fun _ => hlength.symm⟩
        rw [if_neg (show ¬ before.length + 1 < (before ++ [mark]).length by omega)]
      have hrest := ih rfl hstanding (by rw [← hsplit]; exact hstring)
      have hplace : ∀ field : Line,
          (if white = true then Place.behind else Place.between) ≠ .field field := by
        intro field
        split
        · exact Place.behind_ne field
        · exact Place.between_ne field
      rw [hsplit, hrest, locateFrom_start role hplace]
    have hstands := h.stands
    cases hrole : role mark with
    | datum =>
      rw [hrole] at hstep
      have hextract (hlt : state.fieldStart ≤ before.length) :
          (before ++ mark :: rest).extract state.fieldStart (before ++ [mark]).length =
            (before ++ mark :: rest).extract state.fieldStart before.length ++ [mark] := by
        rw [← extract_append hlt (by omega), hlength,
          extract_cons (Nat.lt_succ_self _)
            (show (before ++ mark :: rest)[before.length]? = some mark by simp), extract_self]
      by_cases hwhite : state.separatorIsWhitespace = true
      · have hstart := h.white hwhite
        refine hstep { state with
          fieldStart := before.length
          separatorIsWhitespace := false } (.field [mark]) ?_ hremaining ?_ ?_
        · rw [readField, if_pos hwhite]
        · refine ⟨h.trailing, by simp, ?_, fun hfalse => absurd hfalse Bool.false_ne_true⟩
          rw [if_pos (show before.length < (before ++ [mark]).length by omega), ← hstart,
            hextract (le_of_eq hstart), hstart, extract_self, List.nil_append]
        · rw [if_neg (by omega), if_pos hwhite] at hstands
          rw [hstands, hlength]
          simp [locateFrom, hrole]
      · refine hstep state (.field ((before ++ mark :: rest).extract state.fieldStart
          before.length ++ [mark])) ?_ hremaining ?_ ?_
        · rw [readField, if_neg hwhite]
        · refine ⟨h.trailing, by omega, ?_, fun hw => absurd hw hwhite⟩
          rw [if_pos (show state.fieldStart < (before ++ [mark]).length by omega),
            hextract hstarted]
        · rw [hlength]
          by_cases hlt : state.fieldStart < before.length
          · rw [if_pos hlt] at hstands
            rw [hstands]
            simp [locateFrom, hrole]
          · have hstart : state.fieldStart = before.length := by omega
            rw [if_neg hlt, if_neg hwhite] at hstands
            rw [hstands, hstart, extract_self]
            simp [locateFrom, hrole]
    | white =>
      rw [hrole] at hstep hends
      by_cases hlt : state.fieldStart < before.length
      · rw [if_pos hlt] at hstands
        have hwhite : ¬ state.separatorIsWhitespace = true := by
          intro hw
          have := h.white hw
          omega
        refine hends true _ ?_ rfl ?_
        · rw [readField, if_neg hwhite, if_neg (by omega)]
        · rw [hstands, hlength, if_pos rfl]
          simp [locateFrom, hrole]
      · have hstart : state.fieldStart = before.length := by omega
        rw [if_neg hlt] at hstands
        refine hstep { state with fieldStart := before.length + 1 } place ?_ hremaining ?_ ?_
        · rw [readField, if_pos hstart.symm]
          split <;> rfl
        · refine ⟨h.trailing, by simp, ?_, fun _ => hlength.symm⟩
          rw [if_neg (show ¬ before.length + 1 < (before ++ [mark]).length by omega)]
          exact hstands
        · have hplace (field : Line) : place ≠ .field field := by
            rw [hstands]
            split
            · exact Place.behind_ne _
            · exact Place.between_ne _
          rw [hlength, locateFrom_start role hplace (before.length + 1) state.fieldStart, hstands]
          split <;> simp [locateFrom, hrole]
    | delimiter =>
      rw [hrole] at hstep hends
      by_cases hwhite : state.separatorIsWhitespace = true
      · have hstart := h.white hwhite
        rw [if_neg (by omega), if_pos hwhite] at hstands
        refine hstep { state with
          fieldStart := before.length + 1
          separatorIsWhitespace := false } .between ?_ hremaining ?_ ?_
        · rw [readField, if_pos hwhite]
        · refine ⟨h.trailing, by simp, ?_, fun hfalse => absurd hfalse Bool.false_ne_true⟩
          rw [if_neg (show ¬ before.length + 1 < (before ++ [mark]).length by omega)]
          rfl
        · rw [hstands, hlength, locateFrom_start role Place.between_ne (before.length + 1)
            state.fieldStart]
          simp [locateFrom, hrole]
      · refine hends false _ ?_ rfl ?_
        · rw [readField, if_neg hwhite]
        · rw [hlength, if_neg Bool.false_ne_true]
          by_cases hlt : state.fieldStart < before.length
          · rw [if_pos hlt] at hstands
            rw [hstands]
            simp [locateFrom, hrole]
          · have hstart : state.fieldStart = before.length := by omega
            rw [if_neg hlt, if_neg hwhite] at hstands
            rw [hstands, hstart, extract_self]
            simp [locateFrom, hrole]

end

/-! ### What a limit changes -/

section

variable {string : Bytes} {stop names : Nat} {located : List (Nat × Line)}

theorem length_limited (string : Bytes) (stop names : Nat) (located : List (Nat × Line)) :
    (limited string stop names located).length ≤ names := by
  induction names generalizing located with
  | zero => exact Nat.le_refl 0
  | succ names ih =>
    match names, located with
    | _, [] => exact Nat.zero_le _
    | 0, [(_, data)] =>
      rw [limited]
      split <;> simp
    | 0, _ :: _ :: _ => exact Nat.le_refl 1
    | names + 1, (_, _) :: rest =>
      rw [limited, List.length_cons]
      exact Nat.succ_le_succ (ih rest)

theorem limited_few (h : located.length < names) :
    limited string stop names located = located.map fun field => field.2.map Prod.fst := by
  induction names generalizing located with
  | zero => exact absurd h (Nat.not_lt_zero _)
  | succ names ih =>
    cases located with
    | nil => rfl
    | cons field rest =>
      rw [List.length_cons] at h
      obtain ⟨names, rfl⟩ : ∃ k, names = k + 1 := ⟨names - 1, by omega⟩
      rw [limited, ih (by omega)]
      rfl

theorem limited_full (h : located.length = names + 1) :
    limited string stop (names + 1) located =
      ((located.map fun field => field.2.map Prod.fst).take names) ++
        ((located.map fun field => field.2.map Prod.fst).drop names).filter (· ≠ []) := by
  induction names generalizing located with
  | zero =>
    obtain ⟨⟨start, data⟩, rfl⟩ := List.length_eq_one_iff.mp h
    rw [limited]
    by_cases hempty : data = []
    · simp [hempty]
    · simp [hempty]
  | succ names ih =>
    cases located with
    | nil => exact absurd h (Nat.succ_ne_zero _).symm
    | cons field rest =>
      rw [limited, ih (Nat.succ.inj h)]
      rfl

theorem limited_many (string : Bytes) (stop : Nat) (h : names + 1 < located.length) :
    ∃ start data, located[names]? = some (start, data) ∧
      limited string stop (names + 1) located =
        ((located.map fun field => field.2.map Prod.fst).take names) ++
          [string.extract start stop] := by
  induction names generalizing located with
  | zero =>
    match located, h with
    | (start, data) :: _ :: _, _ => exact ⟨start, data, rfl, rfl⟩
  | succ names ih =>
    match located, h with
    | (first, data) :: rest, h =>
      obtain ⟨start, data', hget, hlimited⟩ :=
        ih (show names + 1 < rest.length from Nat.lt_of_succ_lt_succ h)
      exact ⟨start, data', hget, by rw [limited, hlimited]; rfl⟩

end

theorem rdropWhile_append_cons {α : Type} (p : α → Bool) {a : α} (ha : p a = false)
    (before rest : List α) :
    (before ++ a :: rest).rdropWhile p = before ++ (a :: rest).rdropWhile p := by
  have hkept : ¬ p a = true := by simp [ha]
  induction rest using List.reverseRecOn with
  | nil =>
    rw [List.rdropWhile_concat_neg _ _ _ hkept, List.rdropWhile_singleton, if_neg hkept]
  | append_singleton rest last ih =>
    rw [show before ++ a :: (rest ++ [last]) = (before ++ a :: rest) ++ [last] by simp,
      show a :: (rest ++ [last]) = (a :: rest) ++ [last] by simp]
    by_cases hlast : p last = true
    · rw [List.rdropWhile_concat_pos _ _ _ hlast, List.rdropWhile_concat_pos _ _ _ hlast, ih]
    · rw [List.rdropWhile_concat_neg _ _ _ hlast, List.rdropWhile_concat_neg _ _ _ hlast,
        List.append_assoc]

/-- From a byte that is no white space on, the line is cut where its rest is. -/
theorem extract_whiteEnd {role : UInt8 × Bool → Role} {line : Line} {start : Nat}
    {mark : UInt8 × Bool} (hget : (line)[start]? = some mark) (hmark : role mark ≠ .white) :
    line.extract start (whiteEnd role line) =
      (line.drop start).rdropWhile fun mark => role mark = .white := by
  obtain ⟨hlt, hmark'⟩ := List.getElem?_eq_some_iff.mp hget
  have hcut := rdropWhile_append_cons (fun mark => decide (role mark = .white))
    (by simpa using hmark) (line.take start) (line.drop (start + 1))
  rw [← hmark', ← List.drop_eq_getElem_cons hlt, List.take_append_drop] at hcut
  have hprefix : line.rdropWhile (fun mark => role mark = .white) =
      line.take (whiteEnd role line) := List.prefix_iff_eq_take.mp (List.rdropWhile_prefix _ line)
  rw [List.extract_eq_take_drop, ← List.drop_take, ← hprefix, hcut,
    List.drop_left' (by rw [List.length_take]; omega)]

section

variable {shell : Shell W} {string : Bytes} {mask : List Bool}

/-- The pass returns the limited splitting of the line. -/
theorem splitFields_eq_limited (ifs : Bytes) (h : shell.locale.Charmap)
    (hlength : mask.length = string.length)
    (hnul : (0 : UInt8) ∉ string) (names : Nat) :
    splitFields (Variables.updateIfsCache ifs shell) string mask (names + 1) =
      limited string
        (whiteEnd (lineRole shell.locale (readableIfs shell.locale ifs)) (string.zip mask))
        (names + 1)
        (locate (lineRole shell.locale (readableIfs shell.locale ifs)) (string.zip mask)) := by
  have hcovers := unprotectedRegions_covers mask
  rw [hlength] at hcovers
  have hsettled : Settled ⟨0, none, names + 1, false⟩ 0 :=
    ⟨fun _ => rfl, fun _ hfalse => absurd hfalse Bool.false_ne_true⟩
  obtain ⟨hfields, htrailing, hstart⟩ := splitRegions_readLine ifs h hlength hnul _ hcovers
    hsettled (Nat.zero_le _) (Or.inl rfl)
  have hstanding : Standing ([] ++ string.zip mask) ⟨0, none, names + 1, false⟩ .between 0 :=
    ⟨rfl, le_refl 0, rfl, fun hfalse => absurd hfalse Bool.false_ne_true⟩
  have hstring : string = ([] ++ string.zip mask).map Prod.fst := by
    rw [List.nil_append, List.map_fst_zip (le_of_eq hlength.symm)]
  have hfinish := finish_readLine
    (lineRole shell.locale (readableIfs shell.locale ifs)) rfl hstanding hstring
  rw [List.drop_zero] at hfields htrailing hstart
  refine Eq.trans ?_ hfinish
  rw [splitFields, splitRegionsIntoFields, finish]
  simp only
  rw [hfields, htrailing, hstart]
  rfl

/-- **`read` leaves the rest to the last name**, at the bytes of an `IFS` that the locale
    decodes: the limited splitting has one field a name at most; where unlimited splitting
    has no more fields than there are names they are the same, but that an empty field for
    the last name is left out; and where it has more, the last field goes on to the end of
    the string, less the white space there. -/
theorem splitFields_limited (shell : Shell W) (ifs : Bytes) (h : shell.locale.Charmap)
    (hlength : mask.length = string.length) (hnul : (0 : UInt8) ∉ string) (n : Nat)
    (hpos : 1 ≤ n) {room : Nat} (hroom : string.length < room) :
    let role := lineRole shell.locale (readableIfs shell.locale ifs)
    let line := string.zip mask
    let fields := splitFields (Variables.updateIfsCache ifs shell) string mask n
    let unlimited := splitFields (Variables.updateIfsCache ifs shell) string mask room
    ((∀ byte ∈ ifs, byte < 0x80) ∨
        (∀ byte ∈ ifs, (shell.locale.decodeExact [byte]).isSome = true) →
      readableIfs shell.locale ifs = ifs) ∧
      unlimited = (locate role line).map (fun field => field.2.map Prod.fst) ∧
      (∀ field ∈ locate role line, Located role line field) ∧
      fields.length ≤ n ∧
      (unlimited.length < n → fields = unlimited) ∧
      (unlimited.length = n → fields =
        unlimited.take (n - 1) ++ (unlimited.drop (n - 1)).filter (· ≠ [])) ∧
      (n < unlimited.length → ∃ start data, (locate role line)[n - 1]? = some (start, data) ∧
        fields = unlimited.take (n - 1) ++
          [((line.drop start).rdropWhile fun mark => role mark = .white).map Prod.fst]) := by
  obtain ⟨names, rfl⟩ : ∃ names, n = names + 1 := ⟨n - 1, by omega⟩
  intro role line fields unlimited
  have hunlimited : unlimited = (locate role line).map fun field => field.2.map Prod.fst := by
    refine (splitFields_eq_split h hlength hnul hroom).trans ?_
    rw [← map_snd_locate, List.map_map]
    rfl
  have hfields : fields = limited string (whiteEnd role line) (names + 1) (locate role line) :=
    splitFields_eq_limited ifs h hlength hnul names
  have hcount : unlimited.length = (locate role line).length := by
    rw [hunlimited, List.length_map]
  refine ⟨readableIfs_eq, hunlimited, locate_located role line, ?_, ?_, ?_, ?_⟩
  · rw [hfields]
    exact length_limited string _ _ _
  · intro hfew
    rw [hfields, hunlimited]
    exact limited_few (hcount ▸ hfew)
  · intro hfull
    rw [hfields, hunlimited]
    exact limited_full (hcount ▸ hfull)
  · intro hmany
    obtain ⟨start, data, hget, hlimited⟩ :=
      limited_many string (whiteEnd role line) (hcount ▸ hmany)
    refine ⟨start, data, hget, ?_⟩
    obtain ⟨mark, hbegins, hmark⟩ :=
      (locate_located role line _ (List.mem_of_getElem? hget)).begins
    rw [hfields, hlimited, hunlimited, ← extract_whiteEnd hbegins hmark, map_fst_extract hlength]
    rfl

/-- Three fields and two names, under the `IFS` a shell starts with. -/
theorem splitFields_limited_two :
    splitFields (Variables.updateIfsCache Variables.defaultIfs
        (⟨{ dialect := .posix }, Locale.c, { entries := ∅ }, {}, 0, [], ()⟩ : Shell Unit))
      (text "a b c ") (List.replicate 6 false) 2 = [text "a", text "b c"] := by
  have hlimited := splitFields_limited
    (⟨{ dialect := .posix }, Locale.c, { entries := ∅ }, {}, 0, [], ()⟩ : Shell Unit)
    Variables.defaultIfs Locale.c_charmap
    (show (List.replicate 6 false).length = (text "a b c ").length from rfl) (by decide) 2
    (by decide) (show (text "a b c ").length < 7 by decide)
  obtain ⟨start, data, hget, hfields⟩ := hlimited.2.2.2.2.2.2 (by decide +kernel)
  obtain rfl : 2 = start := congrArg Prod.fst (Option.some.inj hget)
  exact hfields.trans (by decide +kernel)

/-- A line that is one colon, and one name: unlimited splitting has an empty field. -/
theorem not_splitFields_limited :
    ¬ ∀ (shell : Shell Unit) (ifs string : Bytes) (mask : List Bool) (n room : Nat),
      shell.locale.Charmap → mask.length = string.length → (0 : UInt8) ∉ string → 1 ≤ n →
      string.length < room →
        let fields := splitFields (Variables.updateIfsCache ifs shell) string mask n
        let unlimited := splitFields (Variables.updateIfsCache ifs shell) string mask room
        unlimited.length ≤ n → fields = unlimited := by
  intro h
  have heq := h ⟨{ dialect := .posix }, Locale.c, { entries := ∅ }, {}, 0, [], ()⟩ (text ":")
    (text ":") [false] 1 2 Locale.c_charmap rfl (by decide) (le_refl 1) (by decide)
    (by decide +kernel)
  revert heq
  decide +kernel

end

end Nsh.Expand
