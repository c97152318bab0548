import Nsh.Patterns.Reading

/-!
# The patterns of `GLOBIGNORE`

The value is cut at its colons, but for those a backslash protects and those inside a bracket
expression.  Where a bracket expression ends is found here by a scanner of its own, which
counts bytes and knows neither the backslash nor the range.  The matcher that is handed the
pieces has the last word on brackets.
-/

namespace Nsh.Expand.Ignored

open Nsh Nsh.Patterns

/-! ### The scanner -/

def isDelimiter (byte : UInt8) : Bool := byte == chr ':' || byte == chr '.' || byte == chr '='

def innerMemberEndFrom (bytes : Bytes) (delimiter : UInt8) : ℕ → ℕ → Option ℕ
  | 0, _ => none
  | fuel + 1, cursor =>
    if cursor + 1 < bytes.length then
      if bytes[cursor]? = some delimiter ∧ bytes[cursor + 1]? = some (chr ']') then
        some (cursor + 2)
      else innerMemberEndFrom bytes delimiter fuel (cursor + 1)
    else none

/-- Where the `[:class:]`, `[.collating.]` or `[=equivalence=]` whose name starts at `start`
ends. -/
def innerMemberEnd (bytes : Bytes) (start : ℕ) (delimiter : UInt8) : Option ℕ :=
  innerMemberEndFrom bytes delimiter (bytes.length - start) start

def bracketEndFrom (bytes : Bytes) : ℕ → ℕ → Option ℕ
  | 0, _ => none
  | fuel + 1, cursor =>
    match bytes[cursor]? with
    | none => none
    | some byte =>
      if byte = chr ']' then some (cursor + 1)
      else
        match bytes[cursor + 1]? with
        | none => bracketEndFrom bytes fuel (cursor + 1)
        | some delimiter =>
          if isDelimiter delimiter && byte == chr '[' then
            match innerMemberEnd bytes (cursor + 2) delimiter with
            | none => none
            | some next => bracketEndFrom bytes fuel next
          else bracketEndFrom bytes fuel (cursor + 1)

/-- Where the bracket expression that opens at `at` ends, and none where it never closes. -/
def bracketEnd (bytes : Bytes) (start : ℕ) : Option ℕ :=
  let inverted := bytes[start + 1]? = some (chr '!') ∨ bytes[start + 1]? = some (chr '^')
  let cursor := if inverted then start + 2 else start + 1
  let cursor := if bytes[cursor]? = some (chr ']') then cursor + 1 else cursor
  bracketEndFrom bytes (bytes.length - start) cursor

/-- The loop of `ignore_patterns`; `start` is where the piece it is in begins. -/
def ignorePatternsFrom (bytes : Bytes) : ℕ → ℕ → ℕ → List Bytes
  | 0, start, _ => [bytes.drop start]
  | fuel + 1, start, offset =>
    match bytes[offset]? with
    | none => [bytes.drop start]
    | some byte =>
      if byte = chr '\\' then ignorePatternsFrom bytes fuel start (offset + 2)
      else if byte = chr '[' then
        ignorePatternsFrom bytes fuel start ((bracketEnd bytes offset).getD (offset + 1))
      else if byte = chr ':' then
        bytes.extract start offset :: ignorePatternsFrom bytes fuel (offset + 1) (offset + 1)
      else ignorePatternsFrom bytes fuel start (offset + 1)

def ignorePatterns (value : Bytes) : List Bytes := ignorePatternsFrom value (value.length + 1) 0 0

/-! ### The pattern of a piece -/

/-- The marks of `Pattern::from_escaped_text`. -/
def escapedMarks : Bytes → List Mark
  | [] => []
  | [byte] => [⟨byte, false⟩]
  | byte :: next :: rest =>
    if byte = chr '\\' then ⟨next, true⟩ :: escapedMarks rest
    else ⟨byte, false⟩ :: escapedMarks (next :: rest)

def fromEscapedText (text : Bytes) : Pattern := ⟨escapedMarks text, ⟨false, false⟩⟩

/-- How many bytes of the text so many marks stand for: a protected byte stands behind its
backslash. -/
def textOffset (text : Bytes) (offset : ℕ) : ℕ :=
  (((escapedMarks text).take offset).map fun mark => if mark.quoted then 2 else 1).sum

/-- The matcher of a piece, which brackets are read by whatever the subject is. -/
def matcherOf (locale : Locale) (text : Bytes) : Matcher :=
  ⟨⟨⟨locale, (fromEscapedText text).bytes⟩, ⟨locale, []⟩⟩, fromEscapedText text, 0, .whole⟩

/-- Where the bracket expression that opens at `offset` ends, as the matcher reads it. -/
def matcherEnd (m : Matcher) (offset : ℕ) : Option ℕ :=
  if m.pattern.active offset (chr '[') then (m.bracket (offset + 1) 0).map (·.1) else none

/-! ### The cuts there are to be -/

/-- The value cut at the colons that neither a backslash nor a bracket expression of the matcher
protects; `start` is behind the cut before. -/
def piecesFrom (locale : Locale) (value : Bytes) : ℕ → ℕ → ℕ → List Bytes
  | 0, start, _ => [value.drop start]
  | fuel + 1, start, offset =>
    let text := value.drop start
    let m := matcherOf locale text
    if m.pattern.length ≤ offset then [text]
    else if m.pattern.active offset (chr ':') then
      text.take (textOffset text offset) ::
        piecesFrom locale value fuel (start + textOffset text offset + 1) 0
    else
      match matcherEnd m offset with
      | some next => piecesFrom locale value fuel start next
      | none => piecesFrom locale value fuel start (m.patternEnd offset)

def pieces (locale : Locale) (value : Bytes) : List Bytes :=
  piecesFrom locale value (value.length + 1) 0 0

/-! ### Texts and their marks -/

section Marks

variable (text : Bytes)

def markWidth (mark : Mark) : ℕ := if mark.quoted then 2 else 1

theorem textOffset_eq (offset : ℕ) :
    textOffset text offset = (((escapedMarks text).take offset).map markWidth).sum := rfl

theorem textOffset_succ {offset : ℕ} {mark : Mark} (h : (escapedMarks text)[offset]? = some mark) :
    textOffset text (offset + 1) = textOffset text offset + markWidth mark := by
  obtain ⟨hlt, heq⟩ := List.getElem?_eq_some_iff.mp h
  rw [textOffset_eq, textOffset_eq, List.take_succ_eq_append_getElem hlt, List.map_append,
    List.sum_append, heq]
  rfl

/-- The marks from one on are those of the text from there. -/
theorem escapedMarks_drop {offset : ℕ} (h : offset ≤ (escapedMarks text).length) :
    escapedMarks (text.drop (textOffset text offset)) = (escapedMarks text).drop offset := by
  induction text using escapedMarks.induct generalizing offset with
  | case1 =>
    rw [List.drop_nil]
    exact List.drop_nil.symm
  | case2 byte =>
    cases offset with
    | zero => rfl
    | succ offset =>
      obtain rfl : offset = 0 := Nat.le_zero.mp (Nat.le_of_succ_le_succ h)
      rfl
  | case3 next rest ih =>
    have hmarks : escapedMarks (chr '\\' :: next :: rest) = ⟨next, true⟩ :: escapedMarks rest := by
      rw [escapedMarks, if_pos rfl]
    cases offset with
    | zero => rfl
    | succ offset =>
      have hoffset : textOffset (chr '\\' :: next :: rest) (offset + 1) =
          textOffset rest offset + 2 := by
        rw [textOffset_eq, textOffset_eq, hmarks, List.take_succ_cons, List.map_cons, List.sum_cons]
        exact Nat.add_comm _ _
      rw [hmarks, List.length_cons] at h
      rw [hoffset, hmarks, List.drop_succ_cons]
      exact ih (Nat.le_of_succ_le_succ h)
  | case4 byte next rest hplain ih =>
    have hmarks : escapedMarks (byte :: next :: rest) =
        ⟨byte, false⟩ :: escapedMarks (next :: rest) := by
      rw [escapedMarks, if_neg hplain]
    cases offset with
    | zero => rfl
    | succ offset =>
      have hoffset : textOffset (byte :: next :: rest) (offset + 1) =
          textOffset (next :: rest) offset + 1 := by
        rw [textOffset_eq, textOffset_eq, hmarks, List.take_succ_cons, List.map_cons, List.sum_cons]
        exact Nat.add_comm _ _
      rw [hmarks, List.length_cons] at h
      rw [hoffset, hmarks, List.drop_succ_cons]
      exact ih (Nat.le_of_succ_le_succ h)

/-- The first byte of a text, by its first mark. -/
theorem escapedMarks_head {mark : Mark} {marks : List Mark}
    (h : escapedMarks text = mark :: marks) :
    text.head? = some (if mark.quoted then chr '\\' else mark.byte) ∧
      (mark.quoted = false → mark.byte = chr '\\' → text.length = 1) := by
  cases text with
  | nil => cases h
  | cons byte rest =>
    cases rest with
    | nil =>
      cases h
      exact ⟨rfl, fun _ _ => rfl⟩
    | cons next rest =>
      rw [escapedMarks] at h
      split at h
      · next hescape =>
        cases h
        exact ⟨congrArg some hescape, nofun⟩
      · next hplain =>
        cases h
        exact ⟨rfl, fun _ heq => absurd heq hplain⟩

theorem textOffset_length : textOffset text (escapedMarks text).length = text.length := by
  rw [textOffset_eq, List.take_length]
  induction text using escapedMarks.induct with
  | case1 => rfl
  | case2 byte => rfl
  | case3 next rest ih =>
    rw [escapedMarks, if_pos rfl, List.map_cons, List.sum_cons, ih, List.length_cons,
      List.length_cons]
    exact Nat.add_comm _ _
  | case4 byte next rest hplain ih =>
    rw [escapedMarks, if_neg hplain, List.map_cons, List.sum_cons, ih, List.length_cons (a := byte)]
    exact Nat.add_comm _ _

theorem le_textOffset {offset : ℕ} (h : offset ≤ (escapedMarks text).length) :
    offset ≤ textOffset text offset := by
  induction offset with
  | zero => exact Nat.zero_le _
  | succ offset ih =>
    have hwidth : 1 ≤ markWidth (escapedMarks text)[offset] := by
      unfold markWidth
      split <;> omega
    rw [textOffset_succ text (List.getElem?_eq_getElem h)]
    exact Nat.add_le_add (ih (Nat.le_of_succ_le h)) hwidth

/-- The byte a mark stands at. -/
theorem textOffset_get {offset : ℕ} {mark : Mark} (h : (escapedMarks text)[offset]? = some mark) :
    text[textOffset text offset]? = some (if mark.quoted then chr '\\' else mark.byte) ∧
      (mark.quoted = false → mark.byte = chr '\\' → textOffset text offset + 1 = text.length) := by
  obtain ⟨hlt, heq⟩ := List.getElem?_eq_some_iff.mp h
  have hdrop := escapedMarks_drop text hlt.le
  rw [List.drop_eq_getElem_cons hlt, heq] at hdrop
  obtain ⟨hhead, hlast⟩ := escapedMarks_head _ hdrop
  rw [List.head?_drop] at hhead
  refine ⟨hhead, fun hquoted hbyte => ?_⟩
  have hone := hlast hquoted hbyte
  rw [List.length_drop] at hone
  omega

end Marks

/-! ### The scanner behind a cut -/

section Shift

variable (value : Bytes) (start : ℕ)

theorem innerMemberEndFrom_drop (delimiter : UInt8) (fuel cursor : ℕ) :
    innerMemberEndFrom value delimiter fuel (start + cursor) =
      (innerMemberEndFrom (value.drop start) delimiter fuel cursor).map (start + ·) := by
  induction fuel generalizing cursor with
  | zero => rfl
  | succ fuel ih =>
    have hnext : start + cursor + 1 = start + (cursor + 1) := by omega
    have hbound : start + (cursor + 1) < value.length ↔ cursor + 1 < value.length - start := by
      omega
    rw [innerMemberEndFrom, innerMemberEndFrom, List.getElem?_drop, List.getElem?_drop,
      List.length_drop, hnext, ih]
    by_cases hinside : cursor + 1 < value.length - start
    · rw [if_pos hinside, if_pos (hbound.mpr hinside)]
      split
      · rfl
      · rfl
    · rw [if_neg hinside, if_neg fun h => hinside (hbound.mp h)]
      rfl

theorem innerMemberEnd_drop (delimiter : UInt8) (cursor : ℕ) :
    innerMemberEnd value (start + cursor) delimiter =
      (innerMemberEnd (value.drop start) cursor delimiter).map (start + ·) := by
  unfold innerMemberEnd
  rw [List.length_drop, Nat.sub_sub]
  exact innerMemberEndFrom_drop value start delimiter _ cursor

theorem bracketEndFrom_drop (fuel cursor : ℕ) :
    bracketEndFrom value fuel (start + cursor) =
      (bracketEndFrom (value.drop start) fuel cursor).map (start + ·) := by
  induction fuel generalizing cursor with
  | zero => rfl
  | succ fuel ih =>
    have hnext : start + cursor + 1 = start + (cursor + 1) := by omega
    have hinner : start + cursor + 2 = start + (cursor + 2) := by omega
    rw [bracketEndFrom, bracketEndFrom, List.getElem?_drop, List.getElem?_drop, hnext, hinner, ih]
    cases value[start + cursor]? with
    | none => rfl
    | some byte =>
      dsimp only
      split
      · rfl
      · cases value[start + (cursor + 1)]? with
        | none => rfl
        | some delimiter =>
          dsimp only
          split
          · rw [innerMemberEnd_drop]
            cases innerMemberEnd (value.drop start) (cursor + 2) delimiter with
            | none => rfl
            | some next => exact ih next
          · rfl

/-- A bracket expression ends where it does in the text behind a cut. -/
theorem bracketEnd_drop (offset : ℕ) :
    bracketEnd value (start + offset) =
      (bracketEnd (value.drop start) offset).map (start + ·) := by
  have hone : start + offset + 1 = start + (offset + 1) := by omega
  have htwo : start + offset + 2 = start + (offset + 2) := by omega
  have hnext : value[start + (offset + 1)]? = (value.drop start)[offset + 1]? :=
    List.getElem?_drop.symm
  have hclosing : ∀ cursor, bracketEndFrom value (value.length - (start + offset))
      (if value[start + cursor]? = some (chr ']') then start + cursor + 1 else start + cursor) =
        (bracketEndFrom (value.drop start) (value.length - (start + offset))
          (if (value.drop start)[cursor]? = some (chr ']') then cursor + 1 else cursor)).map
            (start + ·) := by
    intro cursor
    rw [List.getElem?_drop]
    by_cases hclose : value[start + cursor]? = some (chr ']')
    · rw [if_pos hclose, if_pos hclose, Nat.add_assoc]
      exact bracketEndFrom_drop value start _ (cursor + 1)
    · rw [if_neg hclose, if_neg hclose]
      exact bracketEndFrom_drop value start _ cursor
  unfold bracketEnd
  dsimp only
  rw [List.length_drop, Nat.sub_sub, hone, htwo, hnext]
  by_cases hinverted : (value.drop start)[offset + 1]? = some (chr '!') ∨
      (value.drop start)[offset + 1]? = some (chr '^')
  · rw [if_pos hinverted, if_pos hinverted]
    exact hclosing (offset + 2)
  · rw [if_neg hinverted, if_neg hinverted]
    exact hclosing (offset + 1)

theorem innerMemberEndFrom_lt {bytes : Bytes} {delimiter : UInt8} {fuel cursor next : ℕ}
    (h : innerMemberEndFrom bytes delimiter fuel cursor = some next) : cursor < next := by
  induction fuel generalizing cursor with
  | zero => cases h
  | succ fuel ih =>
    rw [innerMemberEndFrom] at h
    split at h
    · split at h
      · cases h
        omega
      · have hlt := ih h
        omega
    · cases h

theorem bracketEndFrom_lt {bytes : Bytes} {fuel cursor next : ℕ}
    (h : bracketEndFrom bytes fuel cursor = some next) : cursor < next := by
  induction fuel generalizing cursor with
  | zero => cases h
  | succ fuel ih =>
    rw [bracketEndFrom] at h
    cases hbyte : bytes[cursor]? with
    | none =>
      rw [hbyte] at h
      cases h
    | some byte =>
      rw [hbyte] at h
      dsimp only at h
      split at h
      · cases h
        omega
      · cases hdelimiter : bytes[cursor + 1]? with
        | none =>
          rw [hdelimiter] at h
          have hlt := ih h
          omega
        | some delimiter =>
          rw [hdelimiter] at h
          dsimp only at h
          split at h
          · cases hinner : innerMemberEnd bytes (cursor + 2) delimiter with
            | none =>
              rw [hinner] at h
              cases h
            | some inner =>
              rw [hinner] at h
              have hlt := ih h
              have hpast := innerMemberEndFrom_lt hinner
              omega
          · have hlt := ih h
            omega

theorem bracketEnd_lt {bytes : Bytes} {offset next : ℕ} (h : bracketEnd bytes offset = some next) :
    offset < next := by
  have hlt := bracketEndFrom_lt h
  split_ifs at hlt <;> omega

end Shift

/-! ### The loop, a byte at a time -/

section Loop

variable (value : Bytes)

/-- More fuel than there are bytes left changes nothing. -/
theorem ignorePatternsFrom_fuel {fuel fuel' start offset : ℕ} (h : value.length ≤ offset + fuel)
    (h' : value.length ≤ offset + fuel') :
    ignorePatternsFrom value fuel start offset = ignorePatternsFrom value fuel' start offset := by
  induction fuel generalizing fuel' start offset with
  | zero =>
    have hpast : value[offset]? = none := List.getElem?_eq_none (by omega)
    cases fuel' with
    | zero => rfl
    | succ fuel' => rw [ignorePatternsFrom, ignorePatternsFrom, hpast]
  | succ fuel ih =>
    cases fuel' with
    | zero =>
      have hpast : value[offset]? = none := List.getElem?_eq_none (by omega)
      rw [ignorePatternsFrom, ignorePatternsFrom, hpast]
    | succ fuel' =>
      rw [ignorePatternsFrom, ignorePatternsFrom]
      cases value[offset]? with
      | none => rfl
      | some byte =>
        have hnext : offset < (bracketEnd value offset).getD (offset + 1) := by
          cases hend : bracketEnd value offset with
          | none => exact Nat.lt_succ_self offset
          | some next => exact bracketEnd_lt hend
        dsimp only
        have hsame : ∀ start next, offset < next →
            ignorePatternsFrom value fuel start next = ignorePatternsFrom value fuel' start next :=
          fun start next hlt => ih (by omega) (by omega)
        rw [hsame start (offset + 2) (by omega), hsame start _ hnext,
          hsame (offset + 1) (offset + 1) (Nat.lt_succ_self offset),
          hsame start (offset + 1) (Nat.lt_succ_self offset)]

/-- The pieces from a point of the loop on. -/
def scanFrom (start offset : ℕ) : List Bytes :=
  ignorePatternsFrom value (value.length + 1) start offset

variable {value}

theorem scanFrom_eq (start offset : ℕ) :
    scanFrom value start offset =
      match value[offset]? with
      | none => [value.drop start]
      | some byte =>
        if byte = chr '\\' then scanFrom value start (offset + 2)
        else if byte = chr '[' then
          scanFrom value start ((bracketEnd value offset).getD (offset + 1))
        else if byte = chr ':' then
          value.extract start offset :: scanFrom value (offset + 1) (offset + 1)
        else scanFrom value start (offset + 1) := by
  unfold scanFrom
  rw [ignorePatternsFrom]
  cases value[offset]? with
  | none => rfl
  | some byte =>
    dsimp only
    have hsame : ∀ start next, ignorePatternsFrom value value.length start next =
        ignorePatternsFrom value (value.length + 1) start next :=
      fun start next => ignorePatternsFrom_fuel value (by omega) (by omega)
    rw [hsame, hsame, hsame, hsame]

theorem scanFrom_none {start offset : ℕ} (h : value.length ≤ offset) :
    scanFrom value start offset = [value.drop start] := by
  rw [scanFrom_eq, List.getElem?_eq_none h]

end Loop

/-! ### The pieces give back the value -/

section Join

variable (value : Bytes)

theorem ignorePatternsFrom_ne_nil (fuel start offset : ℕ) :
    ignorePatternsFrom value fuel start offset ≠ [] := by
  induction fuel generalizing start offset with
  | zero => exact List.cons_ne_nil _ _
  | succ fuel ih =>
    rw [ignorePatternsFrom]
    cases value[offset]? with
    | none => exact List.cons_ne_nil _ _
    | some byte =>
      dsimp only
      split
      · exact ih _ _
      · split
        · exact ih _ _
        · split
          · exact List.cons_ne_nil _ _
          · exact ih _ _

theorem ignorePatternsFrom_join {fuel start offset : ℕ} (h : start ≤ offset) :
    [chr ':'].intercalate (ignorePatternsFrom value fuel start offset) = value.drop start := by
  induction fuel generalizing start offset with
  | zero => exact List.intercalate_singleton
  | succ fuel ih =>
    rw [ignorePatternsFrom]
    cases hbyte : value[offset]? with
    | none => exact List.intercalate_singleton
    | some byte =>
      dsimp only
      split
      · exact ih (by omega)
      · split
        · refine ih ?_
          cases hend : bracketEnd value offset with
          | none => exact h.trans (Nat.le_succ offset)
          | some next => exact h.trans (bracketEnd_lt hend).le
        · split
          · next hcolon =>
            obtain ⟨hlt, hget⟩ := List.getElem?_eq_some_iff.mp hbyte
            rw [List.intercalate_cons_of_ne_nil (ignorePatternsFrom_ne_nil value _ _ _),
              ih le_rfl, List.extract_eq_take_drop]
            have hcut : value.drop offset = chr ':' :: value.drop (offset + 1) := by
              rw [List.drop_eq_getElem_cons hlt, hget, hcolon]
            have hpiece := List.take_append_drop (offset - start) (value.drop start)
            rw [List.drop_drop, show start + (offset - start) = offset by omega, hcut] at hpiece
            rw [List.append_assoc]
            exact hpiece
          · exact ih (by omega)

/-- **The pieces joined with colons** are the value. -/
theorem ignorePatterns_join : [chr ':'].intercalate (ignorePatterns value) = value :=
  ignorePatternsFrom_join value le_rfl

end Join

end Nsh.Expand.Ignored
