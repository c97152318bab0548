import Nsh.Expand.Ignored
import Nsh.Patterns.Ordinary

/-!
# Where `GLOBIGNORE` is cut

A bracket expression is plainly written where the scanner of the cuts has no occasion to read
it otherwise than the matcher: no backslash stands before a byte the scanner acts on, a `[`
before a delimiter opens a class of at least one byte, and no character of several bytes hides
a bracket.  Then both name one end of it, and a value of plainly written brackets is cut at the
colons the matcher leaves open.
-/

namespace Nsh.Expand.Ignored

open Nsh Nsh.Patterns

/-! ### Plainly written brackets -/

section Plain

variable (m : Matcher)

/-- Whether this byte stands at `offset` behind a backslash. -/
def protects (offset : ℕ) (byte : UInt8) : Bool := m.pattern.marks[offset]? == some ⟨byte, true⟩

def delimits (offset : ℕ) : Bool :=
  m.pattern.active offset (chr ':') || m.pattern.active offset (chr '.') ||
    m.pattern.active offset (chr '=')

/-- Whether the byte at `offset` is a `]` behind a backslash, or a `[`, behind one or not, that
stands before a delimiter. -/
def misleads (offset : ℕ) : Bool :=
  protects m offset (chr ']') ||
    (m.pattern.active offset (chr '[') || protects m offset (chr '[')) && delimits m (offset + 1)

/-- No byte of the character at `offset` misleads the scanner, and none behind the first is a
`]`. -/
def plainCharacter (offset : ℕ) : Bool :=
  !misleads m offset &&
    (List.range' (offset + 1) (m.patternEnd offset - (offset + 1))).all fun inner =>
      !misleads m inner && !m.pattern.active inner (chr ']')

/-- No backslash stands before a delimiter and its `]` in the class from `offset` to `next`. -/
def plainClass (delimiter : UInt8) (offset next : ℕ) : Bool :=
  (List.range' (offset + 2) (next - 2 - (offset + 2))).all fun inner =>
    !(protects m inner delimiter && m.pattern.active (inner + 1) (chr ']'))

/-- The members of a bracket expression are plainly written, from `offset` to its end or to the
end of the pattern. -/
def plainMembers : ℕ → ℕ → Bool → Bool
  | 0, _, _ => true
  | fuel + 1, offset, firstMember =>
    if m.pattern.length ≤ offset then true
    else if m.pattern.active offset (chr ']') && !firstMember then true
    else
      match (if m.pattern.active offset (chr '[') then m.nestedBounds offset else none) with
      | some (delimiter, _, next) =>
        plainClass m delimiter offset next && plainMembers fuel next false
      | none =>
        let memberEnd := m.patternEnd offset
        plainCharacter m offset &&
          if m.rangeFollows memberEnd then
            plainCharacter m (memberEnd + 1) &&
              plainMembers fuel (m.patternEnd (memberEnd + 1)) false
          else plainMembers fuel memberEnd false

/-- Where the members of the bracket expression that opens at `offset` begin. -/
def membersStart (offset : ℕ) : ℕ :=
  if m.bracketInverted (offset + 1) then offset + 1 + 1 else offset + 1

/-- No `]` stands from `offset` on, behind a backslash or not. -/
def unclosed (offset : ℕ) : Bool :=
  (List.range' offset (m.pattern.length - offset)).all fun inner =>
    !m.pattern.active inner (chr ']') && !protects m inner (chr ']')

/-- The bracket expression that opens at `offset` is plainly written, or nothing closes it. -/
def plainBracket (offset : ℕ) : Bool :=
  unclosed m (offset + 1) || plainMembers m (m.pattern.length + 1) (membersStart m offset) true

/-- No `[` and no colon stands behind the first byte of the character from `offset` to `next`. -/
def plainWithin (offset next : ℕ) : Bool :=
  (List.range' (offset + 1) (next - (offset + 1))).all fun inner =>
    !m.pattern.active inner (chr '[') && !m.pattern.active inner (chr ':')

end Plain

/-- Every bracket expression of the value is plainly written, and so is every character outside
of one. -/
def plainFrom (locale : Locale) (value : Bytes) : ℕ → ℕ → ℕ → Bool
  | 0, _, _ => true
  | fuel + 1, start, offset =>
    let text := value.drop start
    let m := matcherOf locale text
    if m.pattern.length ≤ offset then true
    else if m.pattern.active offset (chr ':') then
      plainFrom locale value fuel (start + textOffset text offset + 1) 0
    else
      (!m.pattern.active offset (chr '[') || plainBracket m offset) &&
        match matcherEnd m offset with
        | some next => plainFrom locale value fuel start next
        | none =>
          plainWithin m offset (m.patternEnd offset) &&
            plainFrom locale value fuel start (m.patternEnd offset)

abbrev Plain (locale : Locale) (value : Bytes) : Prop :=
  plainFrom locale value (value.length + 1) 0 0 = true

/-! ### The bytes of a text, by its marks -/

section Bytes

variable {text : Bytes} {offset : ℕ} {byte : UInt8}

/-- A byte other than the backslash stands where its mark does, when nothing protects it. -/
theorem get_textOffset_iff (h : offset ≤ (escapedMarks text).length) (hbyte : byte ≠ chr '\\') :
    text[textOffset text offset]? = some byte ↔
      (escapedMarks text)[offset]? = some ⟨byte, false⟩ := by
  constructor
  · intro hget
    have hlt : offset < (escapedMarks text).length := by
      refine lt_of_le_of_ne h ?_
      rintro rfl
      rw [textOffset_length, List.getElem?_eq_none le_rfl] at hget
      cases hget
    have hmark := List.getElem?_eq_getElem hlt
    generalize (escapedMarks text)[offset] = mark at hmark
    rw [(textOffset_get text hmark).1] at hget
    obtain ⟨held, quoted⟩ := mark
    cases quoted with
    | true => exact absurd (Option.some.inj hget).symm hbyte
    | false =>
      obtain rfl : held = byte := Option.some.inj hget
      exact hmark
  · intro hmark
    exact (textOffset_get text hmark).1

theorem textOffset_active (h : (escapedMarks text)[offset]? = some ⟨byte, false⟩) :
    textOffset text (offset + 1) = textOffset text offset + 1 :=
  textOffset_succ text h

theorem textOffset_protects (h : (escapedMarks text)[offset]? = some ⟨byte, true⟩) :
    textOffset text (offset + 1) = textOffset text offset + 1 + 1 :=
  textOffset_succ text h

theorem escapedMarks_protects {marks : List Mark} (h : escapedMarks text = ⟨byte, true⟩ :: marks) :
    text[1]? = some byte := by
  cases text with
  | nil => cases h
  | cons first rest =>
    cases rest with
    | nil => cases h
    | cons next rest =>
      rw [escapedMarks] at h
      split at h
      · injection h with hmark
        injection hmark with hbyte
        exact congrArg some hbyte
      · injection h with hmark
        injection hmark with _ hquoted
        cases hquoted

/-- A protected byte stands behind its backslash. -/
theorem get_textOffset_protects (h : (escapedMarks text)[offset]? = some ⟨byte, true⟩) :
    text[textOffset text offset + 1]? = some byte := by
  obtain ⟨hlt, heq⟩ := List.getElem?_eq_some_iff.mp h
  have hdrop := escapedMarks_drop text hlt.le
  rw [List.drop_eq_getElem_cons hlt, heq] at hdrop
  rw [← List.getElem?_drop]
  exact escapedMarks_protects hdrop

/-- A byte other than the backslash has a mark. -/
theorem escapedMarks_mem (hbyte : byte ≠ chr '\\') (h : byte ∈ text) :
    ∃ quoted, (⟨byte, quoted⟩ : Mark) ∈ escapedMarks text := by
  induction text using escapedMarks.induct with
  | case1 => cases h
  | case2 first =>
    obtain rfl := List.mem_singleton.mp h
    exact ⟨false, List.mem_singleton.mpr rfl⟩
  | case3 next rest ih =>
    rw [escapedMarks, if_pos rfl]
    rcases List.mem_cons.mp ((List.mem_cons.mp h).resolve_left hbyte) with rfl | hrest
    · exact ⟨true, List.mem_cons_self⟩
    · obtain ⟨quoted, hmark⟩ := ih hrest
      exact ⟨quoted, List.mem_cons_of_mem _ hmark⟩
  | case4 first next rest hplain ih =>
    rw [escapedMarks, if_neg hplain]
    rcases List.mem_cons.mp h with rfl | hrest
    · exact ⟨false, List.mem_cons_self⟩
    · obtain ⟨quoted, hmark⟩ := ih hrest
      exact ⟨quoted, List.mem_cons_of_mem _ hmark⟩

theorem textOffset_lt (h : offset < (escapedMarks text).length) :
    textOffset text offset < text.length := by
  have hget := (textOffset_get text (List.getElem?_eq_getElem h)).1
  exact (List.getElem?_eq_some_iff.mp hget).1

end Bytes

/-! ### The scanner, a byte at a time -/

section Scanner

variable {text : Bytes} {cursor : ℕ}

theorem innerMemberEnd_eq (delimiter : UInt8) :
    innerMemberEnd text cursor delimiter =
      if cursor + 1 < text.length then
        if text[cursor]? = some delimiter ∧ text[cursor + 1]? = some (chr ']') then
          some (cursor + 2)
        else innerMemberEnd text (cursor + 1) delimiter
      else none := by
  unfold innerMemberEnd
  by_cases hinside : cursor + 1 < text.length
  · have hfuel : text.length - cursor = text.length - (cursor + 1) + 1 := by omega
    rw [hfuel, innerMemberEndFrom]
  · rw [if_neg hinside]
    cases text.length - cursor with
    | zero => rfl
    | succ fuel => rw [innerMemberEndFrom, if_neg hinside]

theorem bracketEndFrom_fuel {fuel fuel' : ℕ} (h : text.length ≤ cursor + fuel)
    (h' : text.length ≤ cursor + fuel') :
    bracketEndFrom text fuel cursor = bracketEndFrom text fuel' cursor := by
  induction fuel generalizing fuel' cursor with
  | zero =>
    have hpast : text[cursor]? = none := List.getElem?_eq_none h
    cases fuel' with
    | zero => rfl
    | succ fuel' => rw [bracketEndFrom, bracketEndFrom, hpast]
  | succ fuel ih =>
    cases fuel' with
    | zero =>
      have hpast : text[cursor]? = none := List.getElem?_eq_none h'
      rw [bracketEndFrom, bracketEndFrom, hpast]
    | succ fuel' =>
      have hsame : ∀ next, cursor < next →
          bracketEndFrom text fuel next = bracketEndFrom text fuel' next :=
        fun next hlt => ih (by omega) (by omega)
      rw [bracketEndFrom, bracketEndFrom, hsame (cursor + 1) (Nat.lt_succ_self cursor)]
      cases text[cursor]? with
      | none => rfl
      | some byte =>
        cases text[cursor + 1]? with
        | none => rfl
        | some delimiter =>
          dsimp only
          cases hinner : innerMemberEnd text (cursor + 2) delimiter with
          | none => rfl
          | some next =>
            have hpast := innerMemberEndFrom_lt hinner
            dsimp only
            rw [hsame next (by omega)]

variable (text cursor) in
/-- Where the bracket expression ends whose next byte is read at `cursor`. -/
def bracketScan : Option ℕ := bracketEndFrom text text.length cursor

theorem bracketScan_eq :
    bracketScan text cursor =
      match text[cursor]? with
      | none => none
      | some byte =>
        if byte = chr ']' then some (cursor + 1)
        else
          match text[cursor + 1]? with
          | none => bracketScan text (cursor + 1)
          | some delimiter =>
            if isDelimiter delimiter && byte == chr '[' then
              match innerMemberEnd text (cursor + 2) delimiter with
              | none => none
              | some next => bracketScan text next
            else bracketScan text (cursor + 1) := by
  have hmore : bracketScan text cursor = bracketEndFrom text (text.length + 1) cursor :=
    bracketEndFrom_fuel (by omega) (by omega)
  rw [hmore, bracketEndFrom]
  rfl

theorem bracketScan_none (h : text.length ≤ cursor) : bracketScan text cursor = none := by
  rw [bracketScan_eq, List.getElem?_eq_none h]

/-- A bracket expression ends at a `]`. -/
theorem bracketScan_found {next : ℕ} (h : bracketScan text cursor = some next) :
    ∃ close, cursor ≤ close ∧ text[close]? = some (chr ']') := by
  unfold bracketScan at h
  generalize text.length = fuel at h
  induction fuel generalizing cursor with
  | zero => cases h
  | succ fuel ih =>
    have honward : ∀ {behind}, cursor ≤ behind → bracketEndFrom text fuel behind = some next →
        ∃ close, cursor ≤ close ∧ text[close]? = some (chr ']') := by
      intro behind hle hscan
      obtain ⟨close, hclose, hbyte⟩ := ih hscan
      exact ⟨close, hle.trans hclose, hbyte⟩
    rw [bracketEndFrom] at h
    cases hbyte : text[cursor]? with
    | none =>
      rw [hbyte] at h
      cases h
    | some byte =>
      rw [hbyte] at h
      dsimp only at h
      split at h
      · next heq => exact ⟨cursor, le_rfl, heq ▸ hbyte⟩
      · cases hdelimiter : text[cursor + 1]? with
        | none =>
          rw [hdelimiter] at h
          exact honward (Nat.le_succ cursor) h
        | some delimiter =>
          rw [hdelimiter] at h
          dsimp only at h
          split at h
          · cases hinner : innerMemberEnd text (cursor + 2) delimiter with
            | none =>
              rw [hinner] at h
              cases h
            | some behind =>
              rw [hinner] at h
              have hlt := innerMemberEndFrom_lt hinner
              exact honward (by omega) h
          · exact honward (Nat.le_succ cursor) h

theorem bracketScan_close (h : text[cursor]? = some (chr ']')) :
    bracketScan text cursor = some (cursor + 1) := by
  rw [bracketScan_eq, h]
  exact if_pos rfl

/-- The scanner passes a byte that is no `]` and no `[` before a delimiter. -/
theorem bracketScan_byte {byte : UInt8} (h : text[cursor]? = some byte) (hclose : byte ≠ chr ']')
    (hopen : byte = chr '[' → ∀ delimiter, text[cursor + 1]? = some delimiter →
      isDelimiter delimiter = false) :
    bracketScan text cursor = bracketScan text (cursor + 1) := by
  rw [bracketScan_eq, h]
  dsimp only
  rw [if_neg hclose]
  cases hnext : text[cursor + 1]? with
  | none => rfl
  | some delimiter =>
    dsimp only
    rw [if_neg]
    intro hboth
    obtain ⟨hdelimiter, hbracket⟩ := Bool.and_eq_true_iff.mp hboth
    rw [hopen (beq_iff_eq.mp hbracket) delimiter hnext] at hdelimiter
    cases hdelimiter

theorem bracketScan_class {delimiter : UInt8} {next : ℕ} (h : text[cursor]? = some (chr '['))
    (hdelimiter : text[cursor + 1]? = some delimiter) (hdelimits : isDelimiter delimiter = true)
    (hinner : innerMemberEnd text (cursor + 2) delimiter = some next) :
    bracketScan text cursor = bracketScan text next := by
  rw [bracketScan_eq, h]
  dsimp only
  rw [if_neg (by decide), hdelimiter]
  dsimp only
  rw [hdelimits, hinner]
  rfl

end Scanner

/-! ### The scanner, a mark at a time -/

section Marks

variable {locale : Locale} {text : Bytes} {offset : ℕ}

theorem active_iff {byte : UInt8} :
    (matcherOf locale text).pattern.active offset byte = true ↔
      (escapedMarks text)[offset]? = some ⟨byte, false⟩ := by
  unfold Pattern.active
  rw [beq_iff_eq]
  rfl

theorem protects_iff {byte : UInt8} :
    protects (matcherOf locale text) offset byte = true ↔
      (escapedMarks text)[offset]? = some ⟨byte, true⟩ := by
  unfold protects
  rw [beq_iff_eq]
  rfl

theorem matcherOf_length :
    (matcherOf locale text).pattern.length = (escapedMarks text).length := rfl

theorem isDelimiter_iff {byte : UInt8} :
    isDelimiter byte = true ↔ byte = chr ':' ∨ byte = chr '.' ∨ byte = chr '=' := by
  unfold isDelimiter
  rw [Bool.or_eq_true, Bool.or_eq_true, beq_iff_eq, beq_iff_eq, beq_iff_eq, or_assoc]

theorem delimits_of {delimiter : UInt8} (hdelimiter : isDelimiter delimiter = true)
    (h : (matcherOf locale text).pattern.active offset delimiter = true) :
    delimits (matcherOf locale text) offset = true := by
  unfold delimits
  rcases isDelimiter_iff.mp hdelimiter with rfl | rfl | rfl
  · rw [h, Bool.true_or, Bool.true_or]
  · rw [h, Bool.or_true, Bool.true_or]
  · rw [h, Bool.or_true]

variable (locale) in
/-- Where a `[` stands and does not mislead, what is behind it is no delimiter. -/
theorem next_of_not_misleads (hlt : offset < (escapedMarks text).length)
    (hplain : misleads (matcherOf locale text) offset = false)
    (hopen : (matcherOf locale text).pattern.active offset (chr '[') = true ∨
      protects (matcherOf locale text) offset (chr '[') = true)
    {delimiter : UInt8} (h : text[textOffset text (offset + 1)]? = some delimiter) :
    isDelimiter delimiter = false := by
  by_contra hdelimiter
  rw [Bool.not_eq_false] at hdelimiter
  have hescape : delimiter ≠ chr '\\' := by
    rintro rfl
    exact absurd hdelimiter (by decide)
  have hactive : (matcherOf locale text).pattern.active (offset + 1) delimiter = true :=
    active_iff.mpr ((get_textOffset_iff hlt hescape).mp h)
  unfold misleads at hplain
  rw [delimits_of hdelimiter hactive, Bool.and_true, Bool.or_eq_false_iff,
    Bool.or_eq_false_iff] at hplain
  obtain ⟨_, hunquoted, hquoted⟩ := hplain
  rcases hopen with hopen | hopen
  · rw [hopen] at hunquoted
    cases hunquoted
  · rw [hopen] at hquoted
    cases hquoted

variable (locale) in
/-- **The scanner passes a mark** that neither closes the bracket expression nor misleads it. -/
theorem bracketScan_mark (hlt : offset < (escapedMarks text).length)
    (hplain : misleads (matcherOf locale text) offset = false)
    (hclose : (matcherOf locale text).pattern.active offset (chr ']') = false) :
    bracketScan text (textOffset text offset) =
      bracketScan text (textOffset text (offset + 1)) := by
  have hmark := List.getElem?_eq_getElem hlt
  generalize (escapedMarks text)[offset] = mark at hmark
  obtain ⟨byte, quoted⟩ := mark
  have hnext := @next_of_not_misleads locale text offset hlt hplain
  cases quoted with
  | true =>
    -- The backslash is passed first, and then the byte it protects.
    have hprotects : protects (matcherOf locale text) offset byte = true := protects_iff.mpr hmark
    have hescape : text[textOffset text offset]? = some (chr '\\') := (textOffset_get text hmark).1
    rw [textOffset_protects hmark] at hnext ⊢
    rw [bracketScan_byte hescape (by decide) fun heq => absurd heq (by decide)]
    refine bracketScan_byte (get_textOffset_protects hmark) ?_ ?_
    · rintro rfl
      unfold misleads at hplain
      rw [hprotects, Bool.true_or] at hplain
      cases hplain
    · rintro rfl delimiter
      exact hnext (.inr hprotects)
  | false =>
    have hactive : (matcherOf locale text).pattern.active offset byte = true := active_iff.mpr hmark
    rw [textOffset_active hmark] at hnext ⊢
    refine bracketScan_byte (textOffset_get text hmark).1 ?_ ?_
    · rintro rfl
      rw [hactive] at hclose
      cases hclose
    · rintro rfl delimiter
      exact hnext (.inl hactive)

variable (locale) in
theorem bracketScan_marks {next : ℕ} (hle : offset ≤ next)
    (hnext : next ≤ (escapedMarks text).length)
    (hplain : ∀ inner, offset ≤ inner → inner < next →
      misleads (matcherOf locale text) inner = false ∧
        (matcherOf locale text).pattern.active inner (chr ']') = false) :
    bracketScan text (textOffset text offset) = bracketScan text (textOffset text next) := by
  induction next, hle using Nat.le_induction with
  | base => rfl
  | succ next hle ih =>
    obtain ⟨hmisleads, hclose⟩ := hplain next hle (Nat.lt_succ_self next)
    rw [ih (by omega) fun inner hlow hhigh => hplain inner hlow (by omega)]
    exact bracketScan_mark locale hnext hmisleads hclose

/-! ### Members -/

theorem bracketScan_closes
    (h : (matcherOf locale text).pattern.active offset (chr ']') = true) :
    bracketScan text (textOffset text offset) = some (textOffset text (offset + 1)) := by
  have hmark := active_iff.mp h
  rw [bracketScan_close (textOffset_get text hmark).1, textOffset_active hmark]

variable (locale) in
/-- The scanner passes a plain character, from its first mark on or from the second. -/
theorem bracketScan_character (hlt : offset < (escapedMarks text).length)
    (hplain : plainCharacter (matcherOf locale text) offset = true) :
    bracketScan text (textOffset text (offset + 1)) =
        bracketScan text (textOffset text ((matcherOf locale text).patternEnd offset)) ∧
      ((matcherOf locale text).pattern.active offset (chr ']') = false →
        bracketScan text (textOffset text offset) =
          bracketScan text (textOffset text ((matcherOf locale text).patternEnd offset))) := by
  obtain ⟨hfirst, hrest⟩ := Bool.and_eq_true_iff.mp hplain
  rw [Bool.not_eq_true'] at hfirst
  have hbehind : bracketScan text (textOffset text (offset + 1)) =
      bracketScan text (textOffset text ((matcherOf locale text).patternEnd offset)) := by
    refine bracketScan_marks locale ((matcherOf locale text).lt_patternEnd hlt)
      ((matcherOf locale text).patternEnd_le hlt.le) fun inner hlow hhigh => ?_
    have hinner := List.all_eq_true.mp hrest inner (List.mem_range'_1.mpr ⟨hlow, by omega⟩)
    rw [Bool.and_eq_true, Bool.not_eq_true', Bool.not_eq_true'] at hinner
    exact hinner
  exact ⟨hbehind, fun hclose => (bracketScan_mark locale hlt hfirst hclose).trans hbehind⟩

/-- What `nestedBounds` reads: the delimiter, the first place it stands before a `]`, and a body
between. -/
theorem nestedBounds_spec {m : Matcher} {delimiter : UInt8} {body : Bytes} {next : ℕ}
    (h : m.nestedBounds offset = some (delimiter, body, next)) :
    isDelimiter delimiter = true ∧ m.pattern.active (offset + 1) delimiter = true ∧
      ∃ close, next = close + 2 ∧ offset + 2 ≤ close ∧
        m.pattern.active close delimiter = true ∧ m.pattern.active (close + 1) (chr ']') = true ∧
        ∀ inner, offset + 2 ≤ inner → inner < close →
          (m.pattern.active inner delimiter && m.pattern.active (inner + 1) (chr ']')) = false := by
  unfold Matcher.nestedBounds at h
  cases hmark : m.pattern.marks[offset + 1]? with
  | none =>
    rw [hmark] at h
    cases h
  | some mark =>
    rw [hmark] at h
    dsimp only at h
    split at h
    · cases h
    · next hdelimiter =>
      rw [Bool.or_eq_true, not_or, Bool.not_eq_true, Bool.not_eq_true', Bool.not_eq_false]
        at hdelimiter
      obtain ⟨hquoted, hdelimiter⟩ := hdelimiter
      split at h
      · cases h
      · next close hclose =>
        obtain ⟨hends, hrange, hbefore⟩ := List.find?_range'_eq_some.mp hclose
        obtain ⟨hactive, hbracket⟩ := Bool.and_eq_true_iff.mp hends
        have hlow := (List.mem_range'_1.mp hrange).1
        split at h
        · cases h
        · cases h
          refine ⟨hdelimiter, ?_, close, rfl, hlow, hactive, hbracket, fun inner hle hlt => ?_⟩
          · unfold Pattern.active
            rw [hmark, beq_iff_eq, ← hquoted]
          · exact (Bool.not_eq_true' _).mp (hbefore inner hle hlt)

theorem delimiter_ne_escape {delimiter : UInt8} (h : isDelimiter delimiter = true) :
    delimiter ≠ chr '\\' := by
  rintro rfl
  exact absurd h (by decide)

variable (locale) in
/-- The scanner passes a mark of a class that does not end it. -/
theorem innerMemberEnd_mark {delimiter : UInt8} (hdelimiter : isDelimiter delimiter = true)
    (hlt : offset + 1 < (escapedMarks text).length)
    (hactive : ((matcherOf locale text).pattern.active offset delimiter &&
      (matcherOf locale text).pattern.active (offset + 1) (chr ']')) = false)
    (hprotects : (protects (matcherOf locale text) offset delimiter &&
      (matcherOf locale text).pattern.active (offset + 1) (chr ']')) = false) :
    innerMemberEnd text (textOffset text offset) delimiter =
      innerMemberEnd text (textOffset text (offset + 1)) delimiter := by
  have hclose : text[textOffset text (offset + 1)]? = some (chr ']') →
      (matcherOf locale text).pattern.active (offset + 1) (chr ']') = true :=
    fun hget => active_iff.mpr ((get_textOffset_iff hlt.le (by decide)).mp hget)
  have hinside := textOffset_lt hlt
  have hmark := List.getElem?_eq_getElem (Nat.lt_of_succ_lt hlt)
  generalize (escapedMarks text)[offset] = mark at hmark
  obtain ⟨byte, quoted⟩ := mark
  cases quoted with
  | true =>
    have hescape : text[textOffset text offset]? = some (chr '\\') := (textOffset_get text hmark).1
    rw [textOffset_protects hmark] at hclose hinside ⊢
    rw [innerMemberEnd_eq, if_pos (by omega), if_neg, innerMemberEnd_eq, if_pos hinside, if_neg]
    · rintro ⟨hget, hnext⟩
      rw [get_textOffset_protects hmark] at hget
      obtain rfl : byte = delimiter := Option.some.inj hget
      rw [hclose hnext, protects_iff.mpr hmark] at hprotects
      cases hprotects
    · rintro ⟨hget, _⟩
      rw [hescape] at hget
      exact delimiter_ne_escape hdelimiter (Option.some.inj hget).symm
  | false =>
    rw [textOffset_active hmark] at hclose hinside ⊢
    rw [innerMemberEnd_eq, if_pos hinside, if_neg]
    rintro ⟨hget, hnext⟩
    rw [(textOffset_get text hmark).1] at hget
    obtain rfl : byte = delimiter := Option.some.inj hget
    rw [hclose hnext, active_iff.mpr hmark] at hactive
    cases hactive

variable (locale) in
theorem innerMemberEnd_marks {delimiter : UInt8} {close : ℕ}
    (hdelimiter : isDelimiter delimiter = true) (hle : offset ≤ close)
    (hclose : close < (escapedMarks text).length)
    (hbefore : ∀ inner, offset ≤ inner → inner < close →
      ((matcherOf locale text).pattern.active inner delimiter &&
          (matcherOf locale text).pattern.active (inner + 1) (chr ']')) = false ∧
        (protects (matcherOf locale text) inner delimiter &&
          (matcherOf locale text).pattern.active (inner + 1) (chr ']')) = false) :
    innerMemberEnd text (textOffset text offset) delimiter =
      innerMemberEnd text (textOffset text close) delimiter := by
  induction close, hle using Nat.le_induction with
  | base => rfl
  | succ close hle ih =>
    obtain ⟨hactive, hprotects⟩ := hbefore close hle (Nat.lt_succ_self close)
    rw [ih (Nat.lt_of_succ_lt hclose) fun inner hlow hhigh => hbefore inner hlow (by omega)]
    exact innerMemberEnd_mark locale hdelimiter hclose hactive hprotects

/-- **The scanner passes a plainly written class.** -/
theorem bracketScan_nested {delimiter : UInt8} {body : Bytes} {next : ℕ}
    (hopen : (matcherOf locale text).pattern.active offset (chr '[') = true)
    (hbounds : (matcherOf locale text).nestedBounds offset = some (delimiter, body, next))
    (hplain : plainClass (matcherOf locale text) delimiter offset next = true) :
    bracketScan text (textOffset text offset) = bracketScan text (textOffset text next) := by
  obtain ⟨hdelimiter, hfirst, close, rfl, hlow, hends, hbracket, hbefore⟩ :=
    nestedBounds_spec hbounds
  have hopenMark := active_iff.mp hopen
  have hfirstMark := active_iff.mp hfirst
  have hendsMark := active_iff.mp hends
  have hbracketMark := active_iff.mp hbracket
  have hone := textOffset_active hopenMark
  have htwo : textOffset text (offset + 2) = textOffset text (offset + 1) + 1 :=
    textOffset_active hfirstMark
  have hthree := textOffset_active hendsMark
  have hlast : textOffset text (close + 2) = textOffset text (close + 1) + 1 :=
    textOffset_active hbracketMark
  obtain ⟨hinside, _⟩ := List.getElem?_eq_some_iff.mp hendsMark
  obtain ⟨hbehind, _⟩ := List.getElem?_eq_some_iff.mp hbracketMark
  have hinner : innerMemberEnd text (textOffset text offset + 2) delimiter =
      some (textOffset text (close + 2)) := by
    have hstart : textOffset text offset + 2 = textOffset text (offset + 2) := by omega
    rw [hstart, innerMemberEnd_marks locale hdelimiter hlow hinside fun inner hle hlt => ?_,
      innerMemberEnd_eq, if_pos, if_pos]
    · exact congrArg some (by omega)
    · refine ⟨(textOffset_get text hendsMark).1, ?_⟩
      rw [← hthree]
      exact (textOffset_get text hbracketMark).1
    · rw [← hthree]
      exact textOffset_lt hbehind
    · refine ⟨hbefore inner hle hlt, ?_⟩
      exact (Bool.not_eq_true' _).mp (List.all_eq_true.mp hplain inner
        (List.mem_range'_1.mpr ⟨hle, by omega⟩))
  refine bracketScan_class (textOffset_get text hopenMark).1 ?_ hdelimiter hinner
  rw [← hone]
  exact (textOffset_get text hfirstMark).1

/-- The scanner passes the `-` of a range and the plain character that ends it. -/
theorem bracketScan_range (hrange : (matcherOf locale text).rangeFollows offset = true)
    (hplain : plainCharacter (matcherOf locale text) (offset + 1) = true) :
    offset + 1 < (escapedMarks text).length ∧
      bracketScan text (textOffset text offset) =
        bracketScan text (textOffset text ((matcherOf locale text).patternEnd (offset + 1))) := by
  obtain ⟨hboth, hclose⟩ := Bool.and_eq_true_iff.mp hrange
  obtain ⟨hdash, hinside⟩ := Bool.and_eq_true_iff.mp hboth
  have hlt : offset + 1 < (escapedMarks text).length := of_decide_eq_true hinside
  have hmark := active_iff.mp hdash
  have hother : ∀ byte, byte ≠ chr '-' →
      (matcherOf locale text).pattern.active offset byte = false := by
    intro byte hne
    rw [← Bool.not_eq_true, active_iff, hmark]
    rintro ⟨⟩
    exact hne rfl
  have hunprotected : ∀ byte, protects (matcherOf locale text) offset byte = false := by
    intro byte
    rw [← Bool.not_eq_true, protects_iff, hmark]
    rintro ⟨⟩
  have hplainDash : misleads (matcherOf locale text) offset = false := by
    unfold misleads
    rw [hunprotected, hunprotected, hother _ (by decide)]
    rfl
  refine ⟨hlt, ?_⟩
  rw [bracketScan_mark locale (Nat.lt_of_succ_lt hlt) hplainDash (hother _ (by decide))]
  exact (bracketScan_character locale hlt hplain).2 ((Bool.not_eq_true' _).mp hclose)

theorem nestedSyntax_eq (m : Matcher) (offset : ℕ) :
    (if m.pattern.active offset (chr '[') then m.nestedSyntax offset else none) =
      (if m.pattern.active offset (chr '[') then m.nestedBounds offset else none).map
        fun bounds =>
          (if bounds.1 = chr ':' then .named bounds.2.1 else .collating bounds.1 bounds.2.1,
            bounds.2.2) := by
  split
  · rfl
  · rfl

variable (locale) in
/-- **The scanner reads plainly written members as the matcher does.**  A `]` that stands first
is passed before the scan begins. -/
theorem bracketScan_members {fuel : ℕ} {firstMember : Bool}
    (hoffset : offset ≤ (escapedMarks text).length)
    (hfuel : (escapedMarks text).length < offset + fuel)
    (hplain : plainMembers (matcherOf locale text) fuel offset firstMember = true) :
    bracketScan text (textOffset text
        (if (matcherOf locale text).pattern.active offset (chr ']') && firstMember then offset + 1
          else offset)) =
      ((matcherOf locale text).bracketMembers fuel offset firstMember).map
        fun read => textOffset text read.2 := by
  induction fuel generalizing offset firstMember with
  | zero => omega
  | succ fuel ih =>
    -- behind the first member a `]` is no longer passed
    have hrest : ∀ {next : ℕ}, offset < next → next ≤ (escapedMarks text).length →
        plainMembers (matcherOf locale text) fuel next false = true →
        ∀ member : BracketMember, bracketScan text (textOffset text next) =
          (((matcherOf locale text).bracketMembers fuel next false).map
            fun read => (member :: read.1, read.2)).map fun read => textOffset text read.2 := by
      intro next hlow hhigh hplain member
      have hscan := ih hhigh (by omega) hplain
      rw [Bool.and_false, if_neg Bool.false_ne_true] at hscan
      rw [hscan, Option.map_map]
      rfl
    rw [plainMembers, matcherOf_length] at hplain
    rw [Matcher.bracketMembers, matcherOf_length]
    by_cases hend : (escapedMarks text).length ≤ offset
    · obtain rfl : offset = (escapedMarks text).length := le_antisymm hoffset hend
      have hpast : (matcherOf locale text).pattern.active (escapedMarks text).length (chr ']') =
          false := by
        rw [← Bool.not_eq_true, active_iff, List.getElem?_eq_none le_rfl]
        exact Option.some_ne_none _ ∘ Eq.symm
      rw [if_pos hend, hpast, Bool.false_and, if_neg Bool.false_ne_true, textOffset_length]
      exact bracketScan_none le_rfl
    rw [if_neg hend] at hplain ⊢
    rw [not_le] at hend
    by_cases hcloses : ((matcherOf locale text).pattern.active offset (chr ']') &&
        !firstMember) = true
    · obtain ⟨hactive, hfirst⟩ := Bool.and_eq_true_iff.mp hcloses
      rw [(Bool.not_eq_true' _).mp hfirst, Bool.and_false, if_neg Bool.false_ne_true,
        Bool.not_false, Bool.and_true, if_pos hactive, bracketScan_closes hactive]
      rfl
    rw [if_neg hcloses] at hplain ⊢
    rw [nestedSyntax_eq]
    cases hnested : (if (matcherOf locale text).pattern.active offset (chr '[') then
        (matcherOf locale text).nestedBounds offset else none) with
    | some bounds =>
      obtain ⟨delimiter, body, next⟩ := bounds
      rw [hnested] at hplain
      obtain ⟨hclass, hmembers⟩ := Bool.and_eq_true_iff.mp hplain
      obtain ⟨hopen, hbounds⟩ := Option.ite_none_right_eq_some.mp hnested
      have hclose : (matcherOf locale text).pattern.active offset (chr ']') = false := by
        rw [← Bool.not_eq_true, active_iff, active_iff.mp hopen]
        decide
      obtain ⟨hlow, hhigh⟩ := Matcher.nestedSyntax_within (congrArg _ hbounds)
      rw [hclose, Bool.false_and, if_neg Bool.false_ne_true,
        bracketScan_nested hopen hbounds hclass]
      exact hrest hlow hhigh hmembers _
    | none =>
      rw [hnested] at hplain
      obtain ⟨hcharacter, hmembers⟩ := Bool.and_eq_true_iff.mp hplain
      obtain ⟨hbehind, hfrom⟩ := bracketScan_character locale hend hcharacter
      have hlow := (matcherOf locale text).lt_patternEnd hend
      have hhigh := (matcherOf locale text).patternEnd_le hend.le
      have hmember : bracketScan text (textOffset text
          (if (matcherOf locale text).pattern.active offset (chr ']') && firstMember then offset + 1
            else offset)) =
          bracketScan text (textOffset text ((matcherOf locale text).patternEnd offset)) := by
        by_cases hfirst : ((matcherOf locale text).pattern.active offset (chr ']') &&
            firstMember) = true
        · rw [if_pos hfirst]
          exact hbehind
        · rw [if_neg hfirst]
          refine hfrom ?_
          cases firstMember with
          | true => rwa [Bool.and_true, Bool.not_eq_true] at hfirst
          | false => rwa [Bool.not_false, Bool.and_true, Bool.not_eq_true] at hcloses
      rw [hmember]
      dsimp only [Option.map_none]
      split at hmembers
      · next hrange =>
        obtain ⟨hlast, hmembers⟩ := Bool.and_eq_true_iff.mp hmembers
        obtain ⟨hinside, hscan⟩ := bracketScan_range hrange hlast
        have hnext := (matcherOf locale text).lt_patternEnd hinside
        rw [if_pos hrange, hscan]
        exact hrest (by omega) ((matcherOf locale text).patternEnd_le (le_of_lt hinside))
          hmembers _
      · next hrange =>
        rw [if_neg hrange]
        exact hrest hlow hhigh hmembers _

/-! ### The bracket expression -/

theorem bracketInverted_iff (h : offset ≤ (escapedMarks text).length) :
    (matcherOf locale text).bracketInverted offset = true ↔
      text[textOffset text offset]? = some (chr '!') ∨
        text[textOffset text offset]? = some (chr '^') := by
  unfold Matcher.bracketInverted
  rw [Bool.or_eq_true, active_iff, active_iff, get_textOffset_iff h (by decide),
    get_textOffset_iff h (by decide)]

variable (locale) in
/-- The scan begins behind the inversion and behind a `]` that stands first. -/
theorem bracketEnd_eq (hopen : (matcherOf locale text).pattern.active offset (chr '[') = true) :
    bracketEnd text (textOffset text offset) =
      bracketScan text (textOffset text
        (if (matcherOf locale text).pattern.active (membersStart (matcherOf locale text) offset)
            (chr ']') then membersStart (matcherOf locale text) offset + 1
          else membersStart (matcherOf locale text) offset)) ∧
      membersStart (matcherOf locale text) offset ≤ (escapedMarks text).length := by
  have hmark := active_iff.mp hopen
  obtain ⟨hlt, _⟩ := List.getElem?_eq_some_iff.mp hmark
  have hone := textOffset_active hmark
  -- the inversion is one byte long
  have hstart : membersStart (matcherOf locale text) offset ≤ (escapedMarks text).length ∧
      (if text[textOffset text offset + 1]? = some (chr '!') ∨
          text[textOffset text offset + 1]? = some (chr '^') then textOffset text offset + 2
        else textOffset text offset + 1) =
        textOffset text (membersStart (matcherOf locale text) offset) := by
    unfold membersStart
    rw [← hone]
    by_cases hinverted : (matcherOf locale text).bracketInverted (offset + 1) = true
    · rw [if_pos hinverted, if_pos ((bracketInverted_iff hlt).mp hinverted)]
      rcases Bool.or_eq_true_iff.mp hinverted with hbyte | hbyte
      · have hinversion := active_iff.mp hbyte
        have htwo := textOffset_active hinversion
        exact ⟨(List.getElem?_eq_some_iff.mp hinversion).1, by omega⟩
      · have hinversion := active_iff.mp hbyte
        have htwo := textOffset_active hinversion
        exact ⟨(List.getElem?_eq_some_iff.mp hinversion).1, by omega⟩
    · rw [if_neg hinverted, if_neg fun h => hinverted ((bracketInverted_iff hlt).mpr h)]
      exact ⟨hlt, rfl⟩
  obtain ⟨hinside, hcursor⟩ := hstart
  have hforward : textOffset text offset ≤
      textOffset text (membersStart (matcherOf locale text) offset) := by
    rw [← hcursor]
    split
    · omega
    · omega
  have hscan : ∀ cursor, textOffset text offset ≤ cursor →
      bracketEndFrom text (text.length - textOffset text offset) cursor = bracketScan text cursor :=
    fun cursor hle => bracketEndFrom_fuel (by omega) (by omega)
  refine ⟨?_, hinside⟩
  unfold bracketEnd
  dsimp only
  rw [hcursor]
  by_cases hclose : (matcherOf locale text).pattern.active
      (membersStart (matcherOf locale text) offset) (chr ']') = true
  · have hbracket := active_iff.mp hclose
    rw [if_pos hclose, if_pos ((get_textOffset_iff hinside (by decide)).mpr hbracket),
      textOffset_active hbracket]
    exact hscan _ (by omega)
  · rw [if_neg hclose, if_neg fun h =>
      hclose (active_iff.mpr ((get_textOffset_iff hinside (by decide)).mp h))]
    exact hscan _ hforward

variable (locale) in
/-- Nothing closes a bracket expression where no `]` follows. -/
theorem bracketEnd_unclosed
    (hopen : (matcherOf locale text).pattern.active offset (chr '[') = true)
    (hunclosed : unclosed (matcherOf locale text) (offset + 1) = true) :
    bracketEnd text (textOffset text offset) = none ∧
      matcherEnd (matcherOf locale text) offset = none := by
  have hlt := (List.getElem?_eq_some_iff.mp (active_iff.mp hopen)).1
  have hbare : ∀ inner, offset + 1 ≤ inner →
      (matcherOf locale text).pattern.active inner (chr ']') = false ∧
        protects (matcherOf locale text) inner (chr ']') = false := by
    intro inner hle
    by_cases hinside : inner < (escapedMarks text).length
    · have hinner := List.all_eq_true.mp hunclosed inner
        (List.mem_range'_1.mpr ⟨hle, by rw [matcherOf_length]; omega⟩)
      rw [Bool.and_eq_true, Bool.not_eq_true', Bool.not_eq_true'] at hinner
      exact hinner
    · have hpast := List.getElem?_eq_none (Nat.not_lt.mp hinside)
      rw [← Bool.not_eq_true, ← Bool.not_eq_true, active_iff, protects_iff, hpast]
      exact ⟨Option.some_ne_none _ ∘ Eq.symm, Option.some_ne_none _ ∘ Eq.symm⟩
  have hstart : offset + 1 ≤ membersStart (matcherOf locale text) offset := by
    unfold membersStart
    split
    · omega
    · omega
  obtain ⟨hend, hinside⟩ := bracketEnd_eq locale hopen
  constructor
  · rw [hend, (hbare _ hstart).1, if_neg Bool.false_ne_true]
    by_contra hsome
    obtain ⟨next, hnext⟩ := Option.ne_none_iff_exists'.mp hsome
    obtain ⟨close, hle, hclose⟩ := bracketScan_found hnext
    -- the `]` is a byte of the text from the members on, and so one of its marks
    have hbyte :
        chr ']' ∈ text.drop (textOffset text (membersStart (matcherOf locale text) offset)) := by
      rw [← Nat.add_sub_cancel' hle, ← List.getElem?_drop] at hclose
      exact List.mem_of_getElem? hclose
    obtain ⟨quoted, hmark⟩ := escapedMarks_mem (by decide) hbyte
    rw [escapedMarks_drop text hinside] at hmark
    obtain ⟨behind, hmark⟩ := List.mem_iff_getElem?.mp hmark
    rw [List.getElem?_drop] at hmark
    obtain ⟨hactive, hprotects⟩ := hbare _ (hstart.trans (Nat.le_add_right _ behind))
    cases quoted with
    | true =>
      rw [protects_iff.mpr hmark] at hprotects
      cases hprotects
    | false =>
      rw [active_iff.mpr hmark] at hactive
      cases hactive
  · by_contra hsome
    obtain ⟨next, hnext⟩ := Option.ne_none_iff_exists'.mp hsome
    unfold matcherEnd at hnext
    rw [if_pos hopen, Matcher.bracket_eq, Matcher.bracketSyntax] at hnext
    obtain ⟨read, hread, _⟩ := Option.map_eq_some_iff.mp hnext
    obtain ⟨expression, hexpression, _⟩ := Option.map_eq_some_iff.mp hread
    obtain ⟨members, hmembers, _⟩ := Option.map_eq_some_iff.mp hexpression
    obtain ⟨close, hle, hclose⟩ := Matcher.bracketMembers_closes hmembers
    have hbehind : offset + 1 ≤ close := by
      split at hle
      · omega
      · omega
    rw [(hbare close hbehind).1] at hclose
    cases hclose

/-- **One end of a plainly written bracket expression**, for the scanner and for the matcher. -/
theorem bracketEnd_plain (hopen : (matcherOf locale text).pattern.active offset (chr '[') = true)
    (hplain : plainBracket (matcherOf locale text) offset = true) :
    bracketEnd text (textOffset text offset) =
      (matcherEnd (matcherOf locale text) offset).map (textOffset text) := by
  rcases Bool.or_eq_true_iff.mp hplain with hunclosed | hplain
  · obtain ⟨hend, hmatcher⟩ := bracketEnd_unclosed locale hopen hunclosed
    rw [hend, hmatcher]
    rfl
  obtain ⟨hend, hinside⟩ := bracketEnd_eq locale hopen
  have hmembers := bracketScan_members locale hinside
    (by rw [matcherOf_length]; omega) hplain
  rw [Bool.and_true] at hmembers
  unfold matcherEnd
  rw [hend, hmembers, if_pos hopen, Matcher.bracket_eq, Matcher.bracketSyntax, Option.map_map,
    Option.map_map, Option.map_map]
  rfl

end Marks

/-! ### The two walks -/

section Walks

variable {locale : Locale} {value : Bytes} {start : ℕ}

/-- The byte of the value where a mark of the piece stands. -/
theorem value_get {offset : ℕ} {mark : Mark}
    (h : (escapedMarks (value.drop start))[offset]? = some mark) :
    value[start + textOffset (value.drop start) offset]? =
      some (if mark.quoted then chr '\\' else mark.byte) := by
  rw [← List.getElem?_drop]
  exact (textOffset_get _ h).1

variable (locale) in
/-- The loop passes a mark that is no colon and opens no bracket expression. -/
theorem scanFrom_mark {offset : ℕ} (hoffset : offset < (escapedMarks (value.drop start)).length)
    (hcolon : (matcherOf locale (value.drop start)).pattern.active offset (chr ':') = false)
    (hbracket : (matcherOf locale (value.drop start)).pattern.active offset (chr '[') = true →
      bracketEnd (value.drop start) (textOffset (value.drop start) offset) = none) :
    scanFrom value start (start + textOffset (value.drop start) offset) =
      scanFrom value start (start + textOffset (value.drop start) (offset + 1)) := by
  have hmark := List.getElem?_eq_getElem hoffset
  generalize (escapedMarks (value.drop start))[offset] = mark at hmark
  obtain ⟨hget, hlast⟩ := textOffset_get _ hmark
  rw [scanFrom_eq, value_get hmark, textOffset_succ _ hmark]
  unfold markWidth
  cases hquoted : mark.quoted with
  | true =>
    dsimp only
    rw [if_pos rfl, if_pos rfl, if_pos rfl, Nat.add_assoc]
  | false =>
    rw [if_neg Bool.false_ne_true, if_neg Bool.false_ne_true]
    dsimp only
    have hunquoted : mark = ⟨mark.byte, false⟩ := by
      rw [← hquoted]
    have hactive : ∀ byte, mark.byte = byte →
        (matcherOf locale (value.drop start)).pattern.active offset byte = true := by
      rintro byte rfl
      rw [active_iff, hmark, ← hunquoted]
    by_cases hescape : mark.byte = chr '\\'
    · -- A backslash that protects nothing is the last byte of all.
      have hend := hlast hquoted hescape
      rw [List.length_drop] at hend
      rw [if_pos hescape, scanFrom_none (by omega), scanFrom_none (by omega)]
    · rw [if_neg hescape]
      by_cases hopen : mark.byte = chr '['
      · rw [if_pos hopen, bracketEnd_drop, hbracket (hactive _ hopen)]
        rfl
      · rw [if_neg hopen, if_neg, Nat.add_assoc]
        intro heq
        rw [hactive _ heq] at hcolon
        cases hcolon

variable (locale) in
theorem scanFrom_marks {offset next : ℕ} (hle : offset ≤ next)
    (hnext : next ≤ (escapedMarks (value.drop start)).length)
    (hplain : ∀ inner, offset ≤ inner → inner < next →
      (matcherOf locale (value.drop start)).pattern.active inner (chr '[') = false ∧
        (matcherOf locale (value.drop start)).pattern.active inner (chr ':') = false) :
    scanFrom value start (start + textOffset (value.drop start) offset) =
      scanFrom value start (start + textOffset (value.drop start) next) := by
  induction next, hle using Nat.le_induction with
  | base => rfl
  | succ next hle ih =>
    obtain ⟨hbracket, hcolon⟩ := hplain next hle (Nat.lt_succ_self next)
    rw [ih (by omega) fun inner hlow hhigh => hplain inner hlow (by omega)]
    refine scanFrom_mark locale (by omega) hcolon fun hopen => ?_
    rw [hbracket] at hopen
    cases hopen

theorem plainWithin_iff {m : Matcher} {offset next : ℕ} (h : plainWithin m offset next = true)
    {inner : ℕ} (hlow : offset + 1 ≤ inner) (hhigh : inner < next) :
    m.pattern.active inner (chr '[') = false ∧ m.pattern.active inner (chr ':') = false := by
  have hinner := List.all_eq_true.mp h inner (List.mem_range'_1.mpr ⟨hlow, by omega⟩)
  rw [Bool.and_eq_true, Bool.not_eq_true', Bool.not_eq_true'] at hinner
  exact hinner

theorem matcherEnd_within {m : Matcher} {offset next : ℕ} (h : matcherEnd m offset = some next) :
    m.pattern.active offset (chr '[') = true ∧ offset < next ∧ next ≤ m.pattern.length := by
  unfold matcherEnd at h
  split at h
  · next hopen =>
    rw [Matcher.bracket_eq, Option.map_map] at h
    obtain ⟨read, hread, hnext⟩ := Option.map_eq_some_iff.mp h
    have hread2 : read.2 = next := hnext
    obtain ⟨hlow, hhigh⟩ := Matcher.bracketSyntax_within hread
    rw [hread2] at hlow hhigh
    exact ⟨hopen, by omega, hhigh⟩
  · cases h

/-- **The loop cuts where the matcher has it**, from every point both walks come to. -/
theorem scanFrom_pieces {fuel offset : ℕ} (hstart : start ≤ value.length)
    (hoffset : offset ≤ (escapedMarks (value.drop start)).length)
    (hfuel : value.length < start + offset + fuel)
    (hplain : plainFrom locale value fuel start offset = true) :
    scanFrom value start (start + textOffset (value.drop start) offset) =
      piecesFrom locale value fuel start offset := by
  induction fuel generalizing start offset with
  | zero =>
    have hlength := le_textOffset (value.drop start) le_rfl
    rw [textOffset_length, List.length_drop] at hlength
    omega
  | succ fuel ih =>
    rw [plainFrom, matcherOf_length] at hplain
    rw [piecesFrom, matcherOf_length]
    by_cases hend : (escapedMarks (value.drop start)).length ≤ offset
    · obtain rfl : offset = (escapedMarks (value.drop start)).length := le_antisymm hoffset hend
      rw [if_pos hend, textOffset_length]
      exact scanFrom_none (by rw [List.length_drop]; omega)
    rw [if_neg hend] at hplain ⊢
    rw [not_le] at hend
    by_cases hcolon : (matcherOf locale (value.drop start)).pattern.active offset (chr ':') = true
    · -- Both cut, and start anew behind the colon.
      rw [if_pos hcolon] at hplain ⊢
      have hget := value_get (active_iff.mp hcolon)
      obtain ⟨hlt, _⟩ := List.getElem?_eq_some_iff.mp hget
      rw [scanFrom_eq, hget]
      dsimp only
      rw [if_neg Bool.false_ne_true, if_neg (by decide), if_neg (by decide), if_pos rfl,
        List.extract_eq_take_drop, Nat.add_sub_cancel_left]
      congr 1
      have hforward := le_textOffset (value.drop start) hend.le
      exact ih (by omega) (Nat.zero_le _) (by omega) hplain
    rw [if_neg hcolon] at hplain ⊢
    obtain ⟨hbracket, hplain⟩ := Bool.and_eq_true_iff.mp hplain
    have hone : (matcherOf locale (value.drop start)).pattern.active offset (chr '[') = true →
        bracketEnd (value.drop start) (textOffset (value.drop start) offset) =
          (matcherEnd (matcherOf locale (value.drop start)) offset).map
            (textOffset (value.drop start)) := by
      intro hopen
      rw [hopen, Bool.not_true, Bool.false_or] at hbracket
      exact bracketEnd_plain hopen hbracket
    cases hmatcher : matcherEnd (matcherOf locale (value.drop start)) offset with
    | some next =>
      -- Both pass one bracket expression.
      rw [hmatcher] at hplain
      dsimp only at hplain ⊢
      obtain ⟨hopen, hlow, hhigh⟩ := matcherEnd_within hmatcher
      rw [scanFrom_eq, value_get (active_iff.mp hopen)]
      dsimp only
      rw [if_neg Bool.false_ne_true, if_neg (by decide), if_pos rfl, bracketEnd_drop, hone hopen,
        hmatcher]
      exact ih hstart hhigh (by omega) hplain
    | none =>
      -- Both pass one character.
      rw [hmatcher] at hplain
      dsimp only at hplain ⊢
      obtain ⟨hwithin, hrest⟩ := Bool.and_eq_true_iff.mp hplain
      have hlow := (matcherOf locale (value.drop start)).lt_patternEnd hend
      have hhigh := (matcherOf locale (value.drop start)).patternEnd_le hend.le
      rw [scanFrom_mark locale hend (Bool.eq_false_iff.mpr hcolon) fun hopen => by
          rw [hone hopen, hmatcher]
          rfl,
        scanFrom_marks locale (Nat.succ_le_of_lt hlow) hhigh
          fun inner hinner hlt => plainWithin_iff hwithin hinner hlt]
      exact ih hstart hhigh (by omega) hrest

end Walks

/-- **`GLOBIGNORE` is cut where its patterns end**, where it is plainly written. -/
theorem ignorePatterns_pieces (locale : Locale) (value : Bytes) (h : Plain locale value) :
    ignorePatterns value = pieces locale value ∧
      [chr ':'].intercalate (ignorePatterns value) = value :=
  ⟨scanFrom_pieces (Nat.zero_le _) (Nat.zero_le _) (by omega) h, ignorePatterns_join value⟩

/-- Three classes, a range, a `]` that stands first and a protected colon. -/
theorem ignorePatterns_classes :
    ignorePatterns (text "[[:alnum:]-]*:[]a-c:][^[.x.][=:=]]\\:b") =
        pieces Locale.c (text "[[:alnum:]-]*:[]a-c:][^[.x.][=:=]]\\:b") ∧
      [chr ':'].intercalate (ignorePatterns (text "[[:alnum:]-]*:[]a-c:][^[.x.][=:=]]\\:b")) =
        text "[[:alnum:]-]*:[]a-c:][^[.x.][=:=]]\\:b" :=
  ignorePatterns_pieces Locale.c (text "[[:alnum:]-]*:[]a-c:][^[.x.][=:=]]\\:b") rfl

/-- A protected `]` ends a bracket expression for the scanner, and is a member for the matcher. -/
theorem not_ignorePatterns_pieces :
    ¬ ∀ (locale : Locale) (value : Bytes), ignorePatterns value = pieces locale value ∧
      [chr ':'].intercalate (ignorePatterns value) = value := by
  intro h
  have hsame := (h Locale.c (text "[\\]:x]")).1
  exact absurd hsame (by decide +kernel)

end Nsh.Expand.Ignored
