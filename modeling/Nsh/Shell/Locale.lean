import Nsh.Shell.Bytes

/-!
# The locale

The platform's locale is a parameter of the shell: it says which bytes are
letters, how many bytes the character at the head of a string takes, and which
characters are spaces.  A `Locale` carries the one fact every walk rests on, that
a character never runs past the end of the string it begins in.
-/

namespace Nsh

/-- A decoded character (`wchar_t`). -/
abbrev Wide := Nat

/-- What the shell asks of `nsh_platform::Locale`. -/
structure Locale where
  isAlpha : UInt8 → Bool
  isAlphanumeric : UInt8 → Bool
  /-- How many bytes the character at the head takes, when one begins there. -/
  multibyteLen : Bytes → Option Nat
  /-- The character these bytes spell, when they spell exactly one. -/
  decodeExact : Bytes → Option Wide
  wideIsSpace : Wide → Bool
  /-- The length of the first character and all the characters of a string. -/
  wideChars : Bytes → Nat × List Wide
  /-- Whether the character these bytes spell is of the named class; `none` where
      the locale has no such class. -/
  wideClassMatches : Bytes → Bytes → Option Bool
  /-- Whether a bracket expression holding one collating member matches these
      bytes (`fnmatch`). -/
  collatingBracketMatches : Bytes → Bytes → Bool
  /-- `str::to_lowercase` of a character of several bytes. -/
  foldWide : Bytes → Bytes
  multibyteLen_le : ∀ bytes n, multibyteLen bytes = some n → n ≤ bytes.length

/-- How wide the character at the head of `bytes` is; one byte where no
    character begins (`characters::width`). -/
def Locale.width (locale : Locale) (bytes : Bytes) : Nat :=
  ((locale.multibyteLen bytes).filter (fun width => decide (0 < width))).getD 1

theorem Locale.width_pos (locale : Locale) (bytes : Bytes) : 0 < locale.width bytes := by
  unfold Locale.width
  cases h : (locale.multibyteLen bytes).filter (fun width => decide (0 < width)) with
  | none => simp
  | some n =>
    rw [Option.filter_eq_some_iff] at h
    simpa using h.2

theorem Locale.width_le (locale : Locale) {bytes : Bytes} (hne : bytes ≠ []) :
    locale.width bytes ≤ bytes.length := by
  unfold Locale.width
  cases h : (locale.multibyteLen bytes).filter (fun width => decide (0 < width)) with
  | none =>
    exact List.length_pos_iff.mpr hne
  | some n =>
    rw [Option.filter_eq_some_iff] at h
    simpa using locale.multibyteLen_le bytes n h.1

/-- A locale in which every character is one byte. -/
def Locale.SingleByte (locale : Locale) : Prop :=
  ∀ bytes n, locale.multibyteLen bytes = some n → n ≤ 1

theorem Locale.SingleByte.width_eq {locale : Locale} (h : locale.SingleByte) (bytes : Bytes) :
    locale.width bytes = 1 := by
  have hpos := locale.width_pos bytes
  unfold Locale.width at hpos ⊢
  cases hw : (locale.multibyteLen bytes).filter (fun width => decide (0 < width)) with
  | none => rfl
  | some n =>
    rw [hw] at hpos
    rw [Option.filter_eq_some_iff] at hw
    have := h bytes n hw.1
    simp only [Option.getD_some] at hpos ⊢
    omega

/-- The classes of the C locale (`wctype` and `iswctype` on one byte). -/
def asciiClass (name : Bytes) (b : UInt8) : Option Bool :=
  if name = text "alpha" then some (isAsciiAlphabetic b)
  else if name = text "digit" then some (isAsciiDigit b)
  else if name = text "alnum" then some (isAsciiAlphabetic b || isAsciiDigit b)
  else if name = text "upper" then some (decide (chr 'A' ≤ b) && decide (b ≤ chr 'Z'))
  else if name = text "lower" then some (decide (chr 'a' ≤ b) && decide (b ≤ chr 'z'))
  else if name = text "space" then some (b == 0x20 || (decide (0x09 ≤ b) && decide (b ≤ 0x0d)))
  else if name = text "blank" then some (b == 0x20 || b == 0x09)
  else if name = text "cntrl" then some (decide (b < 0x20) || b == 0x7f)
  else if name = text "print" then some (decide (0x20 ≤ b) && decide (b < 0x7f))
  else if name = text "graph" then some (decide (0x20 < b) && decide (b < 0x7f))
  else if name = text "punct" then
    some (decide (0x20 < b) && decide (b < 0x7f) && !(isAsciiAlphabetic b || isAsciiDigit b))
  else if name = text "xdigit" then
    some (isAsciiDigit b || (decide (chr 'a' ≤ b) && decide (b ≤ chr 'f')) ||
      (decide (chr 'A' ≤ b) && decide (b ≤ chr 'F')))
  else none

/-- `fnmatch` in the C locale on `[[.x.]]`, `[[=x=]]` and `[[=xy…=]]`.  A collating
    symbol or an equivalence class of one byte stands for that byte.  Between `[=`
    and `=]` two bytes and more are no equivalence class: the `[` is then a member
    like the bytes behind it, the first `]` closes the list and the second stands
    for itself. -/
def asciiCollatingMatches (expression subject : Bytes) : Bool :=
  match expression with
  | _ :: _ :: delimiter :: rest =>
    let body := rest.dropLast.dropLast.dropLast
    match body, subject with
    | [x], [b] => x == b
    | _ :: _ :: _, [b, close] =>
      delimiter == chr '=' && close == chr ']' && (chr '[' :: chr '=' :: body).contains b
    | _, _ => false
  | _ => false

/-- `mbrtowc` of one byte in the C locale: the null byte and the bytes past ASCII are no
    characters. -/
def asciiDecode (b : UInt8) : Option Wide := if b = 0 ∨ 0x80 ≤ b then none else some b.toNat

/-- `wide_chars` in the C locale: the bytes before the first that is no character, in a
    buffer of one place more than there are bytes. -/
def asciiWideChars (bytes : Bytes) : Nat × List Wide :=
  match bytes with
  | [] => (0, [])
  | first :: _ =>
    let decoded := (bytes.takeWhile fun b => (asciiDecode b).isSome).map UInt8.toNat
    (if first = 0 then 0 else 1, decoded ++ List.replicate (bytes.length + 1 - decoded.length) 0)

/-- The C locale: one byte a character, ASCII classes. -/
def Locale.c : Locale where
  isAlpha := isAsciiAlphabetic
  isAlphanumeric b := isAsciiAlphabetic b || isAsciiDigit b
  multibyteLen
    | [] => none
    | b :: _ => if b = 0 then some 0 else (asciiDecode b).map fun _ => 1
  decodeExact
    | [b] => asciiDecode b
    | _ => none
  wideIsSpace c := c == 0x20 || (decide (0x09 ≤ c) && decide (c ≤ 0x0d))
  wideChars := asciiWideChars
  wideClassMatches
    | name, [b] => asciiClass name b
    | name, _ => (asciiClass name 0).map fun _ => false
  collatingBracketMatches := asciiCollatingMatches
  foldWide bytes := bytes
  multibyteLen_le bytes n h := by
    rcases bytes with _ | ⟨b, rest⟩
    · cases h
    · simp only at h
      split at h
      · cases h
        exact Nat.zero_le _
      · obtain ⟨_, -, rfl⟩ := Option.map_eq_some_iff.mp h
        exact Nat.succ_le_of_lt (Nat.zero_lt_succ _)

theorem Locale.c_singleByte : Locale.c.SingleByte := by
  intro bytes n h
  rcases bytes with _ | ⟨b, rest⟩
  · cases h
  · simp only [Locale.c] at h
    split at h
    · cases h
      exact Nat.zero_le 1
    · obtain ⟨_, -, rfl⟩ := Option.map_eq_some_iff.mp h
      exact le_refl 1

/-- How the C library decodes the bytes of a single-byte character set that extends
    ASCII; `wide_chars` stops at the first byte that is no character and leaves the rest
    of its buffer zero. -/
structure Locale.Charmap (locale : Locale) : Prop where
  singleByte : locale.SingleByte
  decode_ascii : ∀ b : UInt8, b ≠ 0 → b < 0x80 → locale.decodeExact [b] = some b.toNat
  decode_zero : locale.decodeExact [0] = none
  decode_ne_zero : ∀ b : UInt8, locale.decodeExact [b] ≠ some 0
  decode_inj : ∀ (a b : UInt8) (w : Wide), locale.decodeExact [a] = some w →
    locale.decodeExact [b] = some w → a = b
  wideChars : ∀ bytes, bytes ≠ [] → ∃ spare, 0 < spare ∧
    (locale.wideChars bytes).2 =
      (bytes.takeWhile fun b => (locale.decodeExact [b]).isSome).filterMap
        (fun b => locale.decodeExact [b]) ++ List.replicate spare 0

theorem Locale.c_charmap : Locale.c.Charmap where
  singleByte := Locale.c_singleByte
  decode_ascii b hb hlt := by
    show asciiDecode b = _
    rw [asciiDecode, if_neg (by rw [not_or]; exact ⟨hb, by simpa using hlt⟩)]
  decode_zero := rfl
  decode_ne_zero b h := by
    have h : asciiDecode b = some 0 := h
    unfold asciiDecode at h
    split at h
    · cases h
    · next hb =>
      have hzero : b.toNat = 0 := Option.some.inj h
      exact hb (Or.inl (UInt8.toNat_inj.mp hzero))
  decode_inj a b w ha hb := by
    have ha : asciiDecode a = some w := ha
    have hb : asciiDecode b = some w := hb
    unfold asciiDecode at ha hb
    split at ha
    · cases ha
    · split at hb
      · cases hb
      · exact UInt8.toNat_inj.mp ((Option.some.inj ha).trans (Option.some.inj hb).symm)
  wideChars bytes hne := by
    obtain ⟨first, rest, rfl⟩ := List.exists_cons_of_ne_nil hne
    have hdecoded : (((first :: rest).takeWhile fun b => (asciiDecode b).isSome).map UInt8.toNat) =
        ((first :: rest).takeWhile fun b => (asciiDecode b).isSome).filterMap asciiDecode := by
      have hall : ∀ b ∈ (first :: rest).takeWhile fun b => (asciiDecode b).isSome,
          asciiDecode b = some b.toNat := by
        intro b hb
        have hsome : (asciiDecode b).isSome = true :=
          List.all_eq_true.mp List.all_takeWhile b hb
        unfold asciiDecode at hsome ⊢
        split
        · next hno => simp [hno] at hsome
        · rfl
      rw [List.filterMap_congr hall]
      simp
    refine ⟨(first :: rest).length + 1 - (((first :: rest).takeWhile fun b =>
      (asciiDecode b).isSome).map UInt8.toNat).length, ?_, ?_⟩
    · have := (List.takeWhile_sublist (fun b => (asciiDecode b).isSome)
        (l := first :: rest)).length_le
      rw [List.length_map]
      omega
    · show (asciiWideChars (first :: rest)).2 = _
      unfold asciiWideChars
      simp only
      rw [hdecoded]
      rfl

end Nsh
