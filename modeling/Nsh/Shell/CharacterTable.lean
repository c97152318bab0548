import Nsh.Shell.Characters
import Nsh.Lib.Strides

/-!
# The character table

`Characters` asks the locale in blocks.  Each block runs on to the end of the character
that straddles its end, so the next one begins where a character does; what has been
learned never depends on the order the questions came in.
-/

namespace Nsh

open Nsh.Strides

/-- What a decoder that stops at the end of a character promises: what follows a
    character does not change how wide it is, and none is wider than a byte can say
    (`MB_LEN_MAX` is 16). -/
structure Locale.PrefixDecoder (locale : Locale) : Prop where
  own : ∀ {bytes n}, locale.multibyteLen bytes = some n → 0 < n → ∀ more,
    locale.multibyteLen (bytes.take n ++ more) = some n
  narrow : ∀ {bytes n}, locale.multibyteLen bytes = some n → n < 256

namespace Locale

variable (locale : Locale)

/-- What the table holds for a character: its width, where that is a positive `u8`. -/
def learnedWidth (bytes : Bytes) : ℕ :=
  ((locale.multibyteLen bytes).filter fun width => decide (0 < width ∧ width < 256)).getD 1

/-- The loop of `character_widths`, on from the widths it has. -/
def widthsFrom (bytes : Bytes) (offsets : ℕ) : ℕ → List ℕ → List ℕ
  | 0, widths => widths
  | room + 1, widths =>
    if offsets ≤ widths.length then widths
    else
      let width := locale.learnedWidth (bytes.drop widths.length)
      widthsFrom bytes offsets room (widths ++ width :: List.replicate (width - 1) 1)

/-- `Locale::character_widths`: at least `offsets` widths of a string that begins a
    character, on to the end of a character. -/
def learnedWidths (bytes : Bytes) (offsets : ℕ) : List ℕ :=
  locale.widthsFrom bytes (min offsets bytes.length) (min offsets bytes.length) []

/-- `characters::boundaries`. -/
def boundaries (bytes : Bytes) : List ℕ :=
  let widths := locale.learnedWidths bytes bytes.length
  0 :: readFrom widths widths.length 0

end Locale

/-- `CHARACTER_BLOCK`. -/
def characterBlock : ℕ := 8

/-- One byte string, and what the locale has said about it so far. -/
structure CharacterTable where
  locale : Locale
  bytes : Bytes
  widths : List ℕ

namespace CharacterTable

/-- `Characters::of`. -/
def ofBytes (locale : Locale) (bytes : Bytes) : CharacterTable := ⟨locale, bytes, []⟩

/-- The block `learn` asks for: as much again as is known, or what the position needs. -/
def block (t : CharacterTable) (offset : ℕ) : List ℕ :=
  let known := t.widths.length
  let want := min (max (max (known * 2) characterBlock) (offset + 1)) t.bytes.length
  t.locale.learnedWidths (t.bytes.drop known) (want - known)

/-- `Characters::learn`. -/
def learn (t : CharacterTable) (offset : ℕ) : CharacterTable :=
  if offset < t.widths.length then t else { t with widths := t.widths ++ t.block offset }

/-- `Characters::end`.  No answer is an index out of the table. -/
def endAt (t : CharacterTable) (offset : ℕ) : Option (ℕ × CharacterTable) :=
  if t.bytes.length ≤ offset then some (offset, t)
  else
    let t := t.learn offset
    t.widths[offset]?.map fun width => (offset + max width 1, t)

/-- `Characters::end_within`. -/
def endWithin (t : CharacterTable) (offset limit : ℕ) : Option (ℕ × CharacterTable) :=
  if limit ≤ offset then some (offset, t)
  else
    let t := t.learn offset
    t.widths[offset]?.map fun width =>
      (if offset + max width 1 ≤ limit then offset + max width 1 else offset + 1, t)

/-- What a table can be asked. -/
inductive Question
  | endAt (offset : ℕ)
  | endWithin (offset limit : ℕ)
deriving DecidableEq, Repr

def ask (t : CharacterTable) : Question → Option (ℕ × CharacterTable)
  | .endAt offset => t.endAt offset
  | .endWithin offset limit => t.endWithin offset limit

/-- The table after so many questions. -/
def asked : CharacterTable → List Question → Option CharacterTable
  | t, [] => some t
  | t, question :: questions => (t.ask question).bind fun answered => answered.2.asked questions

end CharacterTable

/-! ### What a block holds -/

namespace Locale

variable (locale : Locale)

theorem learnedWidth_pos (bytes : Bytes) : 0 < locale.learnedWidth bytes := by
  unfold learnedWidth
  cases h : (locale.multibyteLen bytes).filter fun width => decide (0 < width ∧ width < 256) with
  | none => exact Nat.one_pos
  | some n =>
    rw [Option.filter_eq_some_iff, decide_eq_true_eq] at h
    exact h.2.1

theorem learnedWidth_le {bytes : Bytes} (hne : bytes ≠ []) :
    locale.learnedWidth bytes ≤ bytes.length := by
  unfold learnedWidth
  cases h : (locale.multibyteLen bytes).filter fun width => decide (0 < width ∧ width < 256) with
  | none => exact List.length_pos_iff.mpr hne
  | some n =>
    rw [Option.filter_eq_some_iff] at h
    exact locale.multibyteLen_le bytes n h.1

variable (bytes : Bytes)

/-- The width of the character that begins at a position. -/
def strideAt (offset : ℕ) : ℕ := locale.learnedWidth (bytes.drop offset)

theorem strideAt_pos (offset : ℕ) : 0 < locale.strideAt bytes offset :=
  locale.learnedWidth_pos _

/-- The walk does not step past the end of the string. -/
theorem le_of_visits {offset : ℕ} (h : Visits (locale.strideAt bytes) bytes.length offset) :
    offset ≤ bytes.length := by
  obtain ⟨n, hn⟩ := h
  cases n with
  | zero =>
    obtain rfl := Option.some.inj hn
    exact Nat.zero_le _
  | succ n =>
    obtain ⟨before, -, hnext⟩ := Option.bind_eq_some_iff.mp hn
    obtain ⟨hlt, rfl⟩ := next_eq_some.mp hnext
    have hne : bytes.drop before ≠ [] := by
      rw [Ne, List.drop_eq_nil_iff]
      omega
    have := locale.learnedWidth_le hne
    rw [List.length_drop] at this
    unfold strideAt
    omega

/-- A block read behind what is known, as the one table both make. -/
theorem widthsFrom_covers (known : List ℕ) (offsets : ℕ) (room : ℕ) : ∀ widths,
    offsets ≤ widths.length + room → known.length + offsets ≤ bytes.length →
    Covers (locale.strideAt bytes) bytes.length (known ++ widths) →
    Covers (locale.strideAt bytes) bytes.length
      (known ++ locale.widthsFrom (bytes.drop known.length) offsets room widths) ∧
    offsets ≤ (locale.widthsFrom (bytes.drop known.length) offsets room widths).length := by
  induction room with
  | zero =>
    intro widths hroom _ h
    exact ⟨h, hroom⟩
  | succ room ih =>
    intro widths hroom hinside h
    by_cases hdone : offsets ≤ widths.length
    · rw [widthsFrom, if_pos hdone]
      exact ⟨h, hdone⟩
    · have hstride : locale.learnedWidth ((bytes.drop known.length).drop widths.length) =
          locale.strideAt bytes (known ++ widths).length := by
        rw [strideAt, List.drop_drop, List.length_append]
      rw [widthsFrom, if_neg hdone]
      simp only [hstride]
      refine ih _ ?_ hinside ?_
      · simp only [List.length_append, List.length_cons]
        omega
      · rw [← List.append_assoc]
        refine h.extend ?_ (locale.strideAt_pos bytes _) 1
        rw [List.length_append]
        omega

/-- The whole string in one block. -/
theorem learnedWidths_covers :
    Covers (locale.strideAt bytes) bytes.length (locale.learnedWidths bytes bytes.length) ∧
    (locale.learnedWidths bytes bytes.length).length = bytes.length := by
  have hblock := locale.widthsFrom_covers bytes [] bytes.length bytes.length []
    (by simp) (by simp) covers_nil
  rw [List.length_nil, List.drop_zero, List.nil_append] at hblock
  rw [learnedWidths, Nat.min_self]
  exact ⟨hblock.1, le_antisymm (locale.le_of_visits bytes hblock.1.stands) hblock.2⟩

theorem mem_boundaries_iff {offset : ℕ} :
    offset ∈ locale.boundaries bytes ↔ Visits (locale.strideAt bytes) bytes.length offset := by
  obtain ⟨hcovers, hlength⟩ := locale.learnedWidths_covers bytes
  have hpos : ∀ p < bytes.length, 0 < locale.strideAt bytes p :=
    fun p _ => locale.strideAt_pos bytes p
  constructor
  · exact (readFrom_isChain hpos hcovers hlength _ 0 Visits.start).2 offset
  · intro h
    exact mem_readFrom hpos hcovers hlength h _ 0 Visits.start (by omega) (Nat.zero_le _)

/-- From each boundary to the next. -/
theorem boundaries_getElem {i offset following : ℕ}
    (h : (locale.boundaries bytes)[i]? = some offset)
    (hnext : (locale.boundaries bytes)[i + 1]? = some following) :
    offset < bytes.length ∧ following = offset + locale.strideAt bytes offset := by
  obtain ⟨hcovers, hlength⟩ := locale.learnedWidths_covers bytes
  have hchain := (readFrom_isChain (fun p _ => locale.strideAt_pos bytes p) hcovers hlength
    (locale.learnedWidths bytes bytes.length).length 0 Visits.start).1
  obtain ⟨hi, rfl⟩ := List.getElem?_eq_some_iff.mp h
  obtain ⟨hi', rfl⟩ := List.getElem?_eq_some_iff.mp hnext
  exact List.isChain_iff_getElem.mp hchain i hi'

/-! ### A string cut short -/

variable {locale bytes}

theorem width_eq_of_pos {n : ℕ} (hn : locale.multibyteLen bytes = some n) (hpos : 0 < n) :
    locale.width bytes = n := by
  simp [Locale.width, hn, Option.filter_some, hpos]

theorem width_eq_one (h : ∀ n, locale.multibyteLen bytes = some n → n = 0) :
    locale.width bytes = 1 := by
  unfold Locale.width
  cases hn : locale.multibyteLen bytes with
  | none => rfl
  | some n =>
    obtain rfl := h n hn
    rfl

/-- No proper prefix of a character is one. -/
theorem PrefixDecoder.proper_prefix (h : locale.PrefixDecoder) {n k m : ℕ}
    (hn : locale.multibyteLen bytes = some n) (hk : k < n)
    (hm : locale.multibyteLen (bytes.take k) = some m) : m = 0 := by
  rcases Nat.eq_zero_or_pos m with hzero | hpos
  · exact hzero
  · have hle := locale.multibyteLen_le _ m hm
    have hmk : m ≤ k := le_trans hle (List.length_take_le k bytes)
    have := h.own hm hpos (bytes.drop m)
    rw [List.take_take, min_eq_left hmk, List.take_append_drop, hn] at this
    have := Option.some.inj this
    omega

theorem PrefixDecoder.learnedWidth_eq (h : locale.PrefixDecoder) (bytes : Bytes) :
    locale.learnedWidth bytes = locale.width bytes := by
  unfold learnedWidth Locale.width
  cases hn : locale.multibyteLen bytes with
  | none => rfl
  | some n =>
    have := h.narrow hn
    simp [Option.filter_some, this]

/-- Shown a string cut short, the locale answers what it answers about the whole where
    the character is in it, and one byte where it is not. -/
theorem PrefixDecoder.width_take (h : locale.PrefixDecoder) {k : ℕ} (hk : 0 < k) :
    locale.width (bytes.take k) =
      if locale.learnedWidth bytes ≤ k then locale.learnedWidth bytes else 1 := by
  rw [h.learnedWidth_eq]
  -- Only a character of the cut string is wider than nothing, and it is the whole's.
  have hcut : ∀ m, locale.multibyteLen (bytes.take k) = some m → 0 < m →
      locale.multibyteLen bytes = some m := by
    intro m hm hpos
    have hmk : m ≤ k := le_trans (locale.multibyteLen_le _ m hm) (List.length_take_le k bytes)
    have := h.own hm hpos (bytes.drop m)
    rwa [List.take_take, min_eq_left hmk, List.take_append_drop] at this
  by_cases hwide : ∃ n, locale.multibyteLen bytes = some n ∧ 0 < n
  · obtain ⟨n, hn, hpos⟩ := hwide
    rw [width_eq_of_pos hn hpos]
    split
    · next hle =>
      have hown := h.own hn hpos ((bytes.take k).drop n)
      have htake : bytes.take n = (bytes.take k).take n := by
        rw [List.take_take, min_eq_left hle]
      rw [htake, List.take_append_drop] at hown
      exact width_eq_of_pos hown hpos
    · next hlt =>
      exact width_eq_one fun m hm => h.proper_prefix hn (Nat.not_le.mp hlt) hm
  · have hzero : ∀ m, locale.multibyteLen bytes = some m → m = 0 := by
      intro m hm
      rcases Nat.eq_zero_or_pos m with hzero | hpos
      · exact hzero
      · exact absurd ⟨m, hm, hpos⟩ hwide
    rw [width_eq_one hzero, if_pos (Nat.succ_le_of_lt hk)]
    refine width_eq_one fun m hm => ?_
    rcases Nat.eq_zero_or_pos m with hm0 | hpos
    · exact hm0
    · exact hzero m (hcut m hm hpos)

/-! ### The whole table -/

theorem characterWidths_drop (locale : Locale) (inside : ℕ) : ∀ bytes : Bytes,
    (locale.characterWidths inside bytes).drop inside =
      locale.characterWidths 0 (bytes.drop inside) := by
  induction inside with
  | zero =>
    intro bytes
    rfl
  | succ inside ih =>
    intro bytes
    cases bytes with
    | nil => rfl
    | cons b rest => simpa [characterWidths] using ih rest

theorem PrefixDecoder.characterWidths_drop_of_visits (h : locale.PrefixDecoder) {offset : ℕ}
    (hvisits : Visits (locale.strideAt bytes) bytes.length offset) :
    (locale.characterWidths 0 bytes).drop offset =
      locale.characterWidths 0 (bytes.drop offset) := by
  obtain ⟨n, hn⟩ := hvisits
  induction n generalizing offset with
  | zero =>
    obtain rfl := Option.some.inj hn
    rfl
  | succ n ih =>
    obtain ⟨before, hbefore, hnext⟩ := Option.bind_eq_some_iff.mp hn
    obtain ⟨hlt, rfl⟩ := next_eq_some.mp hnext
    rw [← List.drop_drop, ih hbefore, ← List.drop_drop, strideAt, h.learnedWidth_eq]
    have hpos := locale.width_pos (bytes.drop before)
    obtain ⟨width, hwidth⟩ := Nat.exists_eq_add_of_lt hpos
    cases hrest : bytes.drop before with
    | nil =>
      rw [List.drop_eq_nil_iff] at hrest
      omega
    | cons b rest =>
      rw [hrest, Nat.zero_add] at hwidth
      rw [hwidth, characterWidths, List.drop_succ_cons, List.drop_succ_cons, hwidth,
        Nat.add_sub_cancel, characterWidths_drop]

/-- The table the rest of the model reads holds the strides of the same walk. -/
theorem PrefixDecoder.width_of_visits (h : locale.PrefixDecoder) {offset : ℕ}
    (hvisits : Visits (locale.strideAt bytes) bytes.length offset) (hlt : offset < bytes.length) :
    (Characters.mk locale bytes).width offset = locale.strideAt bytes offset := by
  have hdrop := h.characterWidths_drop_of_visits hvisits
  have hget : (locale.characterWidths 0 bytes).getD offset 1 =
      ((locale.characterWidths 0 bytes).drop offset).getD 0 1 := by
    simp [List.getD_eq_getElem?_getD, List.getElem?_drop]
  rw [Characters.width, hget, hdrop, strideAt, h.learnedWidth_eq]
  cases hrest : bytes.drop offset with
  | nil =>
    rw [List.drop_eq_nil_iff] at hrest
    omega
  | cons b rest =>
    rw [characterWidths, List.getD_cons_zero, max_eq_left (locale.width_pos _)]

/-- The boundaries the source walks off its widths are those of `Characters`. -/
theorem PrefixDecoder.boundaries_eq (h : locale.PrefixDecoder) (bytes : Bytes) :
    locale.boundaries bytes = (Characters.mk locale bytes).boundaries := by
  obtain ⟨hcovers, hlength⟩ := locale.learnedWidths_covers bytes
  have walk : ∀ room offset, Visits (locale.strideAt bytes) bytes.length offset →
      readFrom (locale.learnedWidths bytes bytes.length) room offset =
        (Characters.mk locale bytes).boundariesFrom room offset := by
    intro room
    induction room with
    | zero =>
      intro offset _
      rfl
    | succ room ih =>
      intro offset hvisits
      rw [readFrom, Characters.boundariesFrom]
      by_cases hlt : offset < bytes.length
      · have hget := hcovers.holds offset (by rwa [hlength]) hvisits
        have hmax : max (locale.strideAt bytes offset) 1 = locale.strideAt bytes offset :=
          max_eq_left (locale.strideAt_pos bytes offset)
        rw [if_neg (Nat.not_le.mpr hlt), h.width_of_visits hvisits hlt]
        simp only [hget, hmax, ih _ (hvisits.step hlt)]
      · have hget : (locale.learnedWidths bytes bytes.length)[offset]? = none :=
          List.getElem?_eq_none (by omega)
        rw [if_pos (Nat.not_lt.mp hlt)]
        simp only [hget]
  rw [boundaries, Characters.boundaries, hlength]
  exact congrArg (0 :: ·) (walk bytes.length 0 Visits.start)

end Locale

/-! ### Questions in any order -/

namespace CharacterTable

/-- What is learned covers the walk as far as it goes. -/
structure Learned (locale : Locale) (bytes : Bytes) (t : CharacterTable) : Prop where
  locale_eq : t.locale = locale
  bytes_eq : t.bytes = bytes
  covers : Covers (locale.strideAt bytes) bytes.length t.widths

variable {locale : Locale} {bytes : Bytes} {t : CharacterTable}

theorem learned_ofBytes : Learned locale bytes (ofBytes locale bytes) := ⟨rfl, rfl, covers_nil⟩

/-- A block keeps the table a cover of the walk, and covers what was asked about. -/
theorem Learned.learn (h : Learned locale bytes t) (offset : ℕ) :
    Learned locale bytes (t.learn offset) ∧
      (offset < bytes.length → offset < (t.learn offset).widths.length) := by
  obtain ⟨rfl, rfl, hcovers⟩ := h
  by_cases hknown : offset < t.widths.length
  · rw [CharacterTable.learn, if_pos hknown]
    exact ⟨⟨rfl, rfl, hcovers⟩, fun _ => hknown⟩
  · have hle := t.locale.le_of_visits t.bytes hcovers.stands
    have hblock : Covers (t.locale.strideAt t.bytes) t.bytes.length (t.widths ++ t.block offset) ∧
        (offset < t.bytes.length → offset < (t.widths ++ t.block offset).length) := by
      rw [CharacterTable.block]
      generalize hwant : min (max (max (t.widths.length * 2) characterBlock) (offset + 1))
        t.bytes.length = want
      have hmin : min (want - t.widths.length) (t.bytes.drop t.widths.length).length =
          want - t.widths.length := by
        rw [List.length_drop]
        omega
      obtain ⟨hwidths, hlong⟩ := t.locale.widthsFrom_covers t.bytes t.widths
        (want - t.widths.length) (want - t.widths.length) [] (by simp) (by omega)
        (by rwa [List.append_nil])
      rw [Locale.learnedWidths, hmin]
      refine ⟨hwidths, fun hlt => ?_⟩
      rw [List.length_append]
      omega
    rw [CharacterTable.learn, if_neg hknown]
    exact ⟨⟨rfl, rfl, hblock.1⟩, hblock.2⟩

/-- Whatever it is asked, a table stays a cover of the walk. -/
theorem Learned.ask (h : Learned locale bytes t) {question : Question} {answer : ℕ}
    {t' : CharacterTable} (hask : t.ask question = some (answer, t')) :
    Learned locale bytes t' := by
  cases question with
  | endAt offset =>
    simp only [CharacterTable.ask, CharacterTable.endAt] at hask
    split at hask
    · obtain ⟨-, rfl⟩ := Prod.mk.inj (Option.some.inj hask)
      exact h
    · obtain ⟨width, -, hwidth⟩ := Option.map_eq_some_iff.mp hask
      obtain ⟨-, rfl⟩ := Prod.mk.inj hwidth
      exact (h.learn offset).1
  | endWithin offset limit =>
    simp only [CharacterTable.ask, CharacterTable.endWithin] at hask
    split at hask
    · obtain ⟨-, rfl⟩ := Prod.mk.inj (Option.some.inj hask)
      exact h
    · obtain ⟨width, -, hwidth⟩ := Option.map_eq_some_iff.mp hask
      obtain ⟨-, rfl⟩ := Prod.mk.inj hwidth
      exact (h.learn offset).1

theorem Learned.asked {questions : List Question} : ∀ {t : CharacterTable},
    Learned locale bytes t → ∀ {t' : CharacterTable}, t.asked questions = some t' →
    Learned locale bytes t' := by
  induction questions with
  | nil =>
    intro t h t' hasked
    obtain rfl := Option.some.inj hasked
    exact h
  | cons question questions ih =>
    intro t h t' hasked
    obtain ⟨⟨answer, between⟩, hask, hrest⟩ := Option.bind_eq_some_iff.mp hasked
    exact ih (h.ask hask) hrest

/-- A question about a position of the string is answered, and about a character's first
    byte with the width of that character. -/
theorem Learned.widths_getElem (h : Learned locale bytes t) {offset : ℕ}
    (hlt : offset < bytes.length) : ∃ width, (t.learn offset).widths[offset]? = some width ∧
      (Visits (locale.strideAt bytes) bytes.length offset →
        width = locale.strideAt bytes offset) := by
  obtain ⟨hlearned, hin⟩ := h.learn offset
  refine ⟨_, List.getElem?_eq_getElem (hin hlt), fun hvisits => ?_⟩
  have := hlearned.covers.holds offset (hin hlt) hvisits
  rw [List.getElem?_eq_getElem (hin hlt)] at this
  exact Option.some.inj this

/-- A question that stays inside the string. -/
def Question.Inside (bytes : Bytes) : Question → Prop
  | .endAt _ => True
  | .endWithin _ limit => limit ≤ bytes.length

theorem Learned.ask_returns (h : Learned locale bytes t) {question : Question}
    (hinside : question.Inside bytes) : ∃ answered, t.ask question = some answered := by
  have hbytes := h.bytes_eq
  cases question with
  | endAt offset =>
    simp only [CharacterTable.ask, CharacterTable.endAt, hbytes]
    split
    · exact ⟨_, rfl⟩
    · next hlt =>
      obtain ⟨width, hwidth, -⟩ := h.widths_getElem (Nat.not_le.mp hlt)
      exact ⟨_, by rw [hwidth, Option.map_some]⟩
  | endWithin offset limit =>
    simp only [CharacterTable.ask, CharacterTable.endWithin]
    split
    · exact ⟨_, rfl⟩
    · next hlt =>
      obtain ⟨width, hwidth, -⟩ := h.widths_getElem (lt_of_lt_of_le (Nat.not_le.mp hlt) hinside)
      exact ⟨_, by rw [hwidth, Option.map_some]⟩

/-- Questions inside the string are all answered. -/
theorem Learned.asked_returns {questions : List Question} : ∀ {t : CharacterTable},
    Learned locale bytes t → (∀ question ∈ questions, question.Inside bytes) →
    ∃ t', t.asked questions = some t' := by
  induction questions with
  | nil =>
    intro t _ _
    exact ⟨t, rfl⟩
  | cons question questions ih =>
    intro t h hinside
    obtain ⟨⟨answer, between⟩, hask⟩ := h.ask_returns (hinside question List.mem_cons_self)
    obtain ⟨t', ht'⟩ :=
      ih (h.ask hask) fun other hmem => hinside other (List.mem_cons_of_mem _ hmem)
    exact ⟨t', by rw [CharacterTable.asked, hask, Option.bind_some, ht']⟩

theorem Learned.endAt_eq (h : Learned locale bytes t) {offset : ℕ} (hlt : offset < bytes.length)
    (hvisits : Visits (locale.strideAt bytes) bytes.length offset) :
    (t.endAt offset).map Prod.fst = some (offset + locale.strideAt bytes offset) := by
  obtain ⟨width, hwidth, hstride⟩ := h.widths_getElem hlt
  rw [CharacterTable.endAt, h.bytes_eq, if_neg (Nat.not_le.mpr hlt)]
  simp only [hwidth, Option.map_some, hstride hvisits]
  rw [max_eq_left (Nat.succ_le_of_lt (locale.strideAt_pos bytes offset))]

theorem Learned.endWithin_eq (h : Learned locale bytes t) (hdecoder : locale.PrefixDecoder)
    {offset limit : ℕ} (hlt : offset < limit) (hlimit : limit ≤ bytes.length)
    (hvisits : Visits (locale.strideAt bytes) bytes.length offset) :
    (t.endWithin offset limit).map Prod.fst =
      some (offset + locale.width (bytes.extract offset limit)) := by
  obtain ⟨width, hwidth, hstride⟩ := h.widths_getElem (lt_of_lt_of_le hlt hlimit)
  have hpos := locale.strideAt_pos bytes offset
  have hmax : max (locale.strideAt bytes offset) 1 = locale.strideAt bytes offset :=
    max_eq_left hpos
  rw [CharacterTable.endWithin, if_neg (Nat.not_le.mpr hlt)]
  simp only [hwidth, Option.map_some, hstride hvisits, hmax]
  rw [List.extract_eq_take_drop, hdecoder.width_take (by omega)]
  unfold Locale.strideAt
  by_cases hfits : offset + locale.learnedWidth (bytes.drop offset) ≤ limit
  · rw [if_pos hfits, if_pos (by omega)]
  · rw [if_neg hfits, if_neg (by omega)]

/-- **The character table is the walk.**  After any questions in any order, as many
    positions are learned as lie in front of some boundary; from a boundary the table
    answers with the next one, and seen from a limit with what the locale says of the
    bytes up to it.  Questions inside the string are all answered, and the boundaries are
    those of `Characters`. -/
theorem asked_walk (locale : Locale) (hdecoder : locale.PrefixDecoder) (bytes : Bytes)
    (questions : List Question) :
    ((∀ question ∈ questions, question.Inside bytes) →
      ∃ t, (ofBytes locale bytes).asked questions = some t) ∧
    (∀ t, (ofBytes locale bytes).asked questions = some t →
      t.widths.length ∈ locale.boundaries bytes ∧
      (∀ (i offset following : ℕ), (locale.boundaries bytes)[i]? = some offset →
        (locale.boundaries bytes)[i + 1]? = some following →
        (t.endAt offset).map Prod.fst = some following) ∧
      ∀ offset ∈ locale.boundaries bytes, ∀ limit ≤ bytes.length, offset < limit →
        (t.endWithin offset limit).map Prod.fst =
          some (offset + locale.width (bytes.extract offset limit))) ∧
    locale.boundaries bytes = (Characters.mk locale bytes).boundaries := by
  refine ⟨learned_ofBytes.asked_returns, fun t hasked => ?_, hdecoder.boundaries_eq bytes⟩
  have hlearned := learned_ofBytes.asked hasked
  refine ⟨(locale.mem_boundaries_iff bytes).mpr hlearned.covers.stands, ?_, ?_⟩
  · intro i offset following hi hnext
    obtain ⟨hlt, rfl⟩ := locale.boundaries_getElem bytes hi hnext
    have hvisits := (locale.mem_boundaries_iff bytes).mp (List.mem_of_getElem? hi)
    exact hlearned.endAt_eq hlt hvisits
  · intro offset hoffset limit hlimit hlt
    exact hlearned.endWithin_eq hdecoder hlt hlimit ((locale.mem_boundaries_iff bytes).mp hoffset)

/-! ### A two-byte charmap -/

/-- `mbrlen` in a UTF-8 locale, on characters of one and two bytes. -/
def twoByteLen : Bytes → Option ℕ
  | [] => none
  | b :: rest =>
    if b = 0 then some 0
    else if b < 0x80 then some 1
    else if 0xc2 ≤ b ∧ b < 0xe0 then
      match rest with
      | [] => none
      | c :: _ => if 0x80 ≤ c ∧ c < 0xc0 then some 2 else none
    else none

theorem twoByteLen_cases {bytes : Bytes} {n : ℕ} (h : twoByteLen bytes = some n) (hpos : 0 < n) :
    (∃ b rest, bytes = b :: rest ∧ n = 1 ∧ b ≠ 0 ∧ b < 0x80) ∨
    ∃ b c rest, bytes = b :: c :: rest ∧ n = 2 ∧ (b ≠ 0 ∧ ¬ b < 0x80) ∧ (0xc2 ≤ b ∧ b < 0xe0) ∧
      (0x80 ≤ c ∧ c < 0xc0) := by
  unfold twoByteLen at h
  split at h
  · cases h
  · next b rest =>
    split at h
    · cases h
      exact absurd hpos (Nat.lt_irrefl 0)
    · next hzero =>
      split at h
      · next hascii =>
        cases h
        exact Or.inl ⟨b, rest, rfl, rfl, hzero, hascii⟩
      · next hascii =>
        split at h
        · next hlead =>
          split at h
          · cases h
          · next c rest =>
            split at h
            · next htail =>
              cases h
              exact Or.inr ⟨b, c, rest, rfl, rfl, ⟨hzero, hascii⟩, hlead, htail⟩
            · cases h
        · cases h

/-- The C locale with a charmap of one and two bytes. -/
def twoByte : Locale :=
  { Locale.c with
    multibyteLen := twoByteLen
    multibyteLen_le := by
      intro bytes n h
      rcases Nat.eq_zero_or_pos n with rfl | hpos
      · exact Nat.zero_le _
      · rcases twoByteLen_cases h hpos with ⟨b, rest, rfl, rfl, -⟩ | ⟨b, c, rest, rfl, rfl, -⟩
        · simp
        · simp }

theorem twoByte_prefixDecoder : twoByte.PrefixDecoder where
  own := by
    intro bytes n h hpos more
    rcases twoByteLen_cases h hpos with
      ⟨b, rest, rfl, rfl, hzero, hascii⟩ | ⟨b, c, rest, rfl, rfl, ⟨hzero, hascii⟩, hlead, htail⟩
    · simp [twoByte, twoByteLen, hzero, hascii]
    · simp only [twoByte, twoByteLen, List.take_succ_cons, List.take_zero, List.cons_append,
        if_neg hzero, if_neg hascii, if_pos hlead, if_pos htail]
  narrow := by
    intro bytes n h
    rcases Nat.eq_zero_or_pos n with rfl | hpos
    · exact Nat.zero_lt_succ _
    · rcases twoByteLen_cases h hpos with ⟨b, rest, -, rfl, -⟩ | ⟨b, c, rest, -, rfl, -⟩
      · exact Nat.lt_of_lt_of_le Nat.one_lt_two (by omega)
      · omega

/-- A character asked about out of order, and then against a limit inside it. -/
theorem asked_walk_jumped :
    ∃ t, (ofBytes twoByte [0xc3, 0x8c, 0xc3, 0x8c, 0xc3, 0x8c, 0xc3, 0x8c, 0xc3, 0x8c, 0xc3]).asked
        [.endAt 9, .endWithin 8 9, .endAt 0] = some t ∧
      t.widths.length ∈
        twoByte.boundaries [0xc3, 0x8c, 0xc3, 0x8c, 0xc3, 0x8c, 0xc3, 0x8c, 0xc3, 0x8c, 0xc3] ∧
      (t.endWithin 8 9).map Prod.fst = some 9 := by
  obtain ⟨hreturns, hwalk, -⟩ := asked_walk twoByte twoByte_prefixDecoder
    [0xc3, 0x8c, 0xc3, 0x8c, 0xc3, 0x8c, 0xc3, 0x8c, 0xc3, 0x8c, 0xc3]
    [.endAt 9, .endWithin 8 9, .endAt 0]
  obtain ⟨t, ht⟩ := hreturns (by simp [Question.Inside])
  obtain ⟨hlength, -, hwithin⟩ := hwalk t ht
  exact ⟨t, ht, hlength, hwithin 8 (by decide) 9 (by decide) (by decide)⟩

end CharacterTable

end Nsh
