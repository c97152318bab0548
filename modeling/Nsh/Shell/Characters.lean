import Nsh.Shell.Locale

/-!
# Where characters end

A walk over a byte string steps from character to character.  `Characters` is
one string and the locale's answers about it: a width for every byte position,
one where no character begins.  The source fills its table in blocks; that it holds
the same answers is shown beside it, in `CharacterTable`.
-/

namespace Nsh

/-- `Locale::character_widths` of a whole string, the first `inside` bytes of which
    lie inside the character before. -/
def Locale.characterWidths (locale : Locale) : Nat → Bytes → List Nat
  | _, [] => []
  | 0, b :: rest =>
    locale.width (b :: rest) ::
      locale.characterWidths (locale.width (b :: rest) - 1) rest
  | inside + 1, _ :: rest => 1 :: locale.characterWidths inside rest

/-- One byte string, and what the locale says about its characters. -/
structure Characters where
  locale : Locale
  bytes : Bytes

namespace Characters

def width (c : Characters) (offset : Nat) : Nat :=
  max ((c.locale.characterWidths 0 c.bytes).getD offset 1) 1

/-- Where the character beginning at `offset` runs out; a position at or past the
    string's end is its own end. -/
def endAt (c : Characters) (offset : Nat) : Nat :=
  if c.bytes.length ≤ offset then offset else offset + c.width offset

/-- The same for a caller that may read only the first `limit` bytes. -/
def endWithin (c : Characters) (offset limit : Nat) : Nat :=
  if limit ≤ offset then offset
  else if offset + c.width offset ≤ limit then offset + c.width offset
  else offset + 1

/-- The walk of `characters::boundaries` on from `offset`. -/
def boundariesFrom (c : Characters) : Nat → Nat → List Nat
  | 0, _ => []
  | fuel + 1, offset =>
    if c.bytes.length ≤ offset then []
    else (offset + c.width offset) :: c.boundariesFrom fuel (offset + c.width offset)

/-- Every offset at which a character begins, then the string's length. -/
def boundaries (c : Characters) : List Nat := 0 :: c.boundariesFrom c.bytes.length 0

/-- The characters the walk of `characters::boundaries` steps over from `offset` on. -/
def charactersFrom (c : Characters) : Nat → Nat → List Bytes
  | 0, _ => []
  | fuel + 1, offset =>
    if c.bytes.length ≤ offset then []
    else c.bytes.extract offset (offset + c.width offset) ::
      c.charactersFrom fuel (offset + c.width offset)

/-- The string cut into its characters. -/
def characters (c : Characters) : List Bytes := c.charactersFrom c.bytes.length 0

end Characters

/-! ### A character never runs past the string -/

theorem Locale.characterWidths_le (locale : Locale) (inside : Nat) (bytes : Bytes) (offset : Nat)
    (h : offset < bytes.length) :
    offset + (locale.characterWidths inside bytes).getD offset 1 ≤ bytes.length := by
  induction bytes generalizing inside offset with
  | nil => simp at h
  | cons b rest ih =>
    cases offset with
    | zero =>
      cases inside with
      | zero => simpa [characterWidths] using locale.width_le (List.cons_ne_nil b rest)
      | succ inside => simp [characterWidths]
    | succ offset =>
      have hrest : offset < rest.length := by simpa using h
      cases inside with
      | zero =>
        have := ih (locale.width (b :: rest) - 1) offset hrest
        simp only [characterWidths, List.getD_cons_succ, List.length_cons]
        omega
      | succ inside =>
        have := ih inside offset hrest
        simp only [characterWidths, List.getD_cons_succ, List.length_cons]
        omega

namespace Characters

variable (c : Characters)

theorem width_pos (offset : Nat) : 0 < c.width offset := by
  simp [width]

theorem add_width_le {offset : Nat} (h : offset < c.bytes.length) :
    offset + c.width offset ≤ c.bytes.length := by
  have := c.locale.characterWidths_le 0 c.bytes offset h
  unfold width
  rcases Nat.le_total ((c.locale.characterWidths 0 c.bytes).getD offset 1) 1 with hle | hle
  · rw [max_eq_right hle]; exact h
  · rw [max_eq_left hle]; exact this

theorem le_endAt (offset : Nat) : offset ≤ c.endAt offset := by
  unfold endAt
  split
  · exact le_refl offset
  · exact Nat.le_add_right offset _

theorem lt_endAt {offset : Nat} (h : offset < c.bytes.length) : offset < c.endAt offset := by
  rw [endAt, if_neg (Nat.not_le.mpr h)]
  exact Nat.lt_add_of_pos_right (c.width_pos offset)

theorem endAt_le {offset : Nat} (h : offset ≤ c.bytes.length) :
    c.endAt offset ≤ c.bytes.length := by
  unfold endAt
  split
  · exact h
  · next hlt => exact c.add_width_le (Nat.not_le.mp hlt)

theorem lt_endWithin {offset limit : Nat} (h : offset < limit) :
    offset < c.endWithin offset limit := by
  have := c.width_pos offset
  rw [endWithin, if_neg (Nat.not_le.mpr h)]
  split
  · exact Nat.lt_add_of_pos_right this
  · exact Nat.lt_succ_self offset

theorem endWithin_le {offset limit : Nat} (h : offset ≤ limit) :
    c.endWithin offset limit ≤ limit := by
  unfold endWithin
  split
  · exact h
  · next hlt =>
    split
    · next hle => exact hle
    · exact Nat.not_le.mp hlt

/-- The walk of a string comes to its end. -/
theorem length_mem_boundaries : c.bytes.length ∈ c.boundaries := by
  have walk : ∀ fuel offset, offset ≤ c.bytes.length → c.bytes.length - offset ≤ fuel →
      c.bytes.length ∈ offset :: c.boundariesFrom fuel offset := by
    intro fuel
    induction fuel with
    | zero =>
      intro offset hle hfuel
      have : offset = c.bytes.length := by omega
      simp [this]
    | succ fuel ih =>
      intro offset hle hfuel
      by_cases hend : c.bytes.length ≤ offset
      · have : offset = c.bytes.length := by omega
        simp [this]
      · have hlt := Nat.not_le.mp hend
        have hpos := c.width_pos offset
        have := ih (offset + c.width offset) (c.add_width_le hlt) (by omega)
        rw [boundariesFrom, if_neg hend]
        exact List.mem_cons_of_mem _ this
  exact walk c.bytes.length 0 (Nat.zero_le _) (le_refl _)

end Characters

/-! ### The characters between the boundaries -/

namespace Characters

variable (c : Characters)

theorem lt_of_mem_boundariesFrom (fuel : Nat) : ∀ offset, ∀ boundary ∈ c.boundariesFrom fuel offset,
    offset < boundary ∧ boundary ≤ c.bytes.length := by
  induction fuel with
  | zero =>
    intro offset boundary hmem
    cases hmem
  | succ fuel ih =>
    intro offset boundary hmem
    rw [boundariesFrom] at hmem
    split at hmem
    · cases hmem
    · next hlt =>
      have hpos := c.width_pos offset
      have hle := c.add_width_le (Nat.not_le.mp hlt)
      rcases List.mem_cons.mp hmem with rfl | hmem
      · exact ⟨Nat.lt_add_of_pos_right hpos, hle⟩
      · obtain ⟨hnext, hend⟩ := ih _ boundary hmem
        exact ⟨by omega, hend⟩

theorem boundariesFrom_pairwise (fuel : Nat) : ∀ offset,
    (offset :: c.boundariesFrom fuel offset).Pairwise (· < ·) := by
  induction fuel with
  | zero =>
    intro offset
    exact List.pairwise_singleton _ _
  | succ fuel ih =>
    intro offset
    rw [List.pairwise_cons]
    refine ⟨fun boundary hmem => (c.lt_of_mem_boundariesFrom _ offset boundary hmem).1, ?_⟩
    rw [boundariesFrom]
    split
    · exact List.Pairwise.nil
    · exact ih _

/-- The boundaries rise. -/
theorem boundaries_pairwise : c.boundaries.Pairwise (· < ·) := c.boundariesFrom_pairwise _ 0

theorem le_of_mem_boundaries {boundary : Nat} (h : boundary ∈ c.boundaries) :
    boundary ≤ c.bytes.length := by
  rcases List.mem_cons.mp h with rfl | h
  · exact Nat.zero_le _
  · exact (c.lt_of_mem_boundariesFrom _ 0 boundary h).2

/-- A walk with fuel enough visits the rest of the string, a character from one boundary
    to the next. -/
theorem charactersFrom_walk (fuel : Nat) : ∀ offset, offset ≤ c.bytes.length →
    c.bytes.length - offset ≤ fuel →
    (c.charactersFrom fuel offset).flatten = c.bytes.drop offset ∧
    (c.boundariesFrom fuel offset).length = (c.charactersFrom fuel offset).length ∧
    ∀ i ≤ (c.charactersFrom fuel offset).length,
      (offset :: c.boundariesFrom fuel offset).getD i 0 =
        offset + ((c.charactersFrom fuel offset).take i).flatten.length := by
  induction fuel with
  | zero =>
    intro offset hle hfuel
    have hend : c.bytes.length ≤ offset := by omega
    refine ⟨(List.drop_eq_nil_of_le hend).symm, rfl, ?_⟩
    intro i hi
    obtain rfl : i = 0 := Nat.le_zero.mp hi
    rfl
  | succ fuel ih =>
    intro offset hle hfuel
    by_cases hend : c.bytes.length ≤ offset
    · rw [charactersFrom, boundariesFrom, if_pos hend, if_pos hend]
      refine ⟨(List.drop_eq_nil_of_le hend).symm, rfl, ?_⟩
      intro i hi
      obtain rfl : i = 0 := Nat.le_zero.mp hi
      rfl
    · have hlt := Nat.not_le.mp hend
      have hpos := c.width_pos offset
      have hwidth := c.add_width_le hlt
      obtain ⟨hflatten, hlength, hget⟩ := ih (offset + c.width offset) hwidth (by omega)
      rw [charactersFrom, boundariesFrom, if_neg hend, if_neg hend]
      refine ⟨?_, ?_, ?_⟩
      · rw [List.flatten_cons, hflatten, List.extract_eq_take_drop, Nat.add_sub_cancel_left,
          ← List.drop_drop, List.take_append_drop]
      · rw [List.length_cons, List.length_cons, hlength]
      · intro i hi
        cases i with
        | zero => rfl
        | succ i =>
          have hrest := hget i (by simpa using hi)
          rw [List.getD_cons_succ, hrest, List.take_succ_cons, List.flatten_cons,
            List.length_append, List.extract_eq_take_drop, List.length_take, List.length_drop]
          omega

theorem flatten_characters : c.characters.flatten = c.bytes :=
  (c.charactersFrom_walk c.bytes.length 0 (Nat.zero_le _) (Nat.sub_le _ _)).1

theorem length_boundaries : c.boundaries.length = c.characters.length + 1 := by
  have := (c.charactersFrom_walk c.bytes.length 0 (Nat.zero_le _) (Nat.sub_le _ _)).2.1
  rw [boundaries, List.length_cons, characters, this]

/-- The boundary in front of a character is how much the characters before it take. -/
theorem boundaries_getD {i : Nat} (h : i ≤ c.characters.length) :
    c.boundaries.getD i 0 = (c.characters.take i).flatten.length := by
  have := (c.charactersFrom_walk c.bytes.length 0 (Nat.zero_le _) (Nat.sub_le _ _)).2.2 i h
  rw [boundaries, this, Nat.zero_add, characters]

/-- Between two boundaries stand the characters between them. -/
theorem extract_boundaries {i j : Nat} (hij : i ≤ j) (hj : j ≤ c.characters.length) :
    c.bytes.extract (c.boundaries.getD i 0) (c.boundaries.getD j 0) =
      ((c.characters.take j).drop i).flatten := by
  have hsplit : (c.characters.take j).flatten =
      (c.characters.take i).flatten ++ ((c.characters.take j).drop i).flatten := by
    rw [← List.flatten_append]
    have htake : (c.characters.take j).take i = c.characters.take i := by
      rw [List.take_take, min_eq_left hij]
    rw [← htake, List.take_append_drop]
  have hbytes : c.bytes = (c.characters.take j).flatten ++ (c.characters.drop j).flatten := by
    rw [← List.flatten_append, List.take_append_drop, c.flatten_characters]
  rw [c.boundaries_getD (le_trans hij hj), c.boundaries_getD hj, List.extract_eq_take_drop, hbytes]
  rw [hsplit, List.append_assoc, List.drop_left, List.length_append, Nat.add_sub_cancel_left,
    List.take_left]

end Characters

/-! ### Single-byte locales -/

theorem Locale.SingleByte.characterWidths_getD {locale : Locale} (h : locale.SingleByte)
    (bytes : Bytes) (offset : Nat) : (locale.characterWidths 0 bytes).getD offset 1 = 1 := by
  induction bytes generalizing offset with
  | nil => simp [Locale.characterWidths]
  | cons b rest ih =>
    cases offset with
    | zero => simp [Locale.characterWidths, h.width_eq]
    | succ offset => simpa [Locale.characterWidths, h.width_eq] using ih offset

namespace Characters

variable {c : Characters}

theorem width_eq_one (h : c.locale.SingleByte) (offset : Nat) : c.width offset = 1 := by
  rw [width, h.characterWidths_getD, max_self]

theorem endAt_eq (h : c.locale.SingleByte) {offset : Nat} (hlt : offset < c.bytes.length) :
    c.endAt offset = offset + 1 := by
  rw [endAt, if_neg (Nat.not_le.mpr hlt), width_eq_one h]

/-- In a single-byte locale every offset begins a character. -/
theorem mem_boundaries (h : c.locale.SingleByte) {offset : Nat} (hle : offset ≤ c.bytes.length) :
    offset ∈ c.boundaries := by
  have walk : ∀ fuel start, start ≤ offset → offset ≤ start + fuel →
      offset ∈ start :: c.boundariesFrom fuel start := by
    intro fuel
    induction fuel with
    | zero =>
      intro start hs ho
      have : offset = start := by omega
      simp [this]
    | succ fuel ih =>
      intro start hs ho
      rcases Nat.eq_or_lt_of_le hs with rfl | hlt
      · simp
      · rw [boundariesFrom, if_neg (by omega), width_eq_one h]
        exact List.mem_cons_of_mem _ (ih (start + 1) (by omega) (by omega))
  exact walk c.bytes.length 0 (Nat.zero_le _) (by omega)

end Characters

end Nsh
