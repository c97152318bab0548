import Nsh.Expand.Field
import Nsh.Lib.Fields
import Nsh.Lib.Stretch
import Nsh.Shell.Characters
import Nsh.Variables.Table

/-!
# Field splitting of expanded fields

The walk that cuts one expanded field at the characters of `IFS` its splittable regions
hold.  `fieldIntoFields_cells` says what it makes of any field: it reads the field's
items from left to right, but inside a delimiter it does not see the empty ones.
-/

namespace Nsh.Expand

/-! ### The walk -/

/-- The separator at `offset`, when the character there may split and `IFS` names it, and
    where it ends. -/
def separatorAt (characters : Characters) (field : Field) (ifs : List IfsCharacter)
    (offset : Nat) : Option (IfsCharacter × Nat) :=
  let stop := characters.endAt offset
  if field.rangeIsSplittable offset stop then
    (ifs.find? fun separator => separator.bytes == field.bytes.extract offset stop).map
      fun separator => (separator, stop)
  else none

/-- `skip_whitespace`; every step takes a character. -/
def skipWhitespaceFrom (characters : Characters) (field : Field) (ifs : List IfsCharacter) :
    Nat → Nat → Nat
  | 0, offset => offset
  | fuel + 1, offset =>
    if offset < field.bytes.length then
      match separatorAt characters field ifs offset with
      | none => offset
      | some (following, stop) =>
        if !following.whitespace then offset
        else skipWhitespaceFrom characters field ifs fuel stop
    else offset

def skipWhitespace (characters : Characters) (field : Field) (ifs : List IfsCharacter)
    (offset : Nat) : Nat :=
  skipWhitespaceFrom characters field ifs (field.bytes.length - offset) offset

/-- The separator at `offset` that ends a white-space run without being white. -/
def followingNonwhite (characters : Characters) (field : Field) (ifs : List IfsCharacter)
    (offset : Nat) : Option (IfsCharacter × Nat) :=
  if offset < field.bytes.length then
    (separatorAt characters field ifs offset).filter fun following => !following.1.whitespace
  else none

/-- The loop of `field_into_fields`, the field being read having begun at `start`. -/
def fieldLoop (characters : Characters) (field : Field) (ifs : List IfsCharacter) :
    Nat → Nat → Nat → List Field
  | 0, _, _ => []
  | fuel + 1, start, offset =>
    if offset < field.bytes.length then
      match separatorAt characters field ifs offset with
      | none => fieldLoop characters field ifs fuel start (characters.endAt offset)
      | some (separator, next) =>
        if separator.whitespace then
          let next := skipWhitespace characters field ifs next
          match followingNonwhite characters field ifs next with
          | some (_, stop) =>
            let start' := skipWhitespace characters field ifs stop
            field.slice start offset :: fieldLoop characters field ifs fuel start' start'
          | none =>
            if start < offset ∨ field.hasEmptyAnchor start offset = true then
              field.slice start offset :: fieldLoop characters field ifs fuel next next
            else fieldLoop characters field ifs fuel next next
        else
          let start' := skipWhitespace characters field ifs next
          field.slice start offset :: fieldLoop characters field ifs fuel start' start'
    else if start < field.bytes.length then [field.slice start field.bytes.length]
    else if field.hasEmptyAnchor start field.bytes.length then [({} : Field).anchorEmpty]
    else []

def fieldIntoFields (locale : Locale) (field : Field) (ifs : List IfsCharacter) : List Field :=
  if ifs.isEmpty || !field.anySplittable then
    if field.bytes.isEmpty && !field.hasEmptyAnchor 0 0 then [] else [field]
  else fieldLoop ⟨locale, field.bytes⟩ field ifs (field.bytes.length + 1) 0 0

variable {W : Type}

def fields (shell : Shell W) (fields : List Field) : List Field :=
  fields.flatMap fun field => fieldIntoFields shell.locale field shell.ifs.separators

/-! ### Reading over the empty items of a delimiter -/

/-- What an item is to the splitter: a byte that may split is what `IFS` says, everything
    else is data. -/
def roleOf (ifs : List IfsCharacter) : Item → Role
  | .byte cell =>
    if cell.splittable then
      match ifs.find? (·.bytes == [cell.byte]) with
      | some separator => if separator.whitespace then .white else .delimiter
      | none => .datum
    else .datum
  | .empty => .datum

/-- Where the walk stands: before everything, inside a field, in the white space behind
    one, or behind a delimiter or leading white space; `pending` says that something
    empty has been seen which the next byte decides about. -/
inductive Stage where
  | start
  | field (data : List Cell)
  | behind (pending : Bool)
  | between (pending : Bool)

def Stage.data : Stage → List Cell
  | .field data => data
  | _ => []

/-- The fields of a sequence of items when white space and delimiters swallow the empty
    items in front of them. -/
def splitAcross (role : Item → Role) : Stage → List Item → List (List Cell)
  | .start, [] => []
  | .field data, [] => [data]
  | .behind pending, [] => if pending then [[]] else []
  | .between pending, [] => if pending then [[]] else []
  | stage, .empty :: items =>
    splitAcross role (match stage with
      | .start => .field []
      | .field data => .field data
      | .behind _ => .behind true
      | .between _ => .between true) items
  | stage, .byte cell :: items =>
    match role (.byte cell), stage with
    | .datum, stage => splitAcross role (.field (stage.data ++ [cell])) items
    | .white, .field data => data :: splitAcross role (.behind false) items
    | .white, .behind _ => splitAcross role (.behind false) items
    | .white, _ => splitAcross role (.between false) items
    | .delimiter, .behind _ => splitAcross role (.between false) items
    | .delimiter, stage => stage.data :: splitAcross role (.between false) items

section

variable {role : Item → Role} {stage : Stage} {cell : Cell} {items : List Item} {data : List Cell}
  {pending : Bool}

attribute [local simp] splitAcross

theorem splitAcross_datum (h : role (.byte cell) = .datum) :
    splitAcross role stage (.byte cell :: items) =
      splitAcross role (.field (stage.data ++ [cell])) items := by
  cases stage <;> simp [h]

theorem splitAcross_white_start (h : role (.byte cell) = .white) :
    splitAcross role .start (.byte cell :: items) = splitAcross role (.between false) items := by
  simp [h]

theorem splitAcross_white_field (h : role (.byte cell) = .white) :
    splitAcross role (.field data) (.byte cell :: items) =
      data :: splitAcross role (.behind false) items := by
  simp [h]

theorem splitAcross_white_behind (h : role (.byte cell) = .white) :
    splitAcross role (.behind pending) (.byte cell :: items) =
      splitAcross role (.behind false) items := by
  simp [h]

theorem splitAcross_white_between (h : role (.byte cell) = .white) :
    splitAcross role (.between pending) (.byte cell :: items) =
      splitAcross role (.between false) items := by
  simp [h]

theorem splitAcross_delimiter_start (h : role (.byte cell) = .delimiter) :
    splitAcross role .start (.byte cell :: items) =
      [] :: splitAcross role (.between false) items := by
  simp [h, Stage.data]

theorem splitAcross_delimiter_field (h : role (.byte cell) = .delimiter) :
    splitAcross role (.field data) (.byte cell :: items) =
      data :: splitAcross role (.between false) items := by
  simp [h, Stage.data]

theorem splitAcross_delimiter_behind (h : role (.byte cell) = .delimiter) :
    splitAcross role (.behind pending) (.byte cell :: items) =
      splitAcross role (.between false) items := by
  simp [h]

theorem splitAcross_delimiter_between (h : role (.byte cell) = .delimiter) :
    splitAcross role (.between pending) (.byte cell :: items) =
      [] :: splitAcross role (.between false) items := by
  simp [h, Stage.data]

end

/-! ### One byte at a time -/

section

variable {locale : Locale} {f : Field} {ifs : List IfsCharacter} {offset : Nat}

/-- Whether something empty stands at `offset`. -/
def Field.gapAt (f : Field) (offset : Nat) : Bool := decide (offset ∈ f.emptyAnchors)

theorem Field.rangeIsSplittable_one (f : Field) (offset : Nat) :
    f.rangeIsSplittable offset (offset + 1) = (f.cellAt offset).splittable := by
  unfold rangeIsSplittable cellAt flagsAt
  rw [Nat.add_sub_cancel_left, rangeIsSplittableFrom, if_pos (Nat.lt_succ_self offset)]
  cases hregion : f.regionAt offset with
  | none => rfl
  | some region =>
    have hstop : offset < region.stop := by
      unfold regionAt at hregion
      rw [Option.filter_eq_some_iff] at hregion
      simpa using (by simpa using hregion.2 : _ ∧ _).2
    cases hsplittable : region.splittable with
    | false => simp [hsplittable]
    | true =>
      simp only [hsplittable, Bool.not_true, Bool.false_eq_true, if_false, rangeIsSplittableFrom]
      rw [Nat.min_eq_right hstop]
      simp [hsplittable]

theorem extract_byte {f : Field} (h : offset < f.bytes.length) :
    f.bytes.extract offset (offset + 1) = [(f.cellAt offset).byte] := by
  simp [List.extract_eq_take_drop, List.take_one, h, Field.cellAt]

/-- What the walk finds at an offset is the role of its byte. -/
theorem separatorAt_eq (h : locale.SingleByte) (hlt : offset < f.bytes.length) :
    separatorAt ⟨locale, f.bytes⟩ f ifs offset =
      if (f.cellAt offset).splittable then
        (ifs.find? (·.bytes == [(f.cellAt offset).byte])).map fun separator =>
          (separator, offset + 1)
      else none := by
  have hend : (⟨locale, f.bytes⟩ : Characters).endAt offset = offset + 1 :=
    Characters.endAt_eq h hlt
  unfold separatorAt
  simp only [hend, f.rangeIsSplittable_one, extract_byte hlt]

/-- The three cases of `separatorAt`. -/
theorem separatorAt_cases (ifs : List IfsCharacter) (h : locale.SingleByte)
    (hlt : offset < f.bytes.length) :
    (separatorAt ⟨locale, f.bytes⟩ f ifs offset = none ∧
        roleOf ifs (.byte (f.cellAt offset)) = .datum) ∨
      ∃ separator, separatorAt ⟨locale, f.bytes⟩ f ifs offset = some (separator, offset + 1) ∧
        roleOf ifs (.byte (f.cellAt offset)) =
          if separator.whitespace then .white else .delimiter := by
  rw [separatorAt_eq h hlt]
  unfold roleOf
  simp only
  split
  · cases hfind : ifs.find? (·.bytes == [(f.cellAt offset).byte]) with
    | none => exact Or.inl ⟨rfl, rfl⟩
    | some separator => exact Or.inr ⟨separator, rfl, rfl⟩
  · exact Or.inl ⟨rfl, rfl⟩

/-! ### Runs of white space -/

/-- What the walk has left to read at `offset`. -/
def Field.rest (f : Field) (offset : Nat) : List Item :=
  f.itemsFrom (f.bytes.length - offset) offset

theorem Field.rest_end : f.rest f.bytes.length = [] := by
  rw [rest, Nat.sub_self, itemsFrom]

theorem Field.rest_cons (h : offset < f.bytes.length) :
    f.rest offset = .byte (f.cellAt offset) :: (f.gap (offset + 1) ++ f.rest (offset + 1)) := by
  rw [rest, show f.bytes.length - offset = (f.bytes.length - (offset + 1)) + 1 by omega, itemsFrom]
  rfl

theorem Field.gap_eq (f : Field) (offset : Nat) :
    f.gap offset = if f.gapAt offset then [.empty] else [] := by
  simp [gap, gapAt]

theorem splitAcross_gap_behind (role : Item → Role) (items : List Item) :
    splitAcross role (.behind false) (f.gap offset ++ items) =
      splitAcross role (.behind (f.gapAt offset)) items := by
  rw [f.gap_eq]
  cases f.gapAt offset with
  | true => rfl
  | false => rfl

theorem splitAcross_gap_between (role : Item → Role) (items : List Item) :
    splitAcross role (.between false) (f.gap offset ++ items) =
      splitAcross role (.between (f.gapAt offset)) items := by
  rw [f.gap_eq]
  cases f.gapAt offset with
  | true => rfl
  | false => rfl

theorem splitAcross_gap_field (role : Item → Role) (data : List Cell) (items : List Item) :
    splitAcross role (.field data) (f.gap offset ++ items) =
      splitAcross role (.field data) items := by
  rw [f.gap_eq]
  cases f.gapAt offset with
  | true => rfl
  | false => rfl

/-- A run of white space that was skipped: what stands behind it and what reading over
    it gives. -/
structure Skipped (ifs : List IfsCharacter) (f : Field) (offset next : Nat) : Prop where
  le : offset ≤ next
  within : next ≤ f.bytes.length
  stops : next < f.bytes.length → roleOf ifs (.byte (f.cellAt next)) ≠ .white
  behind : splitAcross (roleOf ifs) (.behind (f.gapAt offset)) (f.rest offset) =
    splitAcross (roleOf ifs) (.behind (f.gapAt next)) (f.rest next)
  between : splitAcross (roleOf ifs) (.between (f.gapAt offset)) (f.rest offset) =
    splitAcross (roleOf ifs) (.between (f.gapAt next)) (f.rest next)

theorem skipWhitespace_skipped (ifs : List IfsCharacter) (h : locale.SingleByte)
    (hle : offset ≤ f.bytes.length) :
    Skipped ifs f offset (skipWhitespace ⟨locale, f.bytes⟩ f ifs offset) := by
  have stay {offset : Nat} (hle : offset ≤ f.bytes.length)
      (hover : offset < f.bytes.length → roleOf ifs (.byte (f.cellAt offset)) ≠ .white) :
      Skipped ifs f offset offset :=
    ⟨le_refl _, hle, hover, rfl, rfl⟩
  have walk : ∀ fuel offset, offset ≤ f.bytes.length → f.bytes.length - offset ≤ fuel →
      Skipped ifs f offset (skipWhitespaceFrom ⟨locale, f.bytes⟩ f ifs fuel offset) := by
    intro fuel
    induction fuel with
    | zero =>
      intro offset hle hfuel
      exact stay hle (by omega)
    | succ fuel ih =>
      intro offset hle hfuel
      rw [skipWhitespaceFrom]
      split
      · next hlt =>
        rcases separatorAt_cases ifs h hlt with ⟨hnone, hrole⟩ | ⟨separator, hsome, hrole⟩
        · rw [hnone]
          exact stay hle fun _ => by rw [hrole]; exact nofun
        · rw [hsome]
          simp only
          cases hwhite : separator.whitespace with
          | false =>
            exact stay hle fun _ => by rw [hrole, hwhite]; exact nofun
          | true =>
            simp only [Bool.not_true, Bool.false_eq_true, if_false]
            rw [hwhite, if_pos rfl] at hrole
            have hskip := ih (offset + 1) hlt (by omega)
            constructor
            · exact le_trans (Nat.le_succ offset) hskip.le
            · exact hskip.within
            · exact hskip.stops
            · rw [← hskip.behind, Field.rest_cons hlt, splitAcross_white_behind hrole,
                splitAcross_gap_behind]
            · rw [← hskip.between, Field.rest_cons hlt, splitAcross_white_between hrole,
                splitAcross_gap_between]
      · next hnot => exact stay hle fun hlt => absurd hlt hnot
  exact walk _ offset hle (le_refl _)

end

/-! ### The walk reads over the empty items of a delimiter -/

/-- Where the walk stands with a field begun at `start`. -/
def stageAt (f : Field) (start offset : Nat) : Stage :=
  if start < offset ∨ f.hasEmptyAnchor start offset = true then
    .field (f.cells.extract start offset)
  else .start

section

variable {locale : Locale} {f : Field} {ifs : List IfsCharacter} {start offset : Nat}

theorem stageAt_self (f : Field) (offset : Nat) :
    stageAt f offset offset = if f.gapAt offset then .field [] else .start := by
  have hanchor : f.hasEmptyAnchor offset offset = f.gapAt offset := by
    rw [Bool.eq_iff_iff]
    simp only [Field.hasEmptyAnchor, Field.gapAt, List.any_eq_true, Bool.and_eq_true,
      decide_eq_true_eq]
    constructor
    · rintro ⟨p, hp, hle, hge⟩
      obtain rfl : p = offset := le_antisymm hge hle
      exact hp
    · intro hp
      exact ⟨offset, hp, le_refl _, le_refl _⟩
  unfold stageAt
  rw [hanchor]
  simp

/-- One more byte of the field. -/
theorem stageAt_succ (h : start ≤ offset) (hlt : offset < f.bytes.length) :
    stageAt f start (offset + 1) =
      .field ((stageAt f start offset).data ++ [f.cellAt offset]) := by
  have hcells : offset < f.cells.length := by simpa [Field.cells] using hlt
  have hnext : f.cells.extract start (offset + 1) =
      f.cells.extract start offset ++ [f.cellAt offset] := by
    have hcell : f.cells[offset] = f.cellAt offset := by simp [Field.cells]
    rw [← extract_append h (Nat.le_succ offset)]
    simp [List.extract_eq_take_drop, List.take_one, hcells, hcell]
  rw [stageAt, if_pos (Or.inl (by omega)), hnext]
  congr 2
  unfold stageAt
  split
  · rfl
  · next hnot =>
    obtain rfl : start = offset := by omega
    simp [Stage.data]

/-- Behind a run that was skipped the walk begins a new field. -/
theorem splitAcross_between_of_over
    (hover : offset < f.bytes.length → roleOf ifs (.byte (f.cellAt offset)) ≠ .white)
    (hle : offset ≤ f.bytes.length) :
    splitAcross (roleOf ifs) (.between (f.gapAt offset)) (f.rest offset) =
      splitAcross (roleOf ifs) (stageAt f offset offset) (f.rest offset) := by
  rw [stageAt_self]
  rcases Nat.eq_or_lt_of_le hle with rfl | hlt
  · rw [Field.rest_end]
    cases f.gapAt f.bytes.length with
    | true => rfl
    | false => rfl
  · rw [Field.rest_cons hlt]
    cases hrole : roleOf ifs (.byte (f.cellAt offset)) with
    | white => exact absurd hrole (hover hlt)
    | datum =>
      cases f.gapAt offset <;> simp [splitAcross_datum hrole, Stage.data]
    | delimiter =>
      cases f.gapAt offset <;>
        simp [splitAcross_delimiter_between hrole, splitAcross_delimiter_start hrole,
          splitAcross_delimiter_field hrole]

theorem splitAcross_behind_of_datum
    (hover : offset < f.bytes.length → roleOf ifs (.byte (f.cellAt offset)) = .datum)
    (hle : offset ≤ f.bytes.length) :
    splitAcross (roleOf ifs) (.behind (f.gapAt offset)) (f.rest offset) =
      splitAcross (roleOf ifs) (stageAt f offset offset) (f.rest offset) := by
  rw [stageAt_self]
  rcases Nat.eq_or_lt_of_le hle with rfl | hlt
  · rw [Field.rest_end]
    cases f.gapAt f.bytes.length with
    | true => rfl
    | false => rfl
  · rw [Field.rest_cons hlt]
    have hrole := hover hlt
    cases f.gapAt offset <;> simp [splitAcross_datum hrole, Stage.data]

/-- The two cases of `followingNonwhite` behind skipped white space. -/
theorem followingNonwhite_cases (h : locale.SingleByte)
    (hover : offset < f.bytes.length → roleOf ifs (.byte (f.cellAt offset)) ≠ .white) :
    (followingNonwhite ⟨locale, f.bytes⟩ f ifs offset = none ∧
        (offset < f.bytes.length → roleOf ifs (.byte (f.cellAt offset)) = .datum)) ∨
      ∃ separator, followingNonwhite ⟨locale, f.bytes⟩ f ifs offset = some (separator, offset + 1) ∧
        offset < f.bytes.length ∧ roleOf ifs (.byte (f.cellAt offset)) = .delimiter := by
  unfold followingNonwhite
  by_cases hlt : offset < f.bytes.length
  · rw [if_pos hlt]
    rcases separatorAt_cases ifs h hlt with ⟨hnone, hrole⟩ | ⟨separator, hsome, hrole⟩
    · rw [hnone]
      exact Or.inl ⟨rfl, fun _ => hrole⟩
    · rw [hsome]
      cases hwhite : separator.whitespace with
      | true =>
        rw [hwhite, if_pos rfl] at hrole
        exact absurd hrole (hover hlt)
      | false =>
        rw [hwhite] at hrole
        refine Or.inr ⟨separator, ?_, hlt, hrole⟩
        simp [Option.filter, hwhite]
  · rw [if_neg hlt]
    exact Or.inl ⟨rfl, fun h => absurd h hlt⟩

/-- The loop, from any offset it comes to. -/
theorem fieldLoop_cells (h : locale.SingleByte) (htidy : f.Tidy) (fuel : Nat) :
    ∀ start offset, start ≤ offset → offset ≤ f.bytes.length → f.bytes.length - offset < fuel →
      (fieldLoop ⟨locale, f.bytes⟩ f ifs fuel start offset).map Field.cells =
        splitAcross (roleOf ifs) (stageAt f start offset) (f.rest offset) := by
  induction fuel with
  | zero =>
    intro start offset _ _ hfuel
    omega
  | succ fuel ih =>
    intro start offset hstart hoffset hfuel
    -- behind a delimiter run that ends at `next`
    have resume {next : Nat} (hlt : offset < next)
        (hskip : Skipped ifs f next (skipWhitespace ⟨locale, f.bytes⟩ f ifs next)) :
        (fieldLoop ⟨locale, f.bytes⟩ f ifs fuel (skipWhitespace ⟨locale, f.bytes⟩ f ifs next)
          (skipWhitespace ⟨locale, f.bytes⟩ f ifs next)).map Field.cells =
          splitAcross (roleOf ifs) (.between (f.gapAt next)) (f.rest next) := by
      have hle := hskip.le
      have hwithin := hskip.within
      rw [ih _ _ (le_refl _) hwithin (by omega), hskip.between,
        splitAcross_between_of_over hskip.stops hwithin]
    rw [fieldLoop]
    by_cases hlt : offset < f.bytes.length
    · rw [if_pos hlt, Field.rest_cons hlt]
      rcases separatorAt_cases ifs h hlt with ⟨hnone, hrole⟩ | ⟨separator, hsome, hrole⟩
      · have hend : (⟨locale, f.bytes⟩ : Characters).endAt offset = offset + 1 :=
          Characters.endAt_eq h hlt
        rw [hnone]
        simp only [hend]
        rw [ih start (offset + 1) (by omega) hlt (by omega), splitAcross_datum hrole,
          splitAcross_gap_field, ← stageAt_succ hstart hlt]
      · rw [hsome]
        simp only
        have hcells := htidy.cells_slice (i := start) hoffset
        cases hwhite : separator.whitespace with
        | true =>
          rw [hwhite, if_pos rfl] at hrole
          rw [if_pos rfl]
          have hskip := skipWhitespace_skipped ifs h (Nat.succ_le_of_lt hlt)
          have hle := hskip.le
          rcases followingNonwhite_cases h hskip.stops with
            ⟨hnone, hdatum⟩ | ⟨following, hsome, hnext, hdelimiter⟩
          · rw [hnone]
            simp only
            have hbehind := ih _ _ (le_refl _) hskip.within (by omega)
            unfold stageAt
            split
            · rw [List.map_cons, hcells, hbehind, splitAcross_white_field hrole,
                splitAcross_gap_behind, hskip.behind,
                splitAcross_behind_of_datum hdatum hskip.within]
            · rw [hbehind, splitAcross_white_start hrole, splitAcross_gap_between, hskip.between,
                splitAcross_between_of_over hskip.stops hskip.within]
          · rw [hsome]
            simp only
            have hskip' := skipWhitespace_skipped ifs h (Nat.succ_le_of_lt hnext)
            rw [List.map_cons, hcells, resume (by omega) hskip']
            unfold stageAt
            split
            · rw [splitAcross_white_field hrole, splitAcross_gap_behind, hskip.behind,
                Field.rest_cons hnext, splitAcross_delimiter_behind hdelimiter,
                splitAcross_gap_between]
            · next hnot =>
              obtain rfl : start = offset := by omega
              rw [extract_self, splitAcross_white_start hrole, splitAcross_gap_between,
                hskip.between, Field.rest_cons hnext, splitAcross_delimiter_between hdelimiter,
                splitAcross_gap_between]
        | false =>
          rw [hwhite] at hrole
          simp only [Bool.false_eq_true, if_false] at hrole ⊢
          have hskip := skipWhitespace_skipped ifs h (Nat.succ_le_of_lt hlt)
          rw [List.map_cons, hcells, resume (Nat.lt_succ_self offset) hskip]
          unfold stageAt
          split
          · rw [splitAcross_delimiter_field hrole, splitAcross_gap_between]
          · next hnot =>
            obtain rfl : start = offset := by omega
            rw [extract_self, splitAcross_delimiter_start hrole, splitAcross_gap_between]
    · obtain rfl : offset = f.bytes.length := by omega
      rw [if_neg hlt, Field.rest_end]
      unfold stageAt
      by_cases hbytes : start < f.bytes.length
      · rw [if_pos hbytes, if_pos (Or.inl hbytes), List.map_cons, htidy.cells_slice (le_refl _)]
        rfl
      · obtain rfl : start = f.bytes.length := by omega
        rw [if_neg hbytes, extract_self]
        cases hanchor : f.hasEmptyAnchor f.bytes.length f.bytes.length with
        | true => simp [splitAcross, Field.cells, Field.anchorEmpty]
        | false => simp [splitAcross]

/-- Without a byte that splits, the walk reads on to the end. -/
theorem splitAcross_datums
    (hdatum : ∀ offset < f.bytes.length, roleOf ifs (.byte (f.cellAt offset)) = .datum)
    (hle : offset ≤ f.bytes.length) :
    splitAcross (roleOf ifs) (stageAt f 0 offset) (f.rest offset) =
      splitAcross (roleOf ifs) (stageAt f 0 f.bytes.length) [] := by
  obtain ⟨left, hleft⟩ := Nat.exists_eq_add_of_le hle
  induction left generalizing offset with
  | zero =>
    obtain rfl : offset = f.bytes.length := by omega
    rw [Field.rest_end]
  | succ left ih =>
    have hlt : offset < f.bytes.length := by omega
    rw [Field.rest_cons hlt, splitAcross_datum (hdatum offset hlt), splitAcross_gap_field,
      ← stageAt_succ (Nat.zero_le _) hlt]
    exact ih hlt (by omega)

theorem Field.cellAt_splittable (hnone : f.anySplittable = false) (offset : Nat) :
    (f.cellAt offset).splittable = false := by
  unfold cellAt flagsAt
  cases hregion : f.regionAt offset with
  | none => rfl
  | some region =>
    have hmem : region ∈ f.regions := by
      unfold regionAt at hregion
      rw [Option.filter_eq_some_iff] at hregion
      exact (List.dropWhile_sublist _).subset (List.mem_of_mem_head? hregion.1)
    have hany : ¬ ∃ region ∈ f.regions, region.splittable = true := by
      simpa [anySplittable] using hnone
    show region.splittable = false
    by_contra hsplittable
    exact hany ⟨region, hmem, by simpa using hsplittable⟩

theorem splitAcross_items (role : Item → Role) (f : Field) :
    splitAcross role .start f.items = splitAcross role (stageAt f 0 0) (f.rest 0) := by
  rw [stageAt_self, Field.items, f.gap_eq]
  cases f.gapAt 0 with
  | true => rfl
  | false => rfl

/-- **What the walk makes of a field.** -/
theorem fieldIntoFields_cells (h : locale.SingleByte) (htidy : f.Tidy) (ifs : List IfsCharacter) :
    (fieldIntoFields locale f ifs).map Field.cells =
      splitAcross (roleOf ifs) .start f.items := by
  rw [splitAcross_items]
  unfold fieldIntoFields
  by_cases hplain : (ifs.isEmpty || !f.anySplittable) = true
  · have hdatum : ∀ offset < f.bytes.length, roleOf ifs (.byte (f.cellAt offset)) = .datum := by
      intro offset _
      unfold roleOf
      rcases Bool.or_eq_true_iff.mp hplain with hempty | hnone
      · obtain rfl : ifs = [] := by simpa using hempty
        simp
      · simp [Field.cellAt_splittable (by simpa using hnone)]
    have hcells : f.cells.extract 0 f.bytes.length = f.cells := by
      simp [List.extract_eq_take_drop, Field.cells]
    rw [if_pos hplain, splitAcross_datums hdatum (Nat.zero_le _)]
    unfold stageAt
    rw [hcells]
    cases hbytes : f.bytes with
    | nil =>
      cases hanchor : f.hasEmptyAnchor 0 0 with
      | true => simp [splitAcross]
      | false => simp [splitAcross]
    | cons byte bytes => simp [splitAcross]
  · rw [if_neg hplain]
    exact fieldLoop_cells h htidy _ 0 0 (le_refl _) (Nat.zero_le _) (by omega)

end

end Nsh.Expand
