import Nsh.Expand.Anchors
import Nsh.Expand.ReadSplit

/-!
# The two splitters

A line with protected bytes is split by `splitFields`, an expanded field by `fields`.
On a field without anchors whose splittable bytes are the unprotected ones both are the
splitting at the bytes of `IFS`, except that the splitter of lines does not know every
byte of an `IFS` the locale cannot decode.
-/

namespace Nsh.Expand

/-- The field has the bytes of the line, may be split where the line is unprotected, and
    holds nothing empty. -/
structure Masked (f : Field) (string : Bytes) (mask : List Bool) : Prop where
  tidy : f.Tidy
  bytes : f.bytes = string
  anchors : f.emptyAnchors = []
  splittable : ∀ offset < string.length, mask[offset]? = some !(f.cellAt offset).splittable

/-! ### A field without empty pieces -/

/-- Nothing is pending and nothing owed. -/
def Reading.Clear : Reading → Prop
  | .start => True
  | .field => True
  | .behind pending => pending = false
  | .between swallowed pending => swallowed = 0 ∧ pending = false

theorem lostFrom_bytes (role : Item → Role) {reading : Reading} (h : reading.Clear)
    (line : List Cell) : lostFrom role reading (line.map Item.byte) = 0 := by
  induction line generalizing reading with
  | nil =>
    cases reading with
    | between swallowed pending => exact h.1
    | _ => rfl
  | cons cell line ih =>
    rw [List.map_cons, lostFrom]
    have hcost : reading.cost role (.byte cell) = 0 := by
      cases hrole : role (.byte cell) <;> cases reading <;>
        simp_all [Reading.cost, Reading.Clear]
    have hnext : (reading.next role (.byte cell)).Clear := by
      cases hrole : role (.byte cell) <;> cases reading <;>
        simp_all [Reading.next, Reading.Clear]
    rw [hcost, ih hnext]

theorem cells_map_byte (line : List Cell) : cells (line.map Item.byte) = line := by
  induction line with
  | nil => rfl
  | cons cell line ih => simp [ih]

theorem Field.cells_map_byte (f : Field) : f.cells.map Cell.byte = f.bytes := by
  apply List.ext_getElem
  · simp [cells]
  · intro offset hlt hlt'
    simp [cells, cellAt, hlt']

section

variable {W : Type} {shell : Shell W} {string : Bytes} {mask : List Bool} {f : Field}

/-- Without empty pieces the walk is the splitting of the cells. -/
theorem fields_cells (hsingle : shell.locale.SingleByte) (ifs : Bytes) (htidy : f.Tidy)
    (hanchors : f.emptyAnchors = []) :
    (fields (Variables.updateIfsCache ifs shell) [f]).map Field.cells =
      split (fun cell => itemRole shell.locale ifs (.byte cell)) f.cells := by
  have hitems : f.items = f.cells.map Item.byte := by
    have hgap (offset : Nat) : f.gap offset = [] := by
      simp [Field.gap, hanchors]
    rw [Field.items, Field.itemsFrom_of_gaps (fun offset _ => hgap offset) (Nat.zero_add _), hgap,
      List.append_nil, List.drop_zero]
  have hwalk : (fields (Variables.updateIfsCache ifs shell) [f]).map Field.cells =
      splitAcross (itemRole shell.locale ifs) .start (f.cells.map Item.byte) := by
    rw [← roleOf_ifsSeparators hsingle, ← hitems]
    unfold fields
    rw [List.flatMap_cons, List.flatMap_nil, List.append_nil]
    exact fieldIntoFields_cells hsingle htidy _
  have hempty : itemRole shell.locale ifs .empty = .datum := rfl
  obtain ⟨-, hsame⟩ := Agree.start.fields hempty (f.cells.map Item.byte)
  have hclear : Reading.start.Clear := trivial
  rw [hwalk, hsame (lostFrom_bytes _ hclear _)]
  show (split _ (f.cells.map Item.byte)).map cells = _
  rw [← split_map, List.map_map]
  have hid : cells ∘ List.map Item.byte = id := funext Nsh.Expand.cells_map_byte
  rw [hid, List.map_id]

theorem Masked.cells_eq (h : Masked f string mask) (hlength : mask.length = string.length) :
    f.cells.map (fun cell => (cell.byte, !cell.splittable)) = string.zip mask := by
  obtain rfl := h.bytes
  apply List.ext_getElem
  · simp [Field.cells, hlength]
  · intro offset hlt hlt'
    have hin : offset < f.bytes.length := by simpa [Field.cells] using hlt
    have hflag := h.splittable offset hin
    rw [List.getElem?_eq_getElem (by omega)] at hflag
    have hflag := Option.some.inj hflag
    simp [Field.cells, Field.cellAt, hin, hflag]

/-- The splitting of a masked field, byte by byte. -/
theorem Masked.fields_bytes (h : Masked f string mask) (hlength : mask.length = string.length)
    (hsingle : shell.locale.SingleByte) (ifs : Bytes) :
    (fields (Variables.updateIfsCache ifs shell) [f]).map Field.bytes =
      (split (lineRole shell.locale ifs) (string.zip mask)).map (List.map Prod.fst) := by
  have hbytes : (fields (Variables.updateIfsCache ifs shell) [f]).map Field.bytes =
      ((fields (Variables.updateIfsCache ifs shell) [f]).map Field.cells).map
        (List.map Cell.byte) := by
    rw [List.map_map]
    apply List.map_congr_left
    intro field _
    exact field.cells_map_byte.symm
  have hrole : (fun cell => itemRole shell.locale ifs (.byte cell)) =
      fun cell : Cell => lineRole shell.locale ifs (cell.byte, !cell.splittable) := by
    funext cell
    unfold itemRole lineRole isSpaceByte
    simp only [Bool.not_eq_false']
  rw [hbytes, fields_cells hsingle ifs h.tidy h.anchors, hrole, ← h.cells_eq hlength, ← split_map,
    List.map_map]
  apply List.map_congr_left
  intro field _
  simp

/-- **The two splitters agree** exactly when the line has no unprotected byte of `IFS` that
    stands there behind one the locale cannot decode. -/
theorem splitFields_eq_fields (shell : Shell W) (h : shell.locale.Charmap) (ifs : Bytes)
    (hlength : mask.length = string.length) (hnul : (0 : UInt8) ∉ string)
    (hmasked : Masked f string mask) {maxFields : Nat} (hmax : string.length < maxFields) :
    splitFields (Variables.updateIfsCache ifs shell) string mask maxFields =
        (fields (Variables.updateIfsCache ifs shell) [f]).map Field.bytes ↔
      ∀ mark ∈ string.zip mask, mark.2 = false → mark.1 ∈ ifs →
        mark.1 ∈ readableIfs shell.locale ifs := by
  rw [splitFields_eq_split h hlength hnul hmax, hmasked.fields_bytes hlength h.singleByte, eq_comm,
    split_eq_iff]
  · apply forall_congr'
    intro mark
    apply imp_congr_right
    intro _
    unfold lineRole
    by_cases hopen : mark.2 = false
    · by_cases hifs : mark.1 ∈ ifs
      · by_cases hreadable : mark.1 ∈ readableIfs shell.locale ifs
        · simp [hopen, hifs, hreadable]
        · simp [hopen, hifs, hreadable]
          split <;> simp
      · simp [hifs]
    · simp [hopen]
  · intro mark _ hdelimits
    unfold lineRole at hdelimits ⊢
    by_cases hreadable : mark.2 = false ∧ mark.1 ∈ readableIfs shell.locale ifs
    · rw [if_pos ⟨hreadable.1, readableIfs_subset _ _ hreadable.2⟩, if_pos hreadable]
    · rw [if_neg hreadable] at hdelimits
      exact absurd rfl hdelimits

/-- A line with a protected blank, under the `IFS` a shell starts with. -/
theorem splitFields_eq_fields_blank :
    splitFields (Variables.updateIfsCache Variables.defaultIfs
        (⟨{ dialect := .posix }, Locale.c, { entries := ∅ }, {}, 0, [], ()⟩ : Shell Unit))
        (text "a b c") [false, false, false, true, false] 6 =
      (fields (Variables.updateIfsCache Variables.defaultIfs
        (⟨{ dialect := .posix }, Locale.c, { entries := ∅ }, {}, 0, [], ()⟩ : Shell Unit))
        [⟨text "a b c", [⟨0, 3, false, true⟩, ⟨3, 4, true, false⟩, ⟨4, 5, false, true⟩], []⟩]).map
          Field.bytes := by
  have hmasked : Masked
      ⟨text "a b c", [⟨0, 3, false, true⟩, ⟨3, 4, true, false⟩, ⟨4, 5, false, true⟩], []⟩
      (text "a b c") [false, false, false, true, false] :=
    ⟨⟨⟨by decide, by decide⟩, by decide, by decide⟩, rfl, rfl, by decide⟩
  have hmax : (text "a b c").length < 6 := by decide
  exact (splitFields_eq_fields ⟨{ dialect := .posix }, Locale.c, { entries := ∅ }, {}, 0, [], ()⟩
    Locale.c_charmap Variables.defaultIfs rfl (by decide) hmasked hmax).mpr (by decide +kernel)

/-- An `IFS` of the byte 0x80 and a colon in the C locale: the table of `read` ends at
    the byte that is no character, and the colon is lost. -/
theorem not_splitFields_eq_fields :
    ¬ ∀ (shell : Shell Unit) (ifs string : Bytes) (mask : List Bool) (f : Field) (maxFields : Nat),
      shell.locale.Charmap → mask.length = string.length → (0 : UInt8) ∉ string →
      Masked f string mask → string.length < maxFields →
        splitFields (Variables.updateIfsCache ifs shell) string mask maxFields =
          (fields (Variables.updateIfsCache ifs shell) [f]).map Field.bytes := by
  intro h
  have hmasked : Masked ⟨text "a:b", [⟨0, 3, false, true⟩], []⟩ (text "a:b")
      [false, false, false] :=
    ⟨⟨⟨by decide, by decide⟩, by decide, by decide⟩, rfl, rfl, by decide⟩
  have heq := h ⟨{ dialect := .posix }, Locale.c, { entries := ∅ }, {}, 0, [], ()⟩
    [0x80, chr ':'] (text "a:b") [false, false, false] _ 4 Locale.c_charmap rfl (by decide) hmasked
    (by decide)
  rw [splitFields_eq_split Locale.c_charmap rfl (by decide) (by decide),
    hmasked.fields_bytes rfl Locale.c_singleByte] at heq
  revert heq
  decide

end

end Nsh.Expand
