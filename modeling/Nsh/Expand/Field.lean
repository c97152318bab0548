import Nsh.Shell.Bytes

/-!
# Expanded fields

A field being built keeps its bytes, runs of bytes under one quoting, and the offsets at
which something without bytes was written.  Read from left to right it is a sequence of
items: `Field.items`.  A field built by appending pieces reads as the pieces' items, up
to empty ones side by side, of which the field keeps one.
-/

namespace Nsh.Expand

/-- Bytes of one origin: `quoted` protects them from patterns, `splittable` offers them
    to field splitting. -/
structure FieldRegion where
  start : Nat
  stop : Nat
  quoted : Bool
  splittable : Bool
deriving DecidableEq, Repr

structure Field where
  bytes : Bytes := []
  regions : List FieldRegion := []
  /-- The offsets at which something empty survives splitting. -/
  emptyAnchors : List Nat := []
deriving DecidableEq, Repr

namespace Field

def fromBytes (bytes : Bytes) (quoted splittable preserveEmpty : Bool) : Field :=
  let bytes := bytes.filter (· != 0)
  { bytes := bytes
    regions := if bytes.length ≠ 0 then [⟨0, bytes.length, quoted, splittable⟩] else []
    emptyAnchors := if preserveEmpty then [bytes.length] else [] }

/-- Add a region behind the others, widening the last one when it goes on. -/
def pushRegion (regions : List FieldRegion) (region : FieldRegion) : List FieldRegion :=
  match regions.getLast? with
  | some previous =>
    if previous.stop = region.start ∧ previous.quoted = region.quoted ∧
        previous.splittable = region.splittable then
      regions.dropLast ++ [{ previous with stop := region.stop }]
    else regions ++ [region]
  | none => [region]

/-- Add an anchor unless it repeats the last one. -/
def pushAnchor (anchors : List Nat) (offset : Nat) : List Nat :=
  if anchors.getLast? = some offset then anchors else anchors ++ [offset]

def append (f other : Field) : Field :=
  let boundary := f.bytes.length
  { bytes := f.bytes ++ other.bytes
    regions := (other.regions.map fun region =>
      { region with start := region.start + boundary, stop := region.stop + boundary }).foldl
        pushRegion f.regions
    emptyAnchors := (other.emptyAnchors.map (boundary + ·)).foldl pushAnchor f.emptyAnchors }

/-- The part of a region that lies between `i` and `j`, counted from `i`. -/
def clip (i j : Nat) (region : FieldRegion) : Option FieldRegion :=
  let start := max region.start i
  let stop := min region.stop j
  if start < stop then some { region with start := start - i, stop := stop - i } else none

def slice (f : Field) (i j : Nat) : Field where
  bytes := f.bytes.extract i j
  regions := (f.regions.filterMap (clip i j)).foldl pushRegion []
  emptyAnchors := (f.emptyAnchors.filter fun offset =>
    decide (i ≤ offset) && decide (offset ≤ j)).map (· - i)

def anchorEmpty (f : Field) : Field :=
  if f.bytes = [] ∧ f.emptyAnchors = [] then { f with emptyAnchors := [f.bytes.length] } else f

/-- Whether an anchor lies between `i` and `j`, both included. -/
def hasEmptyAnchor (f : Field) (i j : Nat) : Bool :=
  f.emptyAnchors.any fun offset => decide (i ≤ offset) && decide (offset ≤ j)

/-- The region an offset lies in; the regions are in order, so the first one that ends
    behind the offset is the only candidate (`partition_point`). -/
def regionAt (f : Field) (offset : Nat) : Option FieldRegion :=
  (f.regions.dropWhile fun region => decide (region.stop ≤ offset)).head?.filter fun region =>
    decide (region.start ≤ offset) && decide (offset < region.stop)

def quotedAt (f : Field) (offset : Nat) : Bool := ((f.regionAt offset).map (·.quoted)).getD false

def anySplittable (f : Field) : Bool := f.regions.any (·.splittable)

/-- The loop of `range_is_splittable`; every region met takes it on by a byte at least. -/
def rangeIsSplittableFrom (f : Field) (stop : Nat) : Nat → Nat → Bool
  | 0, offset => offset == stop
  | fuel + 1, offset =>
    if offset < stop then
      match f.regionAt offset with
      | none => false
      | some region =>
        if !region.splittable then false
        else f.rangeIsSplittableFrom stop fuel (min region.stop stop)
    else offset == stop

def rangeIsSplittable (f : Field) (i j : Nat) : Bool := f.rangeIsSplittableFrom j (j - i) i

end Field

/-! ### What a field says -/

/-- One byte and what was recorded beside it. -/
structure Cell where
  byte : UInt8
  quoted : Bool
  splittable : Bool
deriving DecidableEq, Repr

/-- A byte of a field, or something empty written between its bytes. -/
inductive Item where
  | byte (cell : Cell)
  | empty
deriving DecidableEq, Repr

def Item.cell? : Item → Option Cell
  | .byte cell => some cell
  | .empty => none

/-- The bytes of a sequence of items. -/
def cells (items : List Item) : List Cell := items.filterMap Item.cell?

namespace Field

variable (f : Field)

/-- What was recorded beside the byte at `offset`. -/
def flagsAt (offset : Nat) : Option (Bool × Bool) :=
  (f.regionAt offset).map fun region => (region.quoted, region.splittable)

def cellAt (offset : Nat) : Cell where
  byte := f.bytes.getD offset 0
  quoted := ((f.flagsAt offset).map Prod.fst).getD false
  splittable := ((f.flagsAt offset).map Prod.snd).getD false

def cells : List Cell := (List.range f.bytes.length).map f.cellAt

/-- What stands at `offset` before its byte. -/
def gap (offset : Nat) : List Item := if offset ∈ f.emptyAnchors then [.empty] else []

/-- The `left` bytes from `offset` on and what stands behind each. -/
def itemsFrom : Nat → Nat → List Item
  | 0, _ => []
  | left + 1, offset =>
    .byte (f.cellAt offset) :: (f.gap (offset + 1) ++ itemsFrom left (offset + 1))

def items : List Item := f.gap 0 ++ f.itemsFrom f.bytes.length 0

end Field

/-! ### Regions in order -/

namespace FieldRegion

def holds (region : FieldRegion) (offset : Nat) : Bool :=
  decide (region.start ≤ offset) && decide (offset < region.stop)

def flags (region : FieldRegion) : Bool × Bool := (region.quoted, region.splittable)

@[simp] theorem holds_iff {region : FieldRegion} {offset : Nat} :
    region.holds offset = true ↔ region.start ≤ offset ∧ offset < region.stop := by
  simp [holds]

end FieldRegion

/-- The flags of the region that holds the offset. -/
def flagsOf (regions : List FieldRegion) (offset : Nat) : Option (Bool × Bool) :=
  (regions.find? (·.holds offset)).map FieldRegion.flags

/-- Regions in order, none of them empty. -/
structure Ordered (regions : List FieldRegion) : Prop where
  apart : regions.Pairwise fun region next => region.stop ≤ next.start
  filled : ∀ region ∈ regions, region.start < region.stop

theorem flagsOf_append (regions others : List FieldRegion) (offset : Nat) :
    flagsOf (regions ++ others) offset = (flagsOf regions offset).or (flagsOf others offset) := by
  unfold flagsOf
  rw [List.find?_append]
  cases regions.find? (·.holds offset) with
  | none => simp
  | some region => simp

theorem flagsOf_nil (offset : Nat) : flagsOf [] offset = none := rfl

theorem flagsOf_cons (region : FieldRegion) (regions : List FieldRegion) (offset : Nat) :
    flagsOf (region :: regions) offset =
      if region.holds offset then some region.flags else flagsOf regions offset := by
  unfold flagsOf
  rw [List.find?_cons]
  split <;> simp_all

theorem ordered_nil : Ordered [] := ⟨List.Pairwise.nil, nofun⟩

theorem Ordered.left {regions others : List FieldRegion} (h : Ordered (regions ++ others)) :
    Ordered regions :=
  ⟨(List.pairwise_append.mp h.apart).1, fun region hmem => h.filled region (by simp [hmem])⟩

namespace Field

/-- Widening the last region is adding one more. -/
theorem flagsOf_pushRegion {regions : List FieldRegion} {region : FieldRegion}
    (h : Ordered (regions ++ [region])) (offset : Nat) :
    flagsOf (pushRegion regions region) offset = flagsOf (regions ++ [region]) offset := by
  unfold pushRegion
  rcases List.eq_nil_or_concat' regions with rfl | ⟨others, last, rfl⟩
  · rfl
  · rw [List.getLast?_concat]
    simp only
    split
    · next hsame =>
      obtain ⟨hstop, hquoted, hsplittable⟩ := hsame
      have hlast := h.filled last (by simp)
      have hnext := h.filled region (by simp)
      have hflags : last.flags = region.flags := by
        simp [FieldRegion.flags, hquoted, hsplittable]
      rw [List.dropLast_concat, List.append_assoc, flagsOf_append, flagsOf_append]
      congr 1
      simp only [List.singleton_append, flagsOf_cons, flagsOf_nil, FieldRegion.holds_iff]
      by_cases hin : last.start ≤ offset ∧ offset < last.stop
      · rw [if_pos hin, if_pos (by omega)]
        rfl
      · rw [if_neg hin]
        by_cases hbehind : region.start ≤ offset ∧ offset < region.stop
        · rw [if_pos hbehind, if_pos (by omega), ← hflags]
          rfl
        · rw [if_neg hbehind, if_neg (by omega)]
    · rfl

theorem ordered_pushRegion {regions : List FieldRegion} {region : FieldRegion}
    {others : List FieldRegion} (h : Ordered (regions ++ region :: others)) :
    Ordered (pushRegion regions region ++ others) := by
  unfold pushRegion
  rcases List.eq_nil_or_concat' regions with rfl | ⟨before, last, rfl⟩
  · exact h
  · rw [List.getLast?_concat]
    simp only
    split
    · next hsame =>
      have hlast := h.filled last (by simp)
      have hnext := h.filled region (by simp)
      have hapart := h.apart
      simp only [List.append_assoc, List.singleton_append, List.pairwise_append,
        List.pairwise_cons, List.mem_cons] at hapart
      obtain ⟨hbefore, ⟨-, hregion, hothers⟩, hacross⟩ := hapart
      rw [List.dropLast_concat, List.append_assoc]
      constructor
      · rw [List.singleton_append, List.pairwise_append, List.pairwise_cons]
        refine ⟨hbefore, ⟨hregion, hothers⟩, ?_⟩
        intro r hr s hs
        rcases List.mem_cons.mp hs with rfl | hs
        · exact hacross r hr last (Or.inl rfl)
        · exact hacross r hr s (Or.inr (Or.inr hs))
      · intro r hr
        simp only [List.mem_append, List.mem_cons, List.not_mem_nil, or_false] at hr
        rcases hr with hr | rfl | hr
        · exact h.filled r (by simp [hr])
        · show last.start < region.stop
          omega
        · exact h.filled r (by simp [hr])
    · simpa using h

/-- Adding regions one by one keeps them in order and their flags. -/
theorem foldl_pushRegion {regions others : List FieldRegion} (h : Ordered (regions ++ others)) :
    Ordered (others.foldl pushRegion regions) ∧
      ∀ offset, flagsOf (others.foldl pushRegion regions) offset =
        flagsOf (regions ++ others) offset := by
  induction others generalizing regions with
  | nil => simpa using h
  | cons region others ih =>
    obtain ⟨hordered, hflags⟩ := ih (ordered_pushRegion h)
    refine ⟨hordered, fun offset => ?_⟩
    have hone : Ordered (regions ++ [region]) := by
      have : Ordered ((regions ++ [region]) ++ others) := by simpa using h
      exact this.left
    rw [List.foldl_cons, hflags, flagsOf_append, flagsOf_pushRegion hone, ← flagsOf_append,
      List.append_assoc, List.singleton_append]

/-! ### Fields in order -/

/-- The regions are in order, and nothing lies outside the bytes. -/
structure Tidy (f : Field) : Prop where
  ordered : Ordered f.regions
  inside : ∀ region ∈ f.regions, region.stop ≤ f.bytes.length
  anchors : ∀ offset ∈ f.emptyAnchors, offset ≤ f.bytes.length

/-- Looking a region up by where it ends finds the one that holds the offset. -/
theorem find?_holds {regions : List FieldRegion} (h : Ordered regions) (offset : Nat) :
    (regions.dropWhile fun region => decide (region.stop ≤ offset)).head?.filter
      (fun region => decide (region.start ≤ offset) && decide (offset < region.stop)) =
    regions.find? (·.holds offset) := by
  induction regions with
  | nil => rfl
  | cons region regions ih =>
    have hrest : Ordered regions := ⟨List.Pairwise.of_cons h.apart, fun next hnext =>
      h.filled next (List.mem_cons_of_mem region hnext)⟩
    rw [List.dropWhile_cons, List.find?_cons]
    by_cases hstop : region.stop ≤ offset
    · have hout : region.holds offset = false := by
        simp [FieldRegion.holds, hstop]
      rw [if_pos (by simpa using hstop), hout]
      exact ih hrest
    · rw [if_neg (by simpa using hstop), List.head?_cons]
      cases hin : region.holds offset with
      | true =>
        have hcheck : (decide (region.start ≤ offset) && decide (offset < region.stop)) = true :=
          hin
        simp [Option.filter, hcheck]
      | false =>
        have hcheck : (decide (region.start ≤ offset) && decide (offset < region.stop)) = false :=
          hin
        -- the offset lies before this region, so before every later one
        have hnone : regions.find? (·.holds offset) = none := by
          rw [List.find?_eq_none]
          intro next hnext
          have hafter := List.rel_of_pairwise_cons h.apart hnext
          have := h.filled region List.mem_cons_self
          simp at hcheck
          simp
          omega
        simp [Option.filter, hcheck, hnone]

variable {f other : Field}

theorem flagsAt_eq (h : Ordered f.regions) (offset : Nat) :
    f.flagsAt offset = flagsOf f.regions offset := by
  unfold flagsAt regionAt flagsOf
  rw [find?_holds h]
  rfl

theorem flagsOf_of_le {regions : List FieldRegion} {offset : Nat}
    (h : ∀ region ∈ regions, region.stop ≤ offset) : flagsOf regions offset = none := by
  unfold flagsOf
  rw [Option.map_eq_none_iff, List.find?_eq_none]
  intro region hmem
  have := h region hmem
  simp
  omega

theorem flagsOf_of_lt {regions : List FieldRegion} {offset : Nat}
    (h : ∀ region ∈ regions, offset < region.start) : flagsOf regions offset = none := by
  unfold flagsOf
  rw [Option.map_eq_none_iff, List.find?_eq_none]
  intro region hmem
  have := h region hmem
  simp
  omega

/-! ### Pieces and joins -/

theorem tidy_fromBytes (bytes : Bytes) (quoted splittable preserveEmpty : Bool) :
    (fromBytes bytes quoted splittable preserveEmpty).Tidy := by
  constructor
  · unfold fromBytes
    simp only
    split
    · next hne => exact ⟨by simp, by simpa using Nat.pos_of_ne_zero hne⟩
    · exact ordered_nil
  · unfold fromBytes
    simp only
    split <;> simp
  · unfold fromBytes
    simp only
    split <;> simp

/-- The regions of a field as they lie in the join. -/
def shifted (boundary : Nat) (regions : List FieldRegion) : List FieldRegion :=
  regions.map fun region =>
    { region with start := region.start + boundary, stop := region.stop + boundary }

theorem flagsOf_shifted (boundary : Nat) (regions : List FieldRegion) (offset : Nat) :
    flagsOf (shifted boundary regions) (boundary + offset) = flagsOf regions offset := by
  induction regions with
  | nil => rfl
  | cons region regions ih =>
    unfold shifted at ih ⊢
    rw [List.map_cons, flagsOf_cons, flagsOf_cons, ih]
    congr 1
    simp only [FieldRegion.holds_iff, eq_iff_iff]
    omega

theorem Tidy.join (hf : f.Tidy) (hother : other.Tidy) :
    Ordered (f.regions ++ shifted f.bytes.length other.regions) := by
  constructor
  · rw [List.pairwise_append]
    refine ⟨hf.ordered.apart, ?_, ?_⟩
    · unfold shifted
      rw [List.pairwise_map]
      exact hother.ordered.apart.imp fun h => by simpa using h
    · intro region hregion next hnext
      obtain ⟨source, -, rfl⟩ := List.mem_map.mp hnext
      have := hf.inside region hregion
      simp only
      omega
  · intro region hregion
    rcases List.mem_append.mp hregion with hregion | hregion
    · exact hf.ordered.filled region hregion
    · obtain ⟨source, hsource, rfl⟩ := List.mem_map.mp hregion
      have := hother.ordered.filled source hsource
      simpa using this

theorem mem_foldl_pushAnchor (anchors more : List Nat) (offset : Nat) :
    offset ∈ more.foldl pushAnchor anchors ↔ offset ∈ anchors ∨ offset ∈ more := by
  induction more generalizing anchors with
  | nil => simp
  | cons first more ih =>
    rw [List.foldl_cons, ih]
    unfold pushAnchor
    split
    · next hlast =>
      have := List.mem_of_getLast? hlast
      constructor
      · rintro (h | h)
        · exact Or.inl h
        · exact Or.inr (List.mem_cons_of_mem first h)
      · rintro (h | h)
        · exact Or.inl h
        · rcases List.mem_cons.mp h with rfl | h
          · exact Or.inl this
          · exact Or.inr h
    · simp [or_assoc]

theorem mem_anchors_append {offset : Nat} :
    offset ∈ (f.append other).emptyAnchors ↔
      offset ∈ f.emptyAnchors ∨ ∃ q ∈ other.emptyAnchors, f.bytes.length + q = offset := by
  unfold append
  rw [mem_foldl_pushAnchor, List.mem_map]

theorem foldl_pushRegion_stop {bound : Nat} {regions others : List FieldRegion}
    (h : ∀ region ∈ regions ++ others, region.stop ≤ bound) :
    ∀ region ∈ others.foldl pushRegion regions, region.stop ≤ bound := by
  induction others generalizing regions with
  | nil => simpa using h
  | cons first others ih =>
    apply ih
    intro region hregion
    rcases List.mem_append.mp hregion with hregion | hregion
    · unfold pushRegion at hregion
      split at hregion
      · split at hregion
        · rcases List.mem_append.mp hregion with hregion | hregion
          · exact h region (List.mem_append_left _ (List.mem_of_mem_dropLast hregion))
          · rw [List.mem_singleton.mp hregion]
            exact h first (by simp)
        · rcases List.mem_append.mp hregion with hregion | hregion
          · exact h region (List.mem_append_left _ hregion)
          · exact h region (by simp [List.mem_singleton.mp hregion])
      · exact h region (by simp [List.mem_singleton.mp hregion])
    · exact h region (by simp [hregion])

theorem Tidy.append (hf : f.Tidy) (hother : other.Tidy) : (f.append other).Tidy := by
  constructor
  · exact (foldl_pushRegion (hf.join hother)).1
  · apply foldl_pushRegion_stop
    intro region hregion
    simp only [Field.append, List.length_append]
    rcases List.mem_append.mp hregion with hregion | hregion
    · have := hf.inside region hregion
      omega
    · obtain ⟨source, hsource, rfl⟩ := List.mem_map.mp hregion
      have := hother.inside source hsource
      simp only
      omega
  · intro offset hoffset
    have hlength : (f.append other).bytes.length = f.bytes.length + other.bytes.length := by
      simp [Field.append]
    rw [hlength]
    rcases mem_anchors_append.mp hoffset with hoffset | ⟨q, hq, rfl⟩
    · have := hf.anchors offset hoffset
      omega
    · have := hother.anchors q hq
      omega

theorem Tidy.anchorEmpty (hf : f.Tidy) : f.anchorEmpty.Tidy := by
  unfold Field.anchorEmpty
  split
  · exact ⟨hf.ordered, hf.inside, by simp⟩
  · exact hf

theorem Tidy.cellAt_append_left (hf : f.Tidy) (hother : other.Tidy) {offset : Nat}
    (h : offset < f.bytes.length) : (f.append other).cellAt offset = f.cellAt offset := by
  have hflags : (f.append other).flagsAt offset = f.flagsAt offset := by
    have hbefore : flagsOf (shifted f.bytes.length other.regions) offset = none := by
      apply flagsOf_of_lt
      intro region hregion
      obtain ⟨source, -, rfl⟩ := List.mem_map.mp hregion
      simp only
      omega
    rw [flagsAt_eq (hf.append hother).ordered, flagsAt_eq hf.ordered]
    have hjoin := (foldl_pushRegion (hf.join hother)).2 offset
    rw [flagsOf_append, hbefore, Option.or_none] at hjoin
    exact hjoin
  unfold cellAt
  rw [hflags]
  congr 1
  show (f.bytes ++ other.bytes).getD offset 0 = _
  rw [List.getD_eq_getElem?_getD, List.getElem?_append_left h, List.getD_eq_getElem?_getD]

theorem Tidy.cellAt_append_right (hf : f.Tidy) (hother : other.Tidy) (offset : Nat) :
    (f.append other).cellAt (f.bytes.length + offset) = other.cellAt offset := by
  have hflags : (f.append other).flagsAt (f.bytes.length + offset) = other.flagsAt offset := by
    have hbehind : flagsOf f.regions (f.bytes.length + offset) = none := by
      apply flagsOf_of_le
      intro region hregion
      have := hf.inside region hregion
      omega
    rw [flagsAt_eq (hf.append hother).ordered, flagsAt_eq hother.ordered]
    have hjoin := (foldl_pushRegion (hf.join hother)).2 (f.bytes.length + offset)
    rw [flagsOf_append, hbehind, Option.none_or, flagsOf_shifted] at hjoin
    exact hjoin
  unfold cellAt
  rw [hflags]
  congr 1
  show (f.bytes ++ other.bytes).getD _ 0 = _
  rw [List.getD_eq_getElem?_getD, List.getElem?_append_right (Nat.le_add_right _ _),
    Nat.add_sub_cancel_left, List.getD_eq_getElem?_getD]

/-! ### Slices -/

theorem clip_eq_some {i j : Nat} {region clipped : FieldRegion}
    (h : clip i j region = some clipped) :
    clipped.start = max region.start i - i ∧ clipped.stop = min region.stop j - i ∧
      clipped.start < clipped.stop ∧ clipped.flags = region.flags := by
  unfold clip at h
  simp only at h
  split at h
  · next hlt =>
    cases h
    refine ⟨rfl, rfl, ?_, rfl⟩
    show max region.start i - i < min region.stop j - i
    omega
  · cases h

theorem ordered_clip {regions : List FieldRegion} (h : Ordered regions) (i j : Nat) :
    Ordered (regions.filterMap (clip i j)) := by
  constructor
  · rw [List.pairwise_filterMap]
    apply h.apart.imp
    intro region next hapart clipped hclipped clipped' hclipped'
    have hone := clip_eq_some hclipped
    have htwo := clip_eq_some hclipped'
    omega
  · intro clipped hmem
    obtain ⟨region, -, hclip⟩ := List.mem_filterMap.mp hmem
    exact (clip_eq_some hclip).2.2.1

theorem flagsOf_clip (regions : List FieldRegion) {i j offset : Nat} (h : i + offset < j) :
    flagsOf (regions.filterMap (clip i j)) offset = flagsOf regions (i + offset) := by
  induction regions with
  | nil => rfl
  | cons region regions ih =>
    cases hclip : clip i j region with
    | none =>
      have hout : ¬ region.holds (i + offset) = true := by
        unfold clip at hclip
        simp only at hclip
        split at hclip
        · cases hclip
        · next hnot =>
          rw [FieldRegion.holds_iff]
          omega
      rw [List.filterMap_cons_none hclip, ih, flagsOf_cons, if_neg hout]
    | some clipped =>
      obtain ⟨hstart, hstop, -, hflags⟩ := clip_eq_some hclip
      have hsame : clipped.holds offset = true ↔ region.holds (i + offset) = true := by
        rw [FieldRegion.holds_iff, FieldRegion.holds_iff]
        omega
      rw [List.filterMap_cons_some hclip, flagsOf_cons, flagsOf_cons, ih, hflags]
      simp only [hsame]

/-- A slice holds the cells it was cut from. -/
theorem Tidy.cells_slice (h : f.Tidy) {i j : Nat} (hj : j ≤ f.bytes.length) :
    (f.slice i j).cells = f.cells.extract i j := by
  have hlength : (f.slice i j).bytes.length = j - i := by
    simp only [slice, List.extract_eq_take_drop, List.length_take, List.length_drop]
    omega
  have hclipped : Ordered ([] ++ f.regions.filterMap (clip i j)) := ordered_clip h.ordered i j
  have hordered := foldl_pushRegion hclipped
  apply List.ext_getElem
  · simp only [cells, List.length_map, List.length_range, hlength, List.extract_eq_take_drop,
      List.length_take, List.length_drop]
    omega
  · intro offset hlt _
    have hoffset : i + offset < j := by
      simp only [cells, List.length_map, List.length_range, hlength] at hlt
      omega
    have hflags : (f.slice i j).flagsAt offset = f.flagsAt (i + offset) := by
      rw [flagsAt_eq hordered.1, flagsAt_eq h.ordered, ← flagsOf_clip f.regions hoffset]
      exact hordered.2 offset
    have hbyte : (f.slice i j).bytes.getD offset 0 = f.bytes.getD (i + offset) 0 := by
      simp only [slice, List.extract_eq_take_drop, List.getD_eq_getElem?_getD]
      rw [List.getElem?_take_of_lt (by omega), List.getElem?_drop]
    simp only [cells, List.getElem_map, List.getElem_range, List.extract_eq_take_drop,
      List.getElem_take, List.getElem_drop, cellAt, hflags, hbyte]

end Field

end Nsh.Expand
