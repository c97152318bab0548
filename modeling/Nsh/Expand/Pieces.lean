import Nsh.Expand.Field

/-!
# Fields built from pieces

Every part of a word contributes a piece, and a field is what appending them in any
grouping gives.  Read back, it is the items of its pieces, of several empty ones in a
row only one.
-/

namespace Nsh.Expand

/-- One contribution: the arguments of `Field::from_bytes`. -/
structure Piece where
  bytes : Bytes
  quoted : Bool
  splittable : Bool
  preserveEmpty : Bool
deriving DecidableEq, Repr

namespace Piece

def field (p : Piece) : Field := Field.fromBytes p.bytes p.quoted p.splittable p.preserveEmpty

/-- What the piece writes: its bytes but for the null byte, and an empty item where it
    asks to be kept without bytes. -/
def items (p : Piece) : List Item :=
  (p.bytes.filter (· != 0)).map (fun byte => .byte ⟨byte, p.quoted, p.splittable⟩) ++
    if p.preserveEmpty then [.empty] else []

/-- A pair of quotes with nothing in it. -/
def quotedEmpty : Piece := ⟨[], true, false, true⟩

end Piece

/-- The fields that appending pieces builds. -/
inductive Built : Field → List Piece → Prop where
  | none : Built {} []
  | piece (p : Piece) : Built p.field [p]
  | append {f g : Field} {ps qs : List Piece} (hf : Built f ps) (hg : Built g qs) :
      Built (f.append g) (ps ++ qs)
  | anchorEmpty {f : Field} {ps : List Piece} (hf : Built f ps) :
      Built f.anchorEmpty
        (if f.bytes = [] ∧ f.emptyAnchors = [] then ps ++ [Piece.quotedEmpty] else ps)

/-- What a sequence of pieces writes. -/
def written (ps : List Piece) : List Item := ps.flatMap Piece.items

/-! ### Empty items in a row -/

/-- An item before others, an empty one before an empty one counting once. -/
def push : Item → List Item → List Item
  | .empty, .empty :: rest => .empty :: rest
  | item, rest => item :: rest

def squeeze (items : List Item) : List Item := items.foldr push []

@[simp] theorem push_byte (cell : Cell) (rest : List Item) :
    push (.byte cell) rest = .byte cell :: rest := rfl

@[simp] theorem push_empty_empty (rest : List Item) :
    push .empty (.empty :: rest) = .empty :: rest := rfl

theorem squeeze_append (items others : List Item) :
    squeeze (items ++ others) = items.foldr push (squeeze others) := by
  unfold squeeze
  rw [List.foldr_append]

/-- A sequence squeezed before it is put in front gives the same. -/
theorem foldr_push_squeeze (items rest : List Item) :
    (squeeze items).foldr push rest = items.foldr push rest := by
  induction items with
  | nil => rfl
  | cons item items ih =>
    show (push item (squeeze items)).foldr push rest = push item (items.foldr push rest)
    rw [← ih]
    cases item with
    | byte cell => rfl
    | empty =>
      rcases hsqueeze : squeeze items with _ | ⟨_ | _, more⟩
      · rfl
      · rfl
      · simp only [push_empty_empty, List.foldr_cons]
        rcases more.foldr push rest with _ | ⟨_ | _, _⟩ <;> rfl

namespace Field

variable {f g : Field}

theorem itemsFrom_append_right (hf : f.Tidy) (hg : g.Tidy) (left offset : Nat) :
    (f.append g).itemsFrom left (f.bytes.length + offset) = g.itemsFrom left offset := by
  induction left generalizing offset with
  | zero => rfl
  | succ left ih =>
    have hgap : (f.append g).gap (f.bytes.length + (offset + 1)) = g.gap (offset + 1) := by
      have hmem : f.bytes.length + (offset + 1) ∈ (f.append g).emptyAnchors ↔
          offset + 1 ∈ g.emptyAnchors := by
        rw [mem_anchors_append]
        constructor
        · rintro (hin | ⟨q, hq, heq⟩)
          · have := hf.anchors _ hin
            omega
          · obtain rfl : q = offset + 1 := by omega
            exact hq
        · intro hin
          exact Or.inr ⟨offset + 1, hin, rfl⟩
      simp only [gap, hmem]
    rw [itemsFrom, itemsFrom, hf.cellAt_append_right hg, Nat.add_assoc, hgap, ih]

theorem gap_append_of_lt {offset : Nat} (h : offset < f.bytes.length) :
    (f.append g).gap offset = f.gap offset := by
  have hmem : offset ∈ (f.append g).emptyAnchors ↔ offset ∈ f.emptyAnchors := by
    rw [mem_anchors_append]
    constructor
    · rintro (hin | ⟨q, -, heq⟩)
      · exact hin
      · omega
    · exact Or.inl
  simp only [gap, hmem]

theorem itemsFrom_append_left (hf : f.Tidy) (hg : g.Tidy) {left offset : Nat}
    (h : offset + left = f.bytes.length) :
    (f.append g).gap offset ++ (f.append g).itemsFrom (left + g.bytes.length) offset =
      (f.gap offset ++ f.itemsFrom left offset).foldr push g.items := by
  induction left generalizing offset with
  | zero =>
    obtain rfl : offset = f.bytes.length := by omega
    have hmem : f.bytes.length ∈ (f.append g).emptyAnchors ↔
        f.bytes.length ∈ f.emptyAnchors ∨ 0 ∈ g.emptyAnchors := by
      rw [mem_anchors_append]
      simp
    have hright := itemsFrom_append_right hf hg g.bytes.length 0
    rw [Nat.add_zero] at hright
    rw [Nat.zero_add, hright, itemsFrom, List.append_nil]
    unfold items gap
    simp only [hmem]
    by_cases hin : f.bytes.length ∈ f.emptyAnchors
    · by_cases hstart : 0 ∈ g.emptyAnchors
      · simp [hin, hstart]
      · simp only [hin, hstart, or_false, if_true, if_false, List.nil_append]
        cases g.bytes.length <;> rfl
    · simp [hin]
  | succ left ih =>
    have hnext : (f.append g).gap (offset + 1) ++
        (f.append g).itemsFrom (left + g.bytes.length) (offset + 1) =
          (f.gap (offset + 1) ++ f.itemsFrom left (offset + 1)).foldr push g.items :=
      ih (by omega)
    have hright : (f.gap offset ++ f.itemsFrom (left + 1) offset).foldr push g.items =
        (f.gap offset).foldr push (.byte (f.cellAt offset) ::
          (f.gap (offset + 1) ++ f.itemsFrom left (offset + 1)).foldr push g.items) := by
      rw [itemsFrom, List.foldr_append, List.foldr_cons, push_byte]
    rw [hright, Nat.add_right_comm left 1, itemsFrom, hf.cellAt_append_left hg (by omega), hnext,
      gap_append_of_lt (by omega)]
    unfold gap
    split <;> rfl

theorem items_append (hf : f.Tidy) (hg : g.Tidy) :
    (f.append g).items = f.items.foldr push g.items := by
  have hlength : (f.append g).bytes.length = f.bytes.length + g.bytes.length := by
    simp [Field.append]
  rw [items, hlength]
  exact itemsFrom_append_left hf hg (Nat.zero_add _)

end Field

/-! ### What a built field reads as -/

theorem Built.tidy {f : Field} {ps : List Piece} (h : Built f ps) : f.Tidy := by
  induction h with
  | none => exact ⟨ordered_nil, nofun, nofun⟩
  | piece p => exact Field.tidy_fromBytes _ _ _ _
  | append hf hg ihf ihg => exact ihf.append ihg
  | anchorEmpty hf ihf => exact ihf.anchorEmpty

/-- A field with nothing empty inside reads as its cells. -/
theorem Field.itemsFrom_of_gaps {f : Field} (h : ∀ offset < f.bytes.length, f.gap offset = [])
    {left offset : Nat} (hleft : offset + left = f.bytes.length) :
    f.gap offset ++ f.itemsFrom left offset =
      (f.cells.drop offset).map Item.byte ++ f.gap f.bytes.length := by
  induction left generalizing offset with
  | zero =>
    obtain rfl : offset = f.bytes.length := by omega
    have hdrop : f.cells.drop f.bytes.length = [] := by
      apply List.drop_of_length_le
      simp [Field.cells]
    simp [Field.itemsFrom, hdrop]
  | succ left ih =>
    have hlt : offset < f.cells.length := by
      simp only [Field.cells, List.length_map, List.length_range]
      omega
    have hcell : f.cells[offset] = f.cellAt offset := by
      simp [Field.cells]
    rw [h offset (by omega), Field.itemsFrom, ih (by omega), List.drop_eq_getElem_cons hlt, hcell]
    rfl

theorem foldr_push_bytes (line : List Cell) (rest : List Item) :
    (line.map Item.byte).foldr push rest = line.map Item.byte ++ rest := by
  induction line with
  | nil => rfl
  | cons cell line ih => simp [ih]

theorem Piece.cells_field (p : Piece) :
    p.field.cells = (p.bytes.filter (· != 0)).map fun byte => ⟨byte, p.quoted, p.splittable⟩ := by
  have hbytes : p.field.bytes = p.bytes.filter (· != 0) := rfl
  apply List.ext_getElem
  · simp [Field.cells, hbytes]
  · intro offset hlt hlt'
    have hoffset : offset < (p.bytes.filter (· != 0)).length := by simpa using hlt'
    have hflags : p.field.flagsAt offset = some (p.quoted, p.splittable) := by
      have hregions : p.field.regions =
          [⟨0, (p.bytes.filter (· != 0)).length, p.quoted, p.splittable⟩] := by
        unfold Piece.field Field.fromBytes
        simp only
        rw [if_pos (by omega)]
      have htidy : p.field.Tidy := Field.tidy_fromBytes _ _ _ _
      rw [Field.flagsAt_eq htidy.ordered, hregions, flagsOf_cons, if_pos (by simpa using hoffset)]
      rfl
    simp only [Field.cells, List.getElem_map, List.getElem_range, Field.cellAt, hflags, hbytes]
    simp [hoffset]

theorem Piece.items_field (p : Piece) : p.field.items = squeeze p.items := by
  have hbytes : p.field.bytes = p.bytes.filter (· != 0) := rfl
  have hanchors : p.field.emptyAnchors =
      if p.preserveEmpty then [(p.bytes.filter (· != 0)).length] else [] := rfl
  have hgaps : ∀ offset < p.field.bytes.length, p.field.gap offset = [] := by
    intro offset hlt
    rw [hbytes] at hlt
    unfold Field.gap
    rw [hanchors, if_neg]
    split
    · simp
      omega
    · simp
  have hlast : p.field.gap p.field.bytes.length = if p.preserveEmpty then [.empty] else [] := by
    unfold Field.gap
    rw [hanchors, hbytes]
    split <;> simp
  rw [Field.items, Field.itemsFrom_of_gaps hgaps (Nat.zero_add _), List.drop_zero, p.cells_field,
    hlast, Piece.items, squeeze_append]
  have hmap : (p.bytes.filter (· != 0)).map (fun byte => Item.byte ⟨byte, p.quoted, p.splittable⟩) =
      ((p.bytes.filter (· != 0)).map fun byte => Cell.mk byte p.quoted p.splittable).map
        Item.byte := by
    rw [List.map_map]
    rfl
  rw [hmap, foldr_push_bytes]
  split <;> rfl

theorem Built.items {f : Field} {ps : List Piece} (h : Built f ps) :
    f.items = squeeze (written ps) := by
  induction h with
  | none => rfl
  | piece p =>
    rw [p.items_field, written, List.flatMap_cons, List.flatMap_nil, List.append_nil]
  | append hf hg ihf ihg =>
    rw [Field.items_append hf.tidy hg.tidy, ihf, ihg, foldr_push_squeeze, written, written, written,
      List.flatMap_append, squeeze_append]
  | anchorEmpty hf ihf =>
    unfold Field.anchorEmpty
    split
    · next hempty =>
      have hnone : _ = squeeze (written _) := ihf
      rw [Field.items, Field.gap, hempty.1, hempty.2] at hnone
      have hone : squeeze (written [Piece.quotedEmpty]) = [.empty] := rfl
      rw [written, List.flatMap_append, squeeze_append, ← foldr_push_squeeze]
      show _ = (squeeze (written _)).foldr push (squeeze (written [Piece.quotedEmpty]))
      rw [← hnone, hone, Field.items, Field.gap, hempty.1]
      rfl
    · exact ihf

end Nsh.Expand
