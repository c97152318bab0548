import Nsh.Expand.Pieces
import Nsh.Expand.Split

/-!
# What becomes of the empty pieces

A quoted empty piece is a datum without bytes, so it makes a field of its own between
two delimiters.  The walk does not see one inside a delimiter.  `lostFields` counts the
fields this costs; where it costs none, the walk returns the fields of the pieces.
-/

namespace Nsh.Expand

/-! ### The fields of a sequence of pieces -/

/-- What an item is to field splitting by these bytes. -/
def itemRole (locale : Locale) (ifs : Bytes) : Item → Role
  | .byte cell =>
    if cell.splittable = true ∧ cell.byte ∈ ifs then
      if ((locale.decodeExact [cell.byte]).map locale.wideIsSpace).getD false then .white
      else .delimiter
    else .datum
  | .empty => .datum

/-- The fields that the pieces make, every empty piece being a datum. -/
def posixFields (locale : Locale) (ifs : Bytes) (ps : List Piece) : List (List Cell) :=
  (split (itemRole locale ifs) (written ps)).map cells

/-! ### Fields lost inside delimiters -/

/-- What the count knows of the reading so far: the stages of `splitAcross`, with the
    number of empty pieces that the white space since the last delimiter has swallowed. -/
inductive Reading where
  | start
  | field
  | behind (pending : Bool)
  | between (swallowed : Nat) (pending : Bool)

namespace Reading

def next (role : Item → Role) : Reading → Item → Reading
  | .start, .empty => .field
  | .field, .empty => .field
  | .behind _, .empty => .behind true
  | .between swallowed _, .empty => .between swallowed true
  | reading, .byte cell =>
    match role (.byte cell), reading with
    | .datum, _ => .field
    | .white, .field => .behind false
    | .white, .behind _ => .behind false
    | .white, .start => .between 0 false
    | .white, .between swallowed pending => .between (swallowed + pending.toNat) false
    | .delimiter, _ => .between 0 false

/-- The fields an item settles as lost.  One empty field that a delimiter makes stands in
    for one empty piece swallowed before it. -/
def cost (role : Item → Role) : Reading → Item → Nat
  | _, .empty => 0
  | reading, .byte cell =>
    match role (.byte cell), reading with
    | .datum, .between swallowed _ => swallowed
    | .white, .behind pending => pending.toNat
    | .delimiter, .behind pending => pending.toNat
    | .delimiter, .between swallowed pending => swallowed + pending.toNat - 1
    | _, _ => 0

/-- The empty pieces swallowed for which nothing stands in yet. -/
def owed : Reading → Nat
  | .between swallowed _ => swallowed
  | _ => 0

end Reading

def lostFrom (role : Item → Role) : Reading → List Item → Nat
  | reading, [] => reading.owed
  | reading, item :: items => reading.cost role item + lostFrom role (reading.next role item) items

/-- How many fields the empty pieces lose. -/
def lostFields (locale : Locale) (ifs : Bytes) (ps : List Piece) : Nat :=
  lostFrom (itemRole locale ifs) .start (written ps)

/-- The walk, the count and the splitter stand at the same place. -/
inductive Agree : Reading → Stage → Place Item → Prop where
  | start : Agree .start .start .between
  | field (data : List Item) : Agree .field (.field (cells data)) (.field data)
  | behind : Agree (.behind false) (.behind false) .behind
  | behindPending {data : List Item} (h : cells data = []) :
      Agree (.behind true) (.behind true) (.field data)
  | between : Agree (.between 0 false) (.between false) .between
  | owing (swallowed : Nat) : Agree (.between (swallowed + 1) false) (.between false) .behind
  | betweenPending (swallowed : Nat) {data : List Item} (h : cells data = []) :
      Agree (.between swallowed true) (.between true) (.field data)

section

variable {role : Item → Role}

@[simp] theorem cells_append (items others : List Item) :
    cells (items ++ others) = cells items ++ cells others := List.filterMap_append

@[simp] theorem cells_nil : cells [] = [] := rfl

@[simp] theorem cells_empty (items : List Item) : cells (.empty :: items) = cells items := rfl

@[simp] theorem cells_byte (cell : Cell) (items : List Item) :
    cells (.byte cell :: items) = cell :: cells items := rfl

/-- What one item does to both: the fields each of them emits, and what the count says
    about them. -/
structure Step (role : Item → Role) (reading : Reading) (stage : Stage) (place : Place Item)
    (item : Item) where
  across : List (List Cell)
  stage' : Stage
  made : List (List Item)
  place' : Place Item
  walk : ∀ items, splitAcross role stage (item :: items) = across ++ splitAcross role stage' items
  split : ∀ items, splitFrom role place (item :: items) = made ++ splitFrom role place' items
  agree : Agree (reading.next role item) stage' place'
  count : made.length + reading.owed =
    across.length + reading.cost role item + (reading.next role item).owed
  same : reading.cost role item = 0 →
    across ++ List.replicate (reading.next role item).owed [] =
      List.replicate reading.owed [] ++ made.map cells

variable {reading : Reading} {stage : Stage} {place : Place Item} {cell : Cell}

theorem Agree.step_empty (hempty : role .empty = .datum) (h : Agree reading stage place) :
    Nonempty (Step role reading stage place .empty) := by
  cases h with
  | start =>
    exact ⟨[], .field [], [], .field [.empty], fun _ => rfl, fun _ => splitFrom_datum hempty,
      .field [.empty], rfl, fun _ => rfl⟩
  | field data =>
    have hcells : cells (data ++ [.empty]) = cells data := by simp
    have hagree := Agree.field (data ++ [.empty])
    rw [hcells] at hagree
    exact ⟨[], _, [], _, fun _ => rfl, fun _ => splitFrom_datum hempty, hagree, rfl, fun _ => rfl⟩
  | behind =>
    exact ⟨[], .behind true, [], .field [.empty], fun _ => rfl, fun _ => splitFrom_datum hempty,
      .behindPending rfl, rfl, fun _ => rfl⟩
  | behindPending hdata =>
    exact ⟨[], .behind true, [], _, fun _ => rfl, fun _ => splitFrom_datum hempty,
      .behindPending (by simp [Place.data, hdata]), rfl, fun _ => rfl⟩
  | between =>
    exact ⟨[], .between true, [], .field [.empty], fun _ => rfl, fun _ => splitFrom_datum hempty,
      .betweenPending 0 rfl, rfl, fun _ => rfl⟩
  | owing swallowed =>
    exact ⟨[], .between true, [], .field [.empty], fun _ => rfl, fun _ => splitFrom_datum hempty,
      .betweenPending (swallowed + 1) rfl, by simp [Reading.next, Reading.cost, Reading.owed],
      fun _ => by simp [Reading.next, Reading.owed]⟩
  | betweenPending swallowed hdata =>
    exact ⟨[], .between true, [], _, fun _ => rfl, fun _ => splitFrom_datum hempty,
      .betweenPending swallowed (by simp [Place.data, hdata]),
      by simp [Reading.next, Reading.cost, Reading.owed],
      fun _ => by simp [Reading.next, Reading.owed]⟩

theorem Agree.step_datum (hrole : role (.byte cell) = .datum) (h : Agree reading stage place) :
    Nonempty (Step role reading stage place (.byte cell)) := by
  have hdata : cells (place.data ++ [.byte cell]) = stage.data ++ [cell] := by
    cases h with
    | behindPending hdata => simp [Place.data, Stage.data, hdata]
    | betweenPending swallowed hdata => simp [Place.data, Stage.data, hdata]
    | _ => simp [Place.data, Stage.data]
  have hnext : reading.next role (.byte cell) = .field := by
    cases reading <;> simp [Reading.next, hrole]
  have hagree :
      Agree .field (.field (stage.data ++ [cell])) (.field (place.data ++ [.byte cell])) := by
    rw [← hdata]
    exact .field _
  refine ⟨[], _, [], _, fun _ => splitAcross_datum hrole,
    fun _ => splitFrom_datum hrole, ?_, ?_, ?_⟩
  · rw [hnext]
    exact hagree
  · rw [hnext]
    cases h <;> simp [Reading.cost, Reading.owed, hrole]
  · rw [hnext]
    cases h <;> simp [Reading.cost, Reading.owed, hrole]

theorem Agree.step_white (hrole : role (.byte cell) = .white) (h : Agree reading stage place) :
    Nonempty (Step role reading stage place (.byte cell)) := by
  cases h with
  | start =>
    exact ⟨[], .between false, [], .between, fun _ => splitAcross_white_start hrole,
      fun _ => splitFrom_white_between hrole, by simpa [Reading.next, hrole] using .between,
      by simp [Reading.next, Reading.cost, Reading.owed, hrole],
      by simp [Reading.next, Reading.owed, hrole]⟩
  | field data =>
    exact ⟨[cells data], .behind false, [data], .behind, fun _ => splitAcross_white_field hrole,
      fun _ => splitFrom_white_field hrole, by simpa [Reading.next, hrole] using .behind,
      by simp [Reading.next, Reading.cost, Reading.owed, hrole],
      by simp [Reading.next, Reading.owed, hrole]⟩
  | behind =>
    exact ⟨[], .behind false, [], .behind, fun _ => splitAcross_white_behind hrole,
      fun _ => splitFrom_white_behind hrole, by simpa [Reading.next, hrole] using .behind,
      by simp [Reading.next, Reading.cost, Reading.owed, hrole],
      by simp [Reading.next, Reading.owed, hrole]⟩
  | behindPending hdata =>
    exact ⟨[], .behind false, [_], .behind, fun _ => splitAcross_white_behind hrole,
      fun _ => splitFrom_white_field hrole, by simpa [Reading.next, hrole] using .behind,
      by simp [Reading.next, Reading.cost, Reading.owed, hrole],
      by simp [Reading.next, Reading.cost, Reading.owed, hrole]⟩
  | between =>
    exact ⟨[], .between false, [], .between, fun _ => splitAcross_white_between hrole,
      fun _ => splitFrom_white_between hrole, by simpa [Reading.next, hrole] using .between,
      by simp [Reading.next, Reading.cost, Reading.owed, hrole],
      by simp [Reading.next, Reading.owed, hrole]⟩
  | owing swallowed =>
    exact ⟨[], .between false, [], .behind, fun _ => splitAcross_white_between hrole,
      fun _ => splitFrom_white_behind hrole, by simpa [Reading.next, hrole] using .owing swallowed,
      by simp [Reading.next, Reading.cost, Reading.owed, hrole],
      by simp [Reading.next, Reading.owed, hrole]⟩
  | betweenPending swallowed hdata =>
    exact ⟨[], .between false, [_], .behind, fun _ => splitAcross_white_between hrole,
      fun _ => splitFrom_white_field hrole, by simpa [Reading.next, hrole] using .owing swallowed,
      by simp [Reading.next, Reading.cost, Reading.owed, hrole, Nat.add_comm],
      by simp [Reading.next, Reading.owed, hrole, hdata, List.replicate_succ']⟩

theorem Agree.step_delimiter (hrole : role (.byte cell) = .delimiter)
    (h : Agree reading stage place) : Nonempty (Step role reading stage place (.byte cell)) := by
  have hagree : Agree (reading.next role (.byte cell)) (.between false) .between := by
    have hnext : reading.next role (.byte cell) = .between 0 false := by
      cases reading <;> simp [Reading.next, hrole]
    rw [hnext]
    exact .between
  cases h with
  | start =>
    exact ⟨[[]], .between false, [[]], .between, fun _ => splitAcross_delimiter_start hrole,
      fun _ => splitFrom_delimiter_between hrole, hagree,
      by simp [Reading.next, Reading.cost, Reading.owed, hrole],
      by simp [Reading.next, Reading.owed, hrole]⟩
  | field data =>
    exact ⟨[cells data], .between false, [data], .between,
      fun _ => splitAcross_delimiter_field hrole, fun _ => splitFrom_delimiter_field hrole, hagree,
      by simp [Reading.next, Reading.cost, Reading.owed, hrole],
      by simp [Reading.next, Reading.owed, hrole]⟩
  | behind =>
    exact ⟨[], .between false, [], .between, fun _ => splitAcross_delimiter_behind hrole,
      fun _ => splitFrom_delimiter_behind hrole, hagree,
      by simp [Reading.next, Reading.cost, Reading.owed, hrole],
      by simp [Reading.next, Reading.owed, hrole]⟩
  | behindPending hdata =>
    exact ⟨[], .between false, [_], .between, fun _ => splitAcross_delimiter_behind hrole,
      fun _ => splitFrom_delimiter_field hrole, hagree,
      by simp [Reading.next, Reading.cost, Reading.owed, hrole],
      by simp [Reading.next, Reading.cost, Reading.owed, hrole]⟩
  | between =>
    exact ⟨[[]], .between false, [[]], .between, fun _ => splitAcross_delimiter_between hrole,
      fun _ => splitFrom_delimiter_between hrole, hagree,
      by simp [Reading.next, Reading.cost, Reading.owed, hrole],
      by simp [Reading.next, Reading.owed, hrole]⟩
  | owing swallowed =>
    exact ⟨[[]], .between false, [], .between, fun _ => splitAcross_delimiter_between hrole,
      fun _ => splitFrom_delimiter_behind hrole, hagree,
      by simp [Reading.next, Reading.cost, Reading.owed, hrole, Nat.add_comm],
      by simp +contextual [Reading.next, Reading.cost, Reading.owed, hrole]⟩
  | betweenPending swallowed hdata =>
    exact ⟨[[]], .between false, [_], .between, fun _ => splitAcross_delimiter_between hrole,
      fun _ => splitFrom_delimiter_field hrole, hagree,
      by simp [Reading.next, Reading.cost, Reading.owed, hrole],
      by simp +contextual [Reading.next, Reading.cost, Reading.owed, hrole, hdata]⟩

theorem Agree.step (hempty : role .empty = .datum) (h : Agree reading stage place) (item : Item) :
    Nonempty (Step role reading stage place item) := by
  cases item with
  | empty => exact h.step_empty hempty
  | byte cell =>
    cases hrole : role (.byte cell) with
    | datum => exact h.step_datum hrole
    | white => exact h.step_white hrole
    | delimiter => exact h.step_delimiter hrole

/-- The walk and the splitter return as many fields but for the lost ones, and the same
    fields when none is lost. -/
theorem Agree.fields (hempty : role .empty = .datum) (h : Agree reading stage place)
    (items : List Item) :
    (splitFrom role place items).length + reading.owed =
        (splitAcross role stage items).length + lostFrom role reading items ∧
      (lostFrom role reading items = 0 →
        splitAcross role stage items =
          List.replicate reading.owed [] ++ (splitFrom role place items).map cells) := by
  induction items generalizing reading stage place with
  | nil =>
    cases h with
    | owing swallowed => simp [splitAcross, lostFrom, Reading.owed]
    | betweenPending swallowed hdata =>
      simp +contextual [splitAcross, lostFrom, Reading.owed, hdata, Nat.add_comm]
    | behindPending hdata => simp [splitAcross, lostFrom, Reading.owed, hdata]
    | _ => simp [splitAcross, lostFrom, Reading.owed]
  | cons item items ih =>
    obtain ⟨step⟩ := h.step hempty item
    obtain ⟨hlength, hsame⟩ := ih step.agree
    have hcount := step.count
    rw [step.walk, step.split, lostFrom]
    constructor
    · simp only [List.length_append]
      omega
    · intro hnone
      obtain ⟨hcost, hrest⟩ := Nat.add_eq_zero_iff.mp hnone
      rw [hsame hrest, ← List.append_assoc, step.same hcost, List.map_append, List.append_assoc]

/-! ### Empty pieces in a row -/

theorem lostFrom_push (reading : Reading) (item : Item) (items : List Item) :
    lostFrom role reading (push item items) = lostFrom role reading (item :: items) := by
  cases item with
  | byte cell => rfl
  | empty =>
    rcases items with _ | ⟨_ | _, items⟩
    · rfl
    · rfl
    · cases reading <;> simp [lostFrom, Reading.next, Reading.cost]

theorem lostFrom_squeeze (reading : Reading) (items : List Item) :
    lostFrom role reading (squeeze items) = lostFrom role reading items := by
  induction items generalizing reading with
  | nil => rfl
  | cons item items ih =>
    show lostFrom role reading (push item (squeeze items)) = _
    rw [lostFrom_push, lostFrom, lostFrom, ih]

/-- Only the bytes of the field a reader is in count. -/
theorem splitFrom_field_congr {data data' : List Item} (h : cells data = cells data')
    (items : List Item) :
    (splitFrom role (.field data) items).map cells =
      (splitFrom role (.field data') items).map cells := by
  induction items generalizing data data' with
  | nil => simp [h]
  | cons item items ih =>
    cases hrole : role item with
    | datum =>
      rw [splitFrom_datum hrole, splitFrom_datum hrole]
      apply ih
      simp [Place.data, h]
    | white => simp [splitFrom_white_field hrole, h]
    | delimiter => simp [splitFrom_delimiter_field hrole, h]

theorem splitFrom_push (hempty : role .empty = .datum) (place : Place Item) (item : Item)
    (items : List Item) :
    (splitFrom role place (push item items)).map cells =
      (splitFrom role place (item :: items)).map cells := by
  cases item with
  | byte cell => rfl
  | empty =>
    rcases items with _ | ⟨_ | _, items⟩
    · rfl
    · rfl
    · rw [push_empty_empty, splitFrom_datum hempty, splitFrom_datum hempty, splitFrom_datum hempty]
      apply splitFrom_field_congr
      simp [Place.data]

theorem splitFrom_squeeze (hempty : role .empty = .datum) (place : Place Item) (items : List Item) :
    (splitFrom role place (squeeze items)).map cells = (splitFrom role place items).map cells := by
  induction items generalizing place with
  | nil => rfl
  | cons item items ih =>
    show (splitFrom role place (push item (squeeze items))).map cells = _
    rw [splitFrom_push hempty]
    cases hrole : role item with
    | datum => rw [splitFrom_datum hrole, splitFrom_datum hrole, ih]
    | white =>
      cases place with
      | between => rw [splitFrom_white_between hrole, splitFrom_white_between hrole, ih]
      | behind => rw [splitFrom_white_behind hrole, splitFrom_white_behind hrole, ih]
      | field data =>
        rw [splitFrom_white_field hrole, splitFrom_white_field hrole, List.map_cons, ih,
          List.map_cons]
    | delimiter =>
      cases place with
      | between =>
        rw [splitFrom_delimiter_between hrole, splitFrom_delimiter_between hrole, List.map_cons, ih,
          List.map_cons]
      | behind => rw [splitFrom_delimiter_behind hrole, splitFrom_delimiter_behind hrole, ih]
      | field data =>
        rw [splitFrom_delimiter_field hrole, splitFrom_delimiter_field hrole, List.map_cons, ih,
          List.map_cons]

end

/-! ### The separators of a single-byte locale -/

theorem ifsSeparators_singleByte {locale : Locale} (h : locale.SingleByte) (ifs : Bytes) :
    Variables.ifsSeparators locale ifs = ifs.map fun byte =>
      ⟨[byte], ((locale.decodeExact [byte]).map locale.wideIsSpace).getD false⟩ := by
  induction ifs with
  | nil => simp [Variables.ifsSeparators]
  | cons byte ifs ih =>
    rw [Variables.ifsSeparators]
    simp [h.width_eq, ih]

theorem roleOf_ifsSeparators {locale : Locale} (h : locale.SingleByte) (ifs : Bytes) :
    roleOf (Variables.ifsSeparators locale ifs) = itemRole locale ifs := by
  rw [ifsSeparators_singleByte h]
  funext item
  cases item with
  | empty => rfl
  | byte cell =>
    unfold roleOf itemRole
    have hfind : (ifs.map fun byte => (⟨[byte], ((locale.decodeExact [byte]).map
        locale.wideIsSpace).getD false⟩ : IfsCharacter)).find? (·.bytes == [cell.byte]) =
        if cell.byte ∈ ifs then some ⟨[cell.byte], ((locale.decodeExact [cell.byte]).map
          locale.wideIsSpace).getD false⟩ else none := by
      induction ifs with
      | nil => rfl
      | cons byte ifs ih =>
        rw [List.map_cons, List.find?_cons]
        by_cases hbyte : byte = cell.byte
        · simp [hbyte]
        · have hother : ¬ cell.byte = byte := fun heq => hbyte heq.symm
          have hbeq : (byte == cell.byte) = false := by simpa using hbyte
          simp [hbeq, hother, ih]
    simp only [hfind]
    cases cell.splittable with
    | false => simp
    | true =>
      by_cases hmem : cell.byte ∈ ifs
      · simp [hmem]
      · simp [hmem]

/-! ### Field splitting -/

section

variable {W : Type}

/-- **Field splitting returns the fields of the pieces** exactly when no empty piece is
    lost inside a delimiter. -/
theorem fields_eq_posixFields (shell : Shell W) (hsingle : shell.locale.SingleByte) (ifs : Bytes)
    {f : Field} {ps : List Piece} (h : Built f ps) :
    (fields (Variables.updateIfsCache ifs shell) [f]).map Field.cells =
        posixFields shell.locale ifs ps ↔
      lostFields shell.locale ifs ps = 0 := by
  have hcells : (fields (Variables.updateIfsCache ifs shell) [f]).map Field.cells =
      splitAcross (itemRole shell.locale ifs) .start (squeeze (written ps)) := by
    rw [← roleOf_ifsSeparators hsingle, ← h.items]
    unfold fields
    rw [List.flatMap_cons, List.flatMap_nil, List.append_nil]
    exact fieldIntoFields_cells hsingle h.tidy _
  have hempty : itemRole shell.locale ifs .empty = .datum := rfl
  obtain ⟨hlength, hsame⟩ := Agree.start.fields hempty (squeeze (written ps))
  have hposix : posixFields shell.locale ifs ps =
      (splitFrom (itemRole shell.locale ifs) .between (squeeze (written ps))).map cells :=
    (splitFrom_squeeze rfl .between (written ps)).symm
  rw [lostFrom_squeeze] at hlength hsame
  rw [hcells, hposix]
  constructor
  · intro heq
    have hcount := congrArg List.length heq
    rw [List.length_map] at hcount
    unfold lostFields
    simp only [Reading.owed] at hlength
    omega
  · intro hnone
    rw [hsame hnone]
    rfl

/-- `$x""$y`: behind data a delimiter may stand next to the empty piece. -/
theorem fields_eq_posixFields_colon :
    (fields (Variables.updateIfsCache (text ":")
        (⟨{ dialect := .posix }, Locale.c, { entries := ∅ }, {}, 0, [], ()⟩ : Shell Unit))
        [((Piece.field ⟨text "a:", false, true, false⟩).append Piece.quotedEmpty.field).append
          (Piece.field ⟨text ":b", false, true, false⟩)]).map Field.cells =
      posixFields Locale.c (text ":")
        [⟨text "a:", false, true, false⟩, .quotedEmpty, ⟨text ":b", false, true, false⟩] :=
  (fields_eq_posixFields _ Locale.c_singleByte _
    (.append (.append (.piece _) (.piece _)) (.piece _))).mpr (by decide)

/-- `$x""$x` with a blank in `x`: the empty string stands between two runs of white
    space, and the walk skips both as one. -/
theorem not_fields_eq_posixFields :
    ¬ ∀ (shell : Shell Unit) (ifs : Bytes) (f : Field) (ps : List Piece),
      shell.locale.SingleByte → Built f ps →
        (fields (Variables.updateIfsCache ifs shell) [f]).map Field.cells =
          posixFields shell.locale ifs ps := by
  intro h
  have hbuilt : Built (((Piece.field ⟨text " ", false, true, false⟩).append
      Piece.quotedEmpty.field).append (Piece.field ⟨text " ", false, true, false⟩))
      [⟨text " ", false, true, false⟩, .quotedEmpty, ⟨text " ", false, true, false⟩] :=
    .append (.append (.piece _) (.piece _)) (.piece _)
  have heq := h ⟨{ dialect := .posix }, Locale.c, { entries := ∅ }, {}, 0, [], ()⟩
    Variables.defaultIfs _ _ Locale.c_singleByte hbuilt
  have hcells := fieldIntoFields_cells Locale.c_singleByte hbuilt.tidy
    (Variables.ifsSeparators Locale.c Variables.defaultIfs)
  rw [roleOf_ifsSeparators Locale.c_singleByte, hbuilt.items] at hcells
  unfold fields at heq
  rw [List.flatMap_cons, List.flatMap_nil, List.append_nil] at heq
  have hnone := hcells.symm.trans heq
  revert hnone
  decide

end

end Nsh.Expand
