import Mathlib.Data.Multiset.AddSub
import Nsh.Aliases.Table
import Nsh.Input.Preserving
import Nsh.Input.Unread

/-!
# The texts of aliases in a frame

The text of an alias is pushed in front of the line like any other string.  A text that is
popped waits, and its alias is released before the next read; what waits when a text is
pushed is hidden under it.  Popping a text puts what was hidden under it, and the text
itself, in the place of what waits.
-/

namespace Nsh.Aliases

open Nsh.Input (InputUnit maxUnreadUnits)

structure InputOverlay where
  previousPosition : Nat
  previousLineRemaining : Nat
  /-- The alias whose text this is; nothing where a here-document put bytes back. -/
  aliasName : Option Bytes
  string : Bytes
  deferredOverlays : List InputOverlay
  unreadCount : Nat

structure InputFrame where
  previous : Option Nat
  lineRemaining : Nat
  eofLatched : Bool
  eofObserved : Bool
  position : Nat
  buffer : Bytes
  /-- The innermost first. -/
  overlays : List InputOverlay
  deferredOverlays : List InputOverlay
  unreadCount : Nat
  source : Bytes

/-! ### Names -/

mutual

/-- The aliases an overlay keeps from being expanded, its own and those hidden under it. -/
def InputOverlay.names : InputOverlay → Multiset Bytes
  | ⟨_, _, aliasName, _, deferred, _⟩ => (aliasName.toList : Multiset Bytes) + namesOf deferred

def namesOf : List InputOverlay → Multiset Bytes
  | [] => 0
  | overlay :: overlays => overlay.names + namesOf overlays

end

def InputFrame.names (frame : InputFrame) : Multiset Bytes :=
  namesOf frame.overlays + namesOf frame.deferredOverlays

/-! ### Releasing -/

def finishOverlay (aliasName : Option Bytes) (aliases : AliasTable) : AliasTable :=
  match aliasName with
  | none => aliases
  | some name => aliases.finishExpansion name

mutual

def InputOverlay.release : InputOverlay → AliasTable → AliasTable
  | ⟨_, _, aliasName, _, deferred, _⟩, aliases =>
    releaseInputOverlays deferred (finishOverlay aliasName aliases)

/-- `release_input_overlays`, the last first. -/
def releaseInputOverlays : List InputOverlay → AliasTable → AliasTable
  | [], aliases => aliases
  | overlay :: overlays, aliases => overlay.release (releaseInputOverlays overlays aliases)

end

/-- What releasing some aliases makes of the table. -/
def Releases (names : Multiset Bytes) (aliases after : AliasTable) : Prop :=
  ∀ name, after name = if name ∈ names then AliasTable.finished (aliases name) else aliases name

theorem Releases.add {m n : Multiset Bytes} {a b c : AliasTable} (h : Releases m a b)
    (h' : Releases n b c) : Releases (n + m) a c := by
  intro name
  rw [h' name, h name]
  by_cases hm : name ∈ m
  · rw [if_pos hm, if_pos (Multiset.mem_add.mpr (.inr hm))]
    split
    · exact AliasTable.finished_finished _
    · rfl
  · rw [if_neg hm]
    by_cases hn : name ∈ n
    · rw [if_pos hn, if_pos (Multiset.mem_add.mpr (.inl hn))]
    · rw [if_neg hn, if_neg]
      rw [Multiset.mem_add]
      exact fun hor => hor.elim hn hm

theorem releases_finishOverlay (aliasName : Option Bytes) (aliases : AliasTable) :
    Releases aliasName.toList aliases (finishOverlay aliasName aliases) := by
  intro name
  cases aliasName with
  | none => rfl
  | some own =>
    show Function.update aliases own _ name = _
    by_cases hsame : name = own
    · rw [hsame, Function.update_self, if_pos (by simp)]
    · rw [Function.update_of_ne hsame, if_neg (by simpa using hsame)]

mutual

theorem InputOverlay.releases (overlay : InputOverlay) (aliases : AliasTable) :
    Releases overlay.names aliases (overlay.release aliases) := by
  obtain ⟨position, lineRemaining, aliasName, string, deferred, unreadCount⟩ := overlay
  rw [InputOverlay.names, InputOverlay.release, add_comm]
  exact (releases_finishOverlay aliasName aliases).add (releases_releaseInputOverlays deferred _)

theorem releases_releaseInputOverlays (overlays : List InputOverlay) (aliases : AliasTable) :
    Releases (namesOf overlays) aliases (releaseInputOverlays overlays aliases) := by
  cases overlays with
  | nil =>
    rw [namesOf, releaseInputOverlays]
    exact fun name => (if_neg (Multiset.notMem_zero name)).symm
  | cons overlay overlays =>
    rw [namesOf, releaseInputOverlays]
    exact (releases_releaseInputOverlays overlays aliases).add (overlay.releases _)

end

theorem namesOf_append (overlays others : List InputOverlay) :
    namesOf (overlays ++ others) = namesOf overlays + namesOf others := by
  induction overlays with
  | nil => rw [List.nil_append, namesOf, zero_add]
  | cons overlay overlays ih => rw [List.cons_append, namesOf, namesOf, ih, add_assoc]

theorem namesOf_reverse (overlays : List InputOverlay) :
    namesOf overlays.reverse = namesOf overlays := by
  induction overlays with
  | nil => rfl
  | cons overlay overlays ih =>
    rw [List.reverse_cons, namesOf_append, ih, namesOf, namesOf, namesOf, add_zero, add_comm]

/-! ### Reading -/

def InputOverlay.saved (overlay : InputOverlay) : Input.InputOverlay where
  previousPosition := overlay.previousPosition
  previousLineRemaining := overlay.previousLineRemaining
  string := overlay.string
  unreadCount := overlay.unreadCount

/-- The frame without its aliases. -/
def InputFrame.plain (frame : InputFrame) : Input.InputFrame where
  lineRemaining := frame.lineRemaining
  eofLatched := frame.eofLatched
  eofObserved := frame.eofObserved
  position := frame.position
  buffer := frame.buffer
  overlays := frame.overlays.map InputOverlay.saved
  unreadCount := frame.unreadCount
  source := frame.source

/-- The frame with its cursor and its buffer moved on. -/
def InputFrame.moved (frame : InputFrame) (plain : Input.InputFrame) : InputFrame :=
  { frame with
    lineRemaining := plain.lineRemaining
    eofLatched := plain.eofLatched
    eofObserved := plain.eofObserved
    position := plain.position
    buffer := plain.buffer
    unreadCount := plain.unreadCount
    source := plain.source }

/-- The next unit of the text under the cursor, if there is one. -/
def readText (frame : InputFrame) : Option (InputUnit × InputFrame) :=
  (Input.readText frame.plain).map fun read => (read.1, frame.moved read.2)

/-- `refill_input_buffer`. -/
def refillInputBuffer (preserveNul : Bool) (frame : InputFrame) : InputUnit × InputFrame :=
  let read := if preserveNul then Input.refillPreservingNul frame.plain
    else Input.refillInputBuffer frame.plain
  (read.1, frame.moved read.2)

/-- `push_string_input`, of the frame. -/
def pushStringInput (string : Bytes) (aliasName : Option Bytes) (frame : InputFrame) :
    InputFrame :=
  { frame with
    overlays :=
      { previousPosition := frame.position
        previousLineRemaining := frame.lineRemaining
        aliasName := aliasName
        string := string
        deferredOverlays := frame.deferredOverlays
        unreadCount := frame.unreadCount } :: frame.overlays
    deferredOverlays := []
    position := 0
    lineRemaining := string.length
    unreadCount := 0 }

/-- `pop_string_input`, of the innermost overlay.  What waits is replaced. -/
def popStringInput (overlay : InputOverlay) (overlays : List InputOverlay) (frame : InputFrame) :
    InputFrame :=
  { frame with
    overlays := overlays
    deferredOverlays := overlay.deferredOverlays ++ [{ overlay with deferredOverlays := [] }]
    position := overlay.previousPosition
    lineRemaining := overlay.previousLineRemaining
    unreadCount := overlay.unreadCount }

/-- The loop of `read_input_unit_with_mode`, over the overlays of the frame. -/
def readThrough (preserveNul : Bool) : List InputOverlay → InputFrame → InputUnit × InputFrame
  | [], frame => (readText frame).getD (refillInputBuffer preserveNul frame)
  | overlay :: overlays, frame =>
    match readText frame with
    | some read => read
    | none => readThrough preserveNul overlays (popStringInput overlay overlays frame)

/-- `clear_input_overlays`, of the frame. -/
def clearInputOverlays (frame : InputFrame) : InputFrame := { frame with deferredOverlays := [] }

/-- `read_input_unit_with_mode`: the unit, the frame, and the table with what waited
    released. -/
def readInputUnit (preserveNul : Bool) (frame : InputFrame) (aliases : AliasTable) :
    InputUnit × InputFrame × AliasTable :=
  let read := readThrough preserveNul frame.overlays (clearInputOverlays frame)
  (read.1, read.2, releaseInputOverlays frame.deferredOverlays aliases)

/-! ### What a read passes over -/

/-- Nothing of the text is left. -/
def InputFrame.readOut (frame : InputFrame) : Bool :=
  frame.unreadCount == 0 && frame.lineRemaining == 0

/-- Nothing is left of the text under the overlay. -/
def InputOverlay.readOut (overlay : InputOverlay) : Bool :=
  overlay.unreadCount == 0 && overlay.previousLineRemaining == 0

/-- The aliases no frame holds any more when a read pops these overlays one after another,
    with some waiting already. -/
def dropped (waiting : Multiset Bytes) : List InputOverlay → Multiset Bytes
  | [] => 0
  | overlay :: overlays =>
    waiting + if overlay.readOut then dropped overlay.names overlays else 0

/-- No alias is dropped when the next unit is read. -/
def InputFrame.LosesNothing (frame : InputFrame) : Prop :=
  frame.readOut = true → dropped 0 frame.overlays = 0

theorem names_pushStringInput (string : Bytes) (aliasName : Option Bytes) (frame : InputFrame) :
    (pushStringInput string aliasName frame).names =
      (aliasName.toList : Multiset Bytes) + frame.names := by
  show namesOf (_ :: frame.overlays) + namesOf [] = _
  rw [namesOf, namesOf, InputOverlay.names, InputFrame.names, add_zero, add_assoc,
    add_comm (namesOf frame.deferredOverlays)]

theorem names_popStringInput (overlay : InputOverlay) (overlays : List InputOverlay)
    (frame : InputFrame) :
    (popStringInput overlay overlays frame).names = overlay.names + namesOf overlays := by
  obtain ⟨position, lineRemaining, aliasName, string, deferred, unreadCount⟩ := overlay
  show namesOf overlays + namesOf (deferred ++
    [⟨position, lineRemaining, aliasName, string, [], unreadCount⟩]) = _
  rw [namesOf_append, namesOf, namesOf, InputOverlay.names, InputOverlay.names, namesOf, add_zero,
    add_zero, add_comm (namesOf deferred), add_comm]

theorem readText_none {frame : InputFrame} (h : readText frame = none) : frame.readOut = true := by
  obtain ⟨hunread, hline⟩ := Input.readText_none (Option.map_eq_none_iff.mp h)
  simp only [InputFrame.plain] at hunread hline
  rw [InputFrame.readOut, hunread, hline]
  rfl

theorem readText_some {frame : InputFrame} {read : InputUnit × InputFrame}
    (h : readText frame = some read) : frame.readOut = false ∧ read.2.names = frame.names := by
  obtain ⟨plain, hplain, rfl⟩ := Option.map_eq_some_iff.mp h
  refine ⟨?_, rfl⟩
  rw [InputFrame.readOut]
  unfold Input.readText at hplain
  split at hplain
  · next hunread => simpa [InputFrame.plain] using fun hzero => absurd hzero hunread
  · split at hplain
    · next hline =>
      simp only [InputFrame.plain] at hline
      simp [Nat.ne_of_gt hline]
    · cases hplain

/-- A read keeps every alias but those it drops. -/
theorem readThrough_names (preserveNul : Bool) {overlays : List InputOverlay} {frame : InputFrame}
    (hoverlays : frame.overlays = overlays) :
    (readThrough preserveNul overlays frame).2.names +
        (if frame.readOut then dropped (namesOf frame.deferredOverlays) overlays else 0) =
      frame.names := by
  induction overlays generalizing frame with
  | nil =>
    rw [readThrough, dropped, ite_self, add_zero]
    cases hread : readText frame with
    | some read => exact (readText_some hread).2
    | none => rfl
  | cons overlay overlays ih =>
    rw [readThrough]
    cases hread : readText frame with
    | some read =>
      obtain ⟨hleft, hnames⟩ := readText_some hread
      rw [hleft, if_neg Bool.false_ne_true, add_zero]
      exact hnames
    | none =>
      rw [readText_none hread, if_pos rfl, dropped]
      have hpopped := ih (show (popStringInput overlay overlays frame).overlays = overlays from rfl)
      have hwaiting :
          namesOf (popStringInput overlay overlays frame).deferredOverlays = overlay.names := by
        have hnames := names_popStringInput overlay overlays frame
        rw [InputFrame.names, add_comm] at hnames
        exact add_right_cancel hnames
      have hout : (popStringInput overlay overlays frame).readOut = overlay.readOut := rfl
      have hframe : frame.names =
          overlay.names + namesOf overlays + namesOf frame.deferredOverlays := by
        rw [InputFrame.names, hoverlays, namesOf]
      rw [hwaiting, names_popStringInput, hout] at hpopped
      rw [hframe, ← hpopped, add_assoc, add_comm (namesOf frame.deferredOverlays)]

/-- A read releases what waits and keeps every other alias but those it drops. -/
theorem readInputUnit_names (preserveNul : Bool) (frame : InputFrame) (aliases : AliasTable) :
    (readInputUnit preserveNul frame aliases).2.1.names +
        (if frame.readOut then dropped 0 frame.overlays else 0) +
        namesOf frame.deferredOverlays =
      frame.names := by
  have hthrough := readThrough_names preserveNul
    (show (clearInputOverlays frame).overlays = frame.overlays from rfl)
  have hcleared : (clearInputOverlays frame).names = namesOf frame.overlays := add_zero _
  rw [hcleared] at hthrough
  have hframe : frame.names = namesOf frame.overlays + namesOf frame.deferredOverlays := rfl
  rw [hframe, ← hthrough]
  rfl

theorem plain_moved {frame : InputFrame} {plain : Input.InputFrame}
    (hoverlays : plain.overlays = frame.plain.overlays) : (frame.moved plain).plain = plain := by
  cases plain
  dsimp only at hoverlays
  subst hoverlays
  rfl

/-- Without its aliases a frame is read like any other. -/
theorem readThrough_plain {overlays : List InputOverlay} {frame : InputFrame}
    (hoverlays : frame.overlays = overlays) :
    ((readThrough false overlays frame).1, (readThrough false overlays frame).2.plain) =
      Input.readThrough (overlays.map InputOverlay.saved) frame.plain := by
  induction overlays generalizing frame with
  | nil =>
    rw [readThrough, List.map_nil, Input.readThrough, readText]
    cases hread : Input.readText frame.plain with
    | some read =>
      rw [Option.map_some, Option.getD_some, Option.getD_some,
        plain_moved (Input.readText_overlays hread)]
    | none =>
      rw [Option.map_none, Option.getD_none, Option.getD_none, refillInputBuffer]
      dsimp only
      rw [if_neg Bool.false_ne_true, plain_moved (Input.refillInputBuffer_overlays _)]
  | cons overlay overlays ih =>
    rw [readThrough, List.map_cons, Input.readThrough, readText]
    cases hread : Input.readText frame.plain with
    | some read =>
      rw [Option.map_some]
      dsimp only
      rw [plain_moved (Input.readText_overlays hread)]
    | none =>
      rw [Option.map_none]
      exact ih (show (popStringInput overlay overlays frame).overlays = overlays from rfl)

end Nsh.Aliases
