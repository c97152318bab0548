import Nsh.Lib.Stretch
import Nsh.Shell.Bytes

/-!
# Input frames

The parser takes its input one unit at a time from a frame: a buffer with the line that is
read, strings pushed in front of it, and a descriptor the next line comes from.  What has
been read may be given back, by a count or as a pushed string.  `Reads` says which bytes a
frame is going to hand over; every operation is described by what it does to them.
-/

namespace Nsh.Input

inductive InputUnit where
  | byte (byte : UInt8)
  | endOfInput
deriving DecidableEq, Repr

/-- A pushed string, and where the text under it was being read. -/
structure InputOverlay where
  previousPosition : Nat
  previousLineRemaining : Nat
  string : Bytes
  unreadCount : Nat
deriving DecidableEq, Repr

/-- Where the parser reads from.  The overlays stand with the innermost first; `source` is
    what the descriptor has still to give. -/
structure InputFrame where
  lineRemaining : Nat
  eofLatched : Bool
  eofObserved : Bool
  position : Nat
  buffer : Bytes
  overlays : List InputOverlay
  unreadCount : Nat
  source : Bytes
deriving DecidableEq, Repr

/-- How many units stay in front of a refilled buffer. -/
def maxUnreadUnits : Nat := 16

/-- The text under the cursor. -/
def textUnder (buffer : Bytes) : List InputOverlay → Bytes
  | [] => buffer
  | overlay :: _ => overlay.string

def InputFrame.text (frame : InputFrame) : Bytes := textUnder frame.buffer frame.overlays

/-- `set_input_string`. -/
def setInputString (string : Bytes) : InputFrame :=
  { lineRemaining := string.length
    eofLatched := true
    eofObserved := false
    position := 0
    buffer := string
    overlays := []
    unreadCount := 0
    source := [] }

/-- The next line of a source without its NUL bytes, and what is behind it. -/
def nextLine : Bytes → Bytes × Bytes
  | [] => ([], [])
  | byte :: rest =>
    if byte = 0 then nextLine rest
    else if byte = 0x0a then ([byte], rest)
    else (byte :: (nextLine rest).1, (nextLine rest).2)

/-- `refill_input_buffer`. -/
def refillInputBuffer (frame : InputFrame) : InputUnit × InputFrame :=
  if frame.eofLatched then (.endOfInput, { frame with eofObserved := true })
  else
    let retained := min frame.position maxUnreadUnits
    match nextLine frame.source with
    | ([], rest) =>
      (.endOfInput, { frame with
        lineRemaining := 0
        eofLatched := true
        eofObserved := true
        source := rest })
    | (byte :: line, rest) =>
      (.byte byte, { frame with
        lineRemaining := line.length
        position := retained + 1
        buffer := frame.buffer.extract (frame.position - retained) frame.position ++ byte :: line
        source := rest })

/-- `push_string_input`. -/
def pushStringInput (string : Bytes) (frame : InputFrame) : InputFrame :=
  { frame with
    overlays := ⟨frame.position, frame.lineRemaining, string, frame.unreadCount⟩ :: frame.overlays
    position := 0
    lineRemaining := string.length
    unreadCount := 0 }

/-- `pop_string_input`, of the innermost overlay. -/
def popStringInput (overlay : InputOverlay) (overlays : List InputOverlay) (frame : InputFrame) :
    InputFrame :=
  { frame with
    overlays := overlays
    position := overlay.previousPosition
    lineRemaining := overlay.previousLineRemaining
    unreadCount := overlay.unreadCount }

/-- The next unit of the text under the cursor, if there is one. -/
def readText (frame : InputFrame) : Option (InputUnit × InputFrame) :=
  if frame.unreadCount ≠ 0 then
    some (.byte (frame.text.getD (frame.position - frame.unreadCount) 0),
      { frame with unreadCount := frame.unreadCount - 1 })
  else if 0 < frame.lineRemaining then
    some (.byte (frame.text.getD frame.position 0),
      { frame with
        lineRemaining := frame.lineRemaining - 1
        position := frame.position + 1 })
  else none

/-- The loop of `read_input_unit`, over the overlays of the frame. -/
def readThrough : List InputOverlay → InputFrame → InputUnit × InputFrame
  | [], frame => (readText frame).getD (refillInputBuffer frame)
  | overlay :: overlays, frame =>
    match readText frame with
    | some read => read
    | none => readThrough overlays (popStringInput overlay overlays frame)

def readInputUnit (frame : InputFrame) : InputUnit × InputFrame :=
  readThrough frame.overlays frame

def unreadInputUnit (frame : InputFrame) : InputFrame :=
  { frame with
    unreadCount := if frame.eofObserved then frame.unreadCount else frame.unreadCount + 1
    eofObserved := false }

/-! ### What a frame hands over -/

/-- The bytes of a text that are read before what is under it. -/
def ahead (text : Bytes) (position lineRemaining unreadCount : Nat) : Bytes :=
  text.extract (position - unreadCount) (position + lineRemaining)

/-- The bytes under the overlays. -/
def under (buffer : Bytes) : List InputOverlay → Bytes
  | [] => []
  | overlay :: overlays =>
    ahead (textUnder buffer overlays) overlay.previousPosition overlay.previousLineRemaining
        overlay.unreadCount ++
      under buffer overlays

def InputFrame.upcoming (frame : InputFrame) : Bytes :=
  ahead frame.text frame.position frame.lineRemaining frame.unreadCount ++
    under frame.buffer frame.overlays ++
    if frame.eofLatched then [] else frame.source.filter (· ≠ 0)

/-- A position in a text with what may be unread in front of it and what is left behind. -/
structure Fits (text : Bytes) (position lineRemaining unreadCount : Nat) : Prop where
  unread : unreadCount ≤ position
  within : position + lineRemaining ≤ text.length

/-- What is under the overlays fits. -/
def UnderFits (buffer : Bytes) : List InputOverlay → Prop
  | [] => True
  | overlay :: overlays =>
    Fits (textUnder buffer overlays) overlay.previousPosition overlay.previousLineRemaining
        overlay.unreadCount ∧
      UnderFits buffer overlays

/-- The frame is in order and is going to hand over these bytes. -/
structure Reads (frame : InputFrame) (bytes : Bytes) : Prop where
  fits : Fits frame.text frame.position frame.lineRemaining frame.unreadCount
  under : UnderFits frame.buffer frame.overlays
  upcoming : frame.upcoming = bytes

/-- The unit a reader finds in front of some bytes. -/
def InputUnit.first : Bytes → InputUnit
  | [] => .endOfInput
  | first :: _ => .byte first

theorem reads_setInputString (string : Bytes) : Reads (setInputString string) string := by
  refine ⟨⟨Nat.le_refl 0, ?_⟩, trivial, ?_⟩
  · exact Nat.le_of_eq (Nat.zero_add _)
  · simp [InputFrame.upcoming, setInputString, ahead, under, InputFrame.text, textUnder]

section

variable {text : Bytes} {position lineRemaining unreadCount : Nat}

theorem getD_of_lt {i : Nat} (h : i < text.length) : text.getD i 0 = text[i] := by
  rw [List.getD_eq_getElem?_getD, List.getElem?_eq_getElem h, Option.getD_some]

theorem ahead_unread (h : Fits text position lineRemaining (unreadCount + 1)) :
    ahead text position lineRemaining (unreadCount + 1) =
      text.getD (position - (unreadCount + 1)) 0 ::
        ahead text position lineRemaining unreadCount := by
  have hunread := h.unread
  have hwithin := h.within
  have hlt : position - (unreadCount + 1) < text.length := by omega
  rw [ahead, extract_cons (by omega) (List.getElem?_eq_getElem hlt), getD_of_lt hlt, ahead,
    show position - (unreadCount + 1) + 1 = position - unreadCount by omega]

theorem ahead_line (h : Fits text position (lineRemaining + 1) 0) :
    ahead text position (lineRemaining + 1) 0 =
      text.getD position 0 :: ahead text (position + 1) lineRemaining 0 := by
  have hwithin := h.within
  have hlt : position < text.length := by omega
  rw [ahead, Nat.sub_zero, extract_cons (by omega) (List.getElem?_eq_getElem hlt),
    getD_of_lt hlt, ahead, Nat.sub_zero,
    show position + (lineRemaining + 1) = position + 1 + lineRemaining by omega]

theorem ahead_nil : ahead text position 0 0 = [] := extract_self text position

end

section

variable {frame : InputFrame} {bytes : Bytes} {byte : UInt8}

/-- What is pushed is read first. -/
theorem Reads.pushStringInput (h : Reads frame bytes) (string : Bytes) :
    Reads (pushStringInput string frame) (string ++ bytes) := by
  refine ⟨⟨Nat.le_refl 0, Nat.le_of_eq (Nat.zero_add _)⟩, ⟨h.fits, h.under⟩, ?_⟩
  rw [← h.upcoming]
  simp [InputFrame.upcoming, Input.pushStringInput, ahead, Input.under, InputFrame.text,
    textUnder]

theorem nextLine_filter (source : Bytes) :
    (nextLine source).1 ++ (nextLine source).2.filter (· ≠ 0) = source.filter (· ≠ 0) := by
  induction source with
  | nil => rfl
  | cons byte rest ih =>
    rw [nextLine]
    by_cases hnul : byte = 0
    · rw [if_pos hnul, ih]
      simp [hnul]
    · rw [if_neg hnul]
      by_cases hnewline : byte = 0x0a
      · rw [if_pos hnewline]
        simp [hnewline]
      · rw [if_neg hnewline, List.cons_append, ih]
        simp [hnul]

theorem nextLine_nil {source : Bytes} (h : (nextLine source).1 = []) :
    (nextLine source).2 = [] := by
  induction source with
  | nil => rfl
  | cons byte rest ih =>
    rw [nextLine] at h ⊢
    split at h
    · next hnul =>
      rw [if_pos hnul]
      exact ih h
    · split at h
      · cases h
      · cases h

/-- The frame with a line in its buffer, the first byte of it handed over. -/
def InputFrame.filled (frame : InputFrame) (first : UInt8) (line rest : Bytes) : InputFrame :=
  { frame with
    lineRemaining := line.length
    position := min frame.position maxUnreadUnits + 1
    buffer := frame.buffer.extract (frame.position - min frame.position maxUnreadUnits)
      frame.position ++ first :: line
    source := rest }

/-- A filled frame hands over the rest of the line before its source. -/
theorem InputFrame.filled_ahead {frame : InputFrame}
    (hposition : frame.position ≤ frame.buffer.length) (first : UInt8) (line rest : Bytes) :
    Fits (frame.filled first line rest).buffer (frame.filled first line rest).position
        (frame.filled first line rest).lineRemaining 0 ∧
      ahead (frame.filled first line rest).buffer (frame.filled first line rest).position
        (frame.filled first line rest).lineRemaining 0 = line := by
  have hretained : (frame.buffer.extract (frame.position - min frame.position maxUnreadUnits)
      frame.position).length = min frame.position maxUnreadUnits := by
    rw [length_extract hposition]
    omega
  unfold InputFrame.filled
  dsimp only
  generalize frame.buffer.extract (frame.position - min frame.position maxUnreadUnits)
    frame.position = retained at hretained
  refine ⟨⟨Nat.zero_le _, ?_⟩, ?_⟩
  · rw [← hretained, List.length_append, List.length_cons]
    omega
  · rw [← hretained, ahead, Nat.sub_zero, List.extract_eq_take_drop, Nat.add_sub_cancel_left,
      ← List.drop_drop, List.drop_left, List.drop_one, List.tail_cons, List.take_length]

/-- A refilled frame is in order: the rest of the line is in front of its source. -/
theorem InputFrame.filled_fits {frame : InputFrame} (hoverlays : frame.overlays = [])
    (hunread : frame.unreadCount = 0)
    (hfits : Fits frame.text frame.position frame.lineRemaining frame.unreadCount)
    (first : UInt8) (line rest : Bytes) :
    Fits (frame.filled first line rest).text (frame.filled first line rest).position
        (frame.filled first line rest).lineRemaining (frame.filled first line rest).unreadCount ∧
      UnderFits (frame.filled first line rest).buffer (frame.filled first line rest).overlays ∧
      ahead (frame.filled first line rest).text (frame.filled first line rest).position
          (frame.filled first line rest).lineRemaining (frame.filled first line rest).unreadCount ++
        under (frame.filled first line rest).buffer (frame.filled first line rest).overlays
          = line := by
  have hbuffer : frame.text = frame.buffer := by rw [InputFrame.text, hoverlays]; rfl
  have hposition : frame.position ≤ frame.buffer.length := by
    have := hfits.within
    rw [hbuffer] at this
    omega
  obtain ⟨hfilled, hahead⟩ := InputFrame.filled_ahead hposition first line rest
  have htext : (frame.filled first line rest).text = (frame.filled first line rest).buffer := by
    show textUnder _ frame.overlays = _
    rw [hoverlays]
    rfl
  have hcount : (frame.filled first line rest).unreadCount = 0 := hunread
  have hnone : (frame.filled first line rest).overlays = [] := hoverlays
  rw [htext, hcount, hnone, hahead]
  exact ⟨hfilled, trivial, List.append_nil line⟩

/-- A refill hands over the first byte of the next line. -/
theorem Reads.refill (h : Reads frame bytes) (hoverlays : frame.overlays = [])
    (hunread : frame.unreadCount = 0) (hline : frame.lineRemaining = 0) :
    (refillInputBuffer frame).1 = .first bytes ∧
      Reads (refillInputBuffer frame).2 bytes.tail := by
  have hupcoming : (if frame.eofLatched then [] else frame.source.filter (· ≠ 0)) = bytes := by
    have hbytes := h.upcoming
    rwa [InputFrame.upcoming, hunread, hline, ahead_nil, hoverlays] at hbytes
  unfold refillInputBuffer
  by_cases hlatched : frame.eofLatched = true
  · rw [if_pos hlatched] at hupcoming
    rw [if_pos hlatched, ← hupcoming]
    refine ⟨rfl, h.fits, h.under, ?_⟩
    rw [List.tail_nil, hupcoming]
    exact h.upcoming
  · rw [if_neg hlatched] at hupcoming
    rw [if_neg hlatched]
    have hfilter := nextLine_filter frame.source
    have hend : (nextLine frame.source).1 = [] → (nextLine frame.source).2 = [] := nextLine_nil
    rw [hupcoming] at hfilter
    dsimp only
    generalize nextLine frame.source = next at hfilter hend ⊢
    obtain ⟨line, rest⟩ := next
    cases line with
    | nil =>
      obtain rfl : rest = [] := hend rfl
      obtain rfl : [] = bytes := hfilter
      have hunder := h.under
      have hfits := h.fits
      rw [hline, hunread] at hfits
      refine ⟨rfl, ?_, hunder, ?_⟩
      · show Fits frame.text frame.position 0 frame.unreadCount
        rw [hunread]
        exact hfits
      · show ahead frame.text frame.position 0 frame.unreadCount ++
          Input.under frame.buffer frame.overlays ++ [] = []
        rw [hunread, ahead_nil, hoverlays]
        rfl
    | cons first line =>
      obtain rfl : first :: (line ++ rest.filter (· ≠ 0)) = bytes := hfilter
      obtain ⟨hfits, hunder, hahead⟩ :=
        InputFrame.filled_fits hoverlays hunread h.fits first line rest
      refine ⟨rfl, hfits, hunder, ?_⟩
      show (frame.filled first line rest).upcoming = line ++ rest.filter (· ≠ 0)
      rw [InputFrame.upcoming, hahead]
      show line ++ (if frame.eofLatched then [] else rest.filter (· ≠ 0)) = _
      rw [if_neg hlatched]

/-- Reading the text under the cursor takes its first byte, and leaves the source. -/
theorem readText_held {read : InputUnit × InputFrame}
    (hunder : UnderFits frame.buffer frame.overlays)
    (hfits : Fits frame.text frame.position frame.lineRemaining frame.unreadCount)
    (hread : readText frame = some read) :
    ∃ byte, read.1 = .byte byte ∧
      ahead frame.text frame.position frame.lineRemaining frame.unreadCount
        = byte :: ahead read.2.text read.2.position read.2.lineRemaining read.2.unreadCount ∧
      Fits read.2.text read.2.position read.2.lineRemaining read.2.unreadCount ∧
      UnderFits read.2.buffer read.2.overlays ∧ read.2.buffer = frame.buffer ∧
      read.2.overlays = frame.overlays ∧ read.2.eofLatched = frame.eofLatched ∧
      read.2.source = frame.source := by
  unfold Input.readText at hread
  split at hread
  · next hunread =>
    obtain ⟨count, hcount⟩ := Nat.exists_eq_succ_of_ne_zero hunread
    rw [hcount] at hfits hread
    obtain rfl := Option.some.inj hread
    rw [hcount, ahead_unread hfits]
    refine ⟨_, rfl, rfl, ⟨?_, hfits.within⟩, hunder, rfl, rfl, rfl, rfl⟩
    have := hfits.unread
    show count ≤ frame.position
    omega
  · next hunread =>
    have hzero : frame.unreadCount = 0 := by simpa using hunread
    split at hread
    · next hline =>
      obtain ⟨remaining, hremaining⟩ := Nat.exists_eq_succ_of_ne_zero (Nat.ne_of_gt hline)
      rw [hremaining, hzero] at hfits
      rw [hremaining] at hread
      obtain rfl := Option.some.inj hread
      rw [hremaining, hzero, ahead_line hfits]
      refine ⟨_, rfl, rfl, ⟨?_, ?_⟩, hunder, rfl, rfl, rfl, rfl⟩
      · exact Nat.zero_le _
      · have := hfits.within
        show frame.position + 1 + remaining ≤ frame.text.length
        omega
    · cases hread

theorem Reads.readText {read : InputUnit × InputFrame} (h : Reads frame bytes)
    (hread : readText frame = some read) :
    read.1 = .first bytes ∧ Reads read.2 bytes.tail := by
  obtain ⟨byte, hbyte, hahead, hfits, hunder, hbuffer, hoverlays, hlatched, hsource⟩ :=
    readText_held h.under h.fits hread
  have hupcoming := h.upcoming
  rw [InputFrame.upcoming, hahead] at hupcoming
  rw [hbyte, ← hupcoming]
  refine ⟨rfl, hfits, hunder, ?_⟩
  rw [InputFrame.upcoming, hbuffer, hoverlays, hlatched, hsource]
  rfl

theorem readText_none (h : Input.readText frame = none) :
    frame.unreadCount = 0 ∧ frame.lineRemaining = 0 := by
  unfold Input.readText at h
  split at h
  · cases h
  · next hunread =>
    split at h
    · cases h
    · next hline => exact ⟨by simpa using hunread, by simpa using hline⟩

theorem Reads.pop {overlay : InputOverlay} {overlays : List InputOverlay}
    (h : Reads frame bytes) (hread : Input.readText frame = none)
    (hoverlays : frame.overlays = overlay :: overlays) :
    Reads (popStringInput overlay overlays frame) bytes := by
  obtain ⟨hunread, hline⟩ := readText_none hread
  have hunder := h.under
  have hupcoming := h.upcoming
  rw [hoverlays] at hunder
  rw [InputFrame.upcoming, hunread, hline, ahead_nil, hoverlays] at hupcoming
  exact ⟨hunder.1, hunder.2, hupcoming⟩

theorem Reads.readThrough (h : Reads frame bytes) :
    (readThrough frame.overlays frame).1 = .first bytes ∧
      Reads (readThrough frame.overlays frame).2 bytes.tail := by
  generalize hoverlays : frame.overlays = overlays
  induction overlays generalizing frame with
  | nil =>
    rw [Input.readThrough]
    cases hread : Input.readText frame with
    | some read => exact h.readText hread
    | none =>
      obtain ⟨hunread, hline⟩ := readText_none hread
      exact h.refill hoverlays hunread hline
  | cons overlay overlays ih =>
    rw [Input.readThrough]
    cases hread : Input.readText frame with
    | some read => exact h.readText hread
    | none => exact ih (h.pop hread hoverlays) rfl

/-- **Reading a unit** takes the first byte, or finds the end of the input. -/
theorem Reads.readInputUnit (h : Reads frame bytes) :
    (readInputUnit frame).1 = .first bytes ∧ Reads (readInputUnit frame).2 bytes.tail :=
  h.readThrough

/-! ### Giving a unit back -/

/-- What a read leaves: the byte it took right behind the cursor, or the end observed. -/
def Leaves (read : InputUnit × InputFrame) (eofObserved : Bool) : Prop :=
  match read.1 with
  | .byte byte =>
    read.2.unreadCount < read.2.position ∧
      read.2.text.getD (read.2.position - (read.2.unreadCount + 1)) 0 = byte ∧
      read.2.eofObserved = eofObserved
  | .endOfInput => read.2.eofObserved = true

theorem readText_leaves {read : InputUnit × InputFrame}
    (h : Fits frame.text frame.position frame.lineRemaining frame.unreadCount)
    (hread : Input.readText frame = some read) : Leaves read frame.eofObserved := by
  have hunread := h.unread
  unfold Input.readText at hread
  split at hread
  · next hne =>
    obtain rfl := Option.some.inj hread
    refine ⟨?_, ?_, rfl⟩
    · show frame.unreadCount - 1 < frame.position
      omega
    · show frame.text.getD (frame.position - (frame.unreadCount - 1 + 1)) 0 = _
      rw [show frame.unreadCount - 1 + 1 = frame.unreadCount by omega]
  · next hne =>
    split at hread
    · obtain rfl := Option.some.inj hread
      have hzero : frame.unreadCount = 0 := by simpa using hne
      refine ⟨?_, ?_, rfl⟩
      · show frame.unreadCount < frame.position + 1
        omega
      · show frame.text.getD (frame.position + 1 - (frame.unreadCount + 1)) 0 = _
        rw [hzero, Nat.add_sub_cancel]
    · cases hread

theorem refillInputBuffer_leaves (hoverlays : frame.overlays = [])
    (hunread : frame.unreadCount = 0)
    (h : Fits frame.text frame.position frame.lineRemaining frame.unreadCount) :
    Leaves (refillInputBuffer frame) frame.eofObserved := by
  unfold refillInputBuffer
  split
  · exact rfl
  · dsimp only
    generalize nextLine frame.source = next
    obtain ⟨line, rest⟩ := next
    cases line with
    | nil => exact rfl
    | cons first line =>
      have hbuffer : frame.text = frame.buffer := by rw [InputFrame.text, hoverlays]; rfl
      have hposition : frame.position ≤ frame.buffer.length := by
        have := h.within
        rw [hbuffer] at this
        omega
      have hretained : (frame.buffer.extract (frame.position - min frame.position maxUnreadUnits)
          frame.position).length = min frame.position maxUnreadUnits := by
        rw [length_extract hposition]
        omega
      generalize frame.buffer.extract (frame.position - min frame.position maxUnreadUnits)
        frame.position = retained at hretained
      refine ⟨?_, ?_, rfl⟩
      · show frame.unreadCount < min frame.position maxUnreadUnits + 1
        omega
      · show (textUnder (retained ++ first :: line) frame.overlays).getD
          (min frame.position maxUnreadUnits + 1 - (frame.unreadCount + 1)) 0 = first
        rw [hunread, hoverlays, Nat.add_sub_cancel, ← hretained]
        simp [textUnder]

theorem Reads.readThrough_leaves (h : Reads frame bytes) :
    Leaves (Input.readThrough frame.overlays frame) frame.eofObserved := by
  generalize hoverlays : frame.overlays = overlays
  induction overlays generalizing frame with
  | nil =>
    rw [Input.readThrough]
    cases hread : Input.readText frame with
    | some read => exact readText_leaves h.fits hread
    | none => exact refillInputBuffer_leaves hoverlays (readText_none hread).1 h.fits
  | cons overlay overlays ih =>
    rw [Input.readThrough]
    cases hread : Input.readText frame with
    | some read => exact readText_leaves h.fits hread
    | none => exact ih (h.pop hread hoverlays) rfl

theorem Reads.givenBack (h : Reads frame bytes) (hlt : frame.unreadCount < frame.position)
    (hopen : frame.eofObserved = false) :
    Reads (unreadInputUnit frame)
      (frame.text.getD (frame.position - (frame.unreadCount + 1)) 0 :: bytes) := by
  have hfits : Fits frame.text frame.position frame.lineRemaining (frame.unreadCount + 1) :=
    ⟨hlt, h.fits.within⟩
  have hunread : unreadInputUnit frame =
      { frame with unreadCount := frame.unreadCount + 1, eofObserved := false } := by
    rw [unreadInputUnit, hopen]
    rfl
  rw [hunread]
  refine ⟨hfits, h.under, ?_⟩
  rw [← h.upcoming, InputFrame.upcoming, InputFrame.upcoming]
  show ahead frame.text frame.position frame.lineRemaining (frame.unreadCount + 1) ++ _ ++ _ = _
  rw [ahead_unread hfits]
  rfl

/-- A frame that hands over these bytes and has not been found at its end. -/
structure Ready (frame : InputFrame) (bytes : Bytes) : Prop where
  reads : Reads frame bytes
  unobserved : frame.eofObserved = false

theorem Ready.readInputUnit (h : Ready frame (byte :: bytes)) :
    (readInputUnit frame).1 = .byte byte ∧ Ready (readInputUnit frame).2 bytes := by
  obtain ⟨hunit, hreads⟩ := h.reads.readInputUnit
  have hleaves : Leaves (Input.readInputUnit frame) frame.eofObserved := h.reads.readThrough_leaves
  rw [Leaves, hunit] at hleaves
  exact ⟨hunit, hreads, hleaves.2.2.trans h.unobserved⟩

/-- **Reading a unit and giving it back** leaves what the frame hands over. -/
theorem Ready.unread (h : Ready frame bytes) :
    Ready (unreadInputUnit (Input.readInputUnit frame).2) bytes := by
  obtain ⟨hunit, hreads⟩ := h.reads.readInputUnit
  have hleaves : Leaves (Input.readInputUnit frame) frame.eofObserved := h.reads.readThrough_leaves
  rw [Leaves, hunit] at hleaves
  refine ⟨?_, rfl⟩
  cases bytes with
  | nil =>
    have hobserved : (Input.readInputUnit frame).2.eofObserved = true := hleaves
    rw [unreadInputUnit, hobserved]
    exact ⟨hreads.fits, hreads.under, hreads.upcoming⟩
  | cons byte bytes =>
    obtain ⟨hlt, hbyte, hobserved⟩ := hleaves
    have hback := hreads.givenBack hlt (hobserved.trans h.unobserved)
    rwa [hbyte] at hback

end

end Nsh.Input
