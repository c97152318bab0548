import Nsh.Input.Frame
import Nsh.Lib.Terminated

/-!
# Reading a frame with its NUL bytes

`read -d ''` and `mapfile` take the bytes of a frame without the parser's filter.
A refill then keeps the whole next line of the descriptor, so nothing a frame
holds is lost on the way.
-/

namespace Nsh.Input

/-- `refill_input_buffer`, preserving NUL. -/
def refillPreservingNul (frame : InputFrame) : InputUnit × InputFrame :=
  if frame.eofLatched then (.endOfInput, { frame with eofObserved := true })
  else
    match Terminated.front 0x0a frame.source with
    | ([], _) =>
      (.endOfInput, { frame with
        lineRemaining := 0
        eofLatched := true
        eofObserved := true })
    | (byte :: line, rest) => (.byte byte, frame.filled byte line rest)

/-- The loop of `read_input_unit_with_mode`, preserving NUL. -/
def readThroughPreservingNul : List InputOverlay → InputFrame → InputUnit × InputFrame
  | [], frame => (readText frame).getD (refillPreservingNul frame)
  | overlay :: overlays, frame =>
    match readText frame with
    | some read => read
    | none => readThroughPreservingNul overlays (popStringInput overlay overlays frame)

def readInputUnitPreservingNul (frame : InputFrame) : InputUnit × InputFrame :=
  readThroughPreservingNul frame.overlays frame

/-- Every byte a frame still has to give. -/
def InputFrame.held (frame : InputFrame) : Bytes :=
  ahead frame.text frame.position frame.lineRemaining frame.unreadCount ++
    under frame.buffer frame.overlays ++
    if frame.eofLatched then [] else frame.source

/-- The frame is in order and holds these bytes. -/
structure Holds (frame : InputFrame) (bytes : Bytes) : Prop where
  fits : Fits frame.text frame.position frame.lineRemaining frame.unreadCount
  under : UnderFits frame.buffer frame.overlays
  held : frame.held = bytes

section

variable {frame : InputFrame} {bytes : Bytes}

/-- A refill hands over the first byte of the next line. -/
theorem Holds.refill (h : Holds frame bytes) (hoverlays : frame.overlays = [])
    (hunread : frame.unreadCount = 0) (hline : frame.lineRemaining = 0) :
    (refillPreservingNul frame).1 = .first bytes ∧
      Holds (refillPreservingNul frame).2 bytes.tail := by
  have hheld : (if frame.eofLatched then [] else frame.source) = bytes := by
    have hbytes := h.held
    rwa [InputFrame.held, hunread, hline, ahead_nil, hoverlays] at hbytes
  unfold refillPreservingNul
  by_cases hlatched : frame.eofLatched = true
  · rw [if_pos hlatched] at hheld
    rw [if_pos hlatched, ← hheld]
    refine ⟨rfl, h.fits, h.under, ?_⟩
    rw [List.tail_nil, hheld]
    exact h.held
  · rw [if_neg hlatched] at hheld
    rw [if_neg hlatched, hheld]
    cases hbytes : bytes with
    | nil =>
      have hfits := h.fits
      rw [hline] at hfits
      refine ⟨rfl, hfits, h.under, ?_⟩
      show ahead frame.text frame.position 0 frame.unreadCount ++
        Input.under frame.buffer frame.overlays ++ [] = []
      rw [hunread, ahead_nil, hoverlays]
      rfl
    | cons byte behind =>
      have hne : byte :: behind ≠ [] := List.cons_ne_nil byte behind
      have hfront := Terminated.front_append 0x0a (byte :: behind)
      have hsome : (Terminated.front 0x0a (byte :: behind)).1 ≠ [] :=
        Terminated.front_ne_nil 0x0a hne
      generalize Terminated.front 0x0a (byte :: behind) = next at hfront hsome ⊢
      obtain ⟨line, rest⟩ := next
      cases line with
      | nil => exact absurd rfl hsome
      | cons first line =>
        obtain ⟨rfl, rfl⟩ := List.cons.inj hfront
        obtain ⟨hfits, hunder, hahead⟩ :=
          InputFrame.filled_fits hoverlays hunread h.fits first line rest
        refine ⟨rfl, hfits, hunder, ?_⟩
        show (frame.filled first line rest).held = line ++ rest
        rw [InputFrame.held, hahead]
        show line ++ (if frame.eofLatched then [] else rest) = _
        rw [if_neg hlatched]

theorem Holds.readText {read : InputUnit × InputFrame} (h : Holds frame bytes)
    (hread : readText frame = some read) :
    read.1 = .first bytes ∧ Holds read.2 bytes.tail := by
  obtain ⟨byte, hbyte, hahead, hfits, hunder, hbuffer, hoverlays, hlatched, hsource⟩ :=
    readText_held h.under h.fits hread
  have hheld := h.held
  rw [InputFrame.held, hahead] at hheld
  rw [hbyte, ← hheld]
  refine ⟨rfl, hfits, hunder, ?_⟩
  rw [InputFrame.held, hbuffer, hoverlays, hlatched, hsource]
  rfl

theorem Holds.pop {overlay : InputOverlay} {overlays : List InputOverlay}
    (h : Holds frame bytes) (hread : Input.readText frame = none)
    (hoverlays : frame.overlays = overlay :: overlays) :
    Holds (popStringInput overlay overlays frame) bytes := by
  obtain ⟨hunread, hline⟩ := readText_none hread
  have hunder := h.under
  have hheld := h.held
  rw [hoverlays] at hunder
  rw [InputFrame.held, hunread, hline, ahead_nil, hoverlays] at hheld
  exact ⟨hunder.1, hunder.2, hheld⟩

/-- **Reading a unit without the filter** takes the first byte a frame holds. -/
theorem Holds.readInputUnitPreservingNul (h : Holds frame bytes) :
    (readInputUnitPreservingNul frame).1 = .first bytes ∧
      Holds (readInputUnitPreservingNul frame).2 bytes.tail := by
  unfold Input.readInputUnitPreservingNul
  generalize hoverlays : frame.overlays = overlays
  induction overlays generalizing frame with
  | nil =>
    rw [readThroughPreservingNul]
    cases hread : Input.readText frame with
    | some read => exact h.readText hread
    | none =>
      obtain ⟨hunread, hline⟩ := readText_none hread
      exact h.refill hoverlays hunread hline
  | cons overlay overlays ih =>
    rw [readThroughPreservingNul]
    cases hread : Input.readText frame with
    | some read => exact h.readText hread
    | none => exact ih (h.pop hread hoverlays) rfl

end

end Nsh.Input
