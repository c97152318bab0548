import Nsh.Input.Preserving
import Nsh.Read.Record
import Nsh.Lib.Run

/-!
# The bytes of `read` and `mapfile`

Standard input is the shell's own input frame; `-u` names a descriptor the shell
reads a byte at a time.  A source serves some bytes when every unit it is asked
for, the parser's filter off, is the next of them.  `ReadStream::record` takes
the bytes up to a delimiter, or up to the end.
-/

namespace Nsh.Read

open Nsh.Input

/-- `ReadStream::Standard`: the input frame of standard input. -/
def standardSource : Source InputFrame where
  nextUnit preserveNul frame :=
    .ok (if preserveNul then readInputUnitPreservingNul frame else readInputUnit frame)
  unread bytes frame := { frame with unreadCount := frame.unreadCount + bytes.length }
  bufferedLine frame :=
    if frame.unreadCount ≠ 0 ∨ frame.lineRemaining = 0 then []
    else frame.text.extract frame.position (frame.position + frame.lineRemaining)

section

variable {σ : Type}

/-- Whatever state holds some bytes, its next unit is the first of them. -/
structure Serves (src : Source σ) (holds : σ → Bytes → Prop) : Prop where
  next : ∀ s bytes, holds s bytes →
    ∃ s', src.nextUnit true s = .ok (.first bytes, s') ∧ holds s' bytes.tail

theorem serves_standardSource : Serves standardSource Holds where
  next frame bytes h := by
    obtain ⟨hunit, hrest⟩ := h.readInputUnitPreservingNul
    refine ⟨_, ?_, hrest⟩
    rw [← hunit]
    rfl

/-- What a descriptor has still to give, what was put back first. -/
def Descriptor.held (d : Descriptor) : Bytes :=
  d.pushback ++ if d.exhausted then [] else d.content

theorem serves_descriptorSource : Serves descriptorSource fun d bytes => d.held = bytes where
  next d bytes h := by
    subst h
    obtain ⟨content, pushback, exhausted⟩ := d
    cases pushback with
    | cons byte pushback => exact ⟨_, rfl, rfl⟩
    | nil =>
      cases exhausted with
      | true => exact ⟨_, rfl, rfl⟩
      | false =>
        cases content with
        | nil => exact ⟨_, rfl, rfl⟩
        | cons byte content => exact ⟨_, rfl, rfl⟩

end

/-! ### Both spellings -/

inductive ReadStream where
  | standard (frame : InputFrame)
  | descriptor (descriptor : Descriptor)

/-- The source a stream is. -/
def streamSource : Source ReadStream where
  nextUnit preserveNul
    | .standard frame =>
      (standardSource.nextUnit preserveNul frame).map fun next => (next.1, .standard next.2)
    | .descriptor d =>
      (descriptorSource.nextUnit preserveNul d).map fun next => (next.1, .descriptor next.2)
  unread bytes
    | .standard frame => .standard (standardSource.unread bytes frame)
    | .descriptor d => .descriptor (descriptorSource.unread bytes d)
  bufferedLine
    | .standard frame => standardSource.bufferedLine frame
    | .descriptor d => descriptorSource.bufferedLine d

/-- The stream is in order and has these bytes to give. -/
def ReadStream.Holds : ReadStream → Bytes → Prop
  | .standard frame, bytes => Input.Holds frame bytes
  | .descriptor d, bytes => d.held = bytes

theorem serves_streamSource : Serves streamSource ReadStream.Holds where
  next stream bytes h := by
    cases stream with
    | standard frame =>
      obtain ⟨frame', hnext, hrest⟩ := serves_standardSource.next frame bytes h
      refine ⟨.standard frame', ?_, hrest⟩
      unfold streamSource
      dsimp only
      rw [hnext]
      rfl
    | descriptor d =>
      obtain ⟨d', hnext, hrest⟩ := serves_descriptorSource.next d bytes h
      refine ⟨.descriptor d', ?_, hrest⟩
      unfold streamSource
      dsimp only
      rw [hnext]
      rfl

/-! ### Records -/

section

variable {σ : Type} (src : Source σ)

/-- `next_unit`, preserving NUL. -/
def nextUnit : Run σ Error InputUnit := fun s =>
  match src.nextUnit true s with
  | .ok (unit, s) => .done unit s
  | .error e => .failed e s

/-- The loop of `ReadStream::record`, with so many units to take. -/
def recordFrom (delimiter : UInt8) : Nat → Bytes → Run σ Error (Option Bytes)
  | 0, _ => ⊥
  | fuel + 1, record => do
    match ← nextUnit src with
    | .endOfInput => pure (if record = [] then none else some record)
    | .byte byte =>
      if byte = delimiter then pure (some (record ++ [byte]))
      else recordFrom delimiter fuel (record ++ [byte])

/-- `ReadStream::record`. -/
def record (delimiter : UInt8) (fuel : Nat) : Run σ Error (Option Bytes) :=
  recordFrom src delimiter fuel []

variable {src} {holds : σ → Bytes → Prop}

theorem Serves.nextUnit (h : Serves src holds) {s : σ} {bytes : Bytes} (hs : holds s bytes) :
    ∃ s', Read.nextUnit src s = .done (.first bytes) s' ∧ holds s' bytes.tail := by
  obtain ⟨s', hnext, hrest⟩ := h.next s bytes hs
  refine ⟨s', ?_, hrest⟩
  unfold Read.nextUnit
  rw [hnext]

theorem Serves.recordFrom (h : Serves src holds) (delimiter : UInt8) {bytes : Bytes}
    (taken : Bytes) {fuel : Nat} (hfuel : bytes.length < fuel) {s : σ} (hs : holds s bytes) :
    ∃ s', Read.recordFrom src delimiter fuel taken s =
        .done (if taken ++ (Terminated.front delimiter bytes).1 = [] then none
          else some (taken ++ (Terminated.front delimiter bytes).1)) s' ∧
      holds s' (Terminated.front delimiter bytes).2 := by
  induction bytes generalizing taken fuel s with
  | nil =>
    obtain ⟨fuel, rfl⟩ := Nat.exists_eq_succ_of_ne_zero (Nat.ne_of_gt hfuel)
    obtain ⟨s', hnext, hrest⟩ := h.nextUnit hs
    refine ⟨s', ?_, hrest⟩
    rw [Read.recordFrom, Run.bind_done hnext, Terminated.front, List.append_nil]
    rfl
  | cons byte rest ih =>
    rw [List.length_cons] at hfuel
    obtain ⟨fuel, rfl⟩ := Nat.exists_eq_succ_of_ne_zero (show fuel ≠ 0 by omega)
    obtain ⟨t, hnext, hrest⟩ := h.nextUnit hs
    rw [Read.recordFrom, Run.bind_done hnext, Terminated.front]
    show ∃ s', (if byte = delimiter then pure (some (taken ++ [byte]))
      else Read.recordFrom src delimiter fuel (taken ++ [byte])) t = _ ∧ _
    by_cases hdelimiter : byte = delimiter
    · rw [if_pos hdelimiter, if_pos hdelimiter, if_neg (List.append_ne_nil_of_right_ne_nil _
        (List.cons_ne_nil byte []))]
      exact ⟨t, rfl, hrest⟩
    · rw [if_neg hdelimiter, if_neg hdelimiter]
      have hih := ih (taken ++ [byte]) (show rest.length < fuel by omega) hrest
      rwa [List.append_assoc] at hih

/-- **A record** is what stands up to the first delimiter, that included. -/
theorem Serves.record (h : Serves src holds) (delimiter : UInt8) {bytes : Bytes} {fuel : Nat}
    (hfuel : bytes.length < fuel) {s : σ} (hs : holds s bytes) :
    ∃ s', Read.record src delimiter fuel s =
        .done (if bytes = [] then none else some (Terminated.front delimiter bytes).1) s' ∧
      holds s' (Terminated.front delimiter bytes).2 := by
  obtain ⟨s', hrecord, hrest⟩ := h.recordFrom delimiter [] hfuel hs
  refine ⟨s', ?_, hrest⟩
  rw [Read.record, hrecord, List.nil_append]
  by_cases hbytes : bytes = []
  · rw [if_pos hbytes, hbytes]
    rfl
  · rw [if_neg hbytes, if_neg (Terminated.front_ne_nil delimiter hbytes)]

end

end Nsh.Read
