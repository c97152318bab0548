import Nsh.Lib.Channel
import Nsh.Outputs.Model

/-!
# What the writers deliver

Each writer is a channel: what the kernel has taken has arrived, what is pending
waits.  An operation that succeeds keeps the channel, one that fails has cut it with
nothing left pending, whatever the kernel takes at a time and however often it
interrupts.  A run of operations is then a run of each writer's channel, and the two
writers without a buffer never hold anything back.
-/

namespace Nsh.Outputs

open Nsh.Run

variable {K : Type} (kernel : Kernel K)

/-- What has arrived at the kernel, and what waits in the buffer. -/
def Output.channel (output : Output) : Channel UInt8 := ⟨output.accepted, output.pending⟩

/-- The pending bytes fit the buffer. -/
def Output.Fits (output : Output) : Prop := output.pending.length ≤ output.bufferCapacity

/-- The kernel has taken these bytes, and nothing else has happened to the writer. -/
def Took (bytes : Bytes) (w t : Writer K) : Prop :=
  t.output = { w.output with accepted := w.output.accepted ++ bytes }

theorem Took.nothing (w : Writer K) (next : K) : Took [] w { w with kernel := next } := by
  rw [Took, List.append_nil]

theorem Took.trans {bytes more : Bytes} {w t u : Writer K} (h : Took bytes w t)
    (h' : Took more t u) : Took (bytes ++ more) w u := by
  rw [Took, h', h, List.append_assoc]

/-! ### Writing to the descriptor -/

/-- How a write to the descriptor may end. -/
def WritesTo (bytes : Bytes) (w : Writer K) : Outcome (Writer K) IoError Unit → Prop
  | .done _ t => Took bytes w t
  | .failed _ t => ∃ part, part <+: bytes ∧ Took part w t
  | .unfinished => True

theorem WritesTo.behind {bytes part rest : Bytes} {w t : Writer K} (htook : Took part w t)
    (hbytes : part ++ rest = bytes) {outcome : Outcome (Writer K) IoError Unit}
    (h : WritesTo rest t outcome) : WritesTo bytes w outcome := by
  cases outcome with
  | done a u =>
    rw [← hbytes]
    exact htook.trans h
  | failed e u =>
    obtain ⟨more, hmore, htaken⟩ := h
    exact ⟨part ++ more, hbytes ▸ (List.prefix_append_right_inj part).mpr hmore,
      htook.trans htaken⟩
  | unfinished => trivial

theorem writeOnce_took (descriptor : Nat) (bytes : Bytes) (fuel : Nat) (w : Writer K) :
    (∀ count t, writeOnce kernel descriptor bytes fuel w = .done count t →
      count ≤ bytes.length ∧ Took (bytes.take count) w t) ∧
    ∀ e t, writeOnce kernel descriptor bytes fuel w = .failed e t → Took [] w t := by
  induction fuel generalizing w with
  | zero =>
    refine ⟨fun count t h => ?_, fun e t h => ?_⟩
    · cases h
    · cases h
  | succ fuel ih =>
    unfold writeOnce
    rcases kernel.write descriptor bytes w.kernel with ⟨count | _ | code, next⟩
    · refine ⟨fun count' t h => ?_, fun e t h => ?_⟩
      · cases h
        refine ⟨min_le_right _ _, ?_⟩
        rw [Took, List.take_eq_take_min]
        simp [Writer.take]
      · cases h
    · obtain ⟨hdone, hfailed⟩ := ih { w with kernel := next }
      exact ⟨fun count t h => hdone count t h, fun e t h => hfailed e t h⟩
    · refine ⟨fun count t h => ?_, fun e t h => ?_⟩
      · cases h
      · cases h
        exact Took.nothing w next

theorem writeAllTo_writes (descriptor fuel : Nat) (bytes : Bytes) (w : Writer K) :
    WritesTo bytes w (writeAllTo kernel descriptor fuel bytes w) := by
  induction fuel generalizing bytes w with
  | zero =>
    cases bytes with
    | nil => exact Took.nothing w w.kernel
    | cons first rest => trivial
  | succ fuel ih =>
    cases bytes with
    | nil => exact Took.nothing w w.kernel
    | cons first rest =>
      unfold writeAllTo
      rcases kernel.write descriptor (first :: rest) w.kernel with ⟨count | _ | code, next⟩
      · dsimp only
        split_ifs with hcount
        · exact ⟨[], List.nil_prefix, Took.nothing w next⟩
        · have htook : Took ((first :: rest).take count) w
              (w.take ((first :: rest).take count) next) := rfl
          exact (ih ((first :: rest).drop count) _).behind htook (List.take_append_drop count _)
      · exact (ih (first :: rest) _).behind (Took.nothing w next) rfl
      · exact ⟨[], List.nil_prefix, Took.nothing w next⟩

/-! ### The buffer -/

/-- How an operation that was given these bytes may end. -/
structure Delivers (bytes : Bytes) (succeeded : Bool) (w t : Writer K) : Prop where
  sends : Channel.Sends bytes succeeded w.output.channel t.output.channel
  fits : t.output.Fits
  capacity : t.output.bufferCapacity = w.output.bufferCapacity

theorem Delivers.kept {bytes : Bytes} {w t : Writer K} (h : Delivers bytes true w t) :
    Channel.Kept bytes w.output.channel t.output.channel := h.sends

theorem Delivers.cut {bytes : Bytes} {w t : Writer K} (h : Delivers bytes false w t) :
    Channel.Cut bytes w.output.channel t.output.channel := h.sends

theorem Delivers.refl {w : Writer K} (hfits : w.output.Fits) : Delivers [] true w w :=
  ⟨Channel.Kept.refl _, hfits, rfl⟩

theorem Delivers.trans {bytes more : Bytes} {w t u : Writer K} {succeeded : Bool}
    (h : Delivers bytes true w t) (h' : Delivers more succeeded t u) :
    Delivers (bytes ++ more) succeeded w u where
  sends := by
    cases succeeded with
    | true => exact h.kept.trans h'.kept
    | false => exact h.kept.cut h'.cut
  fits := h'.fits
  capacity := h'.capacity.trans h.capacity

theorem Delivers.mono {bytes more : Bytes} {w t : Writer K} (h : Delivers bytes false w t)
    (hmore : bytes <+: more) : Delivers more false w t :=
  ⟨h.cut.mono hmore, h.fits, h.capacity⟩

/-- A computation that was given these bytes delivers them, or fails and has cut them. -/
def Sending (bytes : Bytes) (w : Writer K) {α : Type} : Outcome (Writer K) IoError α → Prop
  | .done _ t => Delivers bytes true w t
  | .failed _ t => Delivers bytes false w t
  | .unfinished => True

/-- What follows an operation that has delivered its bytes. -/
theorem Sending.behind {bytes more : Bytes} {w t : Writer K} (h : Delivers bytes true w t)
    {α : Type} {outcome : Outcome (Writer K) IoError α} (h' : Sending more t outcome) :
    Sending (bytes ++ more) w outcome := by
  cases outcome with
  | done a u => exact h.trans h'
  | failed e u => exact h.trans h'
  | unfinished => trivial

/-- A flush delivers what was pending, or some of it, and leaves nothing. -/
theorem flush_sending (fuel : Nat) (w : Writer K) :
    Sending [] w (flush kernel fuel w) ∧
      ∀ t, flush kernel fuel w = .done () t → t.output.pending = [] := by
  unfold flush
  by_cases hpending : w.output.pending = []
  · rw [if_pos hpending]
    refine ⟨Delivers.refl ?_, ?_⟩
    · rw [Output.Fits, hpending]
      exact Nat.zero_le _
    · intro t h
      cases h
      exact hpending
  · rw [if_neg hpending]
    cases hslot : w.output.destination with
    | none =>
      have hrun : (slot >>= fun descriptor =>
          writeAllTo kernel descriptor fuel w.output.pending) w =
          .failed .badDescriptor w := by
        rw [bind_apply, slot, hslot]
      rw [hrun]
      refine ⟨⟨⟨⟨[], List.nil_prefix, ?_⟩, rfl⟩, Nat.zero_le _, rfl⟩, fun t h => by cases h⟩
      exact (List.append_nil _).symm
    | some descriptor =>
      have hrun : (slot >>= fun descriptor =>
          writeAllTo kernel descriptor fuel w.output.pending) w =
          writeAllTo kernel descriptor fuel w.output.pending w := by
        rw [bind_apply, slot, hslot]
      rw [hrun]
      have hwrites := writeAllTo_writes kernel descriptor fuel w.output.pending w
      cases hend : writeAllTo kernel descriptor fuel w.output.pending w with
      | done a t =>
        rw [hend] at hwrites
        have htook : t.output = { w.output with
            accepted := w.output.accepted ++ w.output.pending } := hwrites
        refine ⟨⟨⟨?_, ?_⟩, Nat.zero_le _, ?_⟩, ?_⟩
        · show w.output.accepted <+: t.output.accepted
          rw [htook]
          exact List.prefix_append _ _
        · show t.output.accepted ++ [] = (w.output.accepted ++ w.output.pending) ++ []
          rw [htook]
        · show t.output.bufferCapacity = w.output.bufferCapacity
          rw [htook]
        · rintro _ ⟨⟩
          rfl
      | failed e t =>
        rw [hend] at hwrites
        obtain ⟨part, hpart, htook⟩ := hwrites
        refine ⟨⟨⟨⟨part, ?_, ?_⟩, rfl⟩, Nat.zero_le _, ?_⟩, fun t h => by cases h⟩
        · rw [List.append_nil]
          exact hpart
        · show t.output.accepted = w.output.accepted ++ part
          rw [htook]
        · show t.output.bufferCapacity = w.output.bufferCapacity
          rw [htook]
      | unfinished => exact ⟨trivial, fun t h => by cases h⟩

/-- Making room leaves nothing pending. -/
theorem makeRoom_sending (fuel : Nat) {w : Writer K} (hfits : w.output.Fits) :
    Sending [] w (makeRoom kernel fuel w) ∧
      ∀ t, makeRoom kernel fuel w = .done () t → t.output.pending = [] := by
  unfold makeRoom
  by_cases hcapacity : w.output.bufferCapacity = 0
  · rw [if_pos hcapacity]
    refine ⟨Delivers.refl hfits, ?_⟩
    rintro _ ⟨⟩
    rw [Output.Fits, hcapacity] at hfits
    exact List.eq_nil_of_length_eq_zero (Nat.le_zero.mp hfits)
  · rw [if_neg hcapacity]
    cases hbuffer : w.output.buffer with
    | none =>
      have hpending : w.output.pending = [] := by
        rw [Output.pending, hbuffer]
        rfl
      refine ⟨⟨⟨List.prefix_refl _, ?_⟩, Nat.zero_le _, rfl⟩, ?_⟩
      · show w.output.accepted ++ [] = (w.output.accepted ++ w.output.pending) ++ []
        rw [hpending, List.append_nil, List.append_nil]
      · rintro _ ⟨⟩
        rfl
    | some buffer => exact flush_sending kernel fuel w

/-- Bytes that fit are appended. -/
theorem append_delivers {w : Writer K} {bytes : Bytes}
    (hroom : bytes.length ≤ w.output.remaining) (hne : bytes ≠ []) :
    Delivers bytes true w { w with output := w.output.append bytes } := by
  cases hbuffer : w.output.buffer with
  | none =>
    rw [Output.remaining, hbuffer] at hroom
    exact absurd (List.eq_nil_of_length_eq_zero (Nat.le_zero.mp hroom)) hne
  | some buffer =>
    have hpending : w.output.pending = buffer := by
      rw [Output.pending, hbuffer]
      rfl
    have happended : (w.output.append bytes).pending = buffer ++ bytes := by
      rw [Output.append, Output.pending, hbuffer]
      rfl
    rw [Output.remaining, hbuffer] at hroom
    dsimp only at hroom
    have hlength : 0 < bytes.length := List.length_pos_iff.mpr hne
    refine ⟨⟨List.prefix_refl _, ?_⟩, ?_, rfl⟩
    · show w.output.accepted ++ (w.output.append bytes).pending =
        (w.output.accepted ++ w.output.pending) ++ bytes
      rw [happended, hpending, List.append_assoc]
    · show (w.output.append bytes).pending.length ≤ w.output.bufferCapacity
      rw [happended, List.length_append]
      omega

/-- A write past the buffer delivers what the kernel takes of it. -/
theorem writeDescriptorOnce_sending (fuel : Nat) (bytes : Bytes) {w : Writer K}
    (hfits : w.output.Fits) (hpending : w.output.pending = []) :
    (∀ count t, writeDescriptorOnce kernel fuel bytes w = .done count t →
      Delivers (bytes.take count) true w t ∧ t.output.pending = []) ∧
    ∀ e t, writeDescriptorOnce kernel fuel bytes w = .failed e t → Delivers [] false w t := by
  unfold writeDescriptorOnce
  cases hslot : w.output.destination with
  | none =>
    have hrun : (slot >>= fun descriptor =>
        writeOnce kernel descriptor (bytes.take isizeMax) fuel) w = .failed .badDescriptor w := by
      rw [bind_apply, slot, hslot]
    rw [hrun]
    refine ⟨fun count t h => (by cases h), ?_⟩
    rintro e t ⟨⟩
    refine ⟨⟨⟨[], List.nil_prefix, (List.append_nil _).symm⟩, hpending⟩, hfits, rfl⟩
  | some descriptor =>
    have hrun : (slot >>= fun descriptor =>
        writeOnce kernel descriptor (bytes.take isizeMax) fuel) w =
          writeOnce kernel descriptor (bytes.take isizeMax) fuel w := by
      rw [bind_apply, slot, hslot]
    rw [hrun]
    obtain ⟨hdone, hfailed⟩ :=
      writeOnce_took kernel descriptor (bytes.take isizeMax) fuel w
    have hsame : ∀ {part : Bytes} {t : Writer K}, Took part w t →
        t.output.pending = [] ∧ t.output.Fits := by
      intro part t htook
      have hoff : t.output.pending = [] := by
        rw [htook]
        exact hpending
      refine ⟨hoff, ?_⟩
      rw [Output.Fits, hoff]
      exact Nat.zero_le _
    refine ⟨fun count t h => ?_, fun e t h => ?_⟩
    · obtain ⟨hcount, htook⟩ := hdone count t h
      obtain ⟨hoff, hfits'⟩ := hsame htook
      rw [List.take_take, min_eq_left (hcount.trans (List.length_take_le _ _))] at htook
      refine ⟨⟨⟨?_, ?_⟩, hfits', ?_⟩, hoff⟩
      · show w.output.accepted <+: t.output.accepted
        rw [htook]
        exact List.prefix_append _ _
      · show t.output.accepted ++ t.output.pending =
          (w.output.accepted ++ w.output.pending) ++ bytes.take count
        rw [hoff, hpending, htook, List.append_nil, List.append_nil]
      · rw [htook]
    · have htook := hfailed e t h
      obtain ⟨hoff, hfits'⟩ := hsame htook
      refine ⟨⟨⟨[], List.nil_prefix, ?_⟩, hoff⟩, hfits', ?_⟩
      · show t.output.accepted = w.output.accepted ++ []
        rw [htook]
      · rw [htook]

/-- One `write` delivers the bytes it says it has taken; where it says none, nothing is
pending. -/
theorem write_sending (fuel : Nat) {bytes : Bytes} (hne : bytes ≠ []) {w : Writer K}
    (hfits : w.output.Fits) :
    (∀ count t, write kernel fuel bytes w = .done count t →
      Delivers (bytes.take count) true w t ∧ (count = 0 → t.output.pending = [])) ∧
    ∀ e t, write kernel fuel bytes w = .failed e t → Delivers [] false w t := by
  unfold write
  rw [if_neg hne]
  split_ifs with hroom
  · refine ⟨?_, fun e t h => (by cases h)⟩
    rintro count t ⟨⟩
    rw [List.take_length]
    refine ⟨append_delivers hroom hne, fun hzero => ?_⟩
    exact absurd (List.eq_nil_of_length_eq_zero hzero) hne
  · obtain ⟨hmake, hempty⟩ := makeRoom_sending kernel fuel hfits
    rw [bind_apply]
    cases hmade : makeRoom kernel fuel w with
    | unfinished => exact ⟨fun count t h => (by cases h), fun e t h => (by cases h)⟩
    | failed e u =>
      rw [hmade] at hmake
      refine ⟨fun count t h => (by cases h), ?_⟩
      rintro e t ⟨⟩
      exact hmake
    | done a u =>
      rw [hmade] at hmake
      have hpending := hempty u hmade
      have hdelivered : Delivers [] true w u := hmake
      dsimp only
      rw [bind_apply, get_apply]
      dsimp only
      split_ifs with hfew
      · refine ⟨?_, fun e t h => (by cases h)⟩
        rintro count t ⟨⟩
        rw [List.take_length]
        refine ⟨hdelivered.trans (append_delivers (le_of_lt hfew) hne), fun hzero => ?_⟩
        exact absurd (List.eq_nil_of_length_eq_zero hzero) hne
      · obtain ⟨hdone, hfailed⟩ :=
          writeDescriptorOnce_sending kernel fuel bytes hdelivered.fits hpending
        refine ⟨fun count t h => ?_, fun e t h => hdelivered.trans (hfailed e t h)⟩
        obtain ⟨hafter, hoff⟩ := hdone count t h
        exact ⟨hdelivered.trans hafter, fun _ => hoff⟩

/-! ### Whole operations -/

theorem writeAll_sending (fuel loops : Nat) (bytes : Bytes) {w : Writer K}
    (hfits : w.output.Fits) : Sending bytes w (writeAll kernel fuel loops bytes w) := by
  induction loops generalizing bytes w with
  | zero =>
    cases bytes with
    | nil => exact Delivers.refl hfits
    | cons first rest => trivial
  | succ loops ih =>
    cases bytes with
    | nil => exact Delivers.refl hfits
    | cons first rest =>
      obtain ⟨hdone, hfailed⟩ :=
        write_sending kernel fuel (List.cons_ne_nil first rest) hfits
      unfold writeAll
      rw [bind_apply]
      cases hwrite : write kernel fuel (first :: rest) w with
      | unfinished => trivial
      | failed e t => exact (hfailed e t hwrite).mono List.nil_prefix
      | done count t =>
        obtain ⟨hdelivered, hnone⟩ := hdone count t hwrite
        dsimp only
        split_ifs with hcount
        · rw [hcount, List.take_zero] at hdelivered
          refine ⟨⟨?_, hnone hcount⟩, hdelivered.fits, hdelivered.capacity⟩
          have hall := hdelivered.kept.all
          rw [Channel.all, Channel.all, List.append_nil] at hall
          have hqueued : t.output.channel.queued = [] := hnone hcount
          rw [hqueued, List.append_nil] at hall
          exact ⟨w.output.pending, List.prefix_append _ _, hall⟩
        · have hrest := ih ((first :: rest).drop count) hdelivered.fits
          have hboth := hrest.behind hdelivered
          rw [List.take_append_drop] at hboth
          exact hboth

theorem writeFmt_sending (fuel : Nat) (pieces : List Bytes) {w : Writer K}
    (hfits : w.output.Fits) : Sending pieces.flatten w (writeFmt kernel fuel pieces w) := by
  induction pieces generalizing w with
  | nil => exact Delivers.refl hfits
  | cons piece pieces ih =>
    have hpiece := writeAll_sending kernel fuel fuel piece hfits
    rw [List.flatten_cons]
    unfold writeFmt
    rw [bind_apply]
    cases hwrite : writeAll kernel fuel fuel piece w with
    | unfinished => trivial
    | failed e t =>
      rw [hwrite] at hpiece
      exact Delivers.mono hpiece (List.prefix_append _ _)
    | done a t =>
      rw [hwrite] at hpiece
      have hdelivered : Delivers piece true w t := hpiece
      exact (ih hdelivered.fits).behind hdelivered

/-! ### Runs of operations -/

/-- The bytes an operation gives to a writer. -/
def Operation.bytesTo (destination : OutputDestination) : Operation → Bytes
  | .writeOutput written bytes => if written = destination then bytes else []
  | .writeOutputFmt written pieces => if written = destination then pieces.flatten else []
  | .flushAll => []
  | .resetStdout => []
  | .setDestination _ _ => []

/-- Whether an operation that ended like this has kept what a writer was given. -/
def Operation.keeps (destination : OutputDestination) (succeeded : Bool) : Operation → Bool
  | .writeOutput written _ => succeeded || written != destination
  | .writeOutputFmt written _ => succeeded || written != destination
  | .flushAll => succeeded || destination != .stdout
  | .resetStdout => destination != .stdout
  | .setDestination _ _ => true

/-- A run of operations, each with whether it succeeded. -/
inductive Trace (kernel : Kernel K) : List (Operation × Bool) → ShellIo K → ShellIo K → Prop where
  | nil (io) : Trace kernel [] io io
  | succeeded {operation rest io next last fuel}
      (first : operation.perform kernel fuel io = .done () next)
      (behind : Trace kernel rest next last) :
      Trace kernel ((operation, true) :: rest) io last
  | failed {operation rest io next last fuel e}
      (first : operation.perform kernel fuel io = .failed e next)
      (behind : Trace kernel rest next last) :
      Trace kernel ((operation, false) :: rest) io last

/-- What an operation that ended like this sends along a writer's channel. -/
def sent (destination : OutputDestination) (step : Operation × Bool) : Bytes × Bool :=
  (step.1.bytesTo destination, step.1.keeps destination step.2)

theorem output_setOutput_self (io : ShellIo K) (output : Output)
    (destination : OutputDestination) :
    (io.setOutput output destination).output destination = output := by
  cases destination <;> rfl

theorem output_setOutput_ne (io : ShellIo K) (output : Output) {written : OutputDestination}
    {destination : OutputDestination} (h : written ≠ destination) :
    (io.setOutput output written).output destination = io.output destination := by
  cases written <;> cases destination <;> first | rfl | exact absurd rfl h

/-- Every writer's pending bytes fit its buffer. -/
def AllFit (io : ShellIo K) : Prop := ∀ destination, (io.output destination).Fits

/-- How one operation on a writer shows at each of them. -/
theorem onWriter_sends {written : OutputDestination} {m : WriterRun K Unit} {bytes : Bytes}
    {io : ShellIo K} (hfits : AllFit io)
    (h : Sending bytes ⟨io.output written, io.kernel⟩ (m ⟨io.output written, io.kernel⟩))
    {next : ShellIo K} {succeeded : Bool}
    (hends : (succeeded = true ∧ onWriter written m io = .done () next) ∨
      (succeeded = false ∧ ∃ e, onWriter written m io = .failed e next))
    (destination : OutputDestination) :
    Channel.Sends (if written = destination then bytes else [])
        (succeeded || written != destination)
        (io.output destination).channel (next.output destination).channel ∧
      (next.output destination).Fits ∧
      (next.output destination).bufferCapacity = (io.output destination).bufferCapacity := by
  obtain ⟨w, hdelivers, hnext⟩ : ∃ w : Writer K,
      Delivers bytes succeeded ⟨io.output written, io.kernel⟩ w ∧
        next = { io.setOutput w.output written with kernel := w.kernel } := by
    unfold onWriter Run.within at hends
    cases hrun : m ⟨io.output written, io.kernel⟩ with
    | unfinished =>
      rw [hrun] at hends
      rcases hends with ⟨_, hdone⟩ | ⟨_, e, hfailed⟩
      · cases hdone
      · cases hfailed
    | done a w =>
      rw [hrun] at hends h
      rcases hends with ⟨rfl, hdone⟩ | ⟨_, e, hfailed⟩
      · cases hdone
        exact ⟨w, h, rfl⟩
      · cases hfailed
    | failed e w =>
      rw [hrun] at hends h
      rcases hends with ⟨_, hdone⟩ | ⟨rfl, e, hfailed⟩
      · cases hdone
      · cases hfailed
        exact ⟨w, h, rfl⟩
  have hkernel : next.output destination = (io.setOutput w.output written).output destination := by
    rw [hnext]
    cases destination <;> rfl
  rw [hkernel]
  by_cases hsame : written = destination
  · subst hsame
    rw [output_setOutput_self, if_pos rfl, bne_self_eq_false, Bool.or_false]
    exact ⟨hdelivers.sends, hdelivers.fits, hdelivers.capacity⟩
  · rw [output_setOutput_ne io w.output hsame, if_neg hsame, bne_iff_ne.mpr hsame, Bool.or_true]
    exact ⟨Channel.Kept.refl _, hfits destination, rfl⟩

theorem discard_sending {w : Writer K} : Channel.Cut [] w.output.channel
    (w.output.discard).channel ∧ (w.output.discard).Fits := by
  have hpending : w.output.discard.pending = [] := by
    unfold Output.discard Output.pending
    cases w.output.buffer <;> rfl
  refine ⟨⟨⟨[], List.nil_prefix, (List.append_nil _).symm⟩, hpending⟩, ?_⟩
  rw [Output.Fits, hpending]
  exact Nat.zero_le _

/-- **One operation of the shell is one operation of each writer's channel.** -/
theorem perform_sends {operation : Operation} {fuel : Nat} {io next : ShellIo K}
    {succeeded : Bool} (hfits : AllFit io)
    (h : (succeeded = true ∧ operation.perform kernel fuel io = .done () next) ∨
      (succeeded = false ∧ ∃ e, operation.perform kernel fuel io = .failed e next))
    (destination : OutputDestination) :
    Channel.Sends (operation.bytesTo destination) (operation.keeps destination succeeded)
        (io.output destination).channel (next.output destination).channel ∧
      (next.output destination).Fits ∧
      (next.output destination).bufferCapacity = (io.output destination).bufferCapacity := by
  cases operation with
  | writeOutput written bytes =>
    exact onWriter_sends hfits (writeAll_sending kernel fuel fuel bytes (hfits written)) h
      destination
  | writeOutputFmt written pieces =>
    exact onWriter_sends hfits (writeFmt_sending kernel fuel pieces (hfits written)) h destination
  | flushAll =>
    have hsends := onWriter_sends hfits (flush_sending kernel fuel _).1 h destination
    rw [ite_self] at hsends
    rw [Operation.keeps, bne_comm]
    exact hsends
  | resetStdout =>
    rcases h with ⟨rfl, hdone⟩ | ⟨_, e, hfailed⟩
    · cases hdone
      cases destination with
      | stdout =>
        obtain ⟨hcut, hfit⟩ := discard_sending (w := ⟨io.stdout, io.kernel⟩)
        exact ⟨hcut, hfit, rfl⟩
      | stderr => exact ⟨Channel.Kept.refl _, hfits .stderr, rfl⟩
      | previousStderr => exact ⟨Channel.Kept.refl _, hfits .previousStderr, rfl⟩
    · cases hfailed
  | setDestination written descriptor =>
    have hset : Sending [] (Writer.mk (io.output written) io.kernel)
        (onOutput (Output.setDestination descriptor) ⟨io.output written, io.kernel⟩) :=
      ⟨Channel.Kept.refl _, hfits written, rfl⟩
    have hsends := onWriter_sends hfits hset h destination
    rw [ite_self] at hsends
    rcases h with ⟨rfl, hdone⟩ | ⟨_, e, hfailed⟩
    · exact hsends
    · cases hfailed

/-- **A run of operations is a run of each writer's channel.** -/
theorem trace_runs {trace : List (Operation × Bool)} {io last : ShellIo K}
    (h : Trace kernel trace io last) (hfits : AllFit io) (destination : OutputDestination) :
    Channel.Run (trace.map (sent destination)) (io.output destination).channel
        (last.output destination).channel ∧
      (last.output destination).Fits ∧
      (last.output destination).bufferCapacity = (io.output destination).bufferCapacity := by
  induction h with
  | nil io => exact ⟨.nil _, hfits destination, rfl⟩
  | succeeded first behind ih =>
    have hstep := perform_sends kernel hfits (.inl ⟨rfl, first⟩)
    obtain ⟨hsends, _, hcapacity⟩ := hstep destination
    obtain ⟨hrun, hfit, hcapacity'⟩ := ih fun other => (hstep other).2.1
    exact ⟨.cons hsends hrun, hfit, hcapacity'.trans hcapacity⟩
  | failed first behind ih =>
    have hstep := perform_sends kernel hfits (.inr ⟨rfl, _, first⟩)
    obtain ⟨hsends, _, hcapacity⟩ := hstep destination
    obtain ⟨hrun, hfit, hcapacity'⟩ := ih fun other => (hstep other).2.1
    exact ⟨.cons hsends hrun, hfit, hcapacity'.trans hcapacity⟩

/-- Everything a run gave to a writer, in order. -/
def given (destination : OutputDestination) (trace : List (Operation × Bool)) : Bytes :=
  trace.flatMap fun step => step.1.bytesTo destination

/-- **What a writer delivers**, over any run from a new shell: what the kernel has taken and
what is pending are, in order, some of what the writer was given; all of it, where no
operation on the writer failed or threw pending bytes away; and what is pending fits the
buffer, so that the writers without one hold nothing back. -/
theorem trace_delivers {trace : List (Operation × Bool)} {stdout stderr : Option Nat} {k : K}
    {io : ShellIo K} (h : Trace kernel trace (newShellIo stdout stderr k) io)
    (destination : OutputDestination) :
    ((io.output destination).accepted ++ (io.output destination).pending).Sublist
        (given destination trace) ∧
      ((∀ step ∈ trace, step.1.keeps destination step.2 = true) →
        (io.output destination).accepted ++ (io.output destination).pending =
          given destination trace) ∧
      (io.output destination).pending.length ≤ outputBufferSize ∧
      (destination ≠ .stdout → (io.output destination).pending = []) := by
  have hnew : AllFit (newShellIo stdout stderr k) := by
    intro destination
    cases destination <;> exact Nat.zero_le _
  obtain ⟨hrun, hfits, hcapacity⟩ := trace_runs kernel h hnew destination
  have hchannel : ((newShellIo stdout stderr k).output destination).channel = ⟨[], []⟩ := by
    cases destination <;> rfl
  have hgiven : (trace.map (sent destination)).flatMap Prod.fst = given destination trace := by
    rw [List.flatMap_map]
    rfl
  rw [hchannel] at hrun
  refine ⟨?_, ?_, ?_, ?_⟩
  · rw [← hgiven]
    exact hrun.sublist
  · intro hkeeps
    have hkept := hrun.kept (by
      intro operation hmem
      obtain ⟨step, hstep, rfl⟩ := List.mem_map.mp hmem
      exact hkeeps step hstep)
    rw [← hgiven]
    exact hkept.all
  · have hsize : ((newShellIo stdout stderr k).output destination).bufferCapacity ≤
        outputBufferSize := by
      cases destination with
      | stdout => exact le_refl _
      | stderr => exact Nat.zero_le _
      | previousStderr => exact Nat.zero_le _
    exact hfits.trans (hcapacity.trans_le hsize)
  · intro hdestination
    have hnone : ((newShellIo stdout stderr k).output destination).bufferCapacity = 0 := by
      cases destination with
      | stdout => exact absurd rfl hdestination
      | stderr => rfl
      | previousStderr => rfl
    rw [Output.Fits, hcapacity, hnone] at hfits
    exact List.eq_nil_of_length_eq_zero (Nat.le_zero.mp hfits)

/-- A kernel that interrupts some writes first and then takes three bytes at a time. -/
def shyKernel : Kernel Nat where
  write _ _ interruptions :=
    if interruptions = 0 then (.took 3, 0) else (.interrupted, interruptions - 1)

theorem trace_delivers_shy :
    ∃ io, Trace shyKernel [(.writeOutput .stdout (text "hello"), true),
        (.writeOutput .previousStderr (text "x"), false), (.flushAll, true)]
        (newShellIo (some 1) (some 2) 4) io ∧
      (io.output .stdout).accepted ++ (io.output .stdout).pending = text "hello" := by
  have hfirst : (Operation.writeOutput .stdout (text "hello")).perform shyKernel 9
      (newShellIo (some 1) (some 2) 4) =
        .done () ⟨⟨some (text "hello"), 8192, some 1, []⟩, newOutput (some 2) 0,
          newOutput none 0, 4⟩ := rfl
  have hsecond : (Operation.writeOutput .previousStderr (text "x")).perform shyKernel 9
      ⟨⟨some (text "hello"), 8192, some 1, []⟩, newOutput (some 2) 0, newOutput none 0, 4⟩ =
        .failed .badDescriptor ⟨⟨some (text "hello"), 8192, some 1, []⟩, newOutput (some 2) 0,
          newOutput none 0, 4⟩ := rfl
  have hlast : Operation.flushAll.perform shyKernel 9
      ⟨⟨some (text "hello"), 8192, some 1, []⟩, newOutput (some 2) 0, newOutput none 0, 4⟩ =
        .done () ⟨⟨some [], 8192, some 1, text "hello"⟩, newOutput (some 2) 0,
          newOutput none 0, 0⟩ := rfl
  have htrace := Trace.succeeded hfirst (.failed hsecond (.succeeded hlast (.nil _)))
  have hall := (trace_delivers shyKernel htrace .stdout).2.1 (by decide)
  exact ⟨_, htrace, hall⟩

end Nsh.Outputs
