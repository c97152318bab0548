import Nsh.Lib.Settles
import Nsh.Outputs.Delivered

/-!
# Writing comes to an end

The loops of the writers write again after an interruption and after a short write.
An interruption in a row with others wears out the kernel's patience, and a short write
leaves fewer bytes to write: the loops end where no interruptions follow each other for
ever, whatever patience a kernel finds again when it takes bytes.
-/

namespace Nsh.Outputs

open Nsh.Run

variable {K : Type}

/-- Each interruption uses up some of the kernel's patience.  What it takes or refuses may
give it back. -/
def Patient (kernel : Kernel K) (patience : K → ℕ) : Prop :=
  ∀ descriptor bytes k, (kernel.write descriptor bytes k).1 = .interrupted →
    patience (kernel.write descriptor bytes k).2 < patience k

section Patience

variable {kernel : Kernel K} {patience : K → ℕ} (hkernel : Patient kernel patience)

include hkernel in
theorem writeOnce_settles (descriptor : Nat) (bytes : Bytes) (w : Writer K) :
    Settles fun fuel => writeOnce kernel descriptor bytes fuel w := by
  -- on the patience that is left
  induction hpatience : patience w.kernel using Nat.strong_induction_on generalizing w with
  | _ left ih =>
    have hless := hkernel descriptor bytes w.kernel
    apply Settles.of_succ
    simp only [writeOnce]
    rcases hanswer : kernel.write descriptor bytes w.kernel with ⟨count | _ | code, next⟩
    · exact Settles.done _ _
    · rw [hanswer] at hless
      exact ih _ (hpatience ▸ hless rfl) { w with kernel := next } rfl
    · exact Settles.failed _ _

include hkernel in
/-- Bytes that are taken leave fewer, however patient the kernel then is. -/
theorem writeAllTo_settles (descriptor : Nat) (bytes : Bytes) (w : Writer K) :
    Settles fun fuel => writeAllTo kernel descriptor fuel bytes w := by
  induction hlength : bytes.length using Nat.strong_induction_on generalizing bytes w with
  | _ length ihbytes =>
    induction hpatience : patience w.kernel using Nat.strong_induction_on generalizing w with
    | _ left ih =>
      cases bytes with
      | nil =>
        exact (Settles.done () w).congr ⟨0, fun fuel _ => by cases fuel <;> rfl⟩
      | cons first rest =>
        have hless := hkernel descriptor (first :: rest) w.kernel
        apply Settles.of_succ
        simp only [writeAllTo]
        rcases hanswer : kernel.write descriptor (first :: rest) w.kernel with
          ⟨count | _ | code, next⟩
        · by_cases hcount : count = 0
          · simp only [if_pos hcount]
            exact Settles.failed _ _
          · simp only [if_neg hcount]
            apply ihbytes _ _ _ _ rfl
            rw [← hlength, List.length_drop]
            exact Nat.sub_lt (Nat.succ_pos _) (Nat.pos_of_ne_zero hcount)
        · rw [hanswer] at hless
          exact ih _ (hpatience ▸ hless rfl) { w with kernel := next } rfl
        · exact Settles.failed _ _

theorem slot_settles (w : Writer K) : Settles fun _ => slot w := by
  unfold slot
  cases w.output.destination with
  | none => exact Settles.failed _ _
  | some descriptor => exact Settles.done _ _

/-- What a flush makes of the end of its writes: the pending range is reset. -/
def emptied : Outcome (Writer K) IoError Unit → Outcome (Writer K) IoError Unit
  | .done _ t => .done () { t with output := t.output.setBuffer [] }
  | .failed e t => .failed e { t with output := t.output.setBuffer [] }
  | .unfinished => .unfinished

include hkernel in
theorem flush_settles (w : Writer K) : Settles fun fuel => flush kernel fuel w := by
  unfold flush
  by_cases hpending : w.output.pending = []
  · simp only [if_pos hpending]
    exact Settles.done _ _
  · simp only [if_neg hpending]
    have hwritten : Settles fun fuel =>
        (slot >>= fun descriptor => writeAllTo kernel descriptor fuel w.output.pending) w :=
      (slot_settles w).bind fun descriptor t => writeAllTo_settles hkernel descriptor _ t
    refine hwritten.map emptied fun outcome hfinished => ?_
    cases outcome with
    | done a t => exact fun h => by cases h
    | failed e t => exact fun h => by cases h
    | unfinished => exact absurd rfl hfinished

include hkernel in
theorem makeRoom_settles (w : Writer K) : Settles fun fuel => makeRoom kernel fuel w := by
  unfold makeRoom
  by_cases hcapacity : w.output.bufferCapacity = 0
  · simp only [if_pos hcapacity]
    exact Settles.done _ _
  · simp only [if_neg hcapacity]
    cases w.output.buffer with
    | none => exact Settles.done _ _
    | some buffer => exact flush_settles hkernel w

include hkernel in
theorem writeDescriptorOnce_settles (bytes : Bytes) (w : Writer K) :
    Settles fun fuel => writeDescriptorOnce kernel fuel bytes w :=
  (slot_settles w).bind fun descriptor t => writeOnce_settles hkernel descriptor _ t

include hkernel in
theorem write_settles (bytes : Bytes) (w : Writer K) :
    Settles fun fuel => write kernel fuel bytes w := by
  unfold write
  by_cases hbytes : bytes = []
  · simp only [if_pos hbytes]
    exact Settles.done _ _
  · simp only [if_neg hbytes]
    by_cases hfits : bytes.length ≤ w.output.remaining
    · simp only [if_pos hfits]
      exact Settles.done _ _
    · simp only [if_neg hfits]
      refine (makeRoom_settles hkernel w).bind fun _ t => ?_
      simp only [bind_apply, get_apply]
      by_cases hroom : bytes.length < t.output.remaining
      · simp only [if_pos hroom]
        exact Settles.done _ _
      · simp only [if_neg hroom]
        exact writeDescriptorOnce_settles hkernel bytes t

include hkernel in
/-- Each turn writes at least one byte, so as many turns as bytes are enough. -/
theorem writeAll_settles (bytes : Bytes) (loops : ℕ → ℕ)
    (hloops : ∃ bound, ∀ fuel, bound ≤ fuel → bytes.length ≤ loops fuel) (w : Writer K) :
    Settles fun fuel => writeAll kernel fuel (loops fuel) bytes w := by
  induction hlength : bytes.length using Nat.strong_induction_on generalizing bytes loops w with
  | _ length ih =>
    cases bytes with
    | nil =>
      exact (Settles.done () w).congr ⟨0, fun fuel _ => by cases loops fuel <;> rfl⟩
    | cons first rest =>
      obtain ⟨bound, hbound⟩ := hloops
      have hturn : Settles fun fuel =>
          writeAll kernel fuel (loops fuel - 1 + 1) (first :: rest) w := by
        refine (write_settles hkernel (first :: rest) w).bind fun count t => ?_
        by_cases hcount : count = 0
        · simp only [if_pos hcount]
          exact Settles.failed _ _
        · simp only [if_neg hcount]
          have hless : ((first :: rest).drop count).length ≤ rest.length := by
            rw [List.length_drop, List.length_cons]
            omega
          apply ih _ _ _ _ ⟨bound, fun fuel hfuel => _⟩ _ rfl
          · rw [← hlength]
            exact Nat.lt_succ_of_le hless
          · intro fuel hfuel
            exact le_trans hless (Nat.le_sub_one_of_lt (hbound fuel hfuel))
      refine hturn.congr ⟨bound, fun fuel hfuel => ?_⟩
      rw [Nat.sub_add_cancel (le_trans (Nat.succ_pos rest.length) (hbound fuel hfuel))]

include hkernel in
theorem writeFmt_settles (pieces : List Bytes) (w : Writer K) :
    Settles fun fuel => writeFmt kernel fuel pieces w := by
  induction pieces generalizing w with
  | nil => exact Settles.done _ _
  | cons piece pieces ih =>
    exact (writeAll_settles hkernel piece id ⟨piece.length, fun _ h => h⟩ w).bind
      fun _ t => ih t

theorem onWriter_settles {written : OutputDestination} {m : ℕ → WriterRun K Unit} {io : ShellIo K}
    (h : Settles fun fuel => m fuel ⟨io.output written, io.kernel⟩) :
    Settles fun fuel => onWriter written (m fuel) io := by
  obtain ⟨outcome, hfinished, bound, hbound⟩ := h
  refine ⟨onWriter written (fun _ => outcome) io, within_finishes hfinished, bound,
    fun fuel hfuel => ?_⟩
  have hm : m fuel ⟨io.output written, io.kernel⟩ = outcome := hbound fuel hfuel
  simp only [onWriter, within, hm]

include hkernel in
/-- **Every operation comes to an end** on a kernel that does not interrupt for ever in a
row. -/
theorem perform_finishes (operation : Operation) (io : ShellIo K) :
    ∃ fuel, operation.perform kernel fuel io ≠ .unfinished := by
  suffices h : Settles fun fuel => operation.perform kernel fuel io from h.finishes
  cases operation with
  | writeOutput written bytes =>
    exact onWriter_settles
      (writeAll_settles hkernel bytes id ⟨bytes.length, fun _ h => h⟩ _)
  | writeOutputFmt written pieces => exact onWriter_settles (writeFmt_settles hkernel pieces _)
  | flushAll => exact onWriter_settles (flush_settles hkernel _)
  | resetStdout => exact onWriter_settles (Settles.done _ _)
  | setDestination written descriptor => exact onWriter_settles (Settles.done _ _)

end Patience

/-- A kernel that interrupts every other write, and takes one byte in between. -/
def alternatingKernel : Kernel Bool where
  write _ _ interrupting := (if interrupting then .interrupted else .took 1, !interrupting)

/-- Its patience comes back with every byte it takes. -/
theorem patient_alternatingKernel : Patient alternatingKernel Bool.toNat := by
  intro descriptor bytes interrupting h
  cases interrupting with
  | true => exact Nat.zero_lt_one
  | false => cases h

theorem perform_finishes_alternating :
    ∃ fuel, (Operation.writeOutput .stderr (text "xyz")).perform alternatingKernel fuel
      (newShellIo (some 1) (some 2) true) ≠ .unfinished :=
  perform_finishes patient_alternatingKernel _ _

end Nsh.Outputs
