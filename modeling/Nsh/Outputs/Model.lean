import Nsh.Lib.Keeps
import Nsh.Shell.Bytes

/-!
# Buffered output

The shell writes through three writers: standard output is buffered, standard error
and the standard error of a traced command are not.  The kernel may take less than
it is offered, be interrupted, or fail; a failed or interrupted flush must not leave
bytes queued for a second attempt.  `accepted` is what the kernel has taken from a
writer: no function reads it.
-/

namespace Nsh.Outputs

open Nsh.Run

inductive OutputDestination where
  | stdout
  | stderr
  | previousStderr
deriving DecidableEq, Repr

/-- What a write fails with; an interruption is never one, since every write is made again
after it. -/
inductive IoError where
  | badDescriptor
  | writeZero
  | descriptor (code : Nat)
deriving DecidableEq, Repr

/-- What the kernel answers to a write. -/
inductive Answer where
  | took (count : Nat)
  | interrupted
  | failed (code : Nat)
deriving DecidableEq, Repr

/-- The kernel, on a state of any type: what it answers to a write of these bytes to this
descriptor. -/
structure Kernel (K : Type) where
  write : Nat → Bytes → K → Answer × K

/-- `Output` -/
structure Output where
  /-- The pending bytes, once there is a buffer. -/
  buffer : Option Bytes
  bufferCapacity : Nat
  /-- What the descriptor slot holds. -/
  destination : Option Nat
  accepted : Bytes
deriving DecidableEq, Repr

/-- A writer and the kernel it writes to. -/
structure Writer (K : Type) where
  output : Output
  kernel : K

abbrev WriterRun (K α : Type) := Nsh.Run (Writer K) IoError α

variable {K : Type}

/-- The bytes that wait in the buffer. -/
def Output.pending (output : Output) : Bytes := output.buffer.getD []

/-- `Output::discard` -/
def Output.discard (output : Output) : Output :=
  { output with buffer := output.buffer.map fun _ => [] }

def Output.setDestination (destination : Option Nat) (output : Output) : Output :=
  { output with destination := destination }

/-- The room in the buffer: none before there is one. -/
def Output.remaining (output : Output) : Nat :=
  match output.buffer with
  | none => 0
  | some buffer => output.bufferCapacity - buffer.length

def Output.append (bytes : Bytes) (output : Output) : Output :=
  { output with buffer := output.buffer.map (· ++ bytes) }

def Output.setBuffer (buffer : Bytes) (output : Output) : Output :=
  { output with buffer := some buffer }

/-- The kernel has taken these bytes. -/
def Writer.take (bytes : Bytes) (kernel : K) (writer : Writer K) : Writer K :=
  { writer with
    kernel := kernel
    output := { writer.output with accepted := writer.output.accepted ++ bytes } }

def onOutput (f : Output → Output) : WriterRun K Unit :=
  Run.modify fun writer => { writer with output := f writer.output }

section Kernel

variable (kernel : Kernel K)

/-- `nsh_platform::write_once`: one write, made again when it is interrupted. -/
def writeOnce (descriptor : Nat) (bytes : Bytes) : Nat → WriterRun K Nat
  | 0 => fun _ => .unfinished
  | fuel + 1 => fun writer =>
    match kernel.write descriptor bytes writer.kernel with
    | (.took count, next) =>
      .done (min count bytes.length) (writer.take (bytes.take count) next)
    | (.interrupted, next) => writeOnce descriptor bytes fuel { writer with kernel := next }
    | (.failed code, next) => .failed (.descriptor code) { writer with kernel := next }

/-- `nsh_platform::write_all`: writes until the kernel has taken everything. -/
def writeAllTo (descriptor : Nat) : Nat → Bytes → WriterRun K Unit
  | _, [] => pure ()
  | 0, _ :: _ => fun _ => .unfinished
  | fuel + 1, first :: rest => fun writer =>
    match kernel.write descriptor (first :: rest) writer.kernel with
    | (.took count, next) =>
      if count = 0 then .failed .writeZero { writer with kernel := next }
      else
        writeAllTo descriptor fuel ((first :: rest).drop count)
          (writer.take ((first :: rest).take count) next)
    | (.interrupted, next) =>
      writeAllTo descriptor fuel (first :: rest) { writer with kernel := next }
    | (.failed code, next) => .failed (.descriptor code) { writer with kernel := next }

/-- `DescriptorSlot::get` -/
def slot : WriterRun K Nat := fun writer =>
  match writer.output.destination with
  | none => .failed .badDescriptor writer
  | some descriptor => .done descriptor writer

def isizeMax : Nat := 9223372036854775807

/-- `write_descriptor_once` -/
def writeDescriptorOnce (fuel : Nat) (bytes : Bytes) : WriterRun K Nat := do
  let descriptor ← slot
  writeOnce kernel descriptor (bytes.take isizeMax) fuel

/-- `Output::flush` -/
def flush (fuel : Nat) : WriterRun K Unit := fun writer =>
  if writer.output.pending = [] then .done () writer
  else
    -- the pending range is reset whatever the write comes to
    match (slot >>= fun descriptor => writeAllTo kernel descriptor fuel writer.output.pending)
      writer with
    | .done _ written => .done () { written with output := written.output.setBuffer [] }
    | .failed e written => .failed e { written with output := written.output.setBuffer [] }
    | .unfinished => .unfinished

/-- The buffer is made, or what it holds is pushed out. -/
def makeRoom (fuel : Nat) : WriterRun K Unit := fun writer =>
  if writer.output.bufferCapacity = 0 then .done () writer
  else
    match writer.output.buffer with
    | none => .done () { writer with output := writer.output.setBuffer [] }
    | some _ => flush kernel fuel writer

/-- `Output::write`: how many of the bytes have been taken. -/
def write (fuel : Nat) (bytes : Bytes) : WriterRun K Nat := fun writer =>
  if bytes = [] then .done 0 writer
  else if bytes.length ≤ writer.output.remaining then
    .done bytes.length { writer with output := writer.output.append bytes }
  else
    (do
      makeRoom kernel fuel
      let writer ← Run.get
      if bytes.length < writer.output.remaining then do
        onOutput (·.append bytes)
        pure bytes.length
      else writeDescriptorOnce kernel fuel bytes) writer

/-- `Write::write_all` on a writer. -/
def writeAll (fuel : Nat) : Nat → Bytes → WriterRun K Unit
  | _, [] => pure ()
  | 0, _ :: _ => fun _ => .unfinished
  | loops + 1, first :: rest => do
    let count ← write kernel fuel (first :: rest)
    if count = 0 then Run.fail .writeZero
    else writeAll fuel loops ((first :: rest).drop count)

/-- `Output::write_fmt`, on the pieces the arguments are formatted as. -/
def writeFmt (fuel : Nat) : List Bytes → WriterRun K Unit
  | [] => pure ()
  | piece :: pieces => do
    writeAll kernel fuel fuel piece
    writeFmt fuel pieces

end Kernel

/-! ### The three writers -/

structure ShellIo (K : Type) where
  stdout : Output
  stderr : Output
  previousStderr : Output
  kernel : K

def outputBufferSize : Nat := 8192

def newOutput (destination : Option Nat) (bufferCapacity : Nat) : Output :=
  ⟨none, bufferCapacity, destination, []⟩

/-- `ShellIo::new` -/
def newShellIo (stdout stderr : Option Nat) (kernel : K) : ShellIo K where
  stdout := newOutput stdout outputBufferSize
  stderr := newOutput stderr 0
  previousStderr := newOutput none 0
  kernel := kernel

/-- `ShellIo::get` -/
def ShellIo.output (io : ShellIo K) : OutputDestination → Output
  | .stdout => io.stdout
  | .stderr => io.stderr
  | .previousStderr => io.previousStderr

def ShellIo.setOutput (io : ShellIo K) (output : Output) : OutputDestination → ShellIo K
  | .stdout => { io with stdout := output }
  | .stderr => { io with stderr := output }
  | .previousStderr => { io with previousStderr := output }

/-- A computation on the writer a destination names. -/
def onWriter {α : Type} (destination : OutputDestination) (m : WriterRun K α) :
    Nsh.Run (ShellIo K) IoError α :=
  Run.within (fun io => ⟨io.output destination, io.kernel⟩)
    (fun writer io => { io.setOutput writer.output destination with kernel := writer.kernel }) m

/-- What the shell does to its writers. -/
inductive Operation where
  /-- `write_output` -/
  | writeOutput (destination : OutputDestination) (bytes : Bytes)
  /-- `write_output_fmt` -/
  | writeOutputFmt (destination : OutputDestination) (pieces : List Bytes)
  | flushAll
  | resetStdout
  /-- A slot is given another descriptor, by `set_destination` or by a redirection. -/
  | setDestination (destination : OutputDestination) (descriptor : Option Nat)
deriving DecidableEq, Repr

def Operation.perform (kernel : Kernel K) (fuel : Nat) :
    Operation → Nsh.Run (ShellIo K) IoError Unit
  | .writeOutput destination bytes => onWriter destination (writeAll kernel fuel fuel bytes)
  | .writeOutputFmt destination pieces => onWriter destination (writeFmt kernel fuel pieces)
  | .flushAll => onWriter .stdout (flush kernel fuel)
  | .resetStdout => onWriter .stdout (onOutput Output.discard)
  | .setDestination destination descriptor =>
    onWriter destination (onOutput (Output.setDestination descriptor))

end Nsh.Outputs
