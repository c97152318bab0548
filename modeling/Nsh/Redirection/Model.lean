import Nsh.Lib.UndoLog
import Nsh.Nodes.Tree

/-!
# Redirections

The descriptor table, the stack of frames that say what command-scoped
redirections replaced, and the operations on both.  What the kernel and the
variables answer is the `Host`.  Each list of redirections also says which slots it
touched (`Touch`); nothing of the shell reads that.
-/

namespace Nsh.Redirection

open Nsh Nsh.Nodes

inductive RedirectionMode
  | apply | push
  deriving DecidableEq, Repr

/-- A redirection whose words have been expanded. -/
inductive ExpandedRedirection
  | file (operator : FileRedirectionOperator) (descriptor : RedirectionDescriptor)
      (target : Bytes)
  | descriptor (descriptor : RedirectionDescriptor) (source : Option ℕ)
  | hereDocument (descriptor : RedirectionDescriptor) (body : Bytes)
  | hereString (descriptor : RedirectionDescriptor) (content : Bytes)
  | ambiguous (descriptor : RedirectionDescriptor) (word : Bytes)
  deriving DecidableEq, Repr

namespace ExpandedRedirection

def target : ExpandedRedirection → RedirectionDescriptor
  | file _ named _ | descriptor named _ | hereDocument named _ | hereString named _
  | ambiguous named _ => named

/-- `{name}<&-` reads the name instead of assigning it. -/
def closes : ExpandedRedirection → Bool
  | descriptor _ none => true
  | _ => false

/-- Whether the shell chooses the slot. -/
def allocates (redirection : ExpandedRedirection) : Bool :=
  match redirection.target with
  | .allocated _ => !redirection.closes
  | .fixed _ => false

end ExpandedRedirection

inductive RedirectSource (D : Type)
  | noop
  | close
  | shared (description : D)
  | owned (description : D)

/-- Why a redirection failed. -/
inductive Refusal
  | noFreeDescriptor
  | ambiguousRedirect (word : Bytes)
  | badDescriptor (descriptor : ℕ)
  | cannotOpen
  | cannotInstall
  | cannotAssign
  deriving DecidableEq, Repr

/-- The kernel and the variables, as the redirections see them. -/
structure Host (D W : Type) where
  descriptorLimit : ℕ
  /-- `variables::lookup_bytes` -/
  lookup : W → Bytes → Option Bytes
  /-- Open the file, or put the here-document or here-string behind a descriptor. -/
  opens : W → ExpandedRedirection → Option D × W
  /-- Move an owned descriptor into the shell's own range. -/
  moves : W → D → Bool × W
  /-- `assign_text_target` -/
  assigns : W → Bytes → Bytes → Bool × W
  /-- `input::reset_input` -/
  resetInput : W → W

abbrev RedirectionFrame (D : Type) := List (ℕ × Option D)

/-- The part of the shell redirections work on. -/
structure Shell (D W : Type) where
  descriptors : ℕ → Option D
  /-- What each frame's slots held, by slot; the innermost frame first. -/
  frames : List (RedirectionFrame D)
  previousStderr : Option D
  world : W

/-- A slot a redirection is about to replace, what it holds, and whether the shell
    chose it. -/
structure Touch (D : Type) where
  slot : ℕ
  held : Option D
  allocated : Bool

/-- How a list of redirections ended, and what it touched. -/
structure Redirected (D W : Type) where
  refusal : Option Refusal
  shell : Shell D W
  touches : List (Touch D)

variable {D W : Type}

/-! ### Slots -/

def inherited : ℕ := 10

def u32Max : ℕ := 2 ^ 32 - 1

/-- `LogicalDescriptor::from_digits` -/
def fromDigits (digits : Bytes) : Option ℕ :=
  if digits = [] ∨ ¬digits.all isAsciiDigit then none
  else digits.foldlM (fun value digit =>
    let next := value * 10 + (digit.toNat - 48)
    if next ≤ u32Max then some next else none) 0

def Shell.replace (s : Shell D W) (slot : ℕ) (value : Option D) : Shell D W :=
  { s with descriptors := fun other => if other = slot then value else s.descriptors other }

/-- The lowest slot at or above the inherited range that nothing occupies. -/
def allocateDescriptor (host : Host D W) (s : Shell D W) : Except Refusal ℕ :=
  let candidates := (List.range host.descriptorLimit).filter fun slot =>
    decide (inherited ≤ slot) && (s.descriptors slot).isNone
  match candidates.head? with
  | some slot => .ok slot
  | none => .error .noFreeDescriptor

def namedDescriptor (host : Host D W) (s : Shell D W) (name : Bytes) : Except Refusal ℕ :=
  match (host.lookup s.world name).bind fromDigits with
  | some slot => .ok slot
  | none => .error (.ambiguousRedirect name)

def resolveDescriptor (host : Host D W) (s : Shell D W) (redirection : ExpandedRedirection) :
    Except Refusal ℕ :=
  match redirection.target with
  | .fixed slot => .ok slot
  | .allocated name =>
    if redirection.closes then namedDescriptor host s name else allocateDescriptor host s

def rejectUnusableDescriptor (host : Host D W) (slot : ℕ) : Except Refusal Unit :=
  if slot < host.descriptorLimit then .ok () else .error (.badDescriptor slot)

/-! ### One redirection -/

def openDescriptorRedirection (s : Shell D W) (slot : ℕ) :
    Option ℕ → Except Refusal (RedirectSource D)
  | none => .ok .close
  | some source =>
    if source = slot then .ok .noop
    else match s.descriptors source with
      | some description => .ok (.shared description)
      | none => .error (.badDescriptor source)

def openOwned (host : Host D W) (s : Shell D W) (redirection : ExpandedRedirection) :
    Except Refusal (RedirectSource D) × W :=
  match host.opens s.world redirection with
  | (some description, world) => (.ok (.owned description), world)
  | (none, world) => (.error .cannotOpen, world)

def openRedirection (host : Host D W) (s : Shell D W) (redirection : ExpandedRedirection)
    (slot : ℕ) : Except Refusal (RedirectSource D) × W :=
  match redirection with
  | .file _ _ _ | .hereDocument _ _ | .hereString _ _ => openOwned host s redirection
  | .descriptor _ source => (openDescriptorRedirection s slot source, s.world)
  | .ambiguous _ word => (.error (.ambiguousRedirect word), s.world)

/-- Remember in the innermost frame what a slot holds, unless the frame already
    does. -/
def saveSlot (slot : ℕ) (held : Option D) : List (RedirectionFrame D) → List (RedirectionFrame D)
  | [] => []
  | frame :: outer =>
    if (frame.lookup slot).isSome then frame :: outer else (frame ++ [(slot, held)]) :: outer

def Shell.save (s : Shell D W) (slot : ℕ) : Shell D W :=
  { s with frames := saveSlot slot (s.descriptors slot) s.frames }

def installRedirection (host : Host D W) (slot : ℕ) (s : Shell D W) :
    RedirectSource D → Option Refusal × Shell D W
  | .noop => (none, s)
  | .close => (none, s.replace slot none)
  | .shared description => (none, s.replace slot (some description))
  | .owned description =>
    match host.moves s.world description with
    | (true, world) => (none, { s with world }.replace slot (some description))
    | (false, world) => (some .cannotInstall, { s with world })

/-- `{name}>file` assigns the slot it was given, once there is something in it. -/
def publish (host : Host D W) (redirection : ExpandedRedirection) (slot : ℕ) (s : Shell D W) :
    Option Refusal × Shell D W :=
  match redirection.target with
  | .fixed _ => (none, s)
  | .allocated name =>
    if redirection.closes then (none, s)
    else match host.assigns s.world name (decimalNat slot) with
      | (true, world) => (none, { s with world })
      | (false, world) => (some .cannotAssign, { s with world })

/-- Before a slot is replaced: the buffered input goes when it is the standard
    input, and its value is saved where the mode says so. -/
def prepareSlot (host : Host D W) (mode : RedirectionMode) (redirection : ExpandedRedirection)
    (slot : ℕ) (s : Shell D W) : Shell D W :=
  let s := if slot = 0 then { s with world := host.resetInput s.world } else s
  if mode = .push ∧ ¬redirection.allocates then s.save slot else s

def installAndPublish (host : Host D W) (redirection : ExpandedRedirection) (slot : ℕ)
    (source : RedirectSource D) (s : Shell D W) : Option Refusal × Shell D W :=
  match installRedirection host slot s source with
  | (some refusal, s) => (some refusal, s)
  | (none, s) => publish host redirection slot s

def replaceSlot (host : Host D W) (mode : RedirectionMode) (redirection : ExpandedRedirection)
    (slot : ℕ) (source : RedirectSource D) (s : Shell D W) : Redirected D W :=
  let (refusal, after) :=
    installAndPublish host redirection slot source (prepareSlot host mode redirection slot s)
  ⟨refusal, after, [⟨slot, s.descriptors slot, redirection.allocates⟩]⟩

def redirectOne (host : Host D W) (mode : RedirectionMode) (redirection : ExpandedRedirection)
    (s : Shell D W) : Redirected D W :=
  match resolveDescriptor host s redirection with
  | .error refusal => ⟨some refusal, s, []⟩
  | .ok slot =>
    match rejectUnusableDescriptor host slot with
    | .error refusal => ⟨some refusal, s, []⟩
    | .ok () =>
      match openRedirection host s redirection slot with
      | (.error refusal, world) => ⟨some refusal, { s with world }, []⟩
      | (.ok .noop, world) => ⟨none, { s with world }, []⟩
      | (.ok source, world) => replaceSlot host mode redirection slot source { s with world }

/-! ### Lists and frames -/

def redirectEach (host : Host D W) (mode : RedirectionMode) :
    List ExpandedRedirection → Shell D W → Redirected D W
  | [], s => ⟨none, s, []⟩
  | redirection :: rest, s =>
    match redirectOne host mode redirection s with
    | ⟨some refusal, s, touches⟩ => ⟨some refusal, s, touches⟩
    | ⟨none, s, touches⟩ =>
      let after := redirectEach host mode rest s
      { after with touches := touches ++ after.touches }

/-- The trace stream follows what the frame saved of standard error. -/
def Shell.followStderr (s : Shell D W) : Shell D W :=
  match s.frames with
  | frame :: _ =>
    match frame.lookup 2 with
    | some (some saved) => { s with previousStderr := some saved }
    | _ => s
  | [] => s

def redirect (host : Host D W) (redirections : List ExpandedRedirection) (mode : RedirectionMode)
    (s : Shell D W) : Redirected D W :=
  match redirections with
  | [] => ⟨none, s, []⟩
  | redirections =>
    let after := redirectEach host mode redirections s
    if after.refusal = none ∧ mode = .push then { after with shell := after.shell.followStderr }
    else after

/-- A frame for a list of redirections, and the depth below it. -/
def pushRedirections (redirections : List ExpandedRedirection) (s : Shell D W) : ℕ × Shell D W :=
  (s.frames.length,
    if redirections = [] then s else { s with frames := [] :: s.frames })

/-- Drop the innermost frame, giving its slots back what they held unless they are
    to be kept.  A frame has a slot once, so the order does not matter. -/
def popRedirection (host : Host D W) (discard : Bool) (s : Shell D W) : Option (Shell D W) :=
  match s.frames with
  | [] => none
  | frame :: outer =>
    if discard then some { s with frames := outer }
    else some
      { s with
        descriptors := UndoLog.replay frame s.descriptors
        frames := outer
        world := if (frame.lookup 0).isSome then host.resetInput s.world else s.world }

/-- Pop `n` frames. -/
def popFrames (host : Host D W) : ℕ → Shell D W → Option (Shell D W)
  | 0, s => some s
  | n + 1, s => (popRedirection host false s).bind (popFrames host n)

/-- Pop until `stop` frames are left; there are never fewer. -/
def unwindRedirections (host : Host D W) (stop : ℕ) (s : Shell D W) : Option (Shell D W) :=
  if stop ≤ s.frames.length then popFrames host (s.frames.length - stop) s else none

end Nsh.Redirection
