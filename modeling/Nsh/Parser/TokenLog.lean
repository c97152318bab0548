import Nsh.Parser.Tokens
import Nsh.Lib.Cells

/-!
# The token log

The bytes one parse consumed, kept as tokens.  The reader appends bytes, the
parser says where the cuts fall, and a push-back reaches back across cuts that
were made already.  A node's run names a cell that is filled when the parse
ends.  Whatever the order of the operations, the tokens and the bytes pending
spell what was recorded and not given back, and the cell keeps it.
-/

namespace Nsh.Parser

/-- What a run of consumed bytes was read as. -/
inductive SourceTokenKind where
  | blank
  | comment
  | lineContinuation
  | newline
  | operator
  | word
  | hereDocument
deriving DecidableEq, Repr

/-- One run of consumed bytes. -/
structure SourceToken where
  kind : SourceTokenKind
  text : Bytes
deriving DecidableEq, Repr

/-- A node's run: the log's cell, and the positions it lies between. -/
structure SourceTokens where
  log : Option Nat
  start : Nat
  stop : Nat
deriving DecidableEq, Repr

def SourceTokens.cut (log start stop : Nat) : SourceTokens := ⟨some log, start, stop⟩

def SourceTokens.none : SourceTokens := ⟨.none, 0, 0⟩

/-- The tokens of a run: those of its sealed log between its bounds. -/
def SourceTokens.tokens (run : SourceTokens) (cells : Cells (List SourceToken)) :
    List SourceToken :=
  match run.log.bind cells.get with
  | .none => []
  | some sealed =>
    if run.start ≤ run.stop ∧ run.stop ≤ sealed.length then
      (sealed.take run.stop).drop run.start
    else
      []

/-- Every byte one parse consumed, cut into tokens. -/
structure TokenLog where
  tokens : List SourceToken
  sealed : Option Nat
  pending : Bytes
  frame : Option Nat
  expandedAlias : Bool
  returned : Nat
deriving DecidableEq, Repr

namespace TokenLog

def new : TokenLog := ⟨[], none, [], none, false, 0⟩

def between (log : TokenLog) (start stop : Nat) : SourceTokens :=
  match log.sealed with
  | some sealed => .cut sealed start stop
  | none => .none

def record (log : TokenLog) (frame : Nat) (byte : UInt8) : TokenLog :=
  if log.frame = some frame then { log with pending := log.pending ++ [byte] } else log

/-- The loop of `unrecord`: a token is reopened when no byte is pending. -/
def giveBack (log : TokenLog) (remaining : Nat) : TokenLog :=
  if remaining = 0 then log
  else if log.pending = [] then
    match _hlast : log.tokens.getLast? with
    | none => log
    | some last =>
      giveBack { log with tokens := log.tokens.dropLast, pending := last.text } remaining
  else
    let keep := log.pending.length - remaining
    giveBack { log with pending := log.pending.take keep }
      (remaining - (log.pending.length - keep))
termination_by (log.tokens.length, log.pending.length)
decreasing_by
  · have hne : log.tokens ≠ [] := by
      rintro hnil
      rw [hnil] at _hlast
      cases _hlast
    have := List.length_pos_of_ne_nil hne
    simp_wf
    exact .left _ _ (by omega)
  · have := List.length_pos_of_ne_nil ‹log.pending ≠ []›
    simp_wf
    exact .right _ (by omega)

def unrecord (log : TokenLog) (frame count : Nat) : TokenLog :=
  if log.frame = some frame then log.giveBack count else log

/-- Drop the token holding an alias name the input has replaced. -/
def retractAliasName (log : TokenLog) (name : Bytes) : TokenLog :=
  if log.pending = [] ∧ log.tokens.getLast? = some ⟨.word, name⟩ then
    { log with tokens := log.tokens.dropLast, expandedAlias := true }
  else
    log

/-- Close the first `length` pending bytes as one token. -/
def cutHead (log : TokenLog) (length : Nat) (kind : SourceTokenKind) : TokenLog :=
  if length = 0 then log
  else
    { log with
      tokens := log.tokens ++ [⟨kind, log.pending.take (min length log.pending.length)⟩]
      pending := log.pending.drop (min length log.pending.length) }

/-- Close the pending bytes as one token. -/
def cut (log : TokenLog) (kind : SourceTokenKind) : TokenLog :=
  log.cutHead log.pending.length kind

/-- Everything cut so far, as one run. -/
def whole (log : TokenLog) : SourceTokens := log.between 0 log.tokens.length

/-- What a token the reader returned is kept as. -/
def sourceKind : TokenKind → SourceTokenKind
  | .word => .word
  | .newline => .newline
  | _ => .operator

/-- Close the pending bytes as the token the reader just returned. -/
def cutToken (log : TokenLog) (kind : TokenKind) (replayed : Bool) (frame began : Nat) :
    TokenLog :=
  if log.frame = some frame then
    let log := if replayed then log else { log with returned := min began log.tokens.length }
    log.cut (sourceKind kind)
  else
    log

/-- Close the pending bytes as one token and hand back that token. -/
def cutRun (log : TokenLog) (kind : SourceTokenKind) : TokenLog × SourceTokens :=
  let log := log.cut kind
  (log, log.between (log.tokens.length - 1) log.tokens.length)

end TokenLog

/-- The log and the cells of the logs there have been. -/
structure Recording where
  log : TokenLog
  cells : Cells (List SourceToken)
deriving DecidableEq, Repr

namespace Recording

/-- Stop recording, and hand the tokens to the runs cut from them. -/
def sealLog (r : Recording) : Recording :=
  let log := { r.log.cut .word with frame := none }
  match log.sealed with
  | some sealed => ⟨log, r.cells.fill sealed log.tokens⟩
  | none => ⟨log, r.cells⟩

/-- Start recording a parse that reads from `frame`, discarding the last. -/
def begin (r : Recording) (frame : Nat) : Recording :=
  let r := r.sealLog
  ⟨⟨[], some r.cells.length, [], some frame, false, 0⟩, r.cells.fresh⟩

end Recording

/-! ### What a log spells -/

namespace TokenLog

/-- The bytes held: the text of the tokens, and the bytes pending. -/
def spelled (log : TokenLog) : Bytes := log.tokens.flatMap (·.text) ++ log.pending

/-- No token is empty. -/
def NoneEmpty (log : TokenLog) : Prop := ∀ token ∈ log.tokens, token.text ≠ []

theorem spelled_giveBack (log : TokenLog) (count : Nat) :
    (log.giveBack count).spelled = log.spelled.take (log.spelled.length - count) := by
  fun_induction giveBack log count with
  | case1 log => simp
  | case2 log remaining hremaining hpending hlast =>
    have htokens : log.tokens = [] := List.getLast?_eq_none_iff.mp hlast
    simp [spelled, hpending, htokens]
  | case3 log remaining hremaining hpending last hlast ih =>
    -- a token is reopened: what is spelled is as it was
    have htokens : log.tokens = log.tokens.dropLast ++ [last] :=
      (List.dropLast_append_getLast? last hlast).symm
    have hspelled : { log with tokens := log.tokens.dropLast, pending := last.text }.spelled
        = log.spelled := by
      unfold spelled
      rw [hpending]
      conv => rhs; rw [htokens]
      simp
    rw [ih, hspelled]
  | case4 log remaining hremaining hpending keep ih =>
    rw [ih]
    have hkeep : keep = log.pending.length - remaining := rfl
    simp only [spelled, List.length_append, List.length_take]
    rw [List.take_append, List.take_append, List.take_take]
    have hcount : (log.tokens.flatMap (·.text)).length + min keep log.pending.length
        - (remaining - (log.pending.length - keep))
        = (log.tokens.flatMap (·.text)).length + log.pending.length - remaining := by
      omega
    rw [hcount]
    congr 2
    omega

theorem noneEmpty_giveBack {log : TokenLog} (count : Nat) (h : log.NoneEmpty) :
    (log.giveBack count).NoneEmpty := by
  fun_induction giveBack log count with
  | case1 => exact h
  | case2 => exact h
  | case3 log remaining hremaining hpending last hlast ih =>
    apply ih
    intro token hmem
    exact h token (List.mem_of_mem_dropLast hmem)
  | case4 log remaining hremaining hpending keep ih => exact ih h

/-- Giving bytes back leaves the log's cell and its frame. -/
theorem giveBack_sealed (log : TokenLog) (count : Nat) :
    (log.giveBack count).sealed = log.sealed ∧ (log.giveBack count).frame = log.frame := by
  fun_induction giveBack log count with
  | case1 => exact ⟨rfl, rfl⟩
  | case2 => exact ⟨rfl, rfl⟩
  | case3 log remaining hremaining hpending last hlast ih => exact ih
  | case4 log remaining hremaining hpending keep ih => exact ih

/-- A cut moves bytes from what is pending to a token, and loses none. -/
theorem spelled_cutHead (log : TokenLog) (length : Nat) (kind : SourceTokenKind) :
    (log.cutHead length kind).spelled = log.spelled := by
  unfold cutHead
  split
  · rfl
  · simp [spelled]

theorem noneEmpty_cutHead {log : TokenLog} {length : Nat} (kind : SourceTokenKind)
    (h : log.NoneEmpty) (hlength : length ≤ log.pending.length) :
    (log.cutHead length kind).NoneEmpty := by
  unfold cutHead
  split
  · exact h
  · next hzero =>
    intro token hmem
    rcases List.mem_append.mp hmem with hold | hnew
    · exact h token hold
    · have htoken := List.mem_singleton.mp hnew
      rw [htoken]
      intro hnil
      have hlen : min (min length log.pending.length) log.pending.length = 0 := by
        rw [← List.length_take]
        exact congrArg List.length hnil
      omega

theorem cutHead_sealed (log : TokenLog) (length : Nat) (kind : SourceTokenKind) :
    (log.cutHead length kind).sealed = log.sealed ∧
      (log.cutHead length kind).frame = log.frame := by
  unfold cutHead
  split
  · exact ⟨rfl, rfl⟩
  · exact ⟨rfl, rfl⟩

/-- Cutting all that is pending leaves nothing pending. -/
theorem cut_pending (log : TokenLog) (kind : SourceTokenKind) : (log.cut kind).pending = [] := by
  unfold cut cutHead
  split
  · next hzero => exact List.length_eq_zero_iff.mp hzero
  · simp

end TokenLog

/-! ### What a parse does with its log -/

/-- What is done with the log between `begin` and `seal`, or after it. -/
inductive LogStep where
  | record (frame : Nat) (byte : UInt8)
  | unrecord (frame count : Nat)
  | cut (kind : SourceTokenKind)
  | cutHead (length : Nat) (kind : SourceTokenKind)
  | cutToken (kind : TokenKind) (replayed : Bool) (frame began : Nat)
  | cutRun (kind : SourceTokenKind)
deriving DecidableEq, Repr

namespace TokenLog

def step (log : TokenLog) : LogStep → TokenLog
  | .record frame byte => log.record frame byte
  | .unrecord frame count => log.unrecord frame count
  | .cut kind => log.cut kind
  | .cutHead length kind => log.cutHead length kind
  | .cutToken kind replayed frame began => log.cutToken kind replayed frame began
  | .cutRun kind => (log.cutRun kind).1

def steps (log : TokenLog) (script : List LogStep) : TokenLog := script.foldl step log

/-- Each step of a script satisfies `P` where it is made. -/
def Along (P : TokenLog → LogStep → Prop) : TokenLog → List LogStep → Prop
  | _, [] => True
  | log, act :: script => P log act ∧ Along P (log.step act) script

/-- No more bytes are given back than are held. -/
def GivesBackHeld (log : TokenLog) : LogStep → Prop
  | .unrecord frame count => log.frame = some frame → count ≤ log.spelled.length
  | _ => True

/-- No more bytes are cut than are pending. -/
def CutsPending (log : TokenLog) : LogStep → Prop
  | .cutHead length _ => length ≤ log.pending.length
  | _ => True

end TokenLog

/-- What a step makes of the bytes a parse on `frame` has consumed. -/
def LogStep.consumed (frame : Nat) (bytes : Bytes) : LogStep → Bytes
  | .record other byte => if other = frame then bytes ++ [byte] else bytes
  | .unrecord other count =>
    if other = frame then bytes.take (bytes.length - count) else bytes
  | _ => bytes

namespace TokenLog

/-- The log records the frame, into the cell. -/
def Records (log : TokenLog) (frame cell : Nat) : Prop :=
  log.frame = some frame ∧ log.sealed = some cell

theorem frame_eq_iff {log : TokenLog} {frame cell : Nat} (h : log.Records frame cell)
    (other : Nat) : log.frame = some other ↔ other = frame := by
  rw [h.1, Option.some.injEq]
  exact eq_comm

theorem step_records {log : TokenLog} {frame cell : Nat} (h : log.Records frame cell)
    (act : LogStep) : (log.step act).Records frame cell := by
  have hcut : ∀ (log : TokenLog) (length : Nat) (kind : SourceTokenKind),
      log.Records frame cell → (log.cutHead length kind).Records frame cell := by
    intro log length kind hlog
    have hkept := cutHead_sealed log length kind
    exact ⟨hkept.2.trans hlog.1, hkept.1.trans hlog.2⟩
  cases act with
  | record other byte =>
    show (log.record other byte).Records frame cell
    unfold record
    split
    · exact h
    · exact h
  | unrecord other count =>
    show (log.unrecord other count).Records frame cell
    unfold unrecord
    split
    · have hkept := giveBack_sealed log count
      exact ⟨hkept.2.trans h.1, hkept.1.trans h.2⟩
    · exact h
  | cut kind => exact hcut log _ kind h
  | cutHead length kind => exact hcut log length kind h
  | cutToken kind replayed other began =>
    show (log.cutToken kind replayed other began).Records frame cell
    unfold cutToken
    split
    · apply hcut
      split
      · exact h
      · exact h
    · exact h
  | cutRun kind => exact hcut log _ kind h

/-- What a step makes of what the log spells is what it makes of the bytes consumed. -/
theorem spelled_step {log : TokenLog} {frame cell : Nat} (h : log.Records frame cell)
    (act : LogStep) : (log.step act).spelled = act.consumed frame log.spelled := by
  cases act with
  | record other byte =>
    show (log.record other byte).spelled = if other = frame then _ else _
    unfold record
    rw [if_congr (frame_eq_iff h other) rfl rfl]
    split
    · simp [spelled]
    · rfl
  | unrecord other count =>
    show (log.unrecord other count).spelled = if other = frame then _ else _
    unfold unrecord
    rw [if_congr (frame_eq_iff h other) rfl rfl]
    split
    · exact spelled_giveBack log count
    · rfl
  | cut kind => exact spelled_cutHead log _ kind
  | cutHead length kind => exact spelled_cutHead log length kind
  | cutToken kind replayed other began =>
    show (log.cutToken kind replayed other began).spelled = log.spelled
    unfold cutToken
    split
    · refine (spelled_cutHead _ _ _).trans ?_
      split
      · rfl
      · rfl
    · rfl
  | cutRun kind => exact spelled_cutHead log _ kind

theorem noneEmpty_step {log : TokenLog} {act : LogStep} (h : log.NoneEmpty)
    (hcut : log.CutsPending act) : (log.step act).NoneEmpty := by
  cases act with
  | record other byte =>
    show (log.record other byte).NoneEmpty
    unfold record
    split
    · exact h
    · exact h
  | unrecord other count =>
    show (log.unrecord other count).NoneEmpty
    unfold unrecord
    split
    · exact noneEmpty_giveBack count h
    · exact h
  | cut kind => exact noneEmpty_cutHead kind h (le_refl _)
  | cutHead length kind => exact noneEmpty_cutHead kind h hcut
  | cutToken kind replayed other began =>
    show (log.cutToken kind replayed other began).NoneEmpty
    unfold cutToken
    split
    · apply noneEmpty_cutHead _ _ (le_refl _)
      split
      · exact h
      · exact h
    · exact h
  | cutRun kind => exact noneEmpty_cutHead kind h (le_refl _)

theorem steps_records {log : TokenLog} {frame cell : Nat} (h : log.Records frame cell)
    (script : List LogStep) : (log.steps script).Records frame cell := by
  induction script generalizing log with
  | nil => exact h
  | cons act script ih => exact ih (step_records h act)

theorem spelled_steps {log : TokenLog} {frame cell : Nat} (h : log.Records frame cell)
    (script : List LogStep) :
    (log.steps script).spelled = script.foldl (LogStep.consumed frame) log.spelled := by
  induction script generalizing log with
  | nil => rfl
  | cons act script ih =>
    show ((log.step act).steps script).spelled = _
    rw [ih (step_records h act), spelled_step h act]
    rfl

theorem noneEmpty_steps {log : TokenLog} {script : List LogStep} (h : log.NoneEmpty)
    (hcut : Along CutsPending log script) : (log.steps script).NoneEmpty := by
  induction script generalizing log with
  | nil => exact h
  | cons act script ih => exact ih (noneEmpty_step h hcut.1) hcut.2

/-- A log that records no frame and has nothing pending stays as it is. -/
theorem step_idle {log : TokenLog} {act : LogStep} (hframe : log.frame = none)
    (hpending : log.pending = []) (hcut : log.CutsPending act) : log.step act = log := by
  have hall : ∀ kind, log.cut kind = log := by
    intro kind
    unfold cut cutHead
    rw [hpending]
    rfl
  have hother : ∀ other, ¬ log.frame = some other := by
    intro other hsome
    rw [hframe] at hsome
    cases hsome
  cases act with
  | record other byte => exact if_neg (hother other)
  | unrecord other count => exact if_neg (hother other)
  | cut kind => exact hall kind
  | cutHead length kind =>
    have hlength : length ≤ log.pending.length := hcut
    rw [hpending] at hlength
    exact if_pos (Nat.le_zero.mp hlength)
  | cutToken kind replayed other began => exact if_neg (hother other)
  | cutRun kind => exact hall kind

theorem steps_idle {log : TokenLog} {script : List LogStep} (hframe : log.frame = none)
    (hpending : log.pending = []) (hcut : Along CutsPending log script) :
    log.steps script = log := by
  induction script with
  | nil => rfl
  | cons act script ih =>
    have hstep := step_idle hframe hpending hcut.1
    show (log.step act).steps script = log
    have hrest := hcut.2
    rw [hstep] at hrest ⊢
    exact ih hrest

end TokenLog

/-! ### The runs of a sealed log -/

/-- What is done with a recording, over any number of parses. -/
inductive LogOperation where
  | begin (frame : Nat)
  | sealLog
  | step (act : LogStep)
  | retractAliasName (name : Bytes)
deriving DecidableEq, Repr

namespace Recording

def operate (r : Recording) : LogOperation → Recording
  | .begin frame => r.begin frame
  | .sealLog => r.sealLog
  | .step act => { r with log := r.log.step act }
  | .retractAliasName name => { r with log := r.log.retractAliasName name }

def operateAll (r : Recording) (operations : List LogOperation) : Recording :=
  operations.foldl operate r

theorem get_sealLog {r : Recording} {cell : Nat} {tokens : List SourceToken}
    (h : r.cells.get cell = some tokens) : r.sealLog.cells.get cell = some tokens := by
  unfold sealLog
  dsimp only
  split
  · exact Cells.get_fill h
  · exact h

theorem get_operate {r : Recording} {cell : Nat} {tokens : List SourceToken}
    (h : r.cells.get cell = some tokens) (operation : LogOperation) :
    (r.operate operation).cells.get cell = some tokens := by
  cases operation with
  | begin frame => exact Cells.get_fresh (get_sealLog h)
  | sealLog => exact get_sealLog h
  | step act => exact h
  | retractAliasName name => exact h

/-- A sealed log stays what it is, whatever is parsed next. -/
theorem get_operateAll {r : Recording} {cell : Nat} {tokens : List SourceToken}
    (h : r.cells.get cell = some tokens) (operations : List LogOperation) :
    (r.operateAll operations).cells.get cell = some tokens := by
  induction operations generalizing r with
  | nil => exact h
  | cons operation operations ih => exact ih (get_operate h operation)

/-- The cell a parse records into. -/
def openedCell (r : Recording) : Nat := r.sealLog.cells.length

theorem begin_records (r : Recording) (frame : Nat) :
    (r.begin frame).log.Records frame r.openedCell := ⟨rfl, rfl⟩

/-- A parse's log is sealed into its cell. -/
theorem get_sealed (r : Recording) {frame : Nat} {log : TokenLog}
    (h : log.Records frame r.openedCell) :
    (sealLog ⟨log, (r.begin frame).cells⟩).cells.get r.openedCell
      = some (log.cut .word).tokens := by
  have hsealed : (log.cut .word).sealed = some r.openedCell :=
    (TokenLog.cutHead_sealed log _ _).1.trans h.2
  unfold sealLog
  dsimp only
  rw [hsealed]
  apply Cells.get_fill_self
  · show r.sealLog.cells.length < r.sealLog.cells.fresh.length
    simp
  · exact Cells.get_fresh_self r.sealLog.cells

/-- Between `begin` and the end of a script the tokens and what is pending spell what the
script consumed, no token is empty, and once the log is sealed every whole run spells it too,
whenever it is handed out before the next parse and whenever it is read. -/
def KeepsEveryByte (r : Recording) (frame : Nat) (script : List LogStep) : Prop :=
  let log := (r.begin frame).log.steps script
  let ended := sealLog ⟨log, (r.begin frame).cells⟩
  let consumed := script.foldl (LogStep.consumed frame) []
  log.spelled = consumed ∧ log.NoneEmpty ∧ ended.log.NoneEmpty ∧
    ∀ after later, TokenLog.Along TokenLog.CutsPending ended.log after →
      ((ended.log.steps after).whole.tokens
        (operateAll ⟨ended.log.steps after, ended.cells⟩ later).cells).flatMap (·.text) = consumed

/-- **The token log keeps every byte once.** -/
theorem keepsEveryByte (r : Recording) (frame : Nat) (script : List LogStep)
    (hcut : TokenLog.Along TokenLog.CutsPending (r.begin frame).log script) :
    r.KeepsEveryByte frame script := by
  have hbegin := r.begin_records frame
  have hrecords := TokenLog.steps_records hbegin script
  have hspelled := TokenLog.spelled_steps hbegin script
  have hempty : (r.begin frame).log.NoneEmpty := by
    intro token hmem
    cases hmem
  have hnone := TokenLog.noneEmpty_steps hempty hcut
  unfold KeepsEveryByte
  generalize (r.begin frame).log.steps script = log at hrecords hspelled hnone
  have hlog : (sealLog ⟨log, (r.begin frame).cells⟩).log
      = { log.cut .word with frame := none } := by
    unfold sealLog
    dsimp only
    split
    · rfl
    · rfl
  refine ⟨hspelled, hnone, ?_, ?_⟩
  · rw [hlog]
    exact TokenLog.noneEmpty_cutHead .word hnone (le_refl _)
  · intro after later hafter
    have hpending : (log.cut .word).pending = [] := log.cut_pending .word
    have hidle : (sealLog ⟨log, (r.begin frame).cells⟩).log.steps after
        = (sealLog ⟨log, (r.begin frame).cells⟩).log := by
      apply TokenLog.steps_idle _ _ hafter
      · rw [hlog]
      · rw [hlog]
        exact hpending
    rw [hidle]
    have hcell := get_operateAll (get_sealed r hrecords) later
    have hsealed : (log.cut .word).sealed = some r.openedCell :=
      (TokenLog.cutHead_sealed log _ _).1.trans hrecords.2
    have hwhole : (sealLog ⟨log, (r.begin frame).cells⟩).log.whole
        = .cut r.openedCell 0 (log.cut .word).tokens.length := by
      rw [hlog]
      show TokenLog.between _ _ _ = _
      unfold TokenLog.between
      dsimp only
      rw [hsealed]
    rw [hwhole]
    show (SourceTokens.tokens _ (operateAll (sealLog ⟨log, (r.begin frame).cells⟩) later).cells
      ).flatMap _ = _
    unfold SourceTokens.tokens SourceTokens.cut
    dsimp only [Option.bind_some]
    rw [hcell]
    have htext : (log.cut .word).tokens.flatMap (·.text) = log.spelled := by
      have := TokenLog.spelled_cutHead log log.pending.length .word
      unfold TokenLog.spelled at this
      change (log.cut .word).tokens.flatMap _ ++ (log.cut .word).pending = _ at this
      rw [hpending, List.append_nil] at this
      exact this
    simp only [Nat.zero_le, le_refl, and_self, if_true, List.take_length, List.drop_zero]
    rw [htext]
    exact hspelled

/-- A word after a blank, the last byte of it given back, with a read of another frame. -/
theorem keepsEveryByte_word :
    (⟨.new, []⟩ : Recording).KeepsEveryByte 0
      [.record 0 (chr ' '), .record 0 (chr 'a'), .cutHead 1 .blank, .record 1 (chr 'x'),
        .record 0 (chr ';'), .cutToken .word false 0 0, .unrecord 0 1] :=
  keepsEveryByte ⟨.new, []⟩ 0 _
    ⟨trivial, trivial, show 1 ≤ 2 by decide, trivial, trivial, trivial, trivial, trivial⟩

/-- Asked to close more bytes than are pending, the log closes an empty token. -/
theorem not_keepsEveryByte_cutHead :
    ¬ ∀ (r : Recording) (frame : Nat) (script : List LogStep),
      TokenLog.Along TokenLog.GivesBackHeld (r.begin frame).log script →
        r.KeepsEveryByte frame script := by
  intro h
  have hkeeps := h ⟨.new, []⟩ 0 [.cutHead 1 .word] ⟨trivial, trivial⟩
  exact hkeeps.2.1 ⟨.word, []⟩ (by decide) rfl

end Recording

end Nsh.Parser
