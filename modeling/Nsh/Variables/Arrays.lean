import Nsh.Variables.Table

/-!
# Array elements

Which element a subscript selects, and the assignment of one element.  An
indexed subscript is an arithmetic expression, so resolving one evaluates: the
definitions here take the evaluator, `evaluate`, as an argument, and the
arithmetic module closes the knot.
-/

namespace Nsh.Variables

variable {W : Type}

/-- Which element of an array an assignment or read selects. -/
inductive ArraySelector where
  | index (index : UInt64)
  | key (key : Bytes)
  | all
  | joined
  /-- A subscript that counts back past the start of the array. -/
  | missing
deriving DecidableEq, Repr

section Evaluator

variable (host : Host W) (evaluate : Bytes → ShellRun W Int64)

/-- `arithmetic::evaluate_for_a_variable`: an abandonment raised from text the
    shell evaluates as written unwinds to the input loop. -/
def evaluateForAVariable (input : Bytes) : ShellRun W Int64 :=
  if input.any (fun byte => byte == chr '$' || byte == 0x60) then evaluate input
  else Run.mapError Error.markUnwinding (evaluate input)

/-! ### Subscripts that reached the shell as text -/

/-- Whether the bytes of a subscript are an expression rather than a key. -/
def readsAsArithmetic (shell : Shell W) (name subscript : Bytes) : Bool :=
  decide (shell.options.dialect = .bash) && subscript != text "@" && subscript != text "*" &&
    (variableKind shell name).getD .indexed != .associative

/-- The bytes that make a subscript more than itself: the two quotes, the
    backslash, `$` and the backquote. -/
def isActive (byte : UInt8) : Bool :=
  byte == 0x27 || byte == 0x22 || byte == 0x5c || byte == chr '$' || byte == 0x60

/-- The bytes a backslash keeps its meaning before, inside double quotes. -/
def keepsBackslash (byte : UInt8) : Bool :=
  byte == chr '$' || byte == 0x60 || byte == 0x22 || byte == 0x5c

/-- Expand one run of subscript text that no single quote protected. -/
def expandRun (run resolved : Bytes) : ShellRun W Bytes :=
  if run = [] then pure resolved
  else do
    let expanded ← host.expandString evaluate run
    pure (resolved ++ expanded)

/-- How the next byte of a subscript is read. -/
inductive Reading where
  | plain
  /-- After a backslash, which is data when no byte follows it. -/
  | escape
  /-- Inside single quotes. -/
  | single
deriving DecidableEq, Repr

/-- The loop of `arithmetic_word`, over what is left of the subscript. -/
def arithmeticWordFrom : Bytes → Reading → Bytes → Bytes → ShellRun W Bytes
  | [], .escape, run, resolved => expandRun host evaluate (run ++ [0x5c]) resolved
  | [], _, run, resolved => expandRun host evaluate run resolved
  | byte :: rest, .escape, run, resolved =>
    if keepsBackslash byte then arithmeticWordFrom rest .plain (run ++ [0x5c, byte]) resolved
    else do
      let resolved ← expandRun host evaluate run resolved
      arithmeticWordFrom rest .plain [] (resolved ++ [0x5c, byte])
  | byte :: rest, _, run, resolved =>
    if byte = 0x27 then do
      -- A single quote reaches the evaluator, and never the expander.
      let resolved ← expandRun host evaluate run resolved
      arithmeticWordFrom rest .plain [] (resolved ++ [0x27])
    else if byte = 0x22 then arithmeticWordFrom rest .plain run resolved
    else if byte = 0x5c then arithmeticWordFrom rest .escape run resolved
    else arithmeticWordFrom rest .plain (run ++ [byte]) resolved

/-- Read a subscript the way an index is read: as the contents of a
    double-quoted word. -/
def arithmeticWord (subscript : Bytes) : ShellRun W Bytes :=
  if subscript.any isActive then arithmeticWordFrom host evaluate subscript .plain [] []
  else pure subscript

/-- The loop of `text_word`; `double` says whether double quotes are open. -/
def textWordFrom : Bytes → Reading → Bool → Bytes → Bytes → ShellRun W Bytes
  | [], .escape, _, run, resolved => expandRun host evaluate (run ++ [0x5c]) resolved
  | [], _, _, run, resolved => expandRun host evaluate run resolved
  | byte :: rest, .escape, double, run, resolved =>
    if double || keepsBackslash byte then
      textWordFrom rest .plain double (run ++ [0x5c, byte]) resolved
    else textWordFrom rest .plain double (run ++ [byte]) resolved
  | byte :: rest, .single, double, run, resolved =>
    if byte = 0x27 then textWordFrom rest .plain double run resolved
    else textWordFrom rest .single double run (resolved ++ [byte])
  | byte :: rest, .plain, double, run, resolved =>
    if byte = 0x27 ∧ double = false then do
      let resolved ← expandRun host evaluate run resolved
      textWordFrom rest .single double [] resolved
    else if byte = 0x22 then textWordFrom rest .plain (!double) run resolved
    else if byte = 0x5c then textWordFrom rest .escape double run resolved
    else textWordFrom rest .plain double (run ++ [byte]) resolved

/-- Apply a word's quoting and expansion to text the parser never saw. -/
def textWord (subscript : Bytes) : ShellRun W Bytes :=
  if subscript.any isActive then textWordFrom host evaluate subscript .plain false [] []
  else pure subscript

/-! ### Selecting an element -/

/-- A negative subscript counts back from the highest set index. -/
def normalizeIndex (name : Bytes) (index : Int64) : ShellRun W ArraySelector := fun shell =>
  if 0 ≤ index then .done (.index index.toUInt64) shell
  else
    let highest := ((variableValue shell name).bind VariableValue.lastIndex).getD 0
    let resolved := (highest.toNat : Int) + 1 + index.toInt
    if resolved < 0 then
      let message := name ++ text ": bad array subscript"
      if shell.options.dialect = .bash then
        let shell := { shell with warnings := shell.warnings ++ [message] }
        -- `set -e` ends a script at a reported failure, so one is raised here.
        if shell.options.errexit then .failed (Error.abandonedAt shell.diagnosticLine) shell
        else .done .missing shell
      else Shell.shellError message shell
    else .done (.index (if resolved < 2 ^ 64 then UInt64.ofNat resolved.toNat else 0)) shell

/-- Resolve a subscript against the kind the variable already has. -/
def resolveSelector (name subscript : Bytes) : ShellRun W ArraySelector :=
  if subscript = text "@" then pure .all
  else if subscript = text "*" then pure .joined
  else do
    let shell ← Run.get
    if (variableKind shell name).getD .indexed = .associative then pure (.key subscript)
    else do
      let index ← evaluateForAVariable evaluate subscript
      normalizeIndex name index

/-- What the bytes of a subscript read as. -/
def subscriptWord (name subscript : Bytes) : ShellRun W Bytes := do
  let shell ← Run.get
  if readsAsArithmetic shell name subscript then arithmeticWord host evaluate subscript
  else textWord host evaluate subscript

/-- Resolve a subscript that reached the shell as text. -/
def resolveTextSelector (name subscript : Bytes) : ShellRun W ArraySelector := do
  let resolved ← subscriptWord host evaluate name subscript
  resolveSelector evaluate name resolved

/-! ### Assigning an element -/

/-- Reshape a value the way the declaration of `name` requires
    (`nameref::declared_value`). -/
def declaredValue (name value : Bytes) : ShellRun W (Option Bytes) := do
  let shell ← Run.get
  match bashAttributes shell name with
  | none => pure none
  | some declared =>
    if declared.integer then do
      let number ← Run.mapError Error.markAssignment (evaluateForAVariable evaluate value)
      pure (some (decimal number))
    else if declared.uppercase then pure (some (value.map toAsciiUppercase))
    else if declared.lowercase then pure (some (value.map toAsciiLowercase))
    else pure none

def declaredElement (name value : Bytes) : ShellRun W Bytes := do
  let converted ← declaredValue evaluate name value
  pure (converted.getD value)

/-- An integer variable reads empty text as zero rather than refusing it. -/
def arithmeticValue (input : Bytes) : ShellRun W Int64 :=
  if input.all isAsciiWhitespace then pure 0 else evaluateForAVariable evaluate input

/-- Combine the bytes of an element with what `+=` appends to them. -/
def appendElement (name existing value : Bytes) : ShellRun W Bytes := do
  let shell ← Run.get
  if ((bashAttributes shell name).map (·.integer)).getD false then do
    let left ← arithmeticValue evaluate existing
    let right ← arithmeticValue evaluate value
    pure (decimal (left + right))
  else pure (existing ++ value)

/-- The bytes an element assignment stores, before the declaration reshapes them. -/
def writtenElement (name existing value : Bytes) (append : Bool) : ShellRun W Bytes :=
  if append then appendElement evaluate name existing value else pure value

end Evaluator

def existingElement (value : VariableValue) : ArraySelector → Option Bytes
  | .index index => value.indexedAt index
  | .key key => value.associativeAt key
  | .missing | .all | .joined => none

def rejectBadName (name : Bytes) : ShellRun W Unit := fun shell =>
  if validName shell.locale name then .done () shell
  else Shell.shellError (name ++ text ": bad variable name") shell

def rejectReadOnly (name : Bytes) (guard : ReadOnlyGuard) : ShellRun W Unit := fun shell =>
  if guard = .declaration then .done () shell
  else if ((variableAttributes shell name).map (·.readOnly)).getD false then
    Shell.dialectError (name ++ text ": is read only") shell
  else .done () shell

/-- Refuse the empty key, which names no element of an associative array. -/
def rejectEmptyKey (name : Bytes) (selector : ArraySelector) : ShellRun W Unit :=
  if selector = .key [] then Shell.dialectError (name ++ text "[\"\"]: bad array subscript")
  else pure ()

/-- Write a whole structural value back, through `setEntry` first. -/
def store (host : Host W) (name : Bytes) (value : VariableValue)
    (attributes : VariableAttributes) (guard : ReadOnlyGuard) : ShellRun W Unit := do
  setEntry host name (some (value.scalarOwned.getD [])) attributes .run guard .declines
  Run.modify fun shell =>
    match shell.entry name with
    | none => shell
    | some entry => shell.insert name { entry with state := .set value }

/-- The value an element assignment to `name` starts from. -/
def elementBase (shell : Shell W) (name : Bytes) (kind : VariableKind) : VariableValue :=
  match variableValue shell name with
  | some value => if value.kind ≠ .scalar then value else value.convert kind
  | none => VariableValue.empty kind

/-- `a[i]=v`, `m[k]=v`, and their `+=` forms. -/
def assignElement (host : Host W) (evaluate : Bytes → ShellRun W Int64) (name : Bytes)
    (selector : ArraySelector) (value : Bytes) (append : Bool) (guard : ReadOnlyGuard) :
    ShellRun W Unit := do
  rejectBadName name
  rejectReadOnly name guard
  rejectEmptyKey name selector
  let kind := match selector with
    | .key _ => VariableKind.associative
    | _ => .indexed
  let shell ← Run.get
  let current := elementBase shell name kind
  let existing := (existingElement current selector).getD []
  let appended ← writtenElement evaluate name existing value append
  let element ← declaredElement evaluate name appended
  match selector with
  | .index index =>
    store host name (current.setIndexed index element) VariableAttributes.none guard
  | .key key =>
    store host name (current.setAssociative key element) VariableAttributes.none guard
  | .missing => do
    let shell ← Run.get
    Run.fail (Error.abandonedAt shell.diagnosticLine)
  | .all | .joined =>
    Shell.shellError (name ++ text ": cannot assign to a whole-array subscript")

/-! ### The evaluator is used monotonically -/

section Monotone

variable {host : Host W} {e e' : Bytes → ShellRun W Int64}

theorem evaluateForAVariable_mono (h : ∀ t, e t ≤ e' t) (input : Bytes) :
    evaluateForAVariable e input ≤ evaluateForAVariable e' input := by
  unfold evaluateForAVariable
  split
  · exact h input
  · exact Run.mapError_mono (h input)

theorem expandRun_mono (h : ∀ t, e t ≤ e' t) (run resolved : Bytes) :
    expandRun host e run resolved ≤ expandRun host e' run resolved := by
  unfold expandRun
  split
  · exact le_refl _
  · exact Run.bind_mono (host.expandString_mono e e' h run) fun _ => le_refl _

theorem arithmeticWordFrom_mono (h : ∀ t, e t ≤ e' t) (rest : Bytes) :
    ∀ reading run resolved, arithmeticWordFrom host e rest reading run resolved ≤
      arithmeticWordFrom host e' rest reading run resolved := by
  induction rest with
  | nil =>
    intro reading run resolved
    cases reading <;> exact expandRun_mono h _ _
  | cons byte rest ih =>
    intro reading run resolved
    have hrun : ∀ run' resolved' (f : Bytes → Bytes),
        (expandRun host e run' resolved' >>= fun r =>
          arithmeticWordFrom host e rest .plain [] (f r)) ≤
        (expandRun host e' run' resolved' >>= fun r =>
          arithmeticWordFrom host e' rest .plain [] (f r)) :=
      fun run' resolved' f =>
        Run.bind_mono (expandRun_mono h run' resolved') fun r => ih .plain [] (f r)
    cases reading with
    | escape =>
      simp only [arithmeticWordFrom]
      split
      · exact ih _ _ _
      · exact hrun run resolved _
    | plain =>
      simp only [arithmeticWordFrom]
      split_ifs
      · exact hrun run resolved _
      · exact ih _ _ _
      · exact ih _ _ _
      · exact ih _ _ _
    | single =>
      simp only [arithmeticWordFrom]
      split_ifs
      · exact hrun run resolved _
      · exact ih _ _ _
      · exact ih _ _ _
      · exact ih _ _ _

theorem textWordFrom_mono (h : ∀ t, e t ≤ e' t) (rest : Bytes) :
    ∀ reading double run resolved, textWordFrom host e rest reading double run resolved ≤
      textWordFrom host e' rest reading double run resolved := by
  induction rest with
  | nil =>
    intro reading double run resolved
    cases reading <;> exact expandRun_mono h _ _
  | cons byte rest ih =>
    intro reading double run resolved
    cases reading with
    | escape =>
      simp only [textWordFrom]
      split
      · exact ih _ _ _ _
      · exact ih _ _ _ _
    | single =>
      simp only [textWordFrom]
      split
      · exact ih _ _ _ _
      · exact ih _ _ _ _
    | plain =>
      simp only [textWordFrom]
      split_ifs
      · exact Run.bind_mono (expandRun_mono h run resolved) fun r => ih .single _ [] r
      · exact ih _ _ _ _
      · exact ih _ _ _ _
      · exact ih _ _ _ _

theorem resolveSelector_mono (h : ∀ t, e t ≤ e' t) (name subscript : Bytes) :
    resolveSelector e name subscript ≤ resolveSelector e' name subscript := by
  unfold resolveSelector
  split_ifs
  · exact le_refl _
  · exact le_refl _
  · refine Run.bind_mono_right fun shell => ?_
    split
    · exact le_refl _
    · exact Run.bind_mono (evaluateForAVariable_mono h subscript) fun _ => le_refl _

theorem resolveTextSelector_mono (h : ∀ t, e t ≤ e' t) (name subscript : Bytes) :
    resolveTextSelector host e name subscript ≤ resolveTextSelector host e' name subscript := by
  refine Run.bind_mono (Run.bind_mono_right fun shell => ?_) fun r => resolveSelector_mono h name r
  split
  · unfold arithmeticWord
    split
    · exact arithmeticWordFrom_mono h _ _ _ _
    · exact le_refl _
  · unfold textWord
    split
    · exact textWordFrom_mono h _ _ _ _ _
    · exact le_refl _

theorem declaredValue_mono (h : ∀ t, e t ≤ e' t) (name value : Bytes) :
    declaredValue e name value ≤ declaredValue e' name value := by
  refine Run.bind_mono_right fun shell => ?_
  cases bashAttributes shell name with
  | none => exact le_refl _
  | some declared =>
    simp only
    split
    · exact Run.bind_mono (Run.mapError_mono (evaluateForAVariable_mono h value)) fun _ => le_refl _
    · exact le_refl _

theorem arithmeticValue_mono (h : ∀ t, e t ≤ e' t) (input : Bytes) :
    arithmeticValue e input ≤ arithmeticValue e' input := by
  unfold arithmeticValue
  split
  · exact le_refl _
  · exact evaluateForAVariable_mono h input

theorem appendElement_mono (h : ∀ t, e t ≤ e' t) (name existing value : Bytes) :
    appendElement e name existing value ≤ appendElement e' name existing value := by
  refine Run.bind_mono_right fun shell => ?_
  split
  · exact Run.bind_mono (arithmeticValue_mono h existing) fun left =>
      Run.bind_mono (arithmeticValue_mono h value) fun right => le_refl _
  · exact le_refl _

theorem assignElement_mono (h : ∀ t, e t ≤ e' t) (name : Bytes) (selector : ArraySelector)
    (value : Bytes) (append : Bool) (guard : ReadOnlyGuard) :
    assignElement host e name selector value append guard ≤
      assignElement host e' name selector value append guard := by
  refine Run.bind_mono_right fun _ => Run.bind_mono_right fun _ => Run.bind_mono_right fun _ =>
    Run.bind_mono_right fun shell => ?_
  refine Run.bind_mono ?_ fun appended => Run.bind_mono
    (Run.bind_mono (declaredValue_mono h name appended) fun _ => le_refl _) fun _ => le_refl _
  unfold writtenElement
  split
  · exact appendElement_mono h _ _ _
  · exact le_refl _

end Monotone

end Nsh.Variables
