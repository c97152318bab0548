import Nsh.Arithmetic.Walk

/-!
# Termination of evaluation

An evaluation opens others.  The value of a name is evaluated one deeper, and the
depth is bounded; the evaluations the variables make themselves (a subscript, a
declared value, the arithmetic of an expansion) start from depth zero again.  So
an evaluation terminates exactly when those restarts nest finitely deep
(`evaluate_terminates_iff`), and with `l` of them nested it opens at most
`(l + 1) * 1025` evaluations at once.  In the POSIX dialect there are none.  In
the Bash dialect a store in which `x` holds `a[x]` restarts for ever.
-/

namespace Nsh.Arithmetic

open Variables

variable {W : Type}

/-! ### An evaluation is charged for the values of names -/

theorem whole_mono {p p' : Setting W} (h : p.input = p'.input)
    {rules rules' : Call → Walk W Int64} {depth : Nat}
    (hrules : rules ⟨.assignment, true, depth⟩ ≤ rules' ⟨.assignment, true, depth⟩) :
    whole p rules depth ≤ whole p' rules' depth := by
  refine Run.bind_mono ?_ fun result s => ?_
  · exact comma_related (S := leSimulation W) (k := 0) fun _ => hrules
  · rw [complain_eq_of_input h]

theorem evaluateBody_guarded (host : Host W) :
    Nested.Guarded (evaluateBody host) (fun job => maxNameDepth - job.depth) := by
  intro c c' r r' job hc hr shell
  have hbelow : Setting.Below job.depth (setting host c r shell job.input)
      (setting host c' r' shell job.input) := {
    host := rfl
    input := rfl
    bash := rfl
    nested := fun t depth hfloor hmax => hc ⟨t, depth⟩ (by simp only; omega)
    restart := fun t => hr ⟨t, 0⟩ }
  unfold evaluateBody evaluateWithin evaluateUnder
  simp only
  rw [hbelow.bash]
  split
  · exact le_refl _
  · exact Run.within_mono (whole_mono hbelow.input (walk_mono hbelow _ (le_refl job.depth))) shell

/-- Evaluation with at most `l` nested restarts, and room below each for every
    evaluation the depth allows. -/
def restarts (host : Host W) (l : Nat) (input : Bytes) : ShellRun W Int64 :=
  Nested.restarted (evaluateBody host) (maxNameDepth + 1) l ⟨input, 0⟩

/-- `evaluate` returns a value or an error. -/
def Terminates (host : Host W) (shell : Shell W) (input : Bytes) : Prop :=
  ∃ n, evaluate host n input shell ≠ .unfinished

/-- The evaluations the variables make themselves nest finitely deep. -/
def RestartsEnd (host : Host W) (shell : Shell W) (input : Bytes) : Prop :=
  ∃ l, restarts host l input shell ≠ .unfinished

/-- With `l` nested restarts, at most `(l + 1) * 1025` evaluations are open. -/
theorem evaluate_of_restarts {host : Host W} {shell : Shell W} {input : Bytes} {l : Nat}
    (h : restarts host l input shell ≠ .unfinished) :
    evaluate host ((l + 1) * (maxNameDepth + 1)) input shell = restarts host l input shell := by
  have hle : restarts host l input ≤ evaluate host ((l + 1) * (maxNameDepth + 1)) input :=
    Nested.restarted_le_unrolled (evaluateBody_guarded host) l ⟨input, 0⟩
  exact Outcome.eq_of_le (hle shell) h

theorem terminates_iff_restartsEnd (host : Host W) (shell : Shell W) (input : Bytes) :
    Terminates host shell input ↔ RestartsEnd host shell input :=
  Nested.eventually_iff (evaluateBody_guarded host)
    (fun _ => Nat.lt_succ_of_le (Nat.sub_le _ _)) (P := fun m => m shell ≠ .unfinished)
    (fun h => Outcome.ne_unfinished_of_le (h shell)) ⟨input, 0⟩

/-! ### The POSIX dialect -/

/-- A token that is not a name with a subscript. -/
def Token.Plain (token : Token) : Prop := ∀ name, token = .name name → name.subscript = none

theorem plain_of_not_name {token : Token} (h : ∀ name, token ≠ .name name) : token.Plain :=
  fun name hname => absurd hname (h name)

theorem binaryOrAssign_plain (op : BinaryOperator) (rest : Bytes) :
    (binaryOrAssign op rest).1.Plain := by
  unfold binaryOrAssign
  split <;> exact plain_of_not_name nofun

theorem ite_plain {c : Prop} [Decidable c] {a b : Token × Bytes} (ha : a.1.Plain)
    (hb : b.1.Plain) : (if c then a else b).1.Plain := by
  split
  · exact ha
  · exact hb

theorem operator_plain (bash : Bool) (byte : UInt8) (rest : Bytes) :
    (operator bash byte rest).1.Plain := by
  have hcompare : ∀ o s t, (comparisonOrShift byte o s t rest).1.Plain := by
    intro o s t
    unfold comparisonOrShift
    split
    · exact plain_of_not_name nofun
    · split
      · exact binaryOrAssign_plain _ _
      · exact plain_of_not_name nofun
  have hlogical : ∀ token op, token.Plain → (logicalOrBitwise byte token op rest).1.Plain := by
    intro token op h
    unfold logicalOrBitwise
    split
    · exact h
    · exact binaryOrAssign_plain _ _
  have hdoubled : ∀ both op, (∀ rest, (both rest).1.Plain) →
      (doubled bash byte rest both op).1.Plain := by
    intro both op h
    unfold doubled
    split
    · exact h _
    · exact binaryOrAssign_plain _ _
  have hpower : ∀ rest, (powerToken rest).1.Plain := by
    intro rest
    unfold powerToken
    split <;> exact plain_of_not_name nofun
  unfold operator
  repeat' apply ite_plain
  · split <;> exact plain_of_not_name nofun
  · exact hcompare _ _ _
  · exact hcompare _ _ _
  · exact hlogical _ _ (plain_of_not_name nofun)
  · exact hlogical _ _ (plain_of_not_name nofun)
  · split <;> exact plain_of_not_name nofun
  · exact plain_of_not_name nofun
  · exact plain_of_not_name nofun
  · exact plain_of_not_name nofun
  · exact plain_of_not_name nofun
  · exact plain_of_not_name nofun
  · exact plain_of_not_name nofun
  · exact hdoubled _ _ hpower
  · exact binaryOrAssign_plain _ _
  · exact binaryOrAssign_plain _ _
  · exact hdoubled _ _ fun _ => plain_of_not_name nofun
  · exact hdoubled _ _ fun _ => plain_of_not_name nofun
  · exact binaryOrAssign_plain _ _
  · exact plain_of_not_name nofun

/-- The POSIX dialect has no subscripts. -/
theorem next_plain (locale : Locale) (input : Bytes) : (next locale false input).1.Plain := by
  unfold next
  split
  · exact plain_of_not_name nofun
  · next byte rest _ =>
    split_ifs
    · simp only [number, Bool.false_eq_true, false_and, if_false]
      exact plain_of_not_name nofun
    · rintro name ⟨rfl⟩
      rfl
    · exact operator_plain false byte rest

theorem tokens_plain (locale : Locale) (input : Bytes) :
    ∀ token ∈ tokens locale false input, token.Plain := by
  suffices h : ∀ fuel input, ∀ token ∈ tokensFrom locale false fuel input, token.Plain from
    h _ input
  intro fuel
  induction fuel with
  | zero =>
    intro input token h
    rw [tokensFrom, List.mem_singleton] at h
    exact h ▸ plain_of_not_name nofun
  | succ fuel ih =>
    intro input token h
    have hnext := next_plain locale input
    rw [tokensFrom] at h
    split at h
    · rw [List.mem_singleton] at h
      exact h ▸ plain_of_not_name nofun
    · next first rest _ heq =>
      rw [heq] at hnext
      rcases List.mem_cons.mp h with rfl | h
      · exact hnext
      · exact ih rest token h

/-! ### Evaluations that open none -/

theorem setEntry_finishes (host : Host W) (name : Bytes) (value : Option Bytes)
    (attributes : VariableAttributes) (policy : CallbackPolicy) (guard : ReadOnlyGuard)
    (allExport : AllExport) (shell : Shell W) :
    setEntry host name value attributes policy guard allExport shell ≠ .unfinished := by
  unfold setEntry Shell.shellError Shell.dialectError
  split
  · simp only
    split
    · exact nofun
    · split_ifs <;> exact nofun
  · exact nofun

theorem setIntegerBytes_finishes (host : Host W) (name : Bytes) (value : Int64)
    (attributes : VariableAttributes) (policy : CallbackPolicy) (shell : Shell W) :
    setIntegerBytes host name value attributes policy shell ≠ .unfinished := by
  unfold setIntegerBytes
  rw [Run.bind_apply]
  have h := setEntry_finishes host name (some (decimal value)) attributes policy .enforce .marks
    shell
  split
  · exact nofun
  · exact nofun
  · next heq => exact absurd heq h

theorem lookupIntegerBytes_finishes (host : Host W) (name : Bytes) (shell : Shell W) :
    lookupIntegerBytes host name shell ≠ .unfinished := by
  have hlookup : lookupBytes host name shell =
      .done (((refresh host name shell).entry name).bind Variable.scalarOwned)
        (refresh host name shell) := rfl
  unfold lookupIntegerBytes
  rw [Run.bind_done hlookup, Run.bind_done (Run.get_apply _)]
  split
  · exact nofun
  · generalize Number.parseInteger _ 0 = number
    cases number <;> exact nofun

theorem onShell_finishes {α : Type} {m : ShellRun W α} (h : ∀ shell, m shell ≠ .unfinished)
    (s : Parser W) : onShell m s ≠ .unfinished :=
  Run.within_finishes (h s.shell)

/-- Names without a subscript are read and written without evaluating anything,
    in the POSIX dialect. -/
theorem posixLeaves {p : Setting W} (hbash : p.bash = false) :
    Leaves (boundedSimulation Token.Plain false pointwise_finishes loops_one) 0 p p := by
  refine boundedLeaves pointwise_finishes loops_one Token.Plain false 0 p
    (fun _ depth name s hname _ => ?_)
    (fun _ name value s hname => ?_)
  · simp only [read, hname name rfl, scalar, hbash, Bool.false_eq_true, if_false]
    exact onShell_finishes (lookupIntegerBytes_finishes p.host name.base) s
  · simp only [write, hname name rfl]
    exact onShell_finishes (setIntegerBytes_finishes p.host name.base value _ _) s

theorem whole_finishes {token : Token → Prop} {floor : Nat} {p : Setting W}
    (L : Leaves (boundedSimulation token false pointwise_finishes loops_one) floor p p)
    {n depth : Nat}
    {s : Parser W} (hfloor : floor ≤ depth) (htok : ∀ t ∈ s.rest, token t)
    (hn : 8 * s.rest.length + 8 ≤ n) : whole p (walk p n) depth s ≠ .unfinished := by
  have hcomma := comma_bounded pointwise_finishes loops_one (k := s.rest.length) fun j hj =>
    walk_bounded L n n j ⟨.assignment, true, depth⟩ nofun hfloor
      (by simp only [Rule.order]; omega) (by simp only [Rule.order]; omega)
  have h := (hcomma s (le_of_eq (size_one s.rest)) htok).1
  unfold whole
  rw [Run.bind_apply]
  split
  · next v t _ =>
    unfold lookahead complain
    split <;> exact nofun
  · exact nofun
  · next heq => exact absurd heq h

/-- In the POSIX dialect an evaluation opens no other. -/
theorem evaluate_posix_finishes (host : Host W) {shell : Shell W}
    (hposix : shell.options.dialect = .posix) (input : Bytes) :
    evaluate host 1 input shell ≠ .unfinished := by
  have hbash : decide (shell.options.dialect = .bash) = false := by rw [hposix]; rfl
  have hplain : ∀ t ∈ shellTokens shell input, t.Plain := by
    unfold shellTokens
    rw [hbash]
    exact tokens_plain shell.locale input
  let p := setting host (fun _ => ⊥) (fun _ => ⊥) shell input
  have hwhole : whole p (walk p (nestingBound (shellTokens shell input))) 0
      ⟨shell, shellTokens shell input⟩ ≠ .unfinished :=
    whole_finishes (posixLeaves (p := p) hbash) (Nat.zero_le 0) hplain (le_refl _)
  change evaluateWithin host _ (fun _ => ⊥) (fun _ => ⊥) ⟨input, 0⟩ shell ≠ .unfinished
  unfold evaluateWithin evaluateUnder
  simp only
  split
  · exact nofun
  · exact Run.within_finishes hwhole

/-! ### A store that restarts for ever -/

/-- An expression that is one name never finishes when reading it never does. -/
theorem whole_name_unfinished {p : Setting W} {depth : Nat} {name : Name} {shell : Shell W}
    (h : read p depth name ⟨shell, [.eof]⟩ = .unfinished) (n : Nat) :
    whole p (walk p (n + 6)) depth ⟨shell, [.name name, .eof]⟩ = .unfinished := by
  let s : Parser W := ⟨shell, [.name name, .eof]⟩
  have hprimary : walk p (n + 1) ⟨.primary, true, depth⟩ s = .unfinished :=
    Run.bind_unfinished (f := fun value => acceptToken .increment
      (postfixed p name 1 value true)
      (acceptToken .decrement (postfixed p name (-1) value true) (pure value))) h
  have hpower : walk p (n + 2) ⟨.power, true, depth⟩ s = .unfinished :=
    Run.bind_unfinished hprimary _
  have hand : walk p (n + 3) ⟨.logicalAnd, true, depth⟩ s = .unfinished :=
    Run.bind_unfinished (Run.bind_unfinished hpower _) _
  have hor : walk p (n + 4) ⟨.logicalOr, true, depth⟩ s = .unfinished :=
    Run.bind_unfinished hand _
  have hconditional : walk p (n + 5) ⟨.conditional, true, depth⟩ s = .unfinished :=
    Run.bind_unfinished hor _
  have hassignment : walk p (n + 6) ⟨.assignment, true, depth⟩ s = .unfinished := hconditional
  exact Run.bind_unfinished (Run.bind_unfinished hassignment _) _

theorem evaluateBody_name_unfinished {host : Host W} {nested restart : Job → ShellRun W Int64}
    {job : Job} {name : Name} {shell : Shell W}
    (htokens : shellTokens shell job.input = [.name name, .eof])
    (h : read (setting host nested restart shell job.input) job.depth name ⟨shell, [.eof]⟩ =
      .unfinished) :
    evaluateBody host nested restart job shell = .unfinished := by
  unfold evaluateBody evaluateWithin evaluateUnder
  simp only [htokens]
  rw [if_neg (by simp)]
  exact Run.within_unfinished (whole_name_unfinished h 18)

/-- A Bash-dialect shell, in the C locale, in which `x` holds `a[x]` and `a` is no
    associative array. -/
structure Cyclic (shell : Shell W) : Prop where
  dialect : shell.options.dialect = .bash
  locale : shell.locale = Locale.c
  x : ∃ entry, shell.entry (text "x") = some entry ∧ entry.scalarOwned = some (text "a[x]") ∧
    entry.dynamicLineno = false ∧ entry.callback ≠ .special
  a : variableKind shell (text "a") ≠ some .associative

theorem Cyclic.tokens_x {shell : Shell W} (h : Cyclic shell) :
    shellTokens shell (text "x") = [.name ⟨text "x", none⟩, .eof] := by
  unfold shellTokens
  rw [h.dialect, h.locale]
  decide

theorem Cyclic.tokens_element {shell : Shell W} (h : Cyclic shell) :
    shellTokens shell (text "a[x]") = [.name ⟨text "a", some (text "x")⟩, .eof] := by
  unfold shellTokens
  rw [h.dialect, h.locale]
  decide

theorem Cyclic.lookup_x {shell : Shell W} (h : Cyclic shell) (host : Host W) :
    lookupBytes host (text "x") shell = .done (some (text "a[x]")) shell := by
  obtain ⟨entry, hentry, hvalue, hplain⟩ := h.x
  have hrefresh : refresh host (text "x") shell = shell := by
    refine refresh_plain host fun other hother => ?_
    rw [hentry] at hother
    cases hother
    exact hplain
  unfold lookupBytes
  simp only [hrefresh, hentry, Option.bind_some, hvalue]

/-- The value of `x` is evaluated one deeper. -/
theorem Cyclic.x_unfinished {shell : Shell W} (h : Cyclic shell) (host : Host W)
    {nested restart : Job → ShellRun W Int64}
    (hnested : nested ⟨text "a[x]", 1⟩ shell = .unfinished) :
    evaluateBody host nested restart ⟨text "x", 0⟩ shell = .unfinished := by
  refine evaluateBody_name_unfinished h.tokens_x ?_
  let p := setting host nested restart shell (text "x")
  have hbash : p.bash = true := decide_eq_true h.dialect
  have hvalue : onShell (lookupBytes p.host (text "x")) ⟨shell, [.eof]⟩ =
      .done (some (text "a[x]")) ⟨shell, [.eof]⟩ := by
    unfold onShell Run.within
    rw [h.lookup_x]
  change scalar p 0 (text "x") ⟨shell, [.eof]⟩ = .unfinished
  unfold scalar
  rw [if_pos hbash, Run.bind_done hvalue]
  change valueOf p 0 (text "a[x]") ⟨shell, [.eof]⟩ = .unfinished
  unfold valueOf
  rw [if_neg (by decide), if_neg (by decide)]
  exact Run.within_unfinished (m := p.nested (text "a[x]") 1) hnested

/-- The subscript of `a[x]` is evaluated from depth zero. -/
theorem Cyclic.element_unfinished {shell : Shell W} (h : Cyclic shell) (host : Host W)
    {nested restart : Job → ShellRun W Int64}
    (hrestart : restart ⟨text "x", 0⟩ shell = .unfinished) :
    evaluateBody host nested restart ⟨text "a[x]", 1⟩ shell = .unfinished := by
  refine evaluateBody_name_unfinished h.tokens_element ?_
  let p := setting host nested restart shell (text "a[x]")
  have hword : subscriptWord p.host p.restart (text "a") (text "x") shell =
      .done (text "x") shell := by
    unfold subscriptWord
    rw [Run.bind_done (Run.get_apply shell)]
    split <;> rfl
  have hselector : resolveSelector p.restart (text "a") (text "x") shell = .unfinished := by
    unfold resolveSelector
    rw [if_neg (by decide), if_neg (by decide), Run.bind_done (Run.get_apply shell), if_neg]
    · refine Run.bind_unfinished ?_ _
      unfold evaluateForAVariable
      rw [if_neg (by decide)]
      exact Run.mapError_unfinished hrestart
    · intro hkind
      cases hk : variableKind shell (text "a") with
      | none => rw [hk] at hkind; cases hkind
      | some kind =>
        rw [hk] at hkind
        exact h.a (hk.trans (congrArg some hkind))
  refine Run.bind_unfinished (m := onShell (resolveTextSelector p.host p.restart (text "a")
    (text "x"))) (Run.within_unfinished ?_) _
  exact (Run.bind_done hword _).trans hselector

/-- In a cyclic store neither expression ever finishes. -/
theorem Cyclic.evaluations_unfinished {shell : Shell W} (h : Cyclic shell) (host : Host W) :
    ∀ n, evaluations host n ⟨text "x", 0⟩ shell = .unfinished ∧
      evaluations host n ⟨text "a[x]", 1⟩ shell = .unfinished := by
  intro n
  induction n with
  | zero => exact ⟨rfl, rfl⟩
  | succ n ih => exact ⟨h.x_unfinished host ih.2, h.element_unfinished host ih.1⟩

/-- A shell as it starts. -/
def freshShell (dialect : Dialect) : Shell Unit :=
  initializeVariables (text "/bin:/usr/bin") (text "$ ") (text "> ")
    { options := { dialect := dialect }
      locale := Locale.c
      table := { entries := ∅ }
      world := () }

/-- A Bash-dialect shell after `x='a[x]'`. -/
def cyclicShell : Shell Unit :=
  (freshShell .bash).insert (text "x") (Variable.fresh (.set (.scalar (text "a[x]"))) {} .none)

theorem cyclicShell_cyclic : Cyclic cyclicShell where
  dialect := rfl
  locale := rfl
  x := ⟨_, Shell.entry_insert_self _ _ _, rfl, rfl, nofun⟩
  a := by
    have hentry : cyclicShell.entry (text "a") = none := by
      unfold cyclicShell
      rw [Shell.entry_insert_of_ne _ (by decide)]
      rfl
    unfold variableKind
    rw [hentry]
    exact nofun

/-- `x='a[x]'; $((x))` never comes to a value or an error. -/
theorem not_terminates_cyclic : ¬ Terminates Host.plain cyclicShell (text "x") := by
  rintro ⟨n, hn⟩
  exact hn (cyclicShell_cyclic.evaluations_unfinished Host.plain n).1

/-- **Evaluation terminates in the POSIX dialect, and in either dialect exactly
    when the evaluations the variables make themselves nest finitely deep**; with `l` of
    them nested, `(l + 1) * 1025` evaluations open at once are enough. -/
theorem evaluate_terminates_iff (host : Host W) (shell : Shell W) (input : Bytes) :
    (shell.options.dialect = .posix → Terminates host shell input) ∧
      (Terminates host shell input ↔ RestartsEnd host shell input) ∧
      ∀ l, restarts host l input shell ≠ .unfinished →
        evaluate host ((l + 1) * (maxNameDepth + 1)) input shell = restarts host l input shell :=
  ⟨fun hposix => ⟨1, evaluate_posix_finishes host hposix input⟩,
    terminates_iff_restartsEnd host shell input, fun _ => evaluate_of_restarts⟩

end Nsh.Arithmetic
