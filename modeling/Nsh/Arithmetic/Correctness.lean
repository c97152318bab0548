import Nsh.Arithmetic.Precedence
import Nsh.Arithmetic.Termination

/-!
# Arithmetic texts compute the values of their trees

A tree is printed, scanned, parsed and evaluated, and what comes out is its value
or its division error: in either dialect for every tree of the C grammar
(`evaluate_inC`), and in the Bash dialect for the trees with `**` and the comma
too (`evaluate_bash`), printed by a table in which `**` binds tighter than the
prefix operators on its left.
-/

namespace Nsh.Arithmetic

variable {W : Type}

/-! ### Printed trees are scanned as they were printed -/

theorem spellable_operandTokens {bash : Bool} {required level : Nat} {ts : List Token}
    (h : ∀ token ∈ ts, token.Spellable bash) :
    ∀ token ∈ operandTokens required level ts, token.Spellable bash := by
  unfold operandTokens
  split
  · intro token htoken
    rcases List.mem_cons.mp htoken with rfl | htoken
    · trivial
    · rcases List.mem_append.mp htoken with htoken | htoken
      · exact h token htoken
      · rw [List.mem_singleton.mp htoken]
        trivial
  · exact h

theorem infix_spellable {bash : Bool} {tl tr : List Token} {token : Token}
    (hl : ∀ t ∈ tl, t.Spellable bash) (ht : token.Spellable bash)
    (hr : ∀ t ∈ tr, t.Spellable bash) : ∀ t ∈ tl ++ token :: tr, t.Spellable bash := by
  intro t h
  rcases List.mem_append.mp h with h | h
  · exact hl t h
  · rcases List.mem_cons.mp h with rfl | h
    · exact ht
    · exact hr t h

theorem literal_spellable (bash : Bool) (n : Fin (2 ^ 63)) :
    (Token.number (wrap n.val)).Spellable bash := by
  have hn := n.isLt
  have hvalue : (wrap n.val).toInt = n.val :=
    Int64.toInt_ofInt_of_le (by omega) (by omega)
  change 0 ≤ (wrap n.val).toInt
  omega

/-- `**` and the comma are tokens of the Bash dialect only. -/
theorem Expression.print_spellable (tight : Bool) {bash : Bool} {e : Expression}
    (h : bash = true ∨ e.InC) : ∀ token ∈ e.print tight, token.Spellable bash := by
  induction e with
  | literal n =>
    intro token htoken
    rw [List.mem_singleton.mp htoken]
    exact literal_spellable bash n
  | sign op operand ih =>
    intro token htoken
    rcases List.mem_cons.mp htoken with rfl | htoken
    · cases op <;> first | trivial | exact nofun
    · exact spellable_operandTokens (ih h) token htoken
  | power base exponent ihb ihx =>
    obtain rfl := h.resolve_right id
    exact infix_spellable (spellable_operandTokens (ihb (Or.inl rfl))) rfl
      (spellable_operandTokens (ihx (Or.inl rfl)))
  | binary op left right ihl ihr =>
    exact infix_spellable (spellable_operandTokens (ihl (h.imp_right And.left))) op.property
      (spellable_operandTokens (ihr (h.imp_right And.right)))
  | connect op left right ihl ihr =>
    exact infix_spellable (spellable_operandTokens (ihl (h.imp_right And.left)))
      (by cases op <;> trivial) (spellable_operandTokens (ihr (h.imp_right And.right)))
  | conditional c t f ihc iht ihf =>
    exact infix_spellable (spellable_operandTokens (ihc (h.imp_right And.left))) trivial
      (infix_spellable (spellable_operandTokens (iht (h.imp_right fun h => h.2.1))) trivial
        (spellable_operandTokens (ihf (h.imp_right fun h => h.2.2))))
  | comma left right ihl ihr =>
    obtain rfl := h.resolve_right id
    exact infix_spellable (spellable_operandTokens (ihl (Or.inl rfl))) rfl
      (spellable_operandTokens (ihr (Or.inl rfl)))

/-! ### Evaluation of a spelled tree -/

/-- How the evaluation of a text ends that stands for a value or a fault. -/
def ends (shell : Shell W) (input : Bytes) : Except Fault Int64 → Outcome (Shell W) Error Int64
  | .ok v => .done v shell
  | .error fault => .failed (arithmeticError input fault.complaint shell) shell

/-- An evaluation of a text that is not empty runs the parser over its tokens. -/
theorem evaluate_eq_whole (host : Host W) {shell : Shell W} {input : Bytes} {tokens : List Token}
    (htokens : shellTokens shell input = tokens) (hhead : tokens.headD .eof ≠ .eof) (n : Nat) :
    evaluate host (n + 1) input shell =
      Run.within (fun shell => ⟨shell, tokens⟩) (fun s _ => s.shell)
        (whole (setting host (evaluations host n) (evaluations host n) shell input)
          (settled (setting host (evaluations host n) (evaluations host n) shell input)) 0)
        shell := by
  change evaluateBody host (evaluations host n) (evaluations host n) ⟨input, 0⟩ shell = _
  rw [evaluateBody_eq_settled]
  unfold evaluateUnder
  simp only [htokens]
  rw [if_neg fun h => hhead h.2]

/-- A text whose tokens spell a tree evaluates to the value of the tree, and leaves
    the shell as it is. -/
theorem evaluate_tokens (host : Host W) {shell : Shell W} {ts : List Token} {e : Expression}
    {d : Nat} (hspells : Spells d 0 ts e) (hd : d ≤ maxNameDepth)
    (hpower : e.EveryPower PowerComputed) {input : Bytes}
    (htokens : shellTokens shell input = ts ++ [.eof])
    (hhead : (ts ++ [Token.eof]).headD .eof ≠ .eof) (n : Nat) :
    evaluate host (n + 1) input shell = ends shell input e.value := by
  let p := setting host (evaluations host n) (evaluations host n) shell input
  have hread : Reads p shell 0 d ts e := hspells.reads hpower
  have hlist := hread true 0 [.eof] (by omega) nofun
  have hstop : ∀ v, commaRest p true 0 v ⟨shell, [.eof]⟩ = .done v ⟨shell, [.eof]⟩ :=
    fun v => commaRest_stop p nofun
  simp only [hstop] at hlist
  have hwhole : Yields p shell true e.value (whole p (settled p) 0 ⟨shell, ts ++ [.eof]⟩)
      fun v => .done v ⟨shell, [.eof]⟩ :=
    Yields.through (m := comma (settled p) true 0) hlist fun v => rfl
  rw [evaluate_eq_whole host htokens hhead]
  unfold Run.within
  rcases hwhole with ⟨v, hv, h⟩ | ⟨-, fault, rest, hfault, h⟩
  · rw [h, hv rfl]
    rfl
  · rw [h, hfault]
    rfl

/-- **A text that spells a tree evaluates to the value of the tree, and leaves the
    shell as it is.** -/
theorem evaluate_spelled (host : Host W) {shell : Shell W} {ts : List Token} {e : Expression}
    {d : Nat} (hspells : Spells d 0 ts e) (hd : d ≤ maxNameDepth)
    (hpower : e.EveryPower PowerComputed)
    (hspellable : ∀ token ∈ ts, token.Spellable (decide (shell.options.dialect = .bash)))
    (n : Nat) : evaluate host (n + 1) (spelled ts) shell = ends shell (spelled ts) e.value := by
  have hhead : (ts ++ [Token.eof]).headD .eof ≠ .eof := by
    obtain ⟨first, ts', rfl, -⟩ := hspells.head
    exact ne_eof_of_spellable (hspellable first List.mem_cons_self)
  exact evaluate_tokens host hspells hd hpower (tokens_spelled shell.locale hspellable) hhead n

/-- A tree is printed as a text that stands for its value. -/
theorem evaluate_written (host : Host W) {shell : Shell W} {e : Expression}
    (hdialect : shell.options.dialect = .bash ∨ e.InC) (hdepth : e.nesting false ≤ maxNameDepth)
    (hpower : e.EveryPower PowerComputed) (n : Nat) :
    evaluate host (n + 1) (e.written false) shell = ends shell (e.written false) e.value := by
  obtain ⟨e', hsame, hspells⟩ := e.print_spells
  rw [← hsame.value]
  exact evaluate_spelled host (hspells.looser (Nat.zero_le _)) hdepth
    (hsame.everyPower _ hpower) (e.print_spellable false (hdialect.imp decide_eq_true id)) n

/-! ### The only fault is a division -/

theorem quotient_fault {left right : Int64} {x : Int} {fault : Fault}
    (h : quotient left right x = .error fault) : fault = .division := by
  unfold quotient at h
  split at h
  · cases h; rfl
  · cases h

theorem CBinary.value_fault {op : CBinary} {left right : Int64} {fault : Fault}
    (h : op.value left right = .error fault) : fault = .division := by
  obtain ⟨op, hop⟩ := op
  cases op with
  | power => exact absurd rfl hop
  | divide => exact quotient_fault h
  | remainder => exact quotient_fault h
  | _ => cases h

theorem bind_error {r : Except Fault Int64} {g : Int64 → Except Fault Int64} {fault : Fault}
    (h : r >>= g = .error fault) : r = .error fault ∨ ∃ v, r = .ok v ∧ g v = .error fault := by
  cases r with
  | error f => exact Or.inl h
  | ok v => exact Or.inr ⟨v, rfl, h⟩

/-- Where every exponent is fit, a tree without a value divides by zero or out of
    range. -/
theorem Expression.value_fault {e : Expression} (hpower : e.EveryPower PowerComputed)
    {fault : Fault} (h : e.value = .error fault) : fault = .division := by
  induction e generalizing fault with
  | literal n => cases h
  | sign op operand ih =>
    rcases bind_error h with h | ⟨v, -, h⟩
    · exact ih hpower h
    · cases h
  | power base exponent ihb ihx =>
    rcases bind_error h with h | ⟨v, hv, h⟩
    · exact ihb hpower.1 h
    rcases bind_error h with h | ⟨w, hw, h⟩
    · exact ihx hpower.2.1 h
    rw [if_neg (not_lt.mpr (hpower.2.2 v w hv hw).nonneg)] at h
    cases h
  | binary op left right ihl ihr =>
    rcases bind_error h with h | ⟨v, -, h⟩
    · exact ihl hpower.1 h
    rcases bind_error h with h | ⟨w, -, h⟩
    · exact ihr hpower.2 h
    exact op.value_fault h
  | connect op left right ihl ihr =>
    rcases bind_error h with h | ⟨v, -, h⟩
    · exact ihl hpower.1 h
    split at h
    · cases h
    rcases bind_error h with h | ⟨w, -, h⟩
    · exact ihr hpower.2 h
    cases h
  | conditional c t f ihc iht ihf =>
    rcases bind_error h with h | ⟨v, -, h⟩
    · exact ihc hpower.1 h
    split at h
    · exact iht hpower.2.1 h
    · exact ihf hpower.2.2 h
  | comma left right ihl ihr =>
    rcases bind_error h with h | ⟨v, -, h⟩
    · exact ihl hpower.1 h
    · exact ihr hpower.2 h

theorem ends_eq {e : Expression} (hpower : e.EveryPower PowerComputed) (shell : Shell W)
    (input : Bytes) : ends shell input e.value =
      match e.value with
      | .ok v => .done v shell
      | .error _ => .failed (arithmeticError input .divisionError shell) shell := by
  cases h : e.value with
  | ok v => rfl
  | error fault =>
    obtain rfl := e.value_fault hpower h
    rfl

/-! ### The two dialects -/

/-- **Arithmetic computes C arithmetic**: for every tree of the C grammar, in every
    store of either dialect, its text evaluates to its value, or fails with the
    division error where the tree has none. -/
theorem evaluate_inC (host : Host W) (shell : Shell W) (e : Expression) (hc : e.InC)
    (hdepth : e.nesting false ≤ maxNameDepth) (n : Nat) :
    evaluate host (n + 1) (e.written false) shell =
      match e.value with
      | .ok v => .done v shell
      | .error _ =>
        .failed (arithmeticError (e.written false) .divisionError shell) shell := by
  rw [← ends_eq hc.everyPower]
  exact evaluate_written host (Or.inr hc) hdepth hc.everyPower n

/-- `(1 + 2) * 3 - 4 || 1 / 0`. -/
def shortCircuit : Expression :=
  .connect .or
    (.binary ⟨.subtract, nofun⟩
      (.binary ⟨.multiply, nofun⟩ (.binary ⟨.add, nofun⟩ (.literal 1) (.literal 2)) (.literal 3))
      (.literal 4))
    (.binary ⟨.divide, nofun⟩ (.literal 1) (.literal 0))

theorem evaluate_shortCircuit :
    evaluate Host.plain 1 (text "( 1 + 2 ) * 3 - 4 || 1 / 0") (freshShell .posix) =
      .done 1 (freshShell .posix) := by
  have hwritten : shortCircuit.written false = text "( 1 + 2 ) * 3 - 4 || 1 / 0" := by decide
  rw [← hwritten]
  exact evaluate_inC Host.plain (freshShell .posix) shortCircuit
    ⟨⟨⟨⟨trivial, trivial⟩, trivial⟩, trivial⟩, trivial, trivial⟩ (by decide) 0

/-- **Bash arithmetic computes trees with `**` and the comma**, printed by the
    table in which `**` binds tighter than the prefix operators on its left. -/
theorem evaluate_bash (host : Host W) (shell : Shell W) (hbash : shell.options.dialect = .bash)
    (e : Expression) (hpower : e.EveryPower PowerComputed)
    (hdepth : e.nesting false ≤ maxNameDepth) (n : Nat) :
    evaluate host (n + 1) (e.written false) shell =
      match e.value with
      | .ok v => .done v shell
      | .error _ =>
        .failed (arithmeticError (e.written false) .divisionError shell) shell := by
  rw [← ends_eq hpower]
  exact evaluate_written host (Or.inl hbash) hdepth hpower n

/-- Two squared, which the evaluator negates in `-2 ** 2`. -/
def square : Expression := .power (.literal 2) (.literal 2)

theorem square_powerComputed : square.EveryPower PowerComputed := by
  refine ⟨trivial, trivial, fun b x hb hx => ?_⟩
  cases hb
  cases hx
  exact { nonneg := by decide, ge := by decide, lt := by decide, parity := by decide }

theorem evaluate_minus_square :
    evaluate Host.plain 1 (text "1 , - 2 ** 2") (freshShell .bash) =
      .done (-4) (freshShell .bash) := by
  have hwritten : (Expression.comma (.literal 1) (.sign .minus square)).written false =
      text "1 , - 2 ** 2" := by decide
  rw [← hwritten]
  exact evaluate_bash Host.plain (freshShell .bash) rfl (.comma (.literal 1) (.sign .minus square))
    ⟨trivial, square_powerComputed⟩ (by decide) 0

/-- In Bash's own table the base of `-2 ** 2` is minus two. -/
theorem not_evaluate_tight : ¬ ∀ e : Expression, e.EveryPower PowerFits →
    e.height < maxNameDepth → ∀ v, e.value = .ok v →
      evaluate Host.plain 1 (e.written true) (freshShell .bash) =
        .done v (freshShell .bash) := by
  intro h
  have hbash := h (.power (.sign .minus (.literal 2)) (.literal 2)) ?_ (by decide) 4 rfl
  · have hsame : (Expression.power (.sign .minus (.literal 2)) (.literal 2)).written true =
        (Expression.sign .minus square).written false := by decide
    have hcode := evaluate_written Host.plain (e := .sign .minus square)
      (Or.inl rfl : (freshShell .bash).options.dialect = .bash ∨ _) (by decide)
      square_powerComputed 0
    rw [hsame, hcode] at hbash
    have hvalue : (Expression.sign .minus square).value = .ok (-4) := rfl
    rw [hvalue] at hbash
    cases hbash
  · refine ⟨trivial, trivial, fun b x hb hx => ?_⟩
    cases hb
    cases hx
    exact { nonneg := by decide, ge := by decide, lt := by decide }

end Nsh.Arithmetic
