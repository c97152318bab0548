import Nsh.Arithmetic.Spelling
import Nsh.Arithmetic.Termination

/-!
# How deep the descent nests

Parentheses and prefix operators are charged against the depth of an expression.
The right operands of `=`, `?:`, `||`, `&&` and `**` are not: each is read by a
rule that calls itself, or a looser one, at the depth it stands at.  So the
activations open at once are bounded over a family of texts exactly when the
right operands open at once are (`nesting_bounded_iff`), and for a text of
literals and operators by the number of such operators in it.  No constant
bounds every text: a chain of `||` opens an activation for each of them.
-/

namespace Nsh.Arithmetic

open Variables

variable {W : Type}

/-- A text made of literals and operators. -/
def OperatorText (shell : Shell W) (input : Bytes) : Prop :=
  ∀ token ∈ shellTokens shell input, ∀ name, token ≠ .name name

/-- The activations of rules that one right operand leaves room for. -/
def activations : Nat := 7 * (maxNameDepth + 1)

/-- Walks with at most `l` right operands open at once, and below each as many
    activations as the depth leaves room for. -/
def operandWalk (p : Setting W) (l : Nat) : Call → Walk W Int64 :=
  Nested.restarted (body p) activations l

section Nesting

variable (host : Host W) (shell : Shell W)

/-- Evaluating a text opens at most `k` activations of rules at once. -/
def NestsWithin (k : Nat) (input : Bytes) : Prop :=
  ∀ nested restart, evaluateWithin host k nested restart ⟨input, 0⟩ shell ≠ .unfinished

/-- Evaluating a text opens at most `l` right operands at once. -/
def OperandsWithin (l : Nat) (input : Bytes) : Prop :=
  ∀ nested restart,
    evaluateUnder host (fun p => operandWalk p l) nested restart ⟨input, 0⟩ shell ≠ .unfinished

end Nesting

/-! ### Activations and right operands bound each other -/

theorem evaluateUnder_mono (host : Host W) {rules rules' : Setting W → Call → Walk W Int64}
    {nested restart : Job → ShellRun W Int64} {job : Job} {shell : Shell W}
    (h : ∀ p, rules p ⟨.assignment, true, job.depth⟩ ≤ rules' p ⟨.assignment, true, job.depth⟩) :
    evaluateUnder host rules nested restart job shell ≤
      evaluateUnder host rules' nested restart job shell := by
  unfold evaluateUnder
  simp only
  split
  · exact le_refl _
  · exact Run.within_mono (whole_mono rfl (h _)) shell

theorem NestsWithin.operands {host : Host W} {shell : Shell W} {k : Nat} {input : Bytes}
    (h : NestsWithin host shell k input) : OperandsWithin host shell (k + 1) input := by
  intro nested restart
  refine Outcome.ne_unfinished_of_le (evaluateUnder_mono host fun p => ?_) (h nested restart)
  exact Nested.unrolled_le_restarted (body_guarded p)
    (fun call => charge_lt call.rule call.depth) k _

theorem OperandsWithin.nests {host : Host W} {shell : Shell W} {l : Nat} {input : Bytes}
    (h : OperandsWithin host shell l input) :
    NestsWithin host shell ((l + 1) * activations) input := by
  intro nested restart
  refine Outcome.ne_unfinished_of_le (evaluateUnder_mono host fun p => ?_) (h nested restart)
  exact Nested.restarted_le_unrolled (body_guarded p) l _

/-! ### Right operands stand behind their operators -/

/-- An operator with an uncharged right operand weighs one. -/
def openerWeight (token : Token) : Nat := if token.opensOperand then 1 else 0

/-- The operators of a text whose right operands are not charged. -/
def openers (tokens : List Token) : Nat := size openerWeight tokens

/-- Running out of turns leaves a walk below every other. -/
theorem openerLoops :
    Loops openerWeight (fun o o' : Outcome (Parser W) Error Int64 => o ≤ o') := Or.inr (le_refl _)

/-- What answers the right operands of a walk with `l` of them open. -/
def answer (p : Setting W) : Nat → Call → Walk W Int64
  | 0 => fun _ => ⊥
  | l + 1 => operandWalk p l

theorem operandWalk_eq (p : Setting W) (l : Nat) :
    operandWalk p l = Nested.descent (body p) (answer p l) activations := by
  cases l <;> rfl

/-- From tokens with at most `l` openers, a walk opens at most `l` right operands
    at once: each is read behind an opener it does not see again. -/
theorem walk_le_descent (p : Setting W) :
    ∀ (n l m : Nat) (call : Call), call.charge < m →
      Bounded openerWeight (fun _ => True) (· ≤ ·) l (walk p n call)
        (Nested.descent (body p) (answer p l) m call) := by
  have L := boundedLeaves pointwise_le openerLoops (fun _ => True) false 0 p
    (fun _ _ _ _ _ _ => le_refl _) (fun _ _ _ _ _ => le_refl _)
  intro n
  induction n with
  | zero => intro l m call _ s _ _; exact ⟨bot_le, nofun⟩
  | succ n ih =>
    intro l m call hm
    obtain ⟨m, rfl⟩ : ∃ i, m = i + 1 := ⟨m - 1, by omega⟩
    obtain ⟨rule, e, depth⟩ := call
    have hm' : charge rule depth < m + 1 := hm
    refine body_related (k := l) L ⟨rfl, nofun⟩ (Nat.zero_le depth) ?_ ?_ ?_
    · rintro rule' e _ depth' ⟨rfl, _⟩ _ _ hcharge
      exact ih l m ⟨rule', e, depth'⟩ (show charge rule' depth' < m by omega)
    · rintro j tok hj rule' e _ depth' ⟨rfl, _⟩ _ hcharge
      have hj' : j + openerWeight tok ≤ l := hj
      exact (ih l m ⟨rule', e, depth'⟩ (show charge rule' depth' < m by omega)).anti (by omega)
    · rintro j tok hopens hj rule' e _ ⟨rfl, _⟩
      have hj' : j + openerWeight tok ≤ l := hj
      rw [openerWeight, if_pos hopens] at hj'
      obtain ⟨l, rfl⟩ : ∃ i, l = i + 1 := ⟨l - 1, by omega⟩
      have h := ih l activations ⟨rule', e, depth⟩ (charge_lt rule' depth)
      rw [← operandWalk_eq] at h
      exact h.anti (by omega)

/-- Two walks of a whole text compare as their calls do. -/
theorem whole_le {p : Setting W} {rules rules' : Call → Walk W Int64} {depth l : Nat}
    (h : ∀ j ≤ l, Bounded openerWeight (fun _ => True) (· ≤ ·) j
      (rules ⟨.assignment, true, depth⟩) (rules' ⟨.assignment, true, depth⟩))
    {s : Parser W} (hs : openers s.rest ≤ l) : whole p rules depth s ≤ whole p rules' depth s := by
  have hcomma := comma_bounded pointwise_le openerLoops h
  exact pointwise_le.bind (hcomma s hs fun _ _ => trivial).1 fun v t _ => le_refl _

/-- A text of literals and operators opens no evaluation, so it finishes. -/
theorem operatorText_finishes (host : Host W) {shell : Shell W} {input : Bytes}
    (h : OperatorText shell input) :
    NestsWithin host shell (nestingBound (shellTokens shell input)) input := by
  intro nested restart
  let p := setting host nested restart shell input
  have L := boundedLeaves pointwise_finishes loops_one (fun t => ∀ name, t ≠ .name name) false 0 p
    (fun _ _ name _ hname => absurd rfl (hname name))
    (fun _ name _ _ hname => absurd rfl (hname name))
  have hwhole : whole p (walk p (nestingBound (shellTokens shell input))) 0
      ⟨shell, shellTokens shell input⟩ ≠ .unfinished :=
    whole_finishes L (Nat.zero_le 0) h (le_refl _)
  unfold evaluateWithin evaluateUnder
  simp only
  split
  · exact nofun
  · exact Run.within_finishes hwhole

theorem operandsWithin_openers (host : Host W) {shell : Shell W} {input : Bytes}
    (h : OperatorText shell input) :
    OperandsWithin host shell (openers (shellTokens shell input)) input := by
  intro nested restart
  let p := setting host nested restart shell input
  have hle : whole p (walk p (nestingBound (shellTokens shell input))) 0
        ⟨shell, shellTokens shell input⟩ ≤
      whole p (operandWalk p (openers (shellTokens shell input))) 0
        ⟨shell, shellTokens shell input⟩ := by
    refine whole_le (l := openers (shellTokens shell input)) (fun j hj => ?_) (le_refl _)
    rw [operandWalk_eq]
    exact (walk_le_descent p _ _ activations _ (charge_lt _ _)).anti hj
  have hfinishes := operatorText_finishes host h nested restart
  unfold evaluateWithin evaluateUnder at hfinishes
  unfold evaluateUnder
  simp only at hfinishes ⊢
  split
  · exact nofun
  · next hempty =>
    rw [if_neg hempty] at hfinishes
    have hwhole := Run.ne_unfinished_of_within (t := shell) hfinishes
    exact Run.within_finishes (Outcome.ne_unfinished_of_le hle hwhole)

/-- **Over a family of texts the activations open at once are bounded exactly when
    the right operands of `=`, `?:`, `||`, `&&` and `**` open at once are; and a
    text of literals and operators with `c` of these operators opens at most
    `7 * 1025 * (c + 1)`.** -/
theorem nesting_bounded_iff (host : Host W) (shell : Shell W) :
    (∀ texts : Set Bytes, (∃ k, ∀ input ∈ texts, NestsWithin host shell k input) ↔
        ∃ l, ∀ input ∈ texts, OperandsWithin host shell l input) ∧
      ∀ input, OperatorText shell input → NestsWithin host shell
        ((openers (shellTokens shell input) + 1) * activations) input := by
  refine ⟨fun texts => ⟨?_, ?_⟩, fun input h => (operandsWithin_openers host h).nests⟩
  · rintro ⟨k, hk⟩
    exact ⟨k + 1, fun input hinput => (hk input hinput).operands⟩
  · rintro ⟨l, hl⟩
    exact ⟨(l + 1) * activations, fun input hinput => (hl input hinput).nests⟩

/-! ### A chain of `||` -/

/-- The tokens of `1 || 1 || … || 1`, with `m` operators. -/
def chainTokens : Nat → List Token
  | 0 => [.number 1]
  | m + 1 => .number 1 :: .logicalOr :: chainTokens m

def chain (m : Nat) : Bytes := spelled (chainTokens m)

theorem chainTokens_spellable (bash : Bool) (m : Nat) :
    ∀ token ∈ chainTokens m, token.Spellable bash := by
  have hone : (Token.number 1).Spellable bash := show 0 ≤ (1 : Int64).toInt by decide
  induction m with
  | zero => simpa [chainTokens] using hone
  | succ m ih => simpa [chainTokens] using ⟨hone, trivial, ih⟩

theorem shellTokens_chain (shell : Shell W) (m : Nat) :
    shellTokens shell (chain m) = chainTokens m ++ [.eof] :=
  tokens_spelled shell.locale (chainTokens_spellable _ m)

theorem chain_operatorText (shell : Shell W) (m : Nat) : OperatorText shell (chain m) := by
  intro token htoken name heq
  subst heq
  rw [shellTokens_chain] at htoken
  rcases List.mem_append.mp htoken with h | h
  · exact chainTokens_spellable true m _ h
  · cases List.mem_singleton.mp h

/-- Each `||` of a chain opens an activation of its rule. -/
theorem walk_chain_unfinished (p : Setting W) (shell : Shell W) (depth : Nat) :
    ∀ k m, k ≤ m → ∀ e, walk p k ⟨.logicalOr, e, depth⟩ ⟨shell, chainTokens m ++ [.eof]⟩ =
      .unfinished := by
  intro k
  induction k with
  | zero => intro m _ e; rfl
  | succ k ih =>
    intro m hm e
    obtain ⟨m, rfl⟩ : ∃ i, m = i + 1 := ⟨m - 1, by omega⟩
    -- The left operand is `1`, once there are activations enough to read it.
    have hleft : walk p k ⟨.logicalAnd, e, depth⟩ ⟨shell, chainTokens (m + 1) ++ [.eof]⟩ =
          .unfinished ∨
        walk p k ⟨.logicalAnd, e, depth⟩ ⟨shell, chainTokens (m + 1) ++ [.eof]⟩ =
          .done 1 ⟨shell, .logicalOr :: (chainTokens m ++ [.eof])⟩ := by
      rcases k with _ | _ | _ | k
      · exact Or.inl rfl
      · exact Or.inl rfl
      · exact Or.inl rfl
      · exact Or.inr rfl
    rcases hleft with hleft | hleft
    · exact Run.bind_unfinished hleft _
    · refine (Run.bind_done hleft _).trans ?_
      exact Run.bind_unfinished (ih m (by omega) (e && (1 : Int64) == 0)) _

/-- A chain of `m` operators opens more than `m` activations at once. -/
theorem not_nestsWithin_chain (host : Host W) (shell : Shell W) (m : Nat) :
    ¬ NestsWithin host shell m (chain m) := by
  intro h
  let p := setting host (fun _ => ⊥) (fun _ => ⊥) shell (chain m)
  let s : Parser W := ⟨shell, chainTokens m ++ [.eof]⟩
  have hor : walk p m ⟨.logicalOr, true, 0⟩ s = .unfinished :=
    walk_chain_unfinished p shell 0 m m (le_refl m) true
  have hconditional : walk p (m + 1) ⟨.conditional, true, 0⟩ s = .unfinished :=
    Run.bind_unfinished hor _
  have hassignment : walk p (m + 2) ⟨.assignment, true, 0⟩ s = .unfinished := by
    cases m <;> exact hconditional
  have hwhole : whole p (walk p (m + 2)) 0 s = .unfinished :=
    Run.bind_unfinished (Run.bind_unfinished hassignment _) _
  have hmore : evaluateWithin host (m + 2) (fun _ => ⊥) (fun _ => ⊥) ⟨chain m, 0⟩ shell ≠
      .unfinished := by
    refine Outcome.ne_unfinished_of_le (evaluateUnder_mono host fun p => ?_) (h _ _)
    exact Nested.unrolled_mono (body_guarded p) (Nat.le_add_right m 2) _
  refine hmore ?_
  unfold evaluateWithin evaluateUnder
  simp only [shellTokens_chain]
  rw [if_neg (by cases m <;> simp [chainTokens])]
  exact Run.within_unfinished hwhole

/-- No constant bounds the activations that texts of literals and operators
    open. -/
theorem not_nesting_bounded :
    ¬ ∃ k, ∀ input, OperatorText (freshShell .bash) input →
      NestsWithin Host.plain (freshShell .bash) k input :=
  fun ⟨k, hk⟩ =>
    not_nestsWithin_chain Host.plain (freshShell .bash) k (hk _ (chain_operatorText _ k))

end Nsh.Arithmetic
