import Nsh.Arithmetic.Walk

/-!
# Operands that are only parsed

`&&`, `||` and `?:` leave an operand unevaluated but must still find its end.  A
walk with `evaluate` off touches nothing of the shell and complains of the
spelling alone, and it accepts, and stops behind, whatever the evaluating walk
accepts.  The two walks are related step by step from states that agree on the
tokens left: what the evaluating one does to the variables, and the values it
comes to, never decide a token.
-/

namespace Nsh.Arithmetic

open Variables

variable {W : Type}

/-- A complaint about the spelling of an expression, or about its depth. -/
def Complaint.Syntactic (c : Complaint) : Prop := c ≠ .divisionError ∧ c ≠ .negativeExponent

/-- What an evaluation reports: a division, an exponent, a parameter that is not
    set, or a read-only name. -/
def ReportsEvaluation (input : Bytes) (shell : Shell W) (e : Error) : Prop :=
  e.message = (arithmeticError input .divisionError shell).message ∨
    e.message = (arithmeticError input .negativeExponent shell).message ∨
    (∃ name : Bytes, e.message = name ++ text ": parameter not set") ∨
    ∃ name : Bytes, e.message = name ++ text ": is read only"

/-- An outcome that left the shell alone and reports nothing of an evaluation. -/
def Untouched (input : Bytes) (shell : Shell W) : Outcome (Parser W) Error Int64 → Prop
  | .done _ t => t.shell = shell
  | .failed e t => t.shell = shell ∧ ¬ ReportsEvaluation input shell e
  | .unfinished => True

/-! ### The messages differ -/

theorem message_arithmeticError (input : Bytes) (c : Complaint) (shell : Shell W) :
    (arithmeticError input c shell).message =
      text "arithmetic expression: " ++ c.message ++ text ": \"" ++ input ++ text "\"" := by
  unfold arithmeticError
  rw [Error.message_markArithmetic, message_dialectError]

/-- The first twelve bytes of a complaint tell which it is. -/
theorem take_message_injective (c c' : Complaint) (h : c.message.take 12 = c'.message.take 12) :
    c = c' := by
  revert h
  cases c <;> cases c' <;> decide

theorem length_message (c : Complaint) : 12 ≤ c.message.length := by
  cases c <;> decide

theorem message_injective (input : Bytes) {c c' : Complaint} (shell : Shell W)
    (h : (arithmeticError input c shell).message = (arithmeticError input c' shell).message) :
    c = c' := by
  rw [message_arithmeticError, message_arithmeticError] at h
  simp only [List.append_assoc, List.append_cancel_left_eq] at h
  have htake := congrArg (List.take 12) h
  rw [List.take_append_of_le_length (length_message c),
    List.take_append_of_le_length (length_message c')] at htake
  exact take_message_injective c c' htake

/-- An arithmetic diagnostic ends with a double quote. -/
theorem getLast_message (input : Bytes) (c : Complaint) (shell : Shell W) :
    (arithmeticError input c shell).message.getLast? = some 0x22 := by
  rw [message_arithmeticError]
  exact List.getLast?_concat

/-- A complaint about the spelling is none of those an evaluation makes. -/
theorem syntactic_not_evaluation (input : Bytes) {c : Complaint} (hc : c.Syntactic)
    (shell : Shell W) : ¬ ReportsEvaluation input shell (arithmeticError input c shell) := by
  rintro (h | h | ⟨name, h⟩ | ⟨name, h⟩)
  · exact hc.1 (message_injective input shell h)
  · exact hc.2 (message_injective input shell h)
  · have hlast := getLast_message input c shell
    rw [h] at hlast
    simp [text, chr] at hlast
  · have hlast := getLast_message input c shell
    rw [h] at hlast
    simp [text, chr] at hlast

/-! ### The two walks -/

/-- A walk `m'` that parses beside a walk `m` that may evaluate. -/
def Shadows (input : Bytes) (m m' : Walk W Int64) : Prop :=
  ∀ s s' : Parser W, s.rest = s'.rest →
    Untouched input s'.shell (m' s') ∧
      ∀ v t, m s = .done v t → ∃ v' t', m' s' = .done v' t' ∧ t'.rest = t.rest

theorem Untouched.bind {input : Bytes} {m : Walk W Int64} {f : Int64 → Walk W Int64}
    {s : Parser W} (hm : Untouched input s.shell (m s))
    (hf : ∀ v t, m s = .done v t → Untouched input t.shell (f v t)) :
    Untouched input s.shell ((m >>= f) s) := by
  rw [Run.bind_apply]
  cases h : m s with
  | done v t =>
    rw [h] at hm
    have hshell : t.shell = s.shell := hm
    rw [← hshell]
    exact hf v t h
  | failed e t => rw [h] at hm; exact hm
  | unfinished => trivial

/-- A parsing walk beside one that keeps the tokens where they are. -/
theorem Shadows.of_keeps {input : Bytes} {m : Walk W Int64} (hm : Keeps m) (v' : Int64) :
    Shadows input m (pure v') := by
  intro s s' hrest
  refine ⟨rfl, fun v t h => ⟨v', s', rfl, ?_⟩⟩
  rw [hm s v t h, hrest]

def skipSimulation (input : Bytes) : Simulation W where
  related _ := Shadows input
  reaches _ _ := True
  behind _ _ _ := True
  enough _ _ := True
  value _ _ := True
  flags _ e' := e' = false
  token _ := True
  reaches_refl _ := trivial
  reaches_trans _ _ := trivial
  reaches_behind _ := trivial
  behind_reaches _ _ := trivial
  behind_of_reaches _ _ := trivial
  enough_zero _ := fun _ _ _ => ⟨trivial, nofun⟩
  enough_succ _ _ := trivial
  value_refl _ := trivial
  value_map := by intros; trivial
  flags_and := by rintro g e _ a a' rfl _; exact Bool.false_and _
  pure_related := by
    intro k a a' _
    exact Shadows.of_keeps (keeps_pure a) a'
  bind_related := by
    intro k m m' f f' hm hf s s' hrest
    refine ⟨(hm s s' hrest).1.bind fun v t _ => ((hf v v trivial) t t rfl).1, fun v u h => ?_⟩
    obtain ⟨a, t, ht, hu⟩ := Run.bind_eq_done h
    obtain ⟨a', t', ht', hrest'⟩ := (hm s s' hrest).2 a t ht
    rw [Run.bind_done ht']
    exact (hf a a' trivial t t' hrest'.symm).2 v u hu
  accept_related := by
    intro k β pick t t' o o' _ ht ho s s' hrest
    have hcurrent : s.current = s'.current := by unfold Parser.current; rw [hrest]
    unfold accept
    rw [hcurrent]
    cases hp : pick s'.current with
    | none => exact ho s s' hrest
    | some b =>
      exact ht k s'.current b trivial trivial hp { s with rest := s.rest.drop 1 }
        { s' with rest := s'.rest.drop 1 } (by rw [hrest])
  acceptAssignment_related := by
    intro k t t' o o' ht ho s s' hrest
    unfold acceptAssignment
    rw [hrest]
    split
    · next name op rest _ =>
      exact ht k name op trivial trivial { s with rest := rest } { s' with rest := rest } rfl
    · exact ho s s' hrest
  lookahead_related := by
    intro k test y y' n n' hy hn s s' hrest
    have hcurrent : s.current = s'.current := by unfold Parser.current; rw [hrest]
    unfold lookahead
    rw [hcurrent]
    split
    · exact hy s s' hrest
    · exact hn s s' hrest
  inTurns_related := by
    intro k loop loop' h s s' hrest
    unfold inTurns
    rw [hrest]
    exact h k trivial _ trivial s s' hrest

/-- Everything a rule does besides reading tokens is skipped without a trace. -/
theorem skipLeaves (p : Setting W) : Leaves (skipSimulation p.input) 0 p p where
  complain := by
    intro k c hdivision hexponent s s' _
    exact ⟨⟨rfl, syntactic_not_evaluation p.input ⟨hdivision, hexponent⟩ s'.shell⟩, nofun⟩
  read := by
    rintro k depth e _ name _ _ rfl
    refine Shadows.of_keeps ?_ 0
    split
    · exact keeps_read p depth name
    · exact keeps_pure 0
  postfixed := by
    rintro k e _ value value' name delta _ rfl _
    refine Shadows.of_keeps ?_ value'
    cases e with
    | false => exact keeps_pure value
    | true => exact keeps_bind (keeps_write p name _) fun _ => keeps_pure value
  stepped := by
    rintro k depth e _ name delta _ _ rfl
    refine Shadows.of_keeps ?_ 0
    cases e with
    | false => exact keeps_pure 0
    | true => exact keeps_bind (keeps_read p depth name) fun _ => keeps_write p name _
  assigned := by
    rintro k depth e _ result result' name op _ _ rfl _
    refine Shadows.of_keeps ?_ result'
    exact keeps_assigned p e depth name op result
  applied := by
    rintro k e _ left left' right right' op rfl _ _
    refine Shadows.of_keeps ?_ right'
    cases e with
    | false => exact keeps_pure right
    | true => exact keeps_apply p op left right
  raised := by
    rintro k e _ base base' exponent exponent' rfl _ _
    refine Shadows.of_keeps ?_ exponent'
    cases e with
    | false => exact keeps_pure exponent
    | true => exact keeps_apply p .power base exponent

/-! ### Every place a walk can start -/

/-- A rule of the descent, with what its caller hands it. -/
inductive Start where
  | rule (rule : Rule)
  | comma
  | binary
  | binaryRhs (left : Int64) (minPower : Nat)
  | namePrimary (name : Name)
  | step (delta : Int64)

/-- The walk of a rule, with at most `n` activations below it. -/
def Start.walk (p : Setting W) (n : Nat) (start : Start) (evaluate : Bool) (depth : Nat) :
    Walk W Int64 :=
  match start with
  | .rule r => Nsh.Arithmetic.walk p n ⟨r, evaluate, depth⟩
  | .comma => Nsh.Arithmetic.comma (Nsh.Arithmetic.walk p n) evaluate depth
  | .binary => Nsh.Arithmetic.binary p (Nsh.Arithmetic.walk p n) evaluate depth
  | .binaryRhs left minPower =>
    Nsh.Arithmetic.binaryRhs p (Nsh.Arithmetic.walk p n) evaluate depth left minPower
  | .namePrimary name => Nsh.Arithmetic.namePrimary p depth name evaluate
  | .step delta => Nsh.Arithmetic.step p depth delta evaluate

theorem Start.walk_shadows (p : Setting W) (n : Nat) (start : Start) (evaluate : Bool)
    (depth : Nat) :
    Shadows p.input (start.walk p n evaluate depth) (start.walk p n false depth) := by
  have hbot : ∀ k, (skipSimulation (W := W) p.input).related k ⊥ ⊥ :=
    fun _ _ _ _ => ⟨trivial, nofun⟩
  have hwalk : ∀ k rule, (skipSimulation p.input).related k
      (Nsh.Arithmetic.walk p n ⟨rule, evaluate, depth⟩)
      (Nsh.Arithmetic.walk p n ⟨rule, false, depth⟩) :=
    fun k rule => walk_related (skipLeaves p) hbot n k rfl (Nat.zero_le depth)
  have hflags : (skipSimulation (W := W) p.input).flags evaluate false := rfl
  cases start with
  | rule r => exact hwalk 0 r
  | comma =>
    exact comma_related (S := skipSimulation p.input) (k := 0) fun _ => hwalk _ .assignment
  | binary =>
    refine (skipSimulation p.input).bind_related (k := 0) (hwalk 0 .power) fun left left' _ => ?_
    exact binaryRhs_related (skipLeaves p) hflags (fun _ => hwalk _ .power) 1 trivial
  | binaryRhs left minPower =>
    exact binaryRhs_related (k := 0) (skipLeaves p) hflags (fun _ => hwalk _ .power) minPower
      trivial
  | namePrimary name =>
    exact namePrimary_related (k := 0) (skipLeaves p) hflags (Nat.zero_le depth) trivial
  | step delta => exact step_related (k := 0) (skipLeaves p) hflags (Nat.zero_le depth) delta

/-- **An operand that is not evaluated is only parsed.**  From any state, the
    walk of any rule with `evaluate` off leaves the shell as it is and reports
    nothing of an evaluation; and where the evaluating walk succeeds it succeeds
    too, at the same token. -/
theorem skip_only_parses (p : Setting W) (n : Nat) (start : Start) (depth : Nat) (s : Parser W) :
    Untouched p.input s.shell (start.walk p n false depth s) ∧
      ∀ v t, start.walk p n true depth s = .done v t →
        ∃ v' t', start.walk p n false depth s = .done v' t' ∧ t'.rest = t.rest :=
  start.walk_shadows p n true depth s s rfl

end Nsh.Arithmetic
