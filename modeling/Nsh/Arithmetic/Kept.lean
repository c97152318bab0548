import Nsh.Arithmetic.Simulation
import Nsh.Variables.Kept

/-!
# What an evaluation keeps

An evaluation changes the shell through the writes of the variable table alone,
so it keeps every invariant that is closed under them (`evaluate_preserves`).
-/

namespace Nsh.Arithmetic

open Nsh.Run Variables

variable {W : Type} {I : Invariant W} {host : Host W}

/-- An invariant of the shell, over a shell and the tokens still to read. -/
def Invariant.walking (I : Invariant W) (s : Parser W) : Prop := I.holds s.shell

theorem onShell_preserves {α : Type} {m : ShellRun W α} (hm : m.Preserves I.holds) :
    (onShell m).Preserves (Invariant.walking I) := hm.within fun _ _ => rfl

/-- A walk beside itself, both keeping an invariant of the shell. -/
def keepingSimulation (I : Invariant W) : Simulation W where
  related _ m _ := m.Preserves (Invariant.walking I)
  reaches _ _ := True
  behind _ _ _ := True
  enough _ _ := True
  value := Eq
  flags := Eq
  token _ := True
  reaches_refl _ := trivial
  reaches_trans _ _ := trivial
  reaches_behind _ := trivial
  behind_reaches _ _ := trivial
  behind_of_reaches _ _ := trivial
  enough_zero _ := ensures_bot
  enough_succ _ _ := trivial
  value_refl _ := rfl
  value_map := equal_map
  flags_and := equal_and
  pure_related _ := preserves_pure _
  bind_related hm hf := hm.bind fun a => hf a a rfl
  accept_related := by
    intro k β pick t t' o o' _ ht ho s hs
    unfold accept
    cases hp : pick s.current with
    | none => exact ho s hs
    | some b => exact ht k s.current b trivial trivial hp _ hs
  acceptAssignment_related := by
    intro k t t' o o' ht ho s hs
    unfold acceptAssignment
    split
    · exact ht k _ _ trivial trivial _ hs
    · exact ho s hs
  lookahead_related := by
    intro k test y y' n n' hy hn s hs
    unfold lookahead
    split
    · exact hy s hs
    · exact hn s hs
  inTurns_related := by
    intro k loop loop' h s hs
    exact h k trivial _ trivial s hs

/-- A setting whose evaluations keep an invariant of the shell. -/
structure Setting.Keeping (I : Invariant W) (p : Setting W) : Prop where
  closed : I.Closed p.host
  nested : ∀ t depth, (p.nested t depth).Preserves I.holds
  restart : ∀ t, (p.restart t).Preserves I.holds

section Keeping

variable {p : Setting W} (h : Setting.Keeping I p)

theorem complain_preserves {α : Type} (c : Complaint) :
    (complain p c : Walk W α).Preserves (Invariant.walking I) := fun _ hs => hs

theorem apply_preserves (op : BinaryOperator) (left right : Int64) :
    (apply p op left right).Preserves (Invariant.walking I) := by
  cases op with
  | power | remainder | divide =>
    simp only [apply]
    split
    · exact complain_preserves _
    · exact preserves_pure _
  | _ => exact preserves_pure _

include h in
theorem valueOf_preserves (depth : Nat) (value : Bytes) :
    (valueOf p depth value).Preserves (Invariant.walking I) := by
  unfold valueOf
  split_ifs
  · exact preserves_pure _
  · exact complain_preserves _
  · exact onShell_preserves (h.nested _ _)

include h in
theorem resolve_preserves (base subscript : Bytes) :
    (onShell (resolveTextSelector p.host p.restart base subscript)).Ensures
      (Invariant.walking I) I.selector := by
  intro s hs
  have hrun := resolveTextSelector_ensures h.closed h.restart base subscript s.shell hs
  unfold onShell Run.within
  cases hm : resolveTextSelector p.host p.restart base subscript s.shell with
  | done a t => rw [hm] at hrun; exact hrun
  | failed e t => rw [hm] at hrun; exact hrun
  | unfinished => trivial

include h in
theorem scalar_preserves (depth : Nat) (name : Bytes) :
    (scalar p depth name).Preserves (Invariant.walking I) := by
  have hlookup := lookupBytes_preserves h.closed name
  unfold scalar
  split
  · refine (onShell_preserves hlookup).bind fun value => ?_
    cases value with
    | some value => exact valueOf_preserves h depth value
    | none =>
      refine ensures_get.bind fun s _ => ?_
      split
      · exact onShell_preserves (shellError_ensures _)
      · exact preserves_pure _
  · refine onShell_preserves (hlookup.bind fun value => ensures_get.bind fun shell _ => ?_)
    split
    · exact shellError_ensures _
    · split
      · exact preserves_pure _
      · exact shellError_ensures _

include h in
theorem read_preserves (depth : Nat) (name : Name) :
    (read p depth name).Preserves (Invariant.walking I) := by
  unfold read
  cases name.subscript with
  | none => exact scalar_preserves h depth name.base
  | some subscript =>
    exact (resolve_preserves h name.base subscript).bind fun selector _ =>
      ensures_get.bind fun s _ => valueOf_preserves h depth _

include h in
theorem write_preserves (name : Name) (value : Int64) :
    (write p name value).Preserves (Invariant.walking I) := by
  unfold write
  cases name.subscript with
  | none =>
    exact onShell_preserves ((h.closed.write _ _ _ _ _).bind fun _ => preserves_pure _)
  | some subscript =>
    refine (resolve_preserves h name.base subscript).bind fun selector hselector => ?_
    exact (onShell_preserves (assignElement_preserves h.closed h.restart _ _ hselector _ _)).bind
      fun _ => preserves_pure _

include h in
theorem assignedValue_preserves (depth : Nat) (name : Name) (op : Option BinaryOperator)
    (result : Int64) :
    (assignedValue p depth name op result).Preserves (Invariant.walking I) := by
  cases op with
  | none => exact preserves_pure _
  | some op => exact (read_preserves h depth name).bind fun v => apply_preserves op v result

include h in
theorem keepingLeaves : Leaves (keepingSimulation I) 0 p p where
  complain _ _ _ := complain_preserves _
  read := by
    rintro k depth e _ name _ _ rfl
    split
    · exact read_preserves h depth name
    · exact preserves_pure _
  postfixed := by
    rintro k e _ value _ name delta _ rfl rfl
    unfold postfixed
    split
    · exact (write_preserves h name _).bind fun _ => preserves_pure _
    · exact preserves_pure _
  stepped := by
    rintro k depth e _ name delta _ _ rfl
    unfold stepped
    split
    · exact (read_preserves h depth name).bind fun _ => write_preserves h name _
    · exact preserves_pure _
  assigned := by
    rintro k depth e _ result _ name op _ _ rfl rfl
    unfold assigned
    split
    · exact (assignedValue_preserves h depth name op result).bind fun v => write_preserves h name v
    · exact preserves_pure _
  applied := by
    rintro k e _ left _ right _ op rfl rfl rfl
    unfold applied
    split
    · exact apply_preserves op left right
    · exact preserves_pure _
  raised := by
    rintro k e _ base _ exponent _ rfl rfl rfl
    unfold raised
    split
    · exact apply_preserves .power base exponent
    · exact preserves_pure _

include h in
theorem whole_preserves (nesting depth : Nat) :
    (whole p (walk p nesting) depth).Preserves (Invariant.walking I) := by
  have hside : ∀ {j}, True → (keepingSimulation I).related j
      (walk p nesting ⟨.assignment, true, depth⟩) (walk p nesting ⟨.assignment, true, depth⟩) :=
    fun {j} _ => walk_related (S := keepingSimulation I) (keepingLeaves h) (fun _ => ensures_bot)
      nesting j rfl (Nat.zero_le depth)
  have hcomma := comma_related (S := keepingSimulation I) (k := 0) hside
  refine Preserves.bind hcomma fun result s hs => ?_
  unfold lookahead
  split
  · exact ⟨trivial, hs⟩
  · exact hs

end Keeping

theorem evaluations_preserves (h : I.Closed host) : ∀ (n : Nat) (job : Job),
    (evaluations host n job).Preserves I.holds := by
  intro n
  induction n with
  | zero => intro job; exact ensures_bot
  | succ n ih =>
    intro job shell hs
    have hsetting : Setting.Keeping I
        (setting host (evaluations host n) (evaluations host n) shell job.input) := {
      closed := h
      nested := fun t depth => ih ⟨t, depth⟩
      restart := fun t => ih ⟨t, 0⟩ }
    show ((evaluateBody host (evaluations host n) (evaluations host n) job) shell).Meets _ _
    unfold evaluateBody evaluateWithin evaluateUnder
    simp only
    split
    · exact ⟨trivial, hs⟩
    · have hwhole := whole_preserves hsetting
        (nestingBound (shellTokens shell job.input)) job.depth
        { shell := shell, rest := shellTokens shell job.input } hs
      unfold Run.within
      revert hwhole
      cases whole _ _ _ _ with
      | done a t => exact id
      | failed e t => exact id
      | unfinished => exact id

/-- **An evaluation keeps every invariant its writes keep.** -/
theorem evaluate_preserves (h : I.Closed host) (n : Nat) (input : Bytes) :
    (evaluate host n input).Preserves I.holds := evaluations_preserves h n ⟨input, 0⟩

end Nsh.Arithmetic
