import Nsh.Regexes.Spans

/-!
# What an exploration leaves behind

A continuation that never takes an end makes the matcher explore everything.  Such an
exploration never takes an end either and gives every group back as it found it, and
what each call of the continuation keeps the whole exploration keeps.  Each law is shown
for the parts of `explore` over any visit that keeps it, and then for `matchesExpr` by
induction on the levels.
-/

namespace Nsh.Regexes

open Nsh.Patterns (Subject)

variable {s : Subject} {visit : Visit} {Q : State → Prop}

/-! ### One step of each loop -/

theorem matchBranches_cons (branch : Expr) (branches : List Expr) (pos : Nat) (next : Continue)
    (depth : Nat) (st : State) :
    matchBranches visit (branch :: branches) pos next depth st =
      if (visit branch pos next depth st).1 then (true, (visit branch pos next depth st).2)
      else matchBranches visit branches pos next depth (visit branch pos next depth st).2 :=
  rfl

theorem closeGroup_eq (index pos : Nat) (next : Continue) (depth : Nat) (st : State) (end' : Nat) :
    closeGroup index pos next depth st end' =
      if (next depth (st.setGroup index (some (pos, end'))) end').1 then
        (true, (next depth (st.setGroup index (some (pos, end'))) end').2)
      else (false, (next depth (st.setGroup index (some (pos, end'))) end').2.setGroup index
        (st.group index)) :=
  rfl

theorem matchGroup_eq (index : Nat) (body : Expr) (pos : Nat) (next : Continue) (depth : Nat)
    (st : State) :
    matchGroup visit index body pos next depth st =
      ((visit body pos (closeGroup index pos next) depth st).1,
        if (visit body pos (closeGroup index pos next) depth st).1 then
          (visit body pos (closeGroup index pos next) depth st).2
        else (visit body pos (closeGroup index pos next) depth st).2.setGroup index
          (st.group index)) :=
  rfl

theorem tryEnds_cons (next : Continue) (end' : Nat) (ends : List Nat) (depth : Nat) (st : State) :
    tryEnds next (end' :: ends) depth st =
      if (next depth st end').1 then (true, (next depth st end').2)
      else tryEnds next ends depth (next depth st end').2 :=
  rfl

/-- The continuation of a repetition that is still owed. -/
def oweAgain (visit : Visit) (body : Expr) (min : Nat) (max : Option Nat) (rounds count : Nat)
    (next : Continue) : Continue := fun depth st end' =>
  matchRepeat visit body min max rounds (count + 1) end' next depth st

/-- The continuation of one repetition more, which has to move. -/
def moveAgain (visit : Visit) (body : Expr) (min : Nat) (max : Option Nat) (rounds count pos : Nat)
    (next : Continue) : Continue := fun depth st end' =>
  if end' = pos then (false, st)
  else matchRepeat visit body min max rounds (count + 1) end' next depth st

/-- One repetition more, where it is allowed. -/
def repeatOnce (visit : Visit) (body : Expr) (min : Nat) (max : Option Nat)
    (rounds count pos : Nat) (next : Continue) (depth : Nat) (st : State) : Bool × State :=
  if allows max count then
    visit body pos (moveAgain visit body min max rounds count pos next) depth st
  else (false, st)

theorem matchRepeat_succ (body : Expr) (min : Nat) (max : Option Nat) (rounds count pos : Nat)
    (next : Continue) (depth : Nat) (st : State) :
    matchRepeat visit body min max (rounds + 1) count pos next depth st =
      if count < min then visit body pos (oweAgain visit body min max rounds count next) depth st
      else if (repeatOnce visit body min max rounds count pos next depth st).1 then
        (true, (repeatOnce visit body min max rounds count pos next depth st).2)
      else next depth (repeatOnce visit body min max rounds count pos next depth st).2 pos :=
  rfl

theorem matchesExpr_succ (s : Subject) (fuel : Nat) (e : Expr) (pos : Nat) (next : Continue)
    (depth : Nat) (st : State) :
    matchesExpr s (fuel + 1) e pos next depth st =
      if decide (stepBudget < st.charge.steps) || decide (maxDepth ≤ depth) then
        (false, st.charge.refuse)
      else explore s (matchesExpr s fuel) (fuel + 1) e pos next (depth + 1) st.charge :=
  rfl

/-! ### Never taking an end -/

/-- It never takes an end, and leaves the groups as they are. -/
def Continue.Quiet (next : Continue) : Prop :=
  ∀ depth st end', (next depth st end').1 = false ∧ (next depth st end').2.groups = st.groups

def Visit.Quiet (visit : Visit) : Prop :=
  ∀ e pos next, Continue.Quiet next → ∀ depth st,
    (visit e pos next depth st).1 = false ∧ (visit e pos next depth st).2.groups = st.groups

theorem State.setGroup_setGroup (st : State) (index : Nat) (span : Option Span) :
    ((st.setGroup index span).setGroup index (st.group index)).groups = st.groups := by
  show (st.groups.set index span).set index (st.groups.getD index none) = st.groups
  rw [List.set_set]
  by_cases h : index < st.groups.length
  · rw [← List.getElem_eq_getD (h := h), List.set_getElem_self]
  · exact List.set_eq_of_length_le (Nat.not_lt.mp h)

theorem State.setGroup_group (st : State) (index : Nat) :
    (st.setGroup index (st.group index)).groups = st.groups := by
  show st.groups.set index (st.groups.getD index none) = st.groups
  by_cases hlt : index < st.groups.length
  · rw [← List.getElem_eq_getD (h := hlt), List.set_getElem_self]
  · exact List.set_eq_of_length_le (Nat.not_lt.mp hlt)

section

variable {next : Continue} {pos depth : Nat} {st : State}

theorem matchSequence_quiet (hv : visit.Quiet) (parts : List Expr) (hn : Continue.Quiet next) :
    (matchSequence visit parts pos next depth st).1 = false ∧
      (matchSequence visit parts pos next depth st).2.groups = st.groups := by
  induction parts generalizing pos depth st with
  | nil => exact hn depth st pos
  | cons head tail ih =>
    apply hv head pos
    intro depth st end'
    exact ih

theorem matchBranches_quiet (hv : visit.Quiet) (branches : List Expr) (hn : Continue.Quiet next) :
    (matchBranches visit branches pos next depth st).1 = false ∧
      (matchBranches visit branches pos next depth st).2.groups = st.groups := by
  induction branches generalizing st with
  | nil => exact ⟨rfl, rfl⟩
  | cons branch branches ih =>
    obtain ⟨hfalse, hgroups⟩ := hv branch pos next hn depth st
    rw [matchBranches_cons, hfalse, if_neg Bool.false_ne_true, ← hgroups]
    exact ih

theorem closeGroup_quiet (index pos : Nat) (hn : Continue.Quiet next) :
    Continue.Quiet (closeGroup index pos next) := by
  intro depth st end'
  obtain ⟨hfalse, hgroups⟩ := hn depth (st.setGroup index (some (pos, end'))) end'
  rw [closeGroup_eq, hfalse, if_neg Bool.false_ne_true]
  refine ⟨rfl, ?_⟩
  show List.set _ index _ = st.groups
  rw [hgroups]
  exact st.setGroup_setGroup index (some (pos, end'))

theorem matchGroup_quiet (hv : visit.Quiet) (index : Nat) (body : Expr) (hn : Continue.Quiet next) :
    (matchGroup visit index body pos next depth st).1 = false ∧
      (matchGroup visit index body pos next depth st).2.groups = st.groups := by
  obtain ⟨hfalse, hgroups⟩ := hv body pos _ (closeGroup_quiet index pos hn) depth st
  rw [matchGroup_eq, hfalse, if_neg Bool.false_ne_true]
  refine ⟨rfl, ?_⟩
  show List.set _ index _ = st.groups
  rw [hgroups]
  exact st.setGroup_group index

theorem tryEnds_quiet (ends : List Nat) (hn : Continue.Quiet next) :
    (tryEnds next ends depth st).1 = false ∧ (tryEnds next ends depth st).2.groups = st.groups := by
  induction ends generalizing st with
  | nil => exact ⟨rfl, rfl⟩
  | cons end' ends ih =>
    obtain ⟨hfalse, hgroups⟩ := hn depth st end'
    rw [tryEnds_cons, hfalse, if_neg Bool.false_ne_true, ← hgroups]
    exact ih

theorem matchRepeat_quiet (hv : visit.Quiet) (body : Expr) (min : Nat) (max : Option Nat)
    (rounds count : Nat) (hn : Continue.Quiet next) :
    (matchRepeat visit body min max rounds count pos next depth st).1 = false ∧
      (matchRepeat visit body min max rounds count pos next depth st).2.groups = st.groups := by
  induction rounds generalizing count pos depth st with
  | zero => exact ⟨rfl, rfl⟩
  | succ rounds ih =>
    rw [matchRepeat_succ]
    split
    · apply hv body pos
      intro depth st end'
      exact ih (count + 1)
    · have honce : (repeatOnce visit body min max rounds count pos next depth st).1 = false ∧
          (repeatOnce visit body min max rounds count pos next depth st).2.groups = st.groups := by
        rw [repeatOnce]
        split
        · apply hv body pos
          intro depth st end'
          rw [moveAgain]
          split
          · exact ⟨rfl, rfl⟩
          · exact ih (count + 1)
        · exact ⟨rfl, rfl⟩
      rw [honce.1, if_neg Bool.false_ne_true, ← honce.2]
      exact hn depth _ pos

theorem explore_quiet (hv : visit.Quiet) (rounds : Nat) (e : Expr) (hn : Continue.Quiet next) :
    (explore s visit rounds e pos next depth st).1 = false ∧
      (explore s visit rounds e pos next depth st).2.groups = st.groups := by
  have hand : ∀ end' : Option Nat, (handOn end' next depth st).1 = false ∧
      (handOn end' next depth st).2.groups = st.groups := by
    intro end'
    cases end' with
    | none => exact ⟨rfl, rfl⟩
    | some end' => exact hn depth st end'
  cases e with
  | empty => exact hn depth st pos
  | literal bytes => exact hand _
  | anyCharacter => exact hand _
  | bracket b => exact hand _
  | start =>
    rw [explore]
    split
    · exact hn depth st pos
    · exact ⟨rfl, rfl⟩
  | finish =>
    rw [explore]
    split
    · exact hn depth st pos
    · exact ⟨rfl, rfl⟩
  | sequence parts => exact matchSequence_quiet hv parts hn
  | alternation branches => exact matchBranches_quiet hv branches hn
  | repeated body min max =>
    rw [explore]
    split
    · rw [repeatSingle_eq]
      exact tryEnds_quiet _ hn
    · exact matchRepeat_quiet hv body min max rounds 0 hn
  | group index body => exact matchGroup_quiet hv index body hn

end

theorem matchesExpr_quiet (s : Subject) (fuel : Nat) : Visit.Quiet (matchesExpr s fuel) := by
  induction fuel with
  | zero =>
    intro e pos next hn depth st
    exact ⟨rfl, rfl⟩
  | succ fuel ih =>
    intro e pos next hn depth st
    rw [matchesExpr_succ]
    split
    · exact ⟨rfl, rfl⟩
    · exact explore_quiet ih (fuel + 1) e hn

/-! ### What the continuation keeps -/

/-- It does not depend on the groups, and a step the budget allows or a refusal leaves it
    true. -/
structure Lasting (Q : State → Prop) : Prop where
  charge : ∀ st, st.charge.steps ≤ stepBudget → Q st → Q st.charge
  turnAway : ∀ st, Q st → Q st.charge.refuse
  setGroup : ∀ st index span, Q st → Q (st.setGroup index span)
  refuse : ∀ st, Q st → Q st.refuse

def Continue.Keeps (next : Continue) (Q : State → Prop) : Prop :=
  ∀ depth st end', Q st → Q (next depth st end').2

def Visit.Keeps (visit : Visit) (Q : State → Prop) : Prop :=
  ∀ e pos next, Continue.Keeps next Q → ∀ depth st, Q st → Q (visit e pos next depth st).2

section

variable {next : Continue} {pos depth : Nat} {st : State}

theorem matchSequence_keeps (hv : visit.Keeps Q) (parts : List Expr) (hn : Continue.Keeps next Q)
    (h : Q st) : Q (matchSequence visit parts pos next depth st).2 := by
  induction parts generalizing pos depth st with
  | nil => exact hn depth st pos h
  | cons head tail ih =>
    apply hv head pos _ _ depth st h
    intro depth st end' h
    exact ih h

theorem matchBranches_keeps (hv : visit.Keeps Q) (branches : List Expr)
    (hn : Continue.Keeps next Q) (h : Q st) :
    Q (matchBranches visit branches pos next depth st).2 := by
  induction branches generalizing st with
  | nil => exact h
  | cons branch branches ih =>
    have hbranch := hv branch pos next hn depth st h
    rw [matchBranches_cons]
    split
    · exact hbranch
    · exact ih hbranch

theorem closeGroup_keeps (hQ : Lasting Q) (index pos : Nat) (hn : Continue.Keeps next Q) :
    Continue.Keeps (closeGroup index pos next) Q := by
  intro depth st end' h
  have hnext := hn depth _ end' (hQ.setGroup st index (some (pos, end')) h)
  rw [closeGroup_eq]
  split
  · exact hnext
  · exact hQ.setGroup _ _ _ hnext

theorem matchGroup_keeps (hQ : Lasting Q) (hv : visit.Keeps Q) (index : Nat) (body : Expr)
    (hn : Continue.Keeps next Q) (h : Q st) :
    Q (matchGroup visit index body pos next depth st).2 := by
  have hbody := hv body pos _ (closeGroup_keeps hQ index pos hn) depth st h
  rw [matchGroup_eq]
  simp only
  split
  · exact hbody
  · exact hQ.setGroup _ _ _ hbody

theorem tryEnds_keeps (ends : List Nat) (hn : Continue.Keeps next Q) (h : Q st) :
    Q (tryEnds next ends depth st).2 := by
  induction ends generalizing st with
  | nil => exact h
  | cons end' ends ih =>
    have hnext := hn depth st end' h
    rw [tryEnds_cons]
    split
    · exact hnext
    · exact ih hnext

theorem repeatOnce_keeps (hv : visit.Keeps Q) (body : Expr) (min : Nat) (max : Option Nat)
    (rounds count : Nat)
    (hagain : ∀ pos depth st, Q st →
      Q (matchRepeat visit body min max rounds (count + 1) pos next depth st).2) (h : Q st) :
    Q (repeatOnce visit body min max rounds count pos next depth st).2 := by
  rw [repeatOnce]
  split
  · apply hv body pos _ _ depth st h
    intro depth st end' h
    rw [moveAgain]
    split
    · exact h
    · exact hagain end' depth st h
  · exact h

theorem matchRepeat_keeps (hQ : Lasting Q) (hv : visit.Keeps Q) (body : Expr) (min : Nat)
    (max : Option Nat) (rounds count : Nat) (hn : Continue.Keeps next Q) (h : Q st) :
    Q (matchRepeat visit body min max rounds count pos next depth st).2 := by
  induction rounds generalizing count pos depth st with
  | zero => exact hQ.refuse st h
  | succ rounds ih =>
    rw [matchRepeat_succ]
    split
    · apply hv body pos _ _ depth st h
      intro depth st end' h
      exact ih (count + 1) h
    · have honce : Q (repeatOnce visit body min max rounds count pos next depth st).2 :=
        repeatOnce_keeps hv body min max rounds count (fun _ _ _ h => ih (count + 1) h) h
      split
      · exact honce
      · exact hn depth _ pos honce

theorem explore_keeps (hQ : Lasting Q) (hv : visit.Keeps Q) (rounds : Nat) (e : Expr)
    (hn : Continue.Keeps next Q) (h : Q st) :
    Q (explore s visit rounds e pos next depth st).2 := by
  have hand : ∀ end' : Option Nat, Q (handOn end' next depth st).2 := by
    intro end'
    cases end' with
    | none => exact h
    | some end' => exact hn depth st end' h
  cases e with
  | empty => exact hn depth st pos h
  | literal bytes => exact hand _
  | anyCharacter => exact hand _
  | bracket b => exact hand _
  | start =>
    rw [explore]
    split
    · exact hn depth st pos h
    · exact h
  | finish =>
    rw [explore]
    split
    · exact hn depth st pos h
    · exact h
  | sequence parts => exact matchSequence_keeps hv parts hn h
  | alternation branches => exact matchBranches_keeps hv branches hn h
  | repeated body min max =>
    rw [explore]
    split
    · rw [repeatSingle_eq]
      exact tryEnds_keeps _ hn h
    · exact matchRepeat_keeps hQ hv body min max rounds 0 hn h
  | group index body => exact matchGroup_keeps hQ hv index body hn h

end

theorem within_budget {st : State} {depth : Nat}
    (h : ¬(decide (stepBudget < st.charge.steps) || decide (maxDepth ≤ depth)) = true) :
    st.charge.steps ≤ stepBudget := by
  rw [Bool.or_eq_true, decide_eq_true_eq, not_or, Nat.not_lt] at h
  exact h.1

theorem matchesExpr_keeps (hQ : Lasting Q) (s : Subject) (fuel : Nat) :
    Visit.Keeps (matchesExpr s fuel) Q := by
  induction fuel with
  | zero =>
    intro e pos next hn depth st h
    exact hQ.turnAway st h
  | succ fuel ih =>
    intro e pos next hn depth st h
    rw [matchesExpr_succ]
    split
    · exact hQ.turnAway st h
    · next hgo =>
      exact explore_keeps hQ ih (fuel + 1) e hn (hQ.charge st (within_budget hgo) h)

end Nsh.Regexes
