import Nsh.Regexes.Sound

/-!
# What is there the matcher finds

A condition that a refusal makes true, that the continuation keeps, and that it makes
true wherever it is called at one end, holds after the exploration of an expression that
spans to that end: the continuation has been called there, or a bound has turned an
expression away.
-/

namespace Nsh.Regexes

open Nsh.Patterns (Subject)

variable {s : Subject} {visit : Visit} {Q : State → Prop}

/-- Called at the end, it makes the condition true. -/
def Continue.Makes (next : Continue) (Q : State → Prop) (end' : Nat) : Prop :=
  ∀ depth st, Q (next depth st end').2

def Visit.Complete (visit : Visit) (s : Subject) (Q : State → Prop) : Prop :=
  ∀ e pos next j, e.Solid → Continue.Quiet next → Continue.Keeps next Q →
    Continue.Makes next Q j → e.Spans s pos j → ∀ depth st, Q (visit e pos next depth st).2

section

variable {next : Continue} {pos depth j : Nat} {st : State}

theorem matchSequence_complete (hquiet : visit.Quiet) (hkeeps : visit.Keeps Q)
    (hv : visit.Complete s Q) (parts : List Expr) (hsolid : ∀ e ∈ parts, e.Solid)
    (hn : Continue.Quiet next) (hk : Continue.Keeps next Q) (hm : Continue.Makes next Q j)
    (h : sequenceSpans s parts pos j) : Q (matchSequence visit parts pos next depth st).2 := by
  induction parts generalizing pos depth st with
  | nil =>
    obtain rfl : pos = j := h
    exact hm depth st
  | cons head tail ih =>
    obtain ⟨k, hhead, htail⟩ := h
    apply hv head pos _ k (hsolid head List.mem_cons_self)
      (fun depth st end' => matchSequence_quiet hquiet tail hn)
      (fun depth st end' h => matchSequence_keeps hkeeps tail hk h) _ hhead depth st
    intro depth st
    exact ih (fun e he => hsolid e (List.mem_cons_of_mem head he)) htail

theorem matchBranches_complete (hquiet : visit.Quiet) (hkeeps : visit.Keeps Q)
    (hv : visit.Complete s Q) (branches : List Expr) (hsolid : ∀ e ∈ branches, e.Solid)
    (hn : Continue.Quiet next) (hk : Continue.Keeps next Q) (hm : Continue.Makes next Q j)
    (h : branchesSpans s branches pos j) :
    Q (matchBranches visit branches pos next depth st).2 := by
  induction branches generalizing st with
  | nil => cases h
  | cons branch branches ih =>
    rw [matchBranches_cons, (hquiet branch pos next hn depth st).1, if_neg Bool.false_ne_true]
    rcases h with hbranch | hrest
    · apply matchBranches_keeps hkeeps branches hk
      exact hv branch pos next j (hsolid branch List.mem_cons_self) hn hk hm hbranch depth st
    · exact ih (fun e he => hsolid e (List.mem_cons_of_mem branch he)) hrest

theorem matchGroup_complete (hQ : Lasting Q) (hquiet : visit.Quiet) (hv : visit.Complete s Q)
    (index : Nat) (body : Expr) (hsolid : body.Solid) (hn : Continue.Quiet next)
    (hk : Continue.Keeps next Q) (hm : Continue.Makes next Q j) (h : body.Spans s pos j) :
    Q (matchGroup visit index body pos next depth st).2 := by
  have hclose := closeGroup_quiet index pos hn
  rw [matchGroup_eq, (hquiet body pos _ hclose depth st).1]
  apply hQ.setGroup
  apply hv body pos _ j hsolid hclose (closeGroup_keeps hQ index pos hk) _ h depth st
  intro depth st
  rw [closeGroup_eq]
  split
  · exact hm depth _
  · exact hQ.setGroup _ _ _ (hm depth _)

theorem tryEnds_complete (ends : List Nat) (hn : Continue.Quiet next) (hk : Continue.Keeps next Q)
    (hm : Continue.Makes next Q j) (h : j ∈ ends) : Q (tryEnds next ends depth st).2 := by
  induction ends generalizing st with
  | nil => cases h
  | cons end' ends ih =>
    rw [tryEnds_cons, (hn depth st end').1, if_neg Bool.false_ne_true]
    rcases List.mem_cons.mp h with rfl | h
    · exact tryEnds_keeps ends hk (hm depth st)
    · exact ih h

/-- The repetitions that move are enough: what is still owed may stay where it is. -/
theorem matchRepeat_complete (hQ : Lasting Q) (hrefuse : ∀ st : State, Q st.refuse)
    (hquiet : visit.Quiet) (hkeeps : visit.Keeps Q) (hv : visit.Complete s Q) (body : Expr)
    (hsolid : body.Solid) (min : Nat) (max : Option Nat) (rounds count : Nat)
    (hn : Continue.Quiet next) (hk : Continue.Keeps next Q) (hm : Continue.Makes next Q j)
    (h : Rest s body min max count pos j) :
    Q (matchRepeat visit body min max rounds count pos next depth st).2 := by
  induction rounds generalizing count pos depth st with
  | zero => exact hrefuse st
  | succ rounds ih =>
    obtain ⟨k, hmin, hmax, hchain⟩ := h
    have hquiets : ∀ depth st i,
        (matchRepeat visit body min max rounds (count + 1) i next depth st).1 = false ∧
        (matchRepeat visit body min max rounds (count + 1) i next depth st).2.groups = st.groups :=
      fun depth st i => matchRepeat_quiet hquiet body min max rounds (count + 1) hn
    rw [matchRepeat_succ]
    split
    · next howed =>
      obtain ⟨k, rfl⟩ := Nat.exists_eq_succ_of_ne_zero (show k ≠ 0 by omega)
      obtain ⟨i, hi, hrest⟩ := hchain
      apply hv body pos _ i hsolid hquiets
        (fun depth st i h => matchRepeat_keeps hQ hkeeps body min max rounds (count + 1) hk h) _ hi
        depth st
      intro depth st
      exact ih (count + 1) ⟨k, by omega, by rwa [Nat.add_assoc, Nat.add_comm 1 k], hrest⟩
    · next hpaid =>
      have hmove : Continue.Quiet (moveAgain visit body min max rounds count pos next) := by
        intro depth st i
        rw [moveAgain]
        split
        · exact ⟨rfl, rfl⟩
        · exact hquiets depth st i
      have honce : (repeatOnce visit body min max rounds count pos next depth st).1 = false := by
        rw [repeatOnce]
        split
        · exact (hquiet body pos _ hmove depth st).1
        · rfl
      rw [honce, if_neg Bool.false_ne_true]
      rcases hchain.moves with rfl | ⟨k', i, hk', hi, hne, hrest⟩
      · exact hm depth _
      · apply hk depth _ pos
        rw [repeatOnce, if_pos (allows_iff.mpr (hmax.mono (by omega)))]
        apply hv body pos _ i hsolid hmove _ _ hi depth st
        · intro depth st i h
          rw [moveAgain]
          split
          · exact h
          · exact matchRepeat_keeps hQ hkeeps body min max rounds (count + 1) hk h
        · intro depth st
          rw [moveAgain, if_neg hne]
          exact ih (count + 1) ⟨k', by omega, hmax.mono (by omega), hrest⟩

theorem explore_complete (hQ : Lasting Q) (hrefuse : ∀ st : State, Q st.refuse)
    (hquiet : visit.Quiet) (hkeeps : visit.Keeps Q) (hv : visit.Complete s Q) (rounds : Nat)
    (e : Expr) (hsolid : e.Solid) (hn : Continue.Quiet next) (hk : Continue.Keeps next Q)
    (hm : Continue.Makes next Q j) (h : e.Spans s pos j) :
    Q (explore s visit rounds e pos next depth st).2 := by
  have hand : ∀ end' : Option Nat, end' = some j → Q (handOn end' next depth st).2 := by
    rintro _ rfl
    exact hm depth st
  cases e with
  | empty =>
    obtain rfl : pos = j := h
    exact hm depth st
  | literal bytes =>
    obtain ⟨hat, rfl⟩ := h
    exact hand _ (if_pos hat)
  | anyCharacter => exact hand _ ((single_eq_some rfl hsolid).mpr h)
  | bracket b => exact hand _ ((single_eq_some rfl hsolid).mpr h)
  | start =>
    obtain ⟨hzero, rfl⟩ := h
    rw [explore, if_pos hzero]
    exact hm depth st
  | finish =>
    obtain ⟨hend, rfl⟩ := h
    rw [explore, if_pos hend]
    exact hm depth st
  | sequence parts =>
    exact matchSequence_complete hquiet hkeeps hv parts
      (fun e he => hsolid.mono (List.subset_cons_of_subset _ (within_subset he))) hn hk hm h
  | alternation branches =>
    exact matchBranches_complete hquiet hkeeps hv branches
      (fun e he => hsolid.mono (List.subset_cons_of_subset _ (within_subset he))) hn hk hm h
  | repeated body min max =>
    have hbody : body.Solid := hsolid.mono (List.subset_cons_of_subset _ (List.Subset.refl _))
    rw [explore]
    split
    · next hsingle =>
      rw [repeatSingle_eq]
      exact tryEnds_complete _ hn hk hm ((mem_offsets hsingle hbody).mpr h)
    · apply matchRepeat_complete hQ hrefuse hquiet hkeeps hv body hbody min max rounds 0 hn hk hm
      obtain ⟨k, hmin, hmax, hchain⟩ := h
      exact ⟨k, by omega, hmax.mono (by omega), hchain⟩
  | group index body =>
    exact matchGroup_complete hQ hquiet hv index body
      (hsolid.mono (List.subset_cons_of_subset _ (List.Subset.refl _))) hn hk hm h

end

/-- **Every end of a span is handed on, unless a bound turns an expression away.** -/
theorem matchesExpr_complete (hQ : Lasting Q) (hrefuse : ∀ st : State, Q st.refuse) (s : Subject)
    (fuel : Nat) : Visit.Complete (matchesExpr s fuel) s Q := by
  induction fuel with
  | zero =>
    intro e pos next j _ _ _ _ _ depth st
    exact hrefuse _
  | succ fuel ih =>
    intro e pos next j hsolid hn hk hm h depth st
    rw [matchesExpr_succ]
    split
    · exact hrefuse _
    · exact explore_complete hQ hrefuse (matchesExpr_quiet s fuel) (matchesExpr_keeps hQ s fuel) ih
        (fuel + 1) e hsolid hn hk hm h

end Nsh.Regexes
