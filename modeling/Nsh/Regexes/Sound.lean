import Nsh.Regexes.Exploring

/-!
# What the matcher finds is there

The continuation is only called at ends of spans of the expression, and with groups
that each hold a span of their own body which lies between the start of the attempt
and that end.
-/

namespace Nsh.Regexes

open Nsh.Patterns (Subject)

variable {s : Subject} {visit : Visit} {I : State → Prop} {C : Nat → Span → Prop} {start : Nat}

/-- Every group set holds a span `C` allows it, between the start and `limit`. -/
def Inside (C : Nat → Span → Prop) (start limit : Nat) (groups : Captures) : Prop :=
  ∀ index span, groups.getD index none = some span →
    start ≤ span.1 ∧ span.1 ≤ span.2 ∧ span.2 ≤ limit ∧ C index span

theorem Inside.mono {i j : Nat} {groups : Captures} (h : Inside C start i groups) (hij : i ≤ j) :
    Inside C start j groups := by
  intro index span hspan
  obtain ⟨hstart, hle, hlimit, hC⟩ := h index span hspan
  exact ⟨hstart, hle, le_trans hlimit hij, hC⟩

/-- The bodies of the groups inside the expressions span only what `C` allows. -/
def Bodies (s : Subject) (C : Nat → Span → Prop) (inner : List Expr) : Prop :=
  ∀ index body, .group index body ∈ inner → ∀ i j, body.Spans s i j → C index (i, j)

/-- Called at one of the ends with groups that are inside, it keeps `I`. -/
def Continue.Fits (next : Continue) (I : State → Prop) (C : Nat → Span → Prop) (start : Nat)
    (ends : Nat → Prop) : Prop :=
  ∀ depth st j, ends j → Inside C start j st.groups → I st → I (next depth st j).2

def Visit.Sound (visit : Visit) (s : Subject) (I : State → Prop) (C : Nat → Span → Prop)
    (start : Nat) : Prop :=
  ∀ e pos next, e.Solid → Bodies s C e.within → start ≤ pos → Continue.Quiet next →
    Continue.Fits next I C start (e.Spans s pos) → ∀ depth st, Inside C start pos st.groups →
      I st → I (visit e pos next depth st).2

section

variable {next : Continue} {pos depth : Nat} {st : State}

theorem matchSequence_sound (hquiet : visit.Quiet) (hv : visit.Sound s I C start)
    (parts : List Expr) (hsolid : ∀ e ∈ parts, e.Solid) (hbodies : Bodies s C (withinAll parts))
    (hstart : start ≤ pos) (hn : Continue.Quiet next)
    (hfits : Continue.Fits next I C start (sequenceSpans s parts pos))
    (hinside : Inside C start pos st.groups) (h : I st) :
    I (matchSequence visit parts pos next depth st).2 := by
  induction parts generalizing pos depth st with
  | nil => exact hfits depth st pos rfl hinside h
  | cons head tail ih =>
    apply hv head pos _ (hsolid head List.mem_cons_self)
      (fun index body hmem => hbodies index body (within_subset List.mem_cons_self hmem)) hstart
      (fun depth st end' => matchSequence_quiet hquiet tail hn) _ depth st hinside h
    intro depth st k hk hinside h
    apply ih (fun e he => hsolid e (List.mem_cons_of_mem head he)) _
      (le_trans hstart hk.le) _ hinside h
    · intro index body hmem
      apply hbodies index body
      rw [withinAll]
      exact List.mem_append_right _ hmem
    · intro depth st j hj
      exact hfits depth st j ⟨k, hk, hj⟩

theorem matchBranches_sound (hquiet : visit.Quiet) (hv : visit.Sound s I C start)
    (branches : List Expr) (hsolid : ∀ e ∈ branches, e.Solid)
    (hbodies : Bodies s C (withinAll branches)) (hstart : start ≤ pos) (hn : Continue.Quiet next)
    (hfits : Continue.Fits next I C start (branchesSpans s branches pos))
    (hinside : Inside C start pos st.groups) (h : I st) :
    I (matchBranches visit branches pos next depth st).2 := by
  induction branches generalizing st with
  | nil => exact h
  | cons branch branches ih =>
    obtain ⟨hfalse, hgroups⟩ := hquiet branch pos next hn depth st
    have hbranch : I (visit branch pos next depth st).2 :=
      hv branch pos next (hsolid branch List.mem_cons_self)
        (fun index body hmem =>
          hbodies index body (within_subset List.mem_cons_self hmem)) hstart hn
        (fun depth st j hj => hfits depth st j (Or.inl hj)) depth st hinside h
    rw [matchBranches_cons, hfalse, if_neg Bool.false_ne_true]
    apply ih (fun e he => hsolid e (List.mem_cons_of_mem branch he)) _
      (fun depth st j hj => hfits depth st j (Or.inr hj)) _ hbranch
    · intro index body hmem
      apply hbodies index body
      rw [withinAll]
      exact List.mem_append_right _ hmem
    · rw [hgroups]
      exact hinside

theorem inside_setGroup {index j : Nat} (hinside : Inside C start j st.groups)
    (hstart : start ≤ pos)
    (hle : pos ≤ j) (hC : C index (pos, j)) :
    Inside C start j (st.setGroup index (some (pos, j))).groups := by
  intro other span hspan
  change (st.groups.set index (some (pos, j))).getD other none = some span at hspan
  rw [List.getD_eq_getElem?_getD, List.getElem?_set] at hspan
  by_cases heq : index = other
  · subst heq
    rw [if_pos rfl] at hspan
    by_cases hlt : index < st.groups.length
    · rw [if_pos hlt] at hspan
      obtain rfl := Option.some.inj hspan
      exact ⟨hstart, hle, le_refl j, hC⟩
    · rw [if_neg hlt] at hspan
      cases hspan
  · rw [if_neg heq, ← List.getD_eq_getElem?_getD] at hspan
    exact hinside other span hspan

theorem matchGroup_sound (hI : Lasting I) (hquiet : visit.Quiet) (hv : visit.Sound s I C start)
    (index : Nat) (body : Expr) (hsolid : body.Solid)
    (hbodies : Bodies s C (Expr.group index body).within) (hstart : start ≤ pos)
    (hn : Continue.Quiet next)
    (hfits : Continue.Fits next I C start (body.Spans s pos))
    (hinside : Inside C start pos st.groups) (h : I st) :
    I (matchGroup visit index body pos next depth st).2 := by
  have hclose := closeGroup_quiet index pos hn
  have hbody : I (visit body pos (closeGroup index pos next) depth st).2 := by
    apply hv body pos _ hsolid _ hstart hclose _ depth st hinside h
    · intro index' body' hmem
      exact hbodies index' body' (List.mem_cons_of_mem _ hmem)
    · intro depth st j hj hinside h
      have hC := hbodies index body List.mem_cons_self pos j hj
      have hnext := hfits depth _ j hj (inside_setGroup hinside hstart hj.le hC)
        (hI.setGroup st index (some (pos, j)) h)
      rw [closeGroup_eq]
      split
      · exact hnext
      · exact hI.setGroup _ _ _ hnext
  rw [matchGroup_eq, (hquiet body pos _ hclose depth st).1]
  exact hI.setGroup _ _ _ hbody

theorem tryEnds_sound (ends : List Nat) (P : Nat → Prop) (hends : ∀ j ∈ ends, P j ∧ pos ≤ j)
    (hn : Continue.Quiet next) (hfits : Continue.Fits next I C start P)
    (hinside : Inside C start pos st.groups) (h : I st) : I (tryEnds next ends depth st).2 := by
  induction ends generalizing st with
  | nil => exact h
  | cons end' ends ih =>
    obtain ⟨hP, hle⟩ := hends end' List.mem_cons_self
    obtain ⟨hfalse, hgroups⟩ := hn depth st end'
    have hnext := hfits depth st end' hP (hinside.mono hle) h
    rw [tryEnds_cons, hfalse, if_neg Bool.false_ne_true]
    apply ih (fun j hj => hends j (List.mem_cons_of_mem end' hj)) _ hnext
    rw [hgroups]
    exact hinside

/-- The ends of the repetitions still allowed after so many. -/
def Rest (s : Subject) (body : Expr) (min : Nat) (max : Option Nat) (count pos j : Nat) : Prop :=
  ∃ k, min ≤ count + k ∧ Within max (count + k) ∧ Times (body.Spans s) k pos j

theorem Rest.cons {body : Expr} {min : Nat} {max : Option Nat} {count i j : Nat}
    (h : body.Spans s pos i) (rest : Rest s body min max (count + 1) i j) :
    Rest s body min max count pos j := by
  obtain ⟨k, hmin, hmax, hchain⟩ := rest
  rw [Nat.add_assoc, Nat.add_comm 1 k] at hmin hmax
  exact ⟨k + 1, hmin, hmax, Times.cons h hchain⟩

theorem matchRepeat_sound (hI : Lasting I) (hquiet : visit.Quiet) (hv : visit.Sound s I C start)
    (body : Expr) (hsolid : body.Solid) (hbodies : Bodies s C body.within) (min : Nat)
    (max : Option Nat) (hmost : Within max min) (rounds count : Nat) (hcount : Within max count)
    (hstart : start ≤ pos) (hn : Continue.Quiet next)
    (hfits : Continue.Fits next I C start (Rest s body min max count pos))
    (hinside : Inside C start pos st.groups) (h : I st) :
    I (matchRepeat visit body min max rounds count pos next depth st).2 := by
  induction rounds generalizing count pos depth st with
  | zero => exact hI.refuse st h
  | succ rounds ih =>
    have again : Within max (count + 1) → ∀ (depth : Nat) (st : State) (i : Nat),
        body.Spans s pos i → Inside C start i st.groups → I st →
        I (matchRepeat visit body min max rounds (count + 1) i next depth st).2 := by
      intro hcount depth st i hi hinside h
      apply ih (count + 1) hcount (le_trans hstart hi.le) _ hinside h
      intro depth st j hj
      exact hfits depth st j (Rest.cons hi hj)
    rw [matchRepeat_succ]
    split
    · next howed =>
      apply hv body pos _ hsolid hbodies hstart
        (fun depth st i => matchRepeat_quiet hquiet body min max rounds (count + 1) hn) _ depth st
        hinside h
      exact again (hmost.mono howed)
    · next hpaid =>
      have honce : (repeatOnce visit body min max rounds count pos next depth st).1 = false ∧
          (repeatOnce visit body min max rounds count pos next depth st).2.groups = st.groups ∧
          I (repeatOnce visit body min max rounds count pos next depth st).2 := by
        rw [repeatOnce]
        split
        · next hallows =>
          have hmove : Continue.Quiet (moveAgain visit body min max rounds count pos next) := by
            intro depth st i
            rw [moveAgain]
            split
            · exact ⟨rfl, rfl⟩
            · exact matchRepeat_quiet hquiet body min max rounds (count + 1) hn
          obtain ⟨hfalse, hgroups⟩ := hquiet body pos _ hmove depth st
          refine ⟨hfalse, hgroups, ?_⟩
          apply hv body pos _ hsolid hbodies hstart hmove _ depth st hinside h
          intro depth st i hi hinside h
          rw [moveAgain]
          split
          · exact h
          · exact again (allows_iff.mp hallows) depth st i hi hinside h
        · exact ⟨rfl, rfl, h⟩
      rw [honce.1, if_neg Bool.false_ne_true]
      apply hfits depth _ pos ⟨0, Nat.le_of_not_lt hpaid, hcount, rfl⟩ _ honce.2.2
      rw [honce.2.1]
      exact hinside

theorem explore_sound (hI : Lasting I) (hquiet : visit.Quiet) (hv : visit.Sound s I C start)
    (rounds : Nat) (e : Expr) (hsolid : e.Solid) (hbodies : Bodies s C e.within)
    (hstart : start ≤ pos) (hn : Continue.Quiet next)
    (hfits : Continue.Fits next I C start (e.Spans s pos))
    (hinside : Inside C start pos st.groups) (h : I st) :
    I (explore s visit rounds e pos next depth st).2 := by
  have hand : ∀ end' : Option Nat, (∀ j, end' = some j → e.Spans s pos j) →
      I (handOn end' next depth st).2 := by
    intro end' hspan
    cases end' with
    | none => exact h
    | some j =>
      have hj := hspan j rfl
      exact hfits depth st j hj (hinside.mono hj.le) h
  cases e with
  | empty => exact hfits depth st pos rfl hinside h
  | literal bytes =>
    apply hand
    intro j hj
    obtain ⟨hat, hj⟩ := Option.ite_none_right_eq_some.mp hj
    exact ⟨hat, (Option.some.inj hj).symm⟩
  | anyCharacter => exact hand _ fun j hj => (single_eq_some rfl hsolid).mp hj
  | bracket b => exact hand _ fun j hj => (single_eq_some rfl hsolid).mp hj
  | start =>
    rw [explore]
    split
    · next hzero => exact hfits depth st pos ⟨hzero, rfl⟩ hinside h
    · exact h
  | finish =>
    rw [explore]
    split
    · next hend => exact hfits depth st pos ⟨hend, rfl⟩ hinside h
    · exact h
  | sequence parts =>
    exact matchSequence_sound hquiet hv parts
      (fun e he => hsolid.mono (List.subset_cons_of_subset _ (within_subset he)))
      (fun index body hmem => hbodies index body (List.mem_cons_of_mem _ hmem)) hstart hn hfits
      hinside h
  | alternation branches =>
    exact matchBranches_sound hquiet hv branches
      (fun e he => hsolid.mono (List.subset_cons_of_subset _ (within_subset he)))
      (fun index body hmem => hbodies index body (List.mem_cons_of_mem _ hmem)) hstart hn hfits
      hinside h
  | repeated body min max =>
    have hbody : body.Solid := hsolid.mono (List.subset_cons_of_subset _ (List.Subset.refl _))
    rw [explore]
    split
    · next hsingle =>
      rw [repeatSingle_eq]
      apply tryEnds_sound _ _ _ hn hfits hinside h
      intro j hj
      have hspan := (mem_offsets hsingle hbody).mp hj
      exact ⟨hspan, hspan.le⟩
    · apply matchRepeat_sound hI hquiet hv body hbody
        (fun index body hmem => hbodies index body (List.mem_cons_of_mem _ hmem)) min max
        (hsolid.repeated body min max List.mem_cons_self) rounds 0 (fun m _ => Nat.zero_le m) hstart
        hn _ hinside h
      intro depth st j hj
      apply hfits depth st j
      obtain ⟨k, hmin, hmax, hchain⟩ := hj
      rw [Nat.zero_add] at hmin hmax
      exact ⟨k, hmin, hmax, hchain⟩
  | group index body =>
    exact matchGroup_sound hI hquiet hv index body
      (hsolid.mono (List.subset_cons_of_subset _ (List.Subset.refl _))) hbodies hstart hn hfits
      hinside h

end

/-- **Only ends of spans are handed on, with groups that hold spans of their bodies.** -/
theorem matchesExpr_sound (hI : Lasting I) (s : Subject) (C : Nat → Span → Prop)
    (start fuel : Nat) :
    Visit.Sound (matchesExpr s fuel) s I C start := by
  induction fuel with
  | zero =>
    intro e pos next _ _ _ _ _ depth st _ h
    exact hI.turnAway st h
  | succ fuel ih =>
    intro e pos next hsolid hbodies hstart hn hfits depth st hinside h
    rw [matchesExpr_succ]
    split
    · exact hI.turnAway st h
    · next hgo =>
      exact explore_sound hI (matchesExpr_quiet s fuel) ih (fuel + 1) e hsolid hbodies hstart hn
        hfits hinside (hI.charge st (within_budget hgo) h)

end Nsh.Regexes
