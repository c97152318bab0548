import Nsh.Regexes.Search

/-!
# How deep a search goes

How much deeper than an expression its continuation runs is bounded by the expression
and the length of the subject: only a repetition of something that is not a single
character multiplies, by as many repetitions as are owed or can move, and one that fails.
An operand for which the bound stays under `maxDepth` is searched for completely unless
the step budget runs out.
-/

namespace Nsh.Regexes

open Nsh.Patterns (Subject)

/-- How many times a body is still entered at most, after so many repetitions and with so
    many bytes left. -/
def entries (least : Nat) (most : Option Nat) (count left : Nat) : Nat :=
  match most with
  | some most => min (most - count) (least - count + left + 1)
  | none => least - count + left + 1

mutual

/-- How much deeper the continuation of an expression runs at most. -/
def Expr.growth (n : Nat) : Expr → Nat
  | .sequence parts => growthSum n parts + 1
  | .alternation branches => growthMax n branches + 1
  | .repeated body min max =>
    if isSingle body then 1 else entries min max 0 n * body.growth n + 1
  | .group _ body => body.growth n + 1
  | .empty => 1
  | .literal _ => 1
  | .anyCharacter => 1
  | .bracket _ => 1
  | .start => 1
  | .finish => 1

def growthSum (n : Nat) : List Expr → Nat
  | [] => 0
  | e :: es => e.growth n + growthSum n es

def growthMax (n : Nat) : List Expr → Nat
  | [] => 0
  | e :: es => max (e.growth n) (growthMax n es)

end

/-- Nothing is refused on the way from one state to the other, if the steps taken by then
    are within the budget. -/
structure Calm (st st' : State) : Prop where
  steps : st.steps ≤ st'.steps
  refused : st'.steps ≤ stepBudget → st.refused = false → st'.refused = false

theorem Calm.refl (st : State) : Calm st st := ⟨le_refl _, fun _ h => h⟩

theorem Calm.trans {st st' st'' : State} (h : Calm st st') (h' : Calm st' st'') : Calm st st'' where
  steps := le_trans h.steps h'.steps
  refused hsteps hfree := h'.refused hsteps (h.refused (le_trans h'.steps hsteps) hfree)

theorem Calm.setGroup {st st' : State} (h : Calm st st') (index : Nat) (span : Option Span) :
    Calm st (st'.setGroup index span) := ⟨h.steps, h.refused⟩

theorem calm_setGroup (st : State) (index : Nat) (span : Option Span) :
    Calm st (st.setGroup index span) := ⟨le_refl _, fun _ h => h⟩

theorem calm_charge (st : State) : Calm st st.charge := ⟨Nat.le_succ _, fun _ h => h⟩

variable {s : Subject} {visit : Visit} {next : Continue} {pos depth least from' limit : Nat}
  {st : State}

/-- Between these depths, at positions from one on, the continuation refuses nothing. -/
def Continue.Calm (next : Continue) (s : Subject) (pos from' limit : Nat) : Prop :=
  ∀ depth st j, from' ≤ depth → depth ≤ limit → pos ≤ j → j ≤ s.bytes.length →
    Nsh.Regexes.Calm st (next depth st j).2

/-- From this depth on the visit refuses nothing that the depth bound leaves room for. -/
def Visit.Calm (visit : Visit) (s : Subject) (least : Nat) : Prop :=
  ∀ e pos next depth, e.Solid → least ≤ depth → depth + e.growth s.bytes.length ≤ maxDepth →
    pos ≤ s.bytes.length →
    Continue.Calm next s pos (depth + 1) (depth + e.growth s.bytes.length) → ∀ st,
      Nsh.Regexes.Calm st (visit e pos next depth st).2

/-- It is asked for less: fewer depths and positions. -/
theorem Continue.Calm.narrow {i there here : Nat} (h : Continue.Calm next s pos from' limit)
    (hpos : pos ≤ i) (hfrom : from' ≤ there) (hlimit : here ≤ limit) :
    Continue.Calm next s i there here :=
  fun depth st j hthere hhere hj =>
    h depth st j (le_trans hfrom hthere) (le_trans hhere hlimit) (le_trans hpos hj)

theorem matchSequence_calm (hv : visit.Calm s least) (parts : List Expr)
    (hsolid : ∀ e ∈ parts, e.Solid) (hleast : least ≤ depth)
    (hroom : depth + growthSum s.bytes.length parts ≤ maxDepth) (hpos : pos ≤ s.bytes.length)
    (hn : Continue.Calm next s pos depth (depth + growthSum s.bytes.length parts)) :
    Calm st (matchSequence visit parts pos next depth st).2 := by
  induction parts generalizing pos depth st with
  | nil => exact hn depth st pos (le_refl _) (le_refl _) (le_refl _) hpos
  | cons head tail ih =>
    rw [growthSum] at hroom hn
    apply hv head pos _ depth (hsolid head List.mem_cons_self) hleast (by omega) hpos
    intro deeper st j hdeeper hlimit hj hend
    exact ih (fun e he => hsolid e (List.mem_cons_of_mem head he)) (by omega) (by omega) hend
      (hn.narrow hj (by omega) (by omega))

theorem matchBranches_calm (hv : visit.Calm s least) (branches : List Expr)
    (hsolid : ∀ e ∈ branches, e.Solid) (hleast : least ≤ depth)
    (hroom : depth + growthMax s.bytes.length branches ≤ maxDepth) (hpos : pos ≤ s.bytes.length)
    (hn : Continue.Calm next s pos depth (depth + growthMax s.bytes.length branches)) :
    Calm st (matchBranches visit branches pos next depth st).2 := by
  induction branches generalizing st with
  | nil => exact Calm.refl st
  | cons branch branches ih =>
    rw [growthMax] at hroom hn
    have hbranch :=
      hv branch pos next depth (hsolid branch List.mem_cons_self) hleast (by omega) hpos
      (hn.narrow (le_refl pos) (Nat.le_succ depth) (by omega)) st
    rw [matchBranches_cons]
    split
    · exact hbranch
    · exact hbranch.trans (ih (fun e he => hsolid e (List.mem_cons_of_mem branch he)) (by omega)
        (hn.narrow (le_refl pos) (le_refl depth) (by omega)))

theorem matchGroup_calm (hv : visit.Calm s least) (index : Nat) (body : Expr) (hsolid : body.Solid)
    (hleast : least ≤ depth) (hroom : depth + body.growth s.bytes.length ≤ maxDepth)
    (hpos : pos ≤ s.bytes.length)
    (hn : Continue.Calm next s pos depth (depth + body.growth s.bytes.length)) :
    Calm st (matchGroup visit index body pos next depth st).2 := by
  have hbody : Calm st (visit body pos (closeGroup index pos next) depth st).2 := by
    apply hv body pos _ depth hsolid hleast hroom hpos
    intro deeper st j hdeeper hlimit hj hend
    have hnext := (calm_setGroup st index (some (pos, j))).trans
      (hn deeper (st.setGroup index (some (pos, j))) j (by omega) hlimit hj hend)
    rw [closeGroup_eq]
    split
    · exact hnext
    · exact hnext.setGroup index _
  rw [matchGroup_eq]
  simp only
  split
  · exact hbody
  · exact hbody.setGroup index _

theorem tryEnds_calm (ends : List Nat) (hends : ∀ j ∈ ends, pos ≤ j ∧ j ≤ s.bytes.length)
    (hn : Continue.Calm next s pos depth depth) : Calm st (tryEnds next ends depth st).2 := by
  induction ends generalizing st with
  | nil => exact Calm.refl st
  | cons end' ends ih =>
    obtain ⟨hle, hend⟩ := hends end' List.mem_cons_self
    have hnext := hn depth st end' (le_refl depth) (le_refl depth) hle hend
    rw [tryEnds_cons]
    split
    · exact hnext
    · exact hnext.trans (ih fun j hj => hends j (List.mem_cons_of_mem end' hj))

theorem entries_owed {min : Nat} {max : Option Nat} {count left left' : Nat}
    (hmost : Within max min) (howed : count < min) (hleft : left' ≤ left) :
    entries min max (count + 1) left' + 1 ≤ entries min max count left := by
  cases max with
  | none =>
    simp only [entries]
    omega
  | some max =>
    have := within_some.mp hmost
    simp only [entries]
    omega

theorem entries_move {min : Nat} {max : Option Nat} {count left left' : Nat} (hpaid : min ≤ count)
    (hallows : allows max count = true) (hleft : left' < left) :
    entries min max (count + 1) left' + 1 ≤ entries min max count left := by
  cases max with
  | none =>
    simp only [entries]
    omega
  | some max =>
    have := within_some.mp (allows_iff.mp hallows)
    simp only [entries]
    omega

theorem entries_pos {min : Nat} {max : Option Nat} {count left : Nat}
    (hallows : allows max count = true) : 1 ≤ entries min max count left := by
  cases max with
  | none =>
    simp only [entries]
    omega
  | some max =>
    have := within_some.mp (allows_iff.mp hallows)
    simp only [entries]
    omega

theorem matchRepeat_calm (hv : visit.Calm s least) (body : Expr) (hsolid : body.Solid) (min : Nat)
    (max : Option Nat) (hmost : Within max min) (rounds count : Nat)
    (hrounds : maxDepth < rounds + depth) (hleast : least ≤ depth)
    (hroom : depth + entries min max count (s.bytes.length - pos) * body.growth s.bytes.length ≤
      maxDepth) (hpos : pos ≤ s.bytes.length)
    (hn : Continue.Calm next s pos depth
      (depth + entries min max count (s.bytes.length - pos) * body.growth s.bytes.length)) :
    Calm st (matchRepeat visit body min max rounds count pos next depth st).2 := by
  induction rounds generalizing count pos depth st with
  | zero => omega
  | succ rounds ih =>
    have again : ∀ (deeper j : Nat) (st : State), depth + 1 ≤ deeper →
        deeper ≤ depth + body.growth s.bytes.length → pos ≤ j → j ≤ s.bytes.length →
        entries min max (count + 1) (s.bytes.length - j) + 1 ≤
          entries min max count (s.bytes.length - pos) →
        Calm st (matchRepeat visit body min max rounds (count + 1) j next deeper st).2 := by
      intro deeper j st hdeeper hlimit hj hend hentries
      have hmul := Nat.mul_le_mul_right (body.growth s.bytes.length) hentries
      rw [Nat.succ_mul] at hmul
      exact ih (count + 1) (by omega) (by omega) (by omega) hend
        (hn.narrow hj (by omega) (by omega))
    have one : 1 ≤ entries min max count (s.bytes.length - pos) →
        depth + body.growth s.bytes.length ≤ maxDepth := by
      intro hentries
      have hmul := Nat.mul_le_mul_right (body.growth s.bytes.length) hentries
      rw [Nat.one_mul] at hmul
      omega
    rw [matchRepeat_succ]
    split
    · next howed =>
      have hentries := entries_owed hmost howed (le_refl (s.bytes.length - pos))
      apply hv body pos _ depth hsolid hleast (one (by omega)) hpos
      intro deeper st j hdeeper hlimit hj hend
      exact again deeper j st hdeeper hlimit hj hend (entries_owed hmost howed (by omega))
    · next hpaid =>
      have honce : Calm st (repeatOnce visit body min max rounds count pos next depth st).2 := by
        rw [repeatOnce]
        split
        · next hallows =>
          apply hv body pos _ depth hsolid hleast (one (entries_pos hallows)) hpos
          intro deeper st j hdeeper hlimit hj hend
          rw [moveAgain]
          split
          · exact Calm.refl st
          · next hne =>
            exact again deeper j st hdeeper hlimit hj hend
              (entries_move (Nat.le_of_not_lt hpaid) hallows (by omega))
        · exact Calm.refl st
      split
      · exact honce
      · exact honce.trans (hn depth _ pos (le_refl _) (Nat.le_add_right _ _) (le_refl _) hpos)

theorem entries_mono {min : Nat} {max : Option Nat} {count left left' : Nat} (h : left ≤ left') :
    entries min max count left ≤ entries min max count left' := by
  cases max with
  | none =>
    simp only [entries]
    omega
  | some max =>
    simp only [entries]
    omega

theorem explore_calm (hv : visit.Calm s least) (rounds : Nat) (e : Expr) (hsolid : e.Solid)
    (hrounds : maxDepth < rounds + (depth + 1)) (hleast : least ≤ depth + 1)
    (hroom : depth + e.growth s.bytes.length ≤ maxDepth) (hpos : pos ≤ s.bytes.length)
    (hn : Continue.Calm next s pos (depth + 1) (depth + e.growth s.bytes.length)) :
    Calm st (explore s visit rounds e pos next (depth + 1) st).2 := by
  have hand : ∀ end' : Option Nat, e.growth s.bytes.length = 1 →
      (∀ j, end' = some j → e.Spans s pos j) →
      Calm st (handOn end' next (depth + 1) st).2 := by
    intro end' hgrowth hspan
    cases end' with
    | none => exact Calm.refl st
    | some j =>
      have hj := hspan j rfl
      exact hn (depth + 1) st j (le_refl _) (by omega) hj.le (hj.le_length hpos)
  have here : e.growth s.bytes.length = 1 → Calm st (next (depth + 1) st pos).2 := by
    intro hgrowth
    exact hn (depth + 1) st pos (le_refl _) (by omega) (le_refl _) hpos
  cases e with
  | empty => exact here rfl
  | literal bytes =>
    apply hand _ rfl
    intro j hj
    obtain ⟨hat, hj⟩ := Option.ite_none_right_eq_some.mp hj
    exact ⟨hat, (Option.some.inj hj).symm⟩
  | anyCharacter => exact hand _ rfl fun j hj => (single_eq_some rfl hsolid).mp hj
  | bracket b => exact hand _ rfl fun j hj => (single_eq_some rfl hsolid).mp hj
  | start =>
    rw [explore]
    split
    · exact here rfl
    · exact Calm.refl st
  | finish =>
    rw [explore]
    split
    · exact here rfl
    · exact Calm.refl st
  | sequence parts =>
    rw [Expr.growth] at hroom hn
    exact matchSequence_calm hv parts
      (fun e he => hsolid.mono (List.subset_cons_of_subset _ (within_subset he))) hleast (by omega)
      hpos (hn.narrow (le_refl pos) (le_refl _) (by omega))
  | alternation branches =>
    rw [Expr.growth] at hroom hn
    exact matchBranches_calm hv branches
      (fun e he => hsolid.mono (List.subset_cons_of_subset _ (within_subset he))) hleast (by omega)
      hpos (hn.narrow (le_refl pos) (le_refl _) (by omega))
  | repeated body min max =>
    have hbody : body.Solid := hsolid.mono (List.subset_cons_of_subset _ (List.Subset.refl _))
    rw [Expr.growth] at hroom hn
    rw [explore]
    split
    · next hsingle =>
      rw [if_pos hsingle] at hn
      rw [repeatSingle_eq]
      have hends : ∀ j ∈ ((pos :: laterOffsets s body max (s.bytes.length - pos) 0 pos).drop
          min).reverse, pos ≤ j ∧ j ≤ s.bytes.length := by
        intro j hj
        have hspan := (mem_offsets hsingle hbody).mp hj
        exact ⟨hspan.le, hspan.le_length hpos⟩
      exact tryEnds_calm _ hends hn
    · next hmany =>
      rw [if_neg hmany] at hroom hn
      have hentries := Nat.mul_le_mul_right (body.growth s.bytes.length)
        (@entries_mono min max 0 _ _ (Nat.sub_le s.bytes.length pos))
      apply matchRepeat_calm hv body hbody min max
        (hsolid.repeated body min max List.mem_cons_self) rounds 0 hrounds hleast (by omega) hpos
      exact hn.narrow (le_refl pos) (le_refl _) (by omega)
  | group index body =>
    rw [Expr.growth] at hroom hn
    exact matchGroup_calm hv index body
      (hsolid.mono (List.subset_cons_of_subset _ (List.Subset.refl _))) hleast (by omega) hpos
      (hn.narrow (le_refl pos) (le_refl _) (by omega))

theorem growth_pos (n : Nat) (e : Expr) : 0 < e.growth n := by
  cases e with
  | repeated body min max =>
    rw [Expr.growth]
    split
    · exact Nat.one_pos
    · exact Nat.succ_pos _
  | empty => exact Nat.one_pos
  | literal bytes => exact Nat.one_pos
  | anyCharacter => exact Nat.one_pos
  | bracket b => exact Nat.one_pos
  | start => exact Nat.one_pos
  | finish => exact Nat.one_pos
  | sequence parts => exact Nat.succ_pos _
  | alternation branches => exact Nat.succ_pos _
  | group index body => exact Nat.succ_pos _

theorem matchesExpr_calm (s : Subject) (fuel : Nat) (hfuel : maxDepth ≤ fuel + least) :
    Visit.Calm (matchesExpr s fuel) s least := by
  induction fuel generalizing least with
  | zero =>
    intro e pos next depth _ hleast hroom
    have := growth_pos s.bytes.length e
    omega
  | succ fuel ih =>
    intro e pos next depth hsolid hleast hroom hpos hn st
    have hgrowth := growth_pos s.bytes.length e
    rw [matchesExpr_succ]
    split
    · next hstop =>
      rw [Bool.or_eq_true, decide_eq_true_eq, decide_eq_true_eq] at hstop
      refine ⟨Nat.le_succ _, ?_⟩
      intro hsteps
      have hsteps : st.charge.steps ≤ stepBudget := hsteps
      omega
    · have hinner : Visit.Calm (matchesExpr s fuel) s (depth + 1) := ih (by omega)
      exact (calm_charge st).trans (explore_calm hinner (fuel + 1) e hsolid (by omega) (le_refl _)
        hroom hpos hn)

/-! ### The search -/

theorem keepLongest_calm (start : Nat) (st : State) (depth j : Nat) :
    Calm st (keepLongest start depth st j).2 := by
  show Calm st (if _ then _ else _)
  split
  · exact ⟨le_refl _, fun _ h => h⟩
  · exact Calm.refl st

namespace Regex

variable {regex : Regex} {start steps : Nat} {refused : Bool}

theorem matchAt_calm (hsolid : regex.root.Solid)
    (hroom : regex.root.growth s.bytes.length ≤ maxDepth) (hstart : start ≤ s.bytes.length) :
    Calm (regex.attempt steps refused) (regex.matchAt s start steps refused) :=
  @matchesExpr_calm 0 s maxDepth (Nat.le_add_right _ _) regex.root start _ 0 hsolid (le_refl 0)
    (by omega) hstart (fun _ st j _ _ _ _ => keepLongest_calm start st _ j) _

theorem searchFrom_calm (hsolid : regex.root.Solid)
    (hroom : regex.root.growth s.bytes.length ≤ maxDepth) (fuel : Nat)
    (hstart : start ≤ s.bytes.length) :
    Calm (regex.attempt steps refused) (regex.searchFrom s fuel start steps refused) := by
  induction fuel generalizing start steps refused with
  | zero => exact matchAt_calm hsolid hroom hstart
  | succ fuel ih =>
    have hfirst : Calm (regex.attempt steps refused) (regex.matchAt s start steps refused) :=
      matchAt_calm hsolid hroom hstart
    rw [searchFrom]
    split
    · exact hfirst
    · have hrest : Calm (regex.attempt (regex.matchAt s start steps refused).steps
          (regex.matchAt s start steps refused).refused) _ :=
        ih (s.characters.endAt_le hstart)
      exact hfirst.trans ⟨hrest.steps, hrest.refused⟩

/-- Within the budget, or turned away. -/
def Counted (st : State) : Prop := st.steps ≤ stepBudget ∨ st.refused = true

theorem counted_lasting : Lasting Counted where
  charge _ hsteps _ := Or.inl hsteps
  turnAway _ _ := Or.inr rfl
  setGroup _ _ _ h := h
  refuse _ _ := Or.inr rfl

theorem keepLongest_counted (start : Nat) : Continue.Keeps (keepLongest start) Counted := by
  intro depth st end' h
  show Counted (if _ then _ else _)
  split
  · exact h
  · exact h

theorem searchFrom_counted (fuel : Nat) (h : Counted (regex.attempt steps refused)) :
    Counted (regex.searchFrom s fuel start steps refused) := by
  induction fuel generalizing start steps refused with
  | zero =>
    exact matchesExpr_keeps counted_lasting s maxDepth regex.root start _
      (keepLongest_counted start)
      0 _ h
  | succ fuel ih =>
    have hfirst : Counted (regex.matchAt s start steps refused) :=
      matchesExpr_keeps counted_lasting s maxDepth regex.root start _ (keepLongest_counted start)
        0 _ h
    rw [searchFrom]
    split
    · exact hfirst
    · exact ih hfirst

/-- **Where the expression's growth leaves room, only the step budget cuts a search short.** -/
theorem unbounded_iff {operand : Bytes} {quoted : List Bool} {ignoreCase : Bool}
    (hcompile : compile operand quoted ignoreCase = .ok regex) (locale : Locale) (bytes : Bytes)
    (hroom : regex.root.growth bytes.length ≤ maxDepth) :
    regex.Unbounded locale bytes ↔ (regex.run locale bytes).steps ≤ stepBudget := by
  have hcounted : Counted (regex.run locale bytes) :=
    searchFrom_counted bytes.length (Or.inl (Nat.zero_le _))
  have hcalm : Calm (regex.attempt 0 false) (regex.run locale bytes) :=
    searchFrom_calm (s := regex.subject locale bytes) (compile_solid hcompile) hroom bytes.length
      (Nat.zero_le _)
  constructor
  · intro hfree
    rcases hcounted with hsteps | hrefused
    · exact hsteps
    · rw [Unbounded, hrefused] at hfree
      cases hfree
  · intro hsteps
    exact hcalm.refused hsteps rfl

theorem unbounded_iff_letters :
    ∃ regex, compile (text "(a|ab)(c|bcd)*") (List.replicate 14 false) false = .ok regex ∧
      (regex.Unbounded Locale.c (text "xabcd") ↔
        (regex.run Locale.c (text "xabcd")).steps ≤ stepBudget) :=
  ⟨_, rfl, unbounded_iff
    (show compile (text "(a|ab)(c|bcd)*") (List.replicate 14 false) false = .ok _ from rfl)
    Locale.c (text "xabcd") (by decide +kernel)⟩

end Regex

end Nsh.Regexes
