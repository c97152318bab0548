import Nsh.Arithmetic.Walk

/-!
# Walks without a bound

A text of so many tokens opens so many activations at most, so a walk that is
allowed those answers as the parser does.  `settled` is that walk: it satisfies
the equations of the rules with no bound in them (`settled_eq_body`), and an
evaluation is the walk of its whole text (`evaluateBody_eq_settled`).
-/

namespace Nsh.Arithmetic

open Variables

variable {W : Type}

/-- A call of a rule, with all the activations its tokens can open. -/
def settled (p : Setting W) (call : Call) : Walk W Int64 := fun s =>
  walk p (8 * s.rest.length + 8) call s

theorem walk_eq_settled (p : Setting W) {n : Nat} {call : Call} {s : Parser W}
    (hn : 8 * s.rest.length + 8 ≤ n) : walk p n call s = settled p call s := by
  have horder := order_le call.rule
  exact walk_stable p (by omega) (by omega)

/-- Two families of walks that agree on at most `k` tokens, as the parser's own
    walks do. -/
def Agree (k : Nat) (rules rules' : Call → Walk W Int64) : Prop :=
  ∀ j ≤ k, ∀ call, Bounded (fun _ => 1) (fun _ => True) (· ≤ ·) j (rules call) (rules' call)

theorem agree_settled (p : Setting W) {n k : Nat} (hn : 8 * k + 8 ≤ n) :
    Agree k (walk p n) (settled p) ∧ Agree k (settled p) (walk p n) := by
  have L := boundedLeaves pointwise_le loops_one (fun _ => True) false 0 p
    (fun _ _ _ _ _ _ => le_refl _) (fun _ _ _ _ _ => le_refl _)
  have hsuffix : ∀ j ≤ k, ∀ call, Bounded (fun _ => 1) (fun _ => True) (· ≤ ·) j
      (walk p n call) (walk p n call) := by
    intro j hj call
    have horder := order_le call.rule
    exact walk_bounded L n n j call nofun (Nat.zero_le _) (by omega) (by omega)
  have heq : ∀ j ≤ k, ∀ call (s : Parser W), size (fun _ => 1) s.rest ≤ j →
      walk p n call s = settled p call s := by
    intro j hj call s hs
    rw [size_one] at hs
    exact walk_eq_settled p (by omega)
  constructor
  · intro j hj call s hs htok
    exact ⟨le_of_eq (heq j hj call s hs), (hsuffix j hj call s hs htok).2⟩
  · intro j hj call s hs htok
    rw [← heq j hj call s hs]
    exact ⟨le_refl _, (hsuffix j hj call s hs htok).2⟩

theorem Agree.body_le {p : Setting W} {rules rules' : Call → Walk W Int64} {call : Call}
    {s : Parser W} (h : Agree s.rest.length rules rules') :
    body p rules rules call s ≤ body p rules' rules' call s := by
  have L := boundedLeaves pointwise_le loops_one (fun _ => True) false 0 p
    (fun _ _ _ _ _ _ => le_refl _) (fun _ _ _ _ _ => le_refl _)
  obtain ⟨rule, e, depth⟩ := call
  have hbody : Bounded (fun _ => 1) (fun _ => True) (· ≤ ·) s.rest.length
      (body p rules rules ⟨rule, e, depth⟩) (body p rules' rules' ⟨rule, e, depth⟩) := by
    refine body_related (k := s.rest.length) L ⟨rfl, nofun⟩ (Nat.zero_le depth) ?_ ?_ ?_
    · rintro rule' e _ depth' ⟨rfl, _⟩ _ _ _
      exact h _ (le_refl _) ⟨rule', e, depth'⟩
    · rintro j tok hj rule' e _ depth' ⟨rfl, _⟩ _ _
      have hj' : j + 1 ≤ s.rest.length := hj
      exact h j (by omega) ⟨rule', e, depth'⟩
    · rintro j tok _ hj rule' e _ ⟨rfl, _⟩
      have hj' : j + 1 ≤ s.rest.length := hj
      exact h j (by omega) ⟨rule', e, depth⟩
  exact (hbody s (le_of_eq (size_one _)) fun _ _ => trivial).1

/-- **The rules of the parser, with no bound on their activations.** -/
theorem settled_eq_body (p : Setting W) (call : Call) :
    settled p call = body p (settled p) (settled p) call := by
  funext s
  have h := agree_settled p (k := s.rest.length) (le_refl _)
  rw [← walk_eq_settled p (Nat.le_succ (8 * s.rest.length + 8))]
  exact le_antisymm h.1.body_le h.2.body_le

theorem whole_settled (p : Setting W) (depth : Nat) (s : Parser W) :
    whole p (walk p (8 * s.rest.length + 8)) depth s = whole p (settled p) depth s := by
  have h := agree_settled p (k := s.rest.length) (le_refl _)
  have hle : ∀ {rules rules' : Call → Walk W Int64}, Agree s.rest.length rules rules' →
      whole p rules depth s ≤ whole p rules' depth s := by
    intro rules rules' hagree
    have hcomma := comma_bounded pointwise_le loops_one fun j hj =>
      hagree j hj ⟨.assignment, true, depth⟩
    exact pointwise_le.bind (hcomma s (le_of_eq (size_one _)) fun _ _ => trivial).1
      fun _ _ _ => le_refl _
  exact le_antisymm (hle h.1) (hle h.2)

/-- **An evaluation is the parser's walk over its whole text.** -/
theorem evaluateBody_eq_settled (host : Host W) :
    evaluateBody host = evaluateUnder host settled := by
  funext nested restart job shell
  unfold evaluateBody evaluateWithin evaluateUnder
  simp only
  split
  · rfl
  · unfold Run.within
    simp only [nestingBound]
    rw [whole_settled _ _ ⟨shell, shellTokens shell job.input⟩]

/-! ### The loops -/

theorem bind_congr {α β : Type} {m m' : Walk W α} {f f' : α → Walk W β} {s : Parser W}
    (hm : m s = m' s) (hf : ∀ a t, m s = .done a t → f a t = f' a t) :
    (m >>= f) s = (m' >>= f') s := by
  rw [Run.bind_apply, Run.bind_apply, ← hm]
  cases h : m s with
  | done a t => exact hf a t h
  | failed e t => rfl
  | unfinished => rfl

/-- No call gives tokens back. -/
def Shrinks {α : Type} (m : Walk W α) : Prop :=
  ∀ s v t, m s = .done v t → t.rest.length ≤ s.rest.length

theorem Bounded.shrinks {m m' : Walk W Int64}
    (h : ∀ k, Bounded (fun _ => 1) (fun _ => True) (· ≤ ·) k m m') : Shrinks m := by
  intro s v t ht
  exact ((h s.rest.length s (le_of_eq (size_one _)) fun _ _ => trivial).2 v t ht).length_le

theorem settled_bounded (p : Setting W) (k : Nat) (call : Call) :
    Bounded (fun _ => 1) (fun _ => True) (· ≤ ·) k (settled p call) (settled p call) := by
  intro s hs htok
  have h := (agree_settled p (k := k) (le_refl _)).2 k (le_refl k) call s hs htok
  exact ⟨le_refl _, h.2⟩

theorem settled_shrinks (p : Setting W) (call : Call) : Shrinks (settled p call) :=
  Bounded.shrinks fun k => settled_bounded p k call

theorem binaryRhsFrom_shrinks (p : Setting W) {e : Bool} {depth turns minPower : Nat}
    {left : Int64} {s t : Parser W} {v : Int64} (hturns : s.rest.length < turns)
    (h : binaryRhsFrom p (settled p) e depth turns left minPower s = .done v t) :
    t.rest.length ≤ s.rest.length := by
  have L := boundedLeaves pointwise_le loops_one (fun _ => True) false 0 p
    (fun _ _ _ _ _ _ => le_refl _) (fun _ _ _ _ _ => le_refl _)
  have hbounded := binaryRhsFrom_related (k := s.rest.length) (e := e) L
    ⟨rfl, nofun⟩ turns (Or.inl ⟨fun _ => rfl, hturns⟩)
    (fun {j tok} _ => settled_bounded p j ⟨.power, e, depth⟩) minPower (rfl : left = left)
  exact ((hbounded s (le_of_eq (size_one _)) fun _ _ => trivial).2 v t h).length_le

/-- The climb has turns enough: each takes an operator. -/
theorem binaryRhsFrom_turns (p : Setting W) (e : Bool) (depth : Nat) :
    ∀ (turns turns' : Nat) (left : Int64) (minPower : Nat) (s : Parser W),
      s.rest.length < turns → s.rest.length < turns' →
      binaryRhsFrom p (settled p) e depth turns left minPower s =
        binaryRhsFrom p (settled p) e depth turns' left minPower s := by
  intro turns
  induction turns with
  | zero => intro turns' left minPower s h; exact absurd h (Nat.not_lt_zero _)
  | succ turns ih =>
    intro turns' left minPower s hturns hturns'
    obtain ⟨turns', rfl⟩ : ∃ i, turns' = i + 1 := ⟨turns' - 1, by omega⟩
    unfold binaryRhsFrom accept
    cases hpick : climbing minPower s.current with
    | none => rfl
    | some op =>
      simp only
      have hrest := rest_of_pick rfl hpick
      have hlength : s.rest.length = (s.rest.drop 1).length + 1 := by
        conv_lhs => rw [hrest]
        rfl
      have hcall := settled_shrinks p ⟨.power, e, depth⟩
      refine bind_congr rfl fun first t ht => ?_
      have hle : t.rest.length ≤ (s.rest.drop 1).length := hcall _ _ _ ht
      have hright : ∀ left minPower (u : Parser W), u.rest.length ≤ t.rest.length →
          binaryRhsFrom p (settled p) e depth turns left minPower u =
            binaryRhsFrom p (settled p) e depth turns' left minPower u :=
        fun left minPower u hu => ih turns' left minPower u (by omega) (by omega)
      refine bind_congr ?_ fun right u hu => ?_
      · unfold lookahead
        split
        · exact hright _ _ t (le_refl _)
        · rfl
      · have hle' : u.rest.length ≤ t.rest.length := by
          unfold lookahead at hu
          split at hu
          · exact binaryRhsFrom_shrinks p (by omega) hu
          · cases hu; exact le_refl _
        refine bind_congr rfl fun left' w hw => ?_
        have hkeep : w.rest = u.rest := by
          cases e with
          | false => cases hw; rfl
          | true => exact keeps_apply p op left right u left' w hw
        exact hright _ _ w (by rw [hkeep]; exact hle')

/-- The climb stops in front of a token that is no operator it takes. -/
theorem binaryRhs_stop (p : Setting W) {e : Bool} {depth minPower : Nat} {left : Int64}
    {s : Parser W} (h : climbing minPower s.current = none) :
    binaryRhs p (settled p) e depth left minPower s = .done left s :=
  accept_none h _ _

/-- The climb takes an operator: its right operand is a climb of its own, over
    the operators that bind tighter. -/
theorem binaryRhs_step (p : Setting W) {e : Bool} {depth minPower : Nat} {left : Int64}
    {shell : Shell W} {op : BinaryOperator} {rest : List Token} (h : minPower ≤ op.bindingPower) :
    binaryRhs p (settled p) e depth left minPower ⟨shell, .binary op :: rest⟩ =
      (settled p ⟨.power, e, depth⟩ >>= fun first =>
        binaryRhs p (settled p) e depth first (op.bindingPower + 1) >>= fun right =>
          applied p e op left right >>= fun left =>
            binaryRhs p (settled p) e depth left minPower) ⟨shell, rest⟩ := by
  have hpick : climbing minPower (.binary op) = some op := if_neg (Nat.not_lt.mpr h)
  have hloop : ∀ left minPower (u : Parser W), u.rest.length ≤ rest.length →
      binaryRhsFrom p (settled p) e depth (rest.length + 1) left minPower u =
        binaryRhs p (settled p) e depth left minPower u :=
    fun left minPower u hu =>
      binaryRhsFrom_turns p e depth _ _ left minPower u (by omega) (Nat.lt_succ_self _)
  have hshrinks := settled_shrinks p ⟨.power, e, depth⟩
  -- The right operand stops at once where no tighter operator follows it.
  have hright : ∀ first (t : Parser W), t.rest.length ≤ rest.length →
      lookahead (tighter op.bindingPower)
          (binaryRhsFrom p (settled p) e depth (rest.length + 1) first (op.bindingPower + 1))
          (pure first) t =
        binaryRhs p (settled p) e depth first (op.bindingPower + 1) t := by
    intro first t ht
    unfold lookahead
    split
    · exact hloop _ _ t ht
    · next hloose =>
      refine (binaryRhs_stop p ?_).symm
      revert hloose
      cases t.current with
      | binary op' =>
        intro hloose
        have hle : ¬ op'.bindingPower > op.bindingPower := fun h => hloose (decide_eq_true h)
        exact if_pos (by omega)
      | _ => intro _; rfl
  refine (accept_some (s := ⟨shell, .binary op :: rest⟩) hpick _ _).trans ?_
  refine bind_congr rfl fun first t ht => ?_
  have hle : t.rest.length ≤ rest.length := hshrinks _ _ _ ht
  refine bind_congr (hright first t hle) fun right u hu => ?_
  have hu' := (hright first t hle).symm.trans hu
  have hle' : u.rest.length ≤ rest.length :=
    le_trans (binaryRhsFrom_shrinks p (Nat.lt_succ_self _) hu') hle
  refine bind_congr rfl fun left' w hw => hloop _ _ w ?_
  have hkeep : w.rest = u.rest := by
    cases e with
    | false => cases hw; rfl
    | true => exact keeps_apply p op left right u left' w hw
  rw [hkeep]
  exact hle'

/-- The comma list has turns enough: each takes a comma. -/
theorem commaFrom_turns (p : Setting W) (e : Bool) (depth : Nat) :
    ∀ (turns turns' : Nat) (value : Int64) (s : Parser W),
      s.rest.length < turns → s.rest.length < turns' →
      commaFrom (settled p) e depth turns value s =
        commaFrom (settled p) e depth turns' value s := by
  intro turns
  induction turns with
  | zero => intro turns' value s h; exact absurd h (Nat.not_lt_zero _)
  | succ turns ih =>
    intro turns' value s hturns hturns'
    obtain ⟨turns', rfl⟩ : ∃ i, turns' = i + 1 := ⟨turns' - 1, by omega⟩
    by_cases hcomma : s.current = .comma
    · obtain ⟨rest, hrest⟩ : ∃ rest, s.rest = .comma :: rest := by
        let pick : Token → Option Unit := fun t => if t = .comma then some () else none
        have hpick : pick s.current = some () := if_pos hcomma
        have h := rest_of_pick rfl hpick
        exact ⟨_, h.trans (by rw [hcomma])⟩
      obtain ⟨shell, list⟩ := s
      obtain rfl : list = .comma :: rest := hrest
      have hlength : ((Token.comma :: rest).length) = rest.length + 1 := rfl
      simp only at hturns hturns'
      unfold commaFrom
      rw [acceptToken_cons, acceptToken_cons]
      refine bind_congr rfl fun v t ht => ?_
      have hle : t.rest.length ≤ rest.length := settled_shrinks p _ _ _ _ ht
      exact ih turns' v t (by omega) (by omega)
    · unfold commaFrom
      rw [acceptToken_of_ne hcomma, acceptToken_of_ne hcomma]

/-- The further sides of a comma list. -/
def commaRest (p : Setting W) (e : Bool) (depth : Nat) (value : Int64) : Walk W Int64 :=
  inTurns fun turns => commaFrom (settled p) e depth turns value

theorem commaRest_stop (p : Setting W) {e : Bool} {depth : Nat} {value : Int64} {s : Parser W}
    (h : s.current ≠ .comma) : commaRest p e depth value s = .done value s :=
  acceptToken_of_ne h _ _

theorem commaRest_step (p : Setting W) {e : Bool} {depth : Nat} {value : Int64}
    {shell : Shell W} {rest : List Token} :
    commaRest p e depth value ⟨shell, .comma :: rest⟩ =
      (settled p ⟨.assignment, e, depth⟩ >>= commaRest p e depth) ⟨shell, rest⟩ := by
  have hturn : commaRest p e depth value ⟨shell, .comma :: rest⟩ =
      commaFrom (settled p) e depth (rest.length + 1 + 1) value ⟨shell, .comma :: rest⟩ := rfl
  rw [hturn, commaFrom, acceptToken_cons]
  refine bind_congr rfl fun v t ht => ?_
  have hle : t.rest.length ≤ rest.length := settled_shrinks p _ _ _ _ ht
  exact commaFrom_turns p e depth _ _ v t (Nat.lt_succ_of_le hle) (Nat.lt_succ_self _)

/-! ### A primary that stands alone -/

/-- A rule that goes no further behind a call leaves the call's outcome. -/
theorem bind_stop {m : Walk W Int64} {f : Int64 → Walk W Int64} {s : Parser W}
    (h : ∀ v t, m s = .done v t → f v t = .done v t) : (m >>= f) s = m s := by
  rw [Run.bind_apply]
  cases hm : m s with
  | done v t => exact h v t hm
  | failed e t => rfl
  | unfinished => rfl

/-- Every rule comes to the end of the input behind a primary that does, so the
    whole text has the primary's outcome. -/
theorem whole_primary (p : Setting W) {depth : Nat} {s : Parser W}
    (hassign : ∀ name op rest, s.rest ≠ .name name :: .assign op :: rest)
    (hend : ∀ v t, settled p ⟨.primary, true, depth⟩ s = .done v t → t.rest = [.eof]) :
    whole p (settled p) depth s = settled p ⟨.primary, true, depth⟩ s := by
  have hcurrent : ∀ v t, settled p ⟨.primary, true, depth⟩ s = .done v t → t.current = .eof := by
    intro v t ht
    unfold Parser.current
    rw [hend v t ht]
    rfl
  have hne : ∀ token, token ≠ .eof → ∀ v t,
      settled p ⟨.primary, true, depth⟩ s = .done v t → t.current ≠ token := by
    intro token htoken v t ht hsame
    rw [hcurrent v t ht] at hsame
    exact htoken hsame.symm
  have hpower : settled p ⟨.power, true, depth⟩ s = settled p ⟨.primary, true, depth⟩ s := by
    rw [settled_eq_body p ⟨.power, true, depth⟩]
    exact bind_stop fun v t ht => acceptToken_of_ne (hne .power (by decide) v t ht) _ _
  have hbinary : binary p (settled p) true depth s = settled p ⟨.primary, true, depth⟩ s := by
    rw [← hpower]
    refine bind_stop fun v t ht => binaryRhs_stop p ?_
    rw [hcurrent v t (hpower ▸ ht)]
    rfl
  have hand : settled p ⟨.logicalAnd, true, depth⟩ s = settled p ⟨.primary, true, depth⟩ s := by
    rw [settled_eq_body p ⟨.logicalAnd, true, depth⟩, ← hbinary]
    exact bind_stop fun v t ht =>
      acceptToken_of_ne (hne .logicalAnd (by decide) v t (hbinary ▸ ht)) _ _
  have hor : settled p ⟨.logicalOr, true, depth⟩ s = settled p ⟨.primary, true, depth⟩ s := by
    rw [settled_eq_body p ⟨.logicalOr, true, depth⟩, ← hand]
    exact bind_stop fun v t ht => acceptToken_of_ne (hne .logicalOr (by decide) v t (hand ▸ ht)) _ _
  have hconditional : settled p ⟨.conditional, true, depth⟩ s =
      settled p ⟨.primary, true, depth⟩ s := by
    rw [settled_eq_body p ⟨.conditional, true, depth⟩, ← hor]
    exact bind_stop fun v t ht => acceptToken_of_ne (hne .question (by decide) v t (hor ▸ ht)) _ _
  have hassignment : settled p ⟨.assignment, true, depth⟩ s =
      settled p ⟨.primary, true, depth⟩ s := by
    rw [settled_eq_body p ⟨.assignment, true, depth⟩, ← hconditional]
    change acceptAssignment _ _ s = _
    unfold acceptAssignment
    split
    · next name op rest hrest => exact absurd hrest (hassign name op rest)
    · rfl
  have hcomma : comma (settled p) true depth s = settled p ⟨.primary, true, depth⟩ s := by
    rw [← hassignment]
    exact bind_stop fun v t ht => commaRest_stop p (hne .comma (by decide) v t (hassignment ▸ ht))
  rw [← hcomma]
  refine bind_stop fun v t ht => ?_
  unfold lookahead
  rw [hcurrent v t (hcomma ▸ ht)]
  rfl

end Nsh.Arithmetic
