import Nsh.Arithmetic.Expression

/-!
# The grammar of the parser

Which tokens spell which tree, by the levels of the parser's rules: `||` and
`&&` take a right operand of their own level, the other binary operators a
tighter one, and the base of `**` is a primary.  A spelling is indexed by how
deep it may nest.  What a tree is printed as spells a tree that is worth the
same (`print_spells`): chains of `||` and `&&` are printed from the left and
read from the right.
-/

namespace Nsh.Arithmetic

/-- Tokens that spell a tree at a level of the grammar, nested at most so deep. -/
inductive Spells : Nat → Nat → List Token → Expression → Prop where
  | literal {d : Nat} (n : Fin (2 ^ 63)) : Spells d 13 [.number (wrap n.val)] (.literal n)
  | group {d : Nat} {ts : List Token} {e : Expression} :
      Spells d 0 ts e → Spells (d + 1) 13 (.lParen :: (ts ++ [.rParen])) e
  | sign {d : Nat} {ts : List Token} {e : Expression} (op : Sign) :
      Spells d 12 ts e → Spells (d + 1) 12 (op.token :: ts) (.sign op e)
  | power {d : Nat} {tb tx : List Token} {b x : Expression} :
      Spells d 13 tb b → Spells d 12 tx x → Spells d 12 (tb ++ .power :: tx) (.power b x)
  | binary {d : Nat} {tl tr : List Token} {l r : Expression} (op : CBinary) :
      Spells d op.level tl l → Spells d (op.level + 1) tr r →
      Spells d op.level (tl ++ .binary op.val :: tr) (.binary op l r)
  | connect {d : Nat} {tl tr : List Token} {l r : Expression} (op : Connective) :
      Spells d (op.level + 1) tl l → Spells d op.level tr r →
      Spells d op.level (tl ++ op.token :: tr) (.connect op l r)
  | conditional {d : Nat} {tc tt tf : List Token} {c t f : Expression} :
      Spells d 2 tc c → Spells d 1 tt t → Spells d 1 tf f →
      Spells d 1 (tc ++ .question :: (tt ++ .colon :: tf)) (.conditional c t f)
  | comma {d : Nat} {tl tr : List Token} {l r : Expression} :
      Spells d 0 tl l → Spells d 1 tr r → Spells d 0 (tl ++ .comma :: tr) (.comma l r)
  | loosen {d l : Nat} {ts : List Token} {e : Expression} : Spells d (l + 1) ts e → Spells d l ts e

namespace Spells

variable {d d' l l' : Nat} {ts : List Token} {e : Expression}

theorem level_le (h : Spells d l ts e) : l ≤ 13 := by
  induction h with
  | binary op _ _ _ _ => exact le_trans op.level_bounds.2 (by decide)
  | connect op _ _ _ _ => cases op <;> decide
  | loosen _ ih => exact Nat.le_of_succ_le ih
  | literal | group | sign | power | conditional | comma => decide

/-- A spelling may be allowed to nest deeper. -/
theorem deeper (h : Spells d l ts e) (hd : d ≤ d') : Spells d' l ts e := by
  induction h generalizing d' with
  | literal n => exact .literal n
  | group _ ih =>
    obtain ⟨d', rfl⟩ : ∃ i, d' = i + 1 := ⟨d' - 1, by omega⟩
    exact .group (ih (by omega))
  | sign op _ ih =>
    obtain ⟨d', rfl⟩ : ∃ i, d' = i + 1 := ⟨d' - 1, by omega⟩
    exact .sign op (ih (by omega))
  | power _ _ ihb ihx => exact .power (ihb hd) (ihx hd)
  | binary op _ _ ihl ihr => exact .binary op (ihl hd) (ihr hd)
  | connect op _ _ ihl ihr => exact .connect op (ihl hd) (ihr hd)
  | conditional _ _ _ ihc iht ihf => exact .conditional (ihc hd) (iht hd) (ihf hd)
  | comma _ _ ihl ihr => exact .comma (ihl hd) (ihr hd)
  | loosen _ ih => exact .loosen (ih hd)

/-- A tight spelling is also a loose one. -/
theorem looser (h : Spells d l ts e) (hl : l' ≤ l) : Spells d l' ts e := by
  induction hl with
  | refl => exact h
  | step _ ih => exact ih h.loosen

/-- An operand is spelled where its level is required. -/
theorem operand {n required level : Nat} (h : Spells n level ts e) (hrequired : required ≤ 13) :
    Spells (operandNesting required level n) required (operandTokens required level ts) e := by
  unfold operandNesting operandTokens
  split
  · exact (group (h.looser (Nat.zero_le _))).looser hrequired
  · exact h.looser (by omega)

end Spells

/-! ### Trees worth the same -/

/-- The same value, and no `**` that the other has not. -/
structure Expression.Same (e e' : Expression) : Prop where
  value : e.value = e'.value
  everyPower : ∀ P : Int64 → Int64 → Prop, e'.EveryPower P → e.EveryPower P

attribute [local simp] Expression.value

namespace Expression.Same

variable {b b' c c' l l' r r' x x' : Expression}

theorem refl (e : Expression) : Same e e := ⟨rfl, fun _ h => h⟩

theorem trans {e e' e'' : Expression} (h : Same e e') (h' : Same e' e'') : Same e e'' :=
  ⟨h.value.trans h'.value, fun P hP => h.everyPower P (h'.everyPower P hP)⟩

theorem sign (op : Sign) (h : Same x x') : Same (.sign op x) (.sign op x') where
  value := by simp [h.value]
  everyPower P hP := h.everyPower P hP

theorem power (hb : Same b b') (hx : Same x x') : Same (.power b x) (.power b' x') where
  value := by simp [hb.value, hx.value]
  everyPower P hP := by
    refine ⟨hb.everyPower P hP.1, hx.everyPower P hP.2.1, ?_⟩
    rw [hb.value, hx.value]
    exact hP.2.2

theorem binary (op : CBinary) (hl : Same l l') (hr : Same r r') :
    Same (.binary op l r) (.binary op l' r') where
  value := by simp [hl.value, hr.value]
  everyPower P hP := ⟨hl.everyPower P hP.1, hr.everyPower P hP.2⟩

theorem connect (op : Connective) (hl : Same l l') (hr : Same r r') :
    Same (.connect op l r) (.connect op l' r') where
  value := by simp [hl.value, hr.value]
  everyPower P hP := ⟨hl.everyPower P hP.1, hr.everyPower P hP.2⟩

theorem conditional (hc : Same c c') (hl : Same l l') (hr : Same r r') :
    Same (.conditional c l r) (.conditional c' l' r') where
  value := by simp [hc.value, hl.value, hr.value]
  everyPower P hP := ⟨hc.everyPower P hP.1, hl.everyPower P hP.2.1, hr.everyPower P hP.2.2⟩

theorem comma (hl : Same l l') (hr : Same r r') : Same (.comma l r) (.comma l' r') where
  value := by simp [hl.value, hr.value]
  everyPower P hP := ⟨hl.everyPower P hP.1, hr.everyPower P hP.2⟩

/-- A connective may be grouped from either side. -/
theorem regroup (op : Connective) (a b c : Expression) :
    Same (.connect op a (.connect op b c)) (.connect op (.connect op a b) c) where
  value := by
    simp only [Expression.value]
    cases a.value with
    | error fault => rfl
    | ok v =>
      simp only [Except.bind, bind]
      cases hv : op.decides v with
      | true =>
        have hflag : op.decides (flag (v != 0)) = true ∧
            flag (flag (v != 0) != 0) = flag (v != 0) := by
          cases op <;> cases hz : (v == 0) <;>
            simp_all [Connective.decides, bne, flag]
        simp only [if_true, hflag]
      | false =>
        simp only [Bool.false_eq_true, if_false]
        cases b.value with
        | error fault => rfl
        | ok w =>
          simp only
          have hflag : op.decides (flag (w != 0)) = op.decides w ∧
              flag (flag (w != 0) != 0) = flag (w != 0) := by
            cases op <;> cases hz : (w == 0) <;>
              simp_all [Connective.decides, bne, flag]
          simp only [hflag.1]
          cases hw : op.decides w with
          | true => simp only [if_true, hflag.2]
          | false =>
            simp only [Bool.false_eq_true, if_false]
            cases c.value with
            | error fault => rfl
            | ok u =>
              simp only
              cases hz : (u == 0) <;> simp_all [bne, flag]
  everyPower P hP := ⟨hP.1.1, hP.1.2, hP.2⟩

end Expression.Same

/-! ### What is printed spells the tree -/

theorem Connective.level_bounds (op : Connective) : 2 ≤ op.level ∧ op.level ≤ 3 := by
  cases op <;> decide

theorem Connective.level_inj {op op' : Connective} (h : op.level = op'.level) : op = op' := by
  cases op <;> cases op' <;> first | rfl | exact absurd h (by decide)

/-- A connective behind a spelling of its own level spells the same as in front
    of it: the chain is read from the right. -/
theorem Spells.connect_left {d : Nat} {tl tr : List Token} {l r : Expression} (op : Connective)
    (hl : Spells d op.level tl l) (hr : Spells d (op.level + 1) tr r) :
    ∃ e, Spells d op.level (tl ++ op.token :: tr) e ∧ e.Same (.connect op l r) := by
  have hbounds := op.level_bounds
  generalize hlevel : op.level = level at hl
  induction hl with
  | loosen h _ =>
    subst hlevel
    exact ⟨_, .connect op h hr.loosen, .refl _⟩
  | @connect d tl' tr' l' r' op' h h' _ ih =>
    obtain rfl := Connective.level_inj hlevel
    obtain ⟨e, he, hsame⟩ := ih hr rfl
    refine ⟨.connect op l' e, ?_, (Expression.Same.connect op (.refl l') hsame).trans
      (.regroup op l' r' r)⟩
    rw [List.append_assoc]
    exact .connect op h he
  | binary op' _ _ =>
    have hbounds' := op'.level_bounds
    omega
  | literal | group | sign | power | conditional | comma => omega

/-- **What a tree is printed as spells a tree that is worth the same.** -/
theorem Expression.print_spells (e : Expression) :
    ∃ e', e'.Same e ∧ Spells (e.nesting false) (e.level false) (e.print false) e' := by
  induction e with
  | literal n => exact ⟨_, .refl _, .literal n⟩
  | sign op operand ih =>
    obtain ⟨e', hsame, h⟩ := ih
    exact ⟨_, .sign op hsame, .sign op (h.operand (by decide))⟩
  | power base exponent ihb ihx =>
    obtain ⟨b, hsameb, hb⟩ := ihb
    obtain ⟨x, hsamex, hx⟩ := ihx
    exact ⟨_, .power hsameb hsamex, .power ((hb.operand (le_refl 13)).deeper (le_max_left _ _))
      ((hx.operand (by decide)).deeper (le_max_right _ _))⟩
  | binary op left right ihl ihr =>
    obtain ⟨l, hsamel, hl⟩ := ihl
    obtain ⟨r, hsamer, hr⟩ := ihr
    have hbounds := op.level_bounds
    exact ⟨_, .binary op hsamel hsamer,
      .binary op ((hl.operand (by omega)).deeper (le_max_left _ _))
        ((hr.operand (by omega)).deeper (le_max_right _ _))⟩
  | connect op left right ihl ihr =>
    obtain ⟨l, hsamel, hl⟩ := ihl
    obtain ⟨r, hsamer, hr⟩ := ihr
    have hbounds := op.level_bounds
    obtain ⟨e, he, hsame⟩ := Spells.connect_left op
      ((hl.operand (by omega)).deeper (le_max_left _ _))
      ((hr.operand (by omega)).deeper (le_max_right _ _))
    exact ⟨e, hsame.trans (.connect op hsamel hsamer), he⟩
  | conditional c t f ihc iht ihf =>
    obtain ⟨c', hsamec, hc⟩ := ihc
    obtain ⟨t', hsamet, ht⟩ := iht
    obtain ⟨f', hsamef, hf⟩ := ihf
    exact ⟨_, .conditional hsamec hsamet hsamef,
      .conditional ((hc.operand (by decide)).deeper (le_max_left _ _))
        ((ht.operand (by decide)).deeper (le_trans (le_max_left _ _) (le_max_right _ _)))
        ((hf.operand (by decide)).deeper (le_trans (le_max_right _ _) (le_max_right _ _)))⟩
  | comma left right ihl ihr =>
    obtain ⟨l, hsamel, hl⟩ := ihl
    obtain ⟨r, hsamer, hr⟩ := ihr
    exact ⟨_, .comma hsamel hsamer, .comma ((hl.operand (by decide)).deeper (le_max_left _ _))
      ((hr.operand (by decide)).deeper (le_max_right _ _))⟩

end Nsh.Arithmetic
