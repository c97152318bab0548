import Nsh.Arithmetic.Grammar
import Nsh.Arithmetic.Operators
import Nsh.Arithmetic.Settled

/-!
# The parser reads the grammar

Every spelling of a tree is read with the value of that tree
(`Spells.reads`), by an induction over the spelling.  At each level the rule of
the parser is told what may follow: a token that stops it.  For the left
recursive levels, the climb and the comma list, what is proved is that the loop
goes on behind the spelling with the tree's value on its left.
-/

namespace Nsh.Arithmetic

variable {W : Type}

section Reading

variable (p : Setting W) (shell : Shell W)

/-- How a walk ends that reads a tree: where it evaluates, in the tree's value
    or its fault; where it only parses, in some value; and then goes on. -/
def Yields (evaluate : Bool) (result : Except Fault Int64)
    (outcome : Outcome (Parser W) Error Int64) (next : Int64 → Outcome (Parser W) Error Int64) :
    Prop :=
  (∃ v, (evaluate = true → result = .ok v) ∧ outcome = next v) ∨
    (evaluate = true ∧ ∃ fault rest, result = .error fault ∧
      outcome = .failed (arithmeticError p.input fault.complaint shell) ⟨shell, rest⟩)

/-- The level at which a token goes on with an expression in front of it. -/
def Token.joins : Token → Option Nat
  | .power => some 12
  | .binary op => some (3 + op.bindingPower)
  | .logicalAnd => some 3
  | .logicalOr => some 2
  | .question => some 1
  | .comma => some 0
  | _ => none

/-- What follows does not go on with an expression at level `l` or tighter. -/
def Stops (l : Nat) (rest : List Token) : Prop := ∀ j, (rest.headD .eof).joins = some j → j < l

/-- A rule reads a tree from its tokens. -/
def ReadsBy (rule : Rule) (stop d : Nat) (ts : List Token) (e : Expression) : Prop :=
  ∀ evaluate depth rest, depth + d ≤ maxNameDepth → Stops stop rest →
    Yields p shell evaluate e.value (settled p ⟨rule, evaluate, depth⟩ ⟨shell, ts ++ rest⟩)
      fun v => .done v ⟨shell, rest⟩

/-- The climb reads a tree from its tokens, and goes on with what follows. -/
def Climbs (l d : Nat) (ts : List Token) (e : Expression) : Prop :=
  ∀ evaluate depth rest m, depth + d ≤ maxNameDepth → m + 3 ≤ l → Stops (min (l + 1) 12) rest →
    Yields p shell evaluate e.value
      ((settled p ⟨.power, evaluate, depth⟩ >>= fun v =>
        binaryRhs p (settled p) evaluate depth v m) ⟨shell, ts ++ rest⟩)
      fun v => binaryRhs p (settled p) evaluate depth v m ⟨shell, rest⟩

/-- The comma list reads a tree from its tokens, and goes on with what follows. -/
def Lists (d : Nat) (ts : List Token) (e : Expression) : Prop :=
  ∀ evaluate depth rest, depth + d ≤ maxNameDepth → Stops 1 rest →
    Yields p shell evaluate e.value
      ((settled p ⟨.assignment, evaluate, depth⟩ >>= commaRest p evaluate depth)
        ⟨shell, ts ++ rest⟩)
      fun v => commaRest p evaluate depth v ⟨shell, rest⟩

/-- What the rule of each level does with a tree spelled there. -/
def Reads (l d : Nat) (ts : List Token) (e : Expression) : Prop :=
  match l with
  | 0 => Lists p shell d ts e
  | 1 => ReadsBy p shell .conditional 1 d ts e ∧ ReadsBy p shell .assignment 1 d ts e
  | 2 => ReadsBy p shell .logicalOr 2 d ts e
  | 3 => ReadsBy p shell .logicalAnd 3 d ts e
  | 12 => ReadsBy p shell .power 12 d ts e
  | 13 => ReadsBy p shell .primary 13 d ts e
  | l => Climbs p shell l d ts e

end Reading

section Rules

variable {p : Setting W} {shell : Shell W}

namespace Yields

variable {evaluate : Bool} {r : Except Fault Int64}

/-- What yields a value goes on with it. -/
theorem andThen {outcome : Outcome (Parser W) Error Int64} {g : Int64 → Except Fault Int64}
    {next next' : Int64 → Outcome (Parser W) Error Int64}
    (h : Yields p shell evaluate r outcome next)
    (hnext : ∀ v, (evaluate = true → r = .ok v) → Yields p shell evaluate (g v) (next v) next') :
    Yields p shell evaluate (r >>= g) outcome next' := by
  rcases h with ⟨v, hv, rfl⟩ | ⟨he, fault, rest, hr, hfail⟩
  · rcases hnext v hv with ⟨u, hu, h⟩ | ⟨he, fault, rest, hg, h⟩
    · exact Or.inl ⟨u, fun he => by rw [hv he]; exact hu he, h⟩
    · exact Or.inr ⟨he, fault, rest, by rw [hv he]; exact hg, h⟩
  · exact Or.inr ⟨he, fault, rest, by rw [hr]; rfl, hfail⟩

/-- A walk that yields hands its value to what follows. -/
theorem through {m : Walk W Int64} {s : Parser W} {rest : List Token} {f : Int64 → Walk W Int64}
    {next : Int64 → Outcome (Parser W) Error Int64}
    (hm : Yields p shell evaluate r (m s) fun v => .done v ⟨shell, rest⟩)
    (hf : ∀ v, f v ⟨shell, rest⟩ = next v) : Yields p shell evaluate r ((m >>= f) s) next := by
  rcases hm with ⟨v, hv, hmv⟩ | ⟨he, fault, rest', hr, hfail⟩
  · exact Or.inl ⟨v, hv, (Run.bind_done hmv f).trans (hf v)⟩
  · exact Or.inr ⟨he, fault, rest', hr, Run.bind_failed hfail f⟩

/-- A walk that yields, in sequence with another. -/
theorem bind {m : Walk W Int64} {s : Parser W} {rest : List Token} {f : Int64 → Walk W Int64}
    {g : Int64 → Except Fault Int64} {next : Int64 → Outcome (Parser W) Error Int64}
    (hm : Yields p shell evaluate r (m s) fun v => .done v ⟨shell, rest⟩)
    (hf : ∀ v, (evaluate = true → r = .ok v) →
      Yields p shell evaluate (g v) (f v ⟨shell, rest⟩) next) :
    Yields p shell evaluate (r >>= g) ((m >>= f) s) next :=
  (hm.through fun _ => rfl).andThen hf

/-- What is only parsed comes to some value. -/
theorem parsed {outcome : Outcome (Parser W) Error Int64}
    {next : Int64 → Outcome (Parser W) Error Int64}
    (h : Yields p shell false r outcome next) : ∃ v, outcome = next v := by
  rcases h with ⟨v, _, h⟩ | ⟨h, _⟩
  · exact ⟨v, h⟩
  · cases h

/-- What has its value yields it. -/
theorem done {v : Int64} {outcome : Outcome (Parser W) Error Int64}
    {next : Int64 → Outcome (Parser W) Error Int64} (hv : evaluate = true → r = .ok v)
    (ho : outcome = next v) : Yields p shell evaluate r outcome next := Or.inl ⟨v, hv, ho⟩

end Yields

/-! ### What stops a rule -/

theorem Stops.ne {l : Nat} {rest : List Token} (h : Stops l rest) {token : Token} {j : Nat}
    (hj : token.joins = some j) (hl : l ≤ j) : (Parser.mk shell rest).current ≠ token := by
  intro heq
  have hlt := h j (by rw [← hj, ← heq]; rfl)
  omega

theorem Stops.climb {l m : Nat} {rest : List Token} (h : Stops l rest) (hm : l ≤ m + 3) :
    climbing m (Parser.mk shell rest).current = none := by
  change climbing m (rest.headD .eof) = none
  cases hhead : rest.headD .eof with
  | binary op =>
    have hlt := h (3 + op.bindingPower) (by rw [hhead]; rfl)
    exact if_pos (by omega)
  | _ => rfl

theorem Stops.mono {l l' : Nat} {rest : List Token} (h : Stops l rest) (hl : l ≤ l') :
    Stops l' rest := fun j hj => lt_of_lt_of_le (h j hj) hl

theorem stops_cons {l j : Nat} {token : Token} {rest : List Token} (hj : token.joins = some j)
    (hl : j < l) : Stops l (token :: rest) := by
  intro i hi
  rw [List.headD_cons, hj] at hi
  cases hi
  exact hl

/-! ### From a tight level to a loose one -/

variable {d : Nat} {ts : List Token} {e : Expression}

theorem reads_power_of_primary (h : ReadsBy p shell .primary 13 d ts e) :
    ReadsBy p shell .power 12 d ts e := by
  intro evaluate depth rest hd hstop
  rw [settled_eq_body]
  exact (h evaluate depth rest hd (hstop.mono (by decide))).through fun v =>
    acceptToken_of_ne (hstop.ne rfl (le_refl 12)) _ _

theorem climbs_of_power (h : ReadsBy p shell .power 12 d ts e) {l : Nat} :
    Climbs p shell l d ts e := by
  intro evaluate depth rest m hd hm hstop
  exact (h evaluate depth rest hd (hstop.mono (by omega))).through fun v => rfl

theorem reads_logicalAnd_of_climbs (h : Climbs p shell 4 d ts e) :
    ReadsBy p shell .logicalAnd 3 d ts e := by
  intro evaluate depth rest hd hstop
  have hclimb := h evaluate depth rest 1 hd (le_refl _) (hstop.mono (by decide))
  have hnext : ∀ v, binaryRhs p (settled p) evaluate depth v 1 ⟨shell, rest⟩ =
      .done v ⟨shell, rest⟩ := fun v => binaryRhs_stop p (hstop.climb (by decide))
  simp only [hnext] at hclimb
  rw [settled_eq_body]
  exact Yields.through (m := binary p (settled p) evaluate depth) hclimb fun v =>
    acceptToken_of_ne (hstop.ne rfl (le_refl 3)) _ _

theorem reads_logicalOr_of_logicalAnd (h : ReadsBy p shell .logicalAnd 3 d ts e) :
    ReadsBy p shell .logicalOr 2 d ts e := by
  intro evaluate depth rest hd hstop
  rw [settled_eq_body]
  exact (h evaluate depth rest hd (hstop.mono (by decide))).through fun v =>
    acceptToken_of_ne (hstop.ne rfl (le_refl 2)) _ _

theorem reads_conditional_of_logicalOr (h : ReadsBy p shell .logicalOr 2 d ts e) :
    ReadsBy p shell .conditional 1 d ts e := by
  intro evaluate depth rest hd hstop
  rw [settled_eq_body]
  exact (h evaluate depth rest hd (hstop.mono (by decide))).through fun v =>
    acceptToken_of_ne (hstop.ne rfl (le_refl 1)) _ _

/-- A spelling does not begin with a name, so it is no assignment. -/
theorem Spells.head {d l : Nat} {ts : List Token} {e : Expression} (h : Spells d l ts e) :
    ∃ first ts', ts = first :: ts' ∧ ∀ name, first ≠ .name name := by
  induction h with
  | literal n => exact ⟨_, _, rfl, nofun⟩
  | group _ _ => exact ⟨_, _, rfl, nofun⟩
  | sign op _ _ => exact ⟨_, _, rfl, by cases op <;> exact nofun⟩
  | power _ _ ihb _ => obtain ⟨first, ts', rfl, h⟩ := ihb; exact ⟨first, _, rfl, h⟩
  | binary op _ _ ihl _ => obtain ⟨first, ts', rfl, h⟩ := ihl; exact ⟨first, _, rfl, h⟩
  | connect op _ _ ihl _ => obtain ⟨first, ts', rfl, h⟩ := ihl; exact ⟨first, _, rfl, h⟩
  | conditional _ _ _ ihc _ _ => obtain ⟨first, ts', rfl, h⟩ := ihc; exact ⟨first, _, rfl, h⟩
  | comma _ _ ihl _ => obtain ⟨first, ts', rfl, h⟩ := ihl; exact ⟨first, _, rfl, h⟩
  | loosen _ ih => exact ih

theorem reads_assignment_of_conditional {l : Nat} (hts : Spells d l ts e)
    (h : ReadsBy p shell .conditional 1 d ts e) : ReadsBy p shell .assignment 1 d ts e := by
  intro evaluate depth rest hd hstop
  obtain ⟨first, ts', rfl, hname⟩ := hts.head
  have hsame : settled p ⟨.assignment, evaluate, depth⟩ ⟨shell, first :: ts' ++ rest⟩ =
      settled p ⟨.conditional, evaluate, depth⟩ ⟨shell, first :: ts' ++ rest⟩ := by
    rw [settled_eq_body]
    change acceptAssignment _ _ ⟨shell, first :: (ts' ++ rest)⟩ = _
    unfold acceptAssignment
    split
    · next name op tail heq => exact absurd (List.cons.inj heq).1 (hname name)
    · rfl
  rw [hsame]
  exact h evaluate depth rest hd hstop

theorem lists_of_assignment (h : ReadsBy p shell .assignment 1 d ts e) :
    Lists p shell d ts e := by
  intro evaluate depth rest hd hstop
  exact (h evaluate depth rest hd hstop).through fun v => rfl

theorem Climbs.loosen {l : Nat} (h : Climbs p shell (l + 1) d ts e) : Climbs p shell l d ts e :=
  fun evaluate depth rest m hd hm hstop =>
    h evaluate depth rest m hd (by omega) (hstop.mono (by omega))

/-- What is read at a level is read at the next looser one. -/
theorem Reads.loosen {l : Nat} (hts : Spells d (l + 1) ts e) (hl : l ≤ 12)
    (h : Reads p shell (l + 1) d ts e) : Reads p shell l d ts e := by
  rcases l with _ | _ | _ | _ | _ | _ | _ | _ | _ | _ | _ | _ | _ | l
  · exact lists_of_assignment h.2
  · have hconditional := reads_conditional_of_logicalOr h
    exact ⟨hconditional, reads_assignment_of_conditional hts hconditional⟩
  · exact reads_logicalOr_of_logicalAnd h
  · exact reads_logicalAnd_of_climbs h
  all_goals first
    | exact Climbs.loosen h
    | exact climbs_of_power h
    | exact reads_power_of_primary h
    | exact absurd hl (by omega)

theorem Reads.climbs {l : Nat} (hge : 4 ≤ l) (hle : l ≤ 12) (h : Reads p shell l d ts e) :
    Climbs p shell l d ts e := by
  rcases l with _ | _ | _ | _ | _ | _ | _ | _ | _ | _ | _ | _ | _ | l
  all_goals first
    | exact h
    | exact climbs_of_power h
    | omega

theorem Climbs.reads {l : Nat} (hge : 4 ≤ l) (hle : l ≤ 11) (h : Climbs p shell l d ts e) :
    Reads p shell l d ts e := by
  rcases l with _ | _ | _ | _ | _ | _ | _ | _ | _ | _ | _ | _ | l
  all_goals first
    | exact h
    | omega

/-! ### Each way to spell a tree -/

theorem reads_literal (n : Fin (2 ^ 63)) :
    ReadsBy p shell .primary 13 d [.number (wrap n.val)] (.literal n) := by
  intro evaluate depth rest _ _
  rw [settled_eq_body]
  exact .done (fun _ => rfl) rfl

/-- Parentheses take the comma list between them, one deeper. -/
theorem reads_group (h : Lists p shell d ts e) :
    ReadsBy p shell .primary 13 (d + 1) (.lParen :: (ts ++ [.rParen])) e := by
  intro evaluate depth rest hd _
  have hlist := h evaluate (depth + 1) (.rParen :: rest) (by omega) nofun
  have hstop : ∀ v, commaRest p evaluate (depth + 1) v ⟨shell, .rParen :: rest⟩ =
      .done v ⟨shell, .rParen :: rest⟩ := fun v => commaRest_stop p nofun
  simp only [hstop] at hlist
  rw [settled_eq_body]
  have htokens : Token.lParen :: (ts ++ [.rParen]) ++ rest =
      .lParen :: (ts ++ .rParen :: rest) := by simp
  rw [htokens]
  have hparen : body p (settled p) (settled p) ⟨.primary, evaluate, depth⟩
      ⟨shell, .lParen :: (ts ++ .rParen :: rest)⟩ =
      parenthesised p (settled p) evaluate depth ⟨shell, ts ++ .rParen :: rest⟩ := rfl
  rw [hparen]
  unfold parenthesised
  rw [if_neg (by omega)]
  exact Yields.through (m := comma (settled p) evaluate (depth + 1)) hlist fun v =>
    acceptToken_cons .rParen _ _ shell rest

/-- A prefix operator takes its operand one deeper, with the `**` behind it. -/
theorem reads_sign (op : Sign) (h : ReadsBy p shell .power 12 d ts e) :
    ReadsBy p shell .power 12 (d + 1) (op.token :: ts) (.sign op e) := by
  intro evaluate depth rest hd hstop
  have hoperand := h evaluate (depth + 1) rest (by omega) hstop
  have hprefixed : settled p ⟨.prefixed, evaluate, depth⟩ ⟨shell, ts ++ rest⟩ =
      settled p ⟨.power, evaluate, depth + 1⟩ ⟨shell, ts ++ rest⟩ := by
    rw [settled_eq_body]
    change prefixed p (settled p) evaluate depth _ = _
    unfold prefixed
    rw [if_neg (by omega)]
  have hprimary : settled p ⟨.primary, evaluate, depth⟩ ⟨shell, op.token :: (ts ++ rest)⟩ =
      (settled p ⟨.prefixed, evaluate, depth⟩ >>= fun v => pure (op.apply v))
        ⟨shell, ts ++ rest⟩ := by
    rw [settled_eq_body]
    cases op with
    | plus =>
      change settled p ⟨.prefixed, evaluate, depth⟩ _ =
        (settled p ⟨.prefixed, evaluate, depth⟩ >>= pure) _
      rw [Run.bind_pure]
      rfl
    | minus => rfl
    | complement => rfl
    | not => rfl
  have hvalue : Yields p shell evaluate (Expression.sign op e).value
      (settled p ⟨.primary, evaluate, depth⟩ ⟨shell, op.token :: (ts ++ rest)⟩)
      fun v => .done v ⟨shell, rest⟩ := by
    rw [hprimary]
    refine Yields.bind (hprefixed ▸ hoperand) fun v _ => ?_
    rw [← op.apply_eq]
    exact .done (fun _ => rfl) rfl
  rw [settled_eq_body]
  exact hvalue.through fun v => acceptToken_of_ne (hstop.ne rfl (le_refl 12)) _ _

/-- `**` raises a primary to the power of what `**` reads behind it. -/
theorem reads_power {tb tx : List Token} {b x : Expression}
    (hfits : ∀ v w, b.value = .ok v → x.value = .ok w → PowerComputed v w)
    (hb : ReadsBy p shell .primary 13 d tb b) (hx : ReadsBy p shell .power 12 d tx x) :
    ReadsBy p shell .power 12 d (tb ++ .power :: tx) (.power b x) := by
  intro evaluate depth rest hd hstop
  have hbase := hb evaluate depth (.power :: (tx ++ rest)) hd (stops_cons rfl (by decide))
  rw [settled_eq_body, List.append_assoc]
  refine hbase.bind fun v hv => ?_
  rw [acceptToken_cons]
  refine (hx evaluate depth rest hd hstop).bind fun w hw => ?_
  cases evaluate with
  | false => exact .done nofun rfl
  | true =>
    have hpower := hfits v w (hv rfl) (hw rfl)
    rw [if_neg (not_lt.mpr hpower.nonneg)]
    refine .done (fun _ => rfl) ?_
    change apply p .power v w _ = _
    rw [apply_power p hpower]
    rfl

/-- A climb takes the operator behind its left operand, and for its right operand
    climbs the tighter ones. -/
theorem climbs_binary {tl tr : List Token} {l r : Expression} (op : CBinary)
    (hl : Climbs p shell op.level d tl l) (hr : Climbs p shell (op.level + 1) d tr r) :
    Climbs p shell op.level d (tl ++ .binary op.val :: tr) (.binary op l r) := by
  intro evaluate depth rest m hd hm hstop
  have hbounds := op.level_bounds
  have hlevel := op.level_eq
  have hleft := hl evaluate depth (.binary op.val :: (tr ++ rest)) m hd hm
    (stops_cons (j := 3 + op.val.bindingPower) rfl (by omega))
  have hright := hr evaluate depth rest (op.val.bindingPower + 1) hd (by omega)
    (hstop.mono (by omega))
  have hend : ∀ v, binaryRhs p (settled p) evaluate depth v (op.val.bindingPower + 1)
      ⟨shell, rest⟩ = .done v ⟨shell, rest⟩ :=
    fun v => binaryRhs_stop p (hstop.climb (by omega))
  simp only [hend] at hright
  rw [List.append_assoc]
  refine hleft.andThen fun v hv => ?_
  rw [binaryRhs_step p (by omega), ← Run.bind_assoc]
  refine Yields.bind hright fun w hw => ?_
  cases evaluate with
  | false => exact .done nofun rfl
  | true =>
    change Yields p shell true (op.value v w) ((apply p op.val v w >>= fun left =>
      binaryRhs p (settled p) true depth left m) ⟨shell, rest⟩) _
    rw [apply_eq]
    cases op.value v w with
    | ok u => exact .done (fun _ => rfl) rfl
    | error fault => exact Or.inr ⟨rfl, fault, rest, rfl, rfl⟩

/-- A right operand that the left one decides is only parsed. -/
theorem yields_connected (op : Connective) {evaluate evaluate' : Bool} {v : Int64}
    {g : Int64 → Int64} {m : Walk W Int64} {r : Except Fault Int64} {s : Parser W}
    {rest : List Token} (he : evaluate' = (evaluate && !op.decides v))
    (hg : ∀ w, g w = if op.decides v then flag (v != 0) else flag (w != 0))
    (h : Yields p shell evaluate' r (m s) fun w => .done w ⟨shell, rest⟩) :
    Yields p shell evaluate
      (if op.decides v then .ok (flag (v != 0)) else r >>= fun w => .ok (flag (w != 0)))
      ((m >>= fun w => pure (g w)) s) fun w => .done w ⟨shell, rest⟩ := by
  cases hdecides : op.decides v with
  | true =>
    rw [hdecides, Bool.not_true, Bool.and_false] at he
    subst he
    obtain ⟨w, hw⟩ := h.parsed
    rw [Run.bind_done hw, Run.pure_apply, hg, hdecides]
    exact .done (fun _ => rfl) rfl
  | false =>
    rw [hdecides, Bool.not_false, Bool.and_true] at he
    subst he
    refine h.bind fun w _ => ?_
    rw [Run.pure_apply, hg, hdecides]
    exact .done (fun _ => rfl) rfl

theorem reads_or {tl tr : List Token} {l r : Expression}
    (hl : ReadsBy p shell .logicalAnd 3 d tl l) (hr : ReadsBy p shell .logicalOr 2 d tr r) :
    ReadsBy p shell .logicalOr 2 d (tl ++ .logicalOr :: tr) (.connect .or l r) := by
  intro evaluate depth rest hd hstop
  have hleft := hl evaluate depth (.logicalOr :: (tr ++ rest)) hd (stops_cons rfl (by decide))
  rw [settled_eq_body, List.append_assoc]
  refine hleft.bind fun v _ => ?_
  rw [acceptToken_cons]
  refine yields_connected .or (g := fun w => flag (v != 0 || w != 0)) ?_ (fun w => ?_)
    (hr (evaluate && v == 0) depth rest hd hstop)
  · rw [show (!Connective.or.decides v) = (v == 0) from Bool.not_not _]
  · cases h : (v != 0) <;> simp [Connective.decides, h]

theorem reads_and {tl tr : List Token} {l r : Expression}
    (hl : Climbs p shell 4 d tl l) (hr : ReadsBy p shell .logicalAnd 3 d tr r) :
    ReadsBy p shell .logicalAnd 3 d (tl ++ .logicalAnd :: tr) (.connect .and l r) := by
  intro evaluate depth rest hd hstop
  have hstop' : Stops 4 (.logicalAnd :: (tr ++ rest)) := stops_cons rfl (by decide)
  have hleft := hl evaluate depth (.logicalAnd :: (tr ++ rest)) 1 hd (le_refl _)
    (hstop'.mono (by decide))
  have hnext : ∀ v, binaryRhs p (settled p) evaluate depth v 1
      ⟨shell, .logicalAnd :: (tr ++ rest)⟩ = .done v ⟨shell, .logicalAnd :: (tr ++ rest)⟩ :=
    fun v => binaryRhs_stop p (hstop'.climb (by decide))
  simp only [hnext] at hleft
  rw [settled_eq_body, List.append_assoc]
  refine Yields.bind (m := binary p (settled p) evaluate depth) hleft fun v _ => ?_
  rw [acceptToken_cons]
  refine yields_connected .and (g := fun w => flag (v != 0 && w != 0)) ?_ (fun w => ?_)
    (hr (evaluate && v != 0) depth rest hd hstop)
  · rfl
  · cases h : (v != 0) <;> simp_all [Connective.decides, bne]

/-- `?:` only parses the branch it does not choose. -/
theorem reads_conditional {tc tt tf : List Token} {c t f : Expression}
    (hc : ReadsBy p shell .logicalOr 2 d tc c) (ht : ReadsBy p shell .assignment 1 d tt t)
    (hf : ReadsBy p shell .conditional 1 d tf f) :
    ReadsBy p shell .conditional 1 d (tc ++ .question :: (tt ++ .colon :: tf))
      (.conditional c t f) := by
  intro evaluate depth rest hd hstop
  have hcondition := hc evaluate depth (.question :: (tt ++ .colon :: (tf ++ rest))) hd
    (stops_cons rfl (by decide))
  have htokens : tc ++ .question :: (tt ++ .colon :: tf) ++ rest =
      tc ++ .question :: (tt ++ .colon :: (tf ++ rest)) := by simp
  rw [settled_eq_body, htokens]
  refine hcondition.bind fun v _ => ?_
  rw [acceptToken_cons]
  have hthen := ht (evaluate && v != 0) depth (.colon :: (tf ++ rest)) hd nofun
  have helse := hf (evaluate && v == 0) depth rest hd hstop
  cases hv : (v == 0) with
  | true =>
    -- The branch after the `?` is skipped.
    have hne : (v != 0) = false := by rw [bne, hv]; rfl
    rw [hne, Bool.and_false] at hthen
    rw [hv, Bool.and_true] at helse
    obtain ⟨u, hu⟩ := hthen.parsed
    simp only [hne, Bool.and_false, Bool.and_true]
    rw [Run.bind_done hu, acceptToken_cons]
    exact helse.through fun w => rfl
  | false =>
    have hne : (v != 0) = true := by rw [bne, hv]; rfl
    rw [hne, Bool.and_true] at hthen
    rw [hv, Bool.and_false] at helse
    obtain ⟨u, hu⟩ := helse.parsed
    simp only [hne, Bool.and_false, Bool.and_true, if_true]
    refine hthen.through fun w => ?_
    rw [acceptToken_cons, Run.bind_done hu]
    rfl

/-- The comma list goes on with the value of its right side. -/
theorem lists_comma {tl tr : List Token} {l r : Expression} (hl : Lists p shell d tl l)
    (hr : ReadsBy p shell .assignment 1 d tr r) :
    Lists p shell d (tl ++ .comma :: tr) (.comma l r) := by
  intro evaluate depth rest hd hstop
  have hleft := hl evaluate depth (.comma :: (tr ++ rest)) hd (stops_cons rfl (by decide))
  rw [List.append_assoc]
  refine hleft.andThen fun v _ => ?_
  rw [commaRest_step]
  exact (hr evaluate depth rest hd hstop).through fun w => rfl

/-- **Every spelling of a tree is read with the value of the tree.** -/
theorem Spells.reads {l d : Nat} {ts : List Token} {e : Expression} (h : Spells d l ts e)
    (hfits : e.EveryPower PowerComputed) : Reads p shell l d ts e := by
  induction h with
  | literal n => exact reads_literal n
  | group _ ih => exact reads_group (ih hfits)
  | sign op _ ih => exact reads_sign op (ih hfits)
  | power _ _ ihb ihx => exact reads_power hfits.2.2 (ihb hfits.1) (ihx hfits.2.1)
  | binary op _ _ ihl ihr =>
    have hbounds := op.level_bounds
    exact (climbs_binary op ((ihl hfits.1).climbs (by omega) (by omega))
      ((ihr hfits.2).climbs (by omega) (by omega))).reads (by omega) (by omega)
  | connect op _ _ ihl ihr =>
    cases op with
    | and => exact reads_and (ihl hfits.1) (ihr hfits.2)
    | or => exact reads_or (ihl hfits.1) (ihr hfits.2)
  | conditional hc ht hf ihc iht ihf =>
    have hread := reads_conditional (ihc hfits.1) (iht hfits.2.1).2 (ihf hfits.2.2).1
    exact ⟨hread, reads_assignment_of_conditional (hc.conditional ht hf) hread⟩
  | comma _ _ ihl ihr => exact lists_comma (ihl hfits.1) (ihr hfits.2).2
  | @loosen d l ts e h ih => exact (ih hfits).loosen h (Nat.le_of_succ_le_succ h.level_le)

end Rules

end Nsh.Arithmetic
