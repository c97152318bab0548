import Nsh.Arithmetic.Evaluate

/-!
# Relating two walks of one grammar

What is proved about a walk is mostly proved about two walks side by side: one
allowed more activations than the other, one whose evaluations finish more
often, one that evaluates beside one that only parses.  A `Simulation` is a
relation between walks that sequencing and the reading of tokens respect, and
`body_related` carries it once through every rule, from the calls a rule makes
to the rule.  A simulation is indexed: where the index bounds the tokens left, a
call made behind a token may be assumed at a smaller one.
-/

namespace Nsh.Arithmetic

open Variables

variable {W : Type}

/-! ### Two measures on calls -/

/-- The rank of a rule: a call at the depth its caller stands at goes to a
    smaller one, unless it is for a right operand. -/
def Rule.rank : Rule → Nat
  | .assignment => 6
  | .conditional => 5
  | .logicalOr => 4
  | .logicalAnd => 3
  | .power => 2
  | .primary => 1
  | .prefixed => 0

/-- The order of the rules a call may pass through without taking a token. -/
def Rule.order : Rule → Nat
  | .prefixed => 7
  | .assignment => 6
  | .conditional => 5
  | .logicalOr => 4
  | .logicalAnd => 3
  | .power => 2
  | .primary => 1

/-- What a call may still spend: each level of depth is worth all the ranks. -/
def charge (rule : Rule) (depth : Nat) : Nat := 7 * (maxNameDepth - depth) + rule.rank

theorem charge_lt (rule : Rule) (depth : Nat) : charge rule depth < 7 * (maxNameDepth + 1) := by
  have hrank : rule.rank ≤ 6 := by cases rule <;> decide
  unfold charge
  omega

theorem charge_deeper {depth : Nat} (h : depth < maxNameDepth) (rule rule' : Rule) :
    charge rule (depth + 1) < charge rule' depth := by
  have hrank : rule.rank ≤ 6 := by cases rule <;> decide
  unfold charge
  omega

theorem order_le (rule : Rule) : rule.order ≤ 7 := by cases rule <;> decide

/-- The tokens behind which a rule calls itself, or a looser one, for a right
    operand. -/
def Token.opensOperand : Token → Bool
  | .assign _ | .question | .colon | .logicalOr | .logicalAnd | .power => true
  | _ => false

/-! ### Simulations -/

theorem equal_map (g : Int64 → Int64 → Int64 → Int64) {a a' b b' c c' : Int64} (ha : a = a')
    (hb : b = b') (hc : c = c') : g a b c = g a' b' c' := by rw [ha, hb, hc]

theorem equal_and (g : Int64 → Bool) {e e' : Bool} {a a' : Int64} (he : e = e') (ha : a = a') :
    (e && g a) = (e' && g a') := by rw [he, ha]

/-- An indexed relation between walks that the parser's own steps respect. -/
structure Simulation (W : Type) where
  related : Nat → Walk W Int64 → Walk W Int64 → Prop
  /-- The indices that may stand for a later state. -/
  reaches : Nat → Nat → Prop
  /-- The indices at which what follows a token is related. -/
  behind : Token → Nat → Nat → Prop
  /-- The turns that are enough for a loop at an index. -/
  enough : Nat → Nat → Prop
  /-- How the values of related walks compare. -/
  value : Int64 → Int64 → Prop
  /-- How the `evaluate` flags of related calls compare. -/
  flags : Bool → Bool → Prop
  /-- The tokens that may be met. -/
  token : Token → Prop
  reaches_refl : ∀ k, reaches k k
  reaches_trans : ∀ {i j k}, reaches i j → reaches j k → reaches i k
  reaches_behind : ∀ {tok j k}, behind tok j k → reaches j k
  behind_reaches : ∀ {tok i j k}, behind tok i j → reaches j k → behind tok i k
  behind_of_reaches : ∀ {tok i j k}, reaches i j → behind tok j k → behind tok i k
  enough_zero : ∀ {k}, enough k 0 → related k ⊥ ⊥
  enough_succ : ∀ {tok j k turns}, behind tok j k → enough k (turns + 1) → enough j turns
  value_refl : ∀ a, value a a
  value_map : ∀ (g : Int64 → Int64 → Int64 → Int64) {a a' b b' c c'},
    value a a' → value b b' → value c c' → value (g a b c) (g a' b' c')
  flags_and : ∀ (g : Int64 → Bool) {e e' a a'}, flags e e' → value a a' →
    flags (e && g a) (e' && g a')
  pure_related : ∀ {k a a'}, value a a' → related k (pure a) (pure a')
  bind_related : ∀ {k m m'} {f f' : Int64 → Walk W Int64}, related k m m' →
    (∀ a a', value a a' → related k (f a) (f' a')) → related k (m >>= f) (m' >>= f')
  accept_related : ∀ {k} {β : Type} {pick : Token → Option β} {t t' : β → Walk W Int64} {o o'},
    pick .eof = none →
    (∀ j tok b, behind tok j k → token tok → pick tok = some b → related j (t b) (t' b)) →
    related k o o' → related k (accept pick t o) (accept pick t' o')
  acceptAssignment_related : ∀ {k} {t t' : Name → Option BinaryOperator → Walk W Int64} {o o'},
    (∀ j name op, behind (.assign op) j k → token (.name name) →
      related j (t name op) (t' name op)) →
    related k o o' → related k (acceptAssignment t o) (acceptAssignment t' o')
  lookahead_related : ∀ {k} {test : Token → Bool} {y y' n n'}, related k y y' → related k n n' →
    related k (lookahead test y n) (lookahead test y' n')
  inTurns_related : ∀ {k} {loop loop' : Nat → Walk W Int64},
    (∀ j, reaches j k → ∀ turns, enough j turns → related j (loop turns) (loop' turns)) →
    related k (inTurns loop) (inTurns loop')

/-- What a simulation must know of the computations that take no token: those
    that read, write and apply operators, at the depths from `floor` on. -/
structure Leaves (S : Simulation W) (floor : Nat) (p p' : Setting W) : Prop where
  complain : ∀ {k} (c : Complaint), c ≠ .divisionError → c ≠ .negativeExponent →
    S.related k (complain p c) (complain p' c)
  read : ∀ {k depth e e'} {name : Name}, S.token (.name name) → floor ≤ depth → S.flags e e' →
    S.related k (if e then read p depth name else pure 0)
      (if e' then read p' depth name else pure 0)
  postfixed : ∀ {k e e' value value'} {name : Name} (delta : Int64), S.token (.name name) →
    S.flags e e' → S.value value value' →
    S.related k (postfixed p name delta value e) (postfixed p' name delta value' e')
  stepped : ∀ {k depth e e'} {name : Name} (delta : Int64), S.token (.name name) →
    floor ≤ depth → S.flags e e' →
    S.related k (stepped p depth name delta e) (stepped p' depth name delta e')
  assigned : ∀ {k depth e e' result result'} {name : Name} (op : Option BinaryOperator),
    S.token (.name name) → floor ≤ depth → S.flags e e' → S.value result result' →
    S.related k (assigned p e depth name op result) (assigned p' e' depth name op result')
  applied : ∀ {k e e' left left' right right'} (op : BinaryOperator), S.flags e e' →
    S.value left left' → S.value right right' →
    S.related k (applied p e op left right) (applied p' e' op left' right')
  raised : ∀ {k e e' base base' exponent exponent'}, S.flags e e' → S.value base base' →
    S.value exponent exponent' →
    S.related k (raised p e base exponent) (raised p' e' base' exponent')

section Rules

variable {S : Simulation W} {floor : Nat} {p p' : Setting W}
variable {descend descend' operand operand' : Call → Walk W Int64}
variable {rule : Rule} {e e' : Bool} {depth k : Nat}

theorem Simulation.acceptToken_related {token : Token} (h : token ≠ .eof)
    {t t' o o' : Walk W Int64} (ht : ∀ j, S.behind token j k → S.related j t t')
    (ho : S.related k o o') :
    S.related k (acceptToken token t o) (acceptToken token t' o') := by
  refine S.accept_related (if_neg (Ne.symm h)) (fun j tok b hj _ hpick => ?_) ho
  split at hpick
  · next htok => exact ht j (htok ▸ hj)
  · cases hpick

theorem Simulation.behind_trans {tok tok' : Token} {i j : Nat} (hi : S.behind tok i j)
    (hj : S.behind tok' j k) : S.behind tok i k := S.behind_reaches hi (S.reaches_behind hj)

theorem Simulation.value_map₂ (g : Int64 → Int64 → Int64) {a a' b b' : Int64}
    (ha : S.value a a') (hb : S.value b b') : S.value (g a b) (g a' b') :=
  S.value_map (fun a b _ => g a b) ha hb ha

theorem Simulation.value_map₁ (g : Int64 → Int64) {a a' : Int64} (ha : S.value a a') :
    S.value (g a) (g a') := S.value_map (fun a _ _ => g a) ha ha ha

/-- A rule may call another without taking a token. -/
def Same (S : Simulation W) (floor k : Nat) (descend descend' : Call → Walk W Int64)
    (rule : Rule) (depth : Nat) : Prop :=
  ∀ {rule' e e' depth'}, S.flags e e' → floor ≤ depth' → rule'.order < rule.order →
    charge rule' depth' < charge rule depth →
    S.related k (descend ⟨rule', e, depth'⟩) (descend' ⟨rule', e', depth'⟩)

/-- Behind a token, a rule may call any other that it is charged for. -/
def Later (S : Simulation W) (floor k : Nat) (descend descend' : Call → Walk W Int64)
    (rule : Rule) (depth : Nat) : Prop :=
  ∀ {j tok}, S.behind tok j k → ∀ {rule' e e' depth'}, S.flags e e' → floor ≤ depth' →
    charge rule' depth' < charge rule depth →
    S.related j (descend ⟨rule', e, depth'⟩) (descend' ⟨rule', e', depth'⟩)

/-- Behind some tokens, a rule may call any other at its own depth for a right
    operand. -/
def Again (S : Simulation W) (k : Nat) (operand operand' : Call → Walk W Int64) (depth : Nat) :
    Prop :=
  ∀ {j tok}, tok.opensOperand = true → S.behind tok j k → ∀ {rule' e e'}, S.flags e e' →
    S.related j (operand ⟨rule', e, depth⟩) (operand' ⟨rule', e', depth⟩)

theorem binaryRhsFrom_related (L : Leaves S floor p p') (he : S.flags e e') :
    ∀ (turns k : Nat), S.enough k turns →
      (∀ {j tok}, S.behind tok j k →
        S.related j (descend ⟨.power, e, depth⟩) (descend' ⟨.power, e', depth⟩)) →
      ∀ {left left'} (minPower : Nat), S.value left left' →
        S.related k (binaryRhsFrom p descend e depth turns left minPower)
          (binaryRhsFrom p' descend' e' depth turns left' minPower) := by
  intro turns
  induction turns with
  | zero => intro k hk _ left left' minPower _; exact S.enough_zero hk
  | succ turns ih =>
    intro k hk hpower left left' minPower hleft
    refine S.accept_related rfl (fun j tok op hj _ _ => ?_) (S.pure_related hleft)
    have hclimb : ∀ {v v'} (minPower : Nat), S.value v v' →
        S.related j (binaryRhsFrom p descend e depth turns v minPower)
          (binaryRhsFrom p' descend' e' depth turns v' minPower) :=
      fun minPower hv => ih j (S.enough_succ hj hk)
        (fun hi => hpower (S.behind_trans hi hj)) minPower hv
    refine S.bind_related (hpower hj) (fun first first' hfirst => ?_)
    refine S.bind_related (S.lookahead_related (hclimb _ hfirst) (S.pure_related hfirst))
      (fun right right' hright => ?_)
    exact S.bind_related (L.applied op he hleft hright) (fun l l' hl => hclimb minPower hl)

theorem binaryRhs_related (L : Leaves S floor p p') (he : S.flags e e')
    (hpower : ∀ {j tok}, S.behind tok j k →
      S.related j (descend ⟨.power, e, depth⟩) (descend' ⟨.power, e', depth⟩))
    {left left' : Int64} (minPower : Nat) (hleft : S.value left left') :
    S.related k (binaryRhs p descend e depth left minPower)
      (binaryRhs p' descend' e' depth left' minPower) :=
  S.inTurns_related fun j hj turns hturns => binaryRhsFrom_related L he turns j hturns
    (fun hi => hpower (S.behind_reaches hi hj)) minPower hleft

theorem commaFrom_related :
    ∀ (turns k : Nat), S.enough k turns →
      (∀ {j}, S.reaches j k →
        S.related j (descend ⟨.assignment, e, depth⟩) (descend' ⟨.assignment, e', depth⟩)) →
      ∀ {value value'}, S.value value value' →
        S.related k (commaFrom descend e depth turns value)
          (commaFrom descend' e' depth turns value') := by
  intro turns
  induction turns with
  | zero => intro k hk _ value value' _; exact S.enough_zero hk
  | succ turns ih =>
    intro k hk hside value value' hvalue
    refine S.acceptToken_related (by decide) (fun j hj => ?_) (S.pure_related hvalue)
    have hreach := S.reaches_behind hj
    refine S.bind_related (hside hreach) (fun side side' h => ?_)
    exact ih j (S.enough_succ hj hk) (fun hi => hside (S.reaches_trans hi hreach)) h

theorem comma_related
    (hside : ∀ {j}, S.reaches j k →
      S.related j (descend ⟨.assignment, e, depth⟩) (descend' ⟨.assignment, e', depth⟩)) :
    S.related k (comma descend e depth) (comma descend' e' depth) := by
  refine S.bind_related (hside (S.reaches_refl k)) (fun value value' hvalue => ?_)
  exact S.inTurns_related fun j hj turns hturns => commaFrom_related turns j hturns
    (fun hi => hside (S.reaches_trans hi hj)) hvalue

theorem assignment_related (L : Leaves S floor p p') (he : S.flags e e') (hfloor : floor ≤ depth)
    (same : Same S floor k descend descend' .assignment depth)
    (again : Again S k operand operand' depth) :
    S.related k (assignment p descend operand e depth)
      (assignment p' descend' operand' e' depth) := by
  refine S.acceptAssignment_related (fun j name op hj hname => ?_)
    (same he hfloor (by decide) (Nat.lt_succ_self _))
  exact S.bind_related (again rfl hj he) (fun result result' h => L.assigned op hname hfloor he h)

theorem conditional_related (L : Leaves S floor p p') (he : S.flags e e') (hfloor : floor ≤ depth)
    (same : Same S floor k descend descend' .conditional depth)
    (again : Again S k operand operand' depth) :
    S.related k (conditional p descend operand e depth)
      (conditional p' descend' operand' e' depth) := by
  refine S.bind_related (same he hfloor (by decide) (Nat.lt_succ_self _)) (fun c c' hc => ?_)
  refine S.acceptToken_related (by decide) (fun j hj => ?_) (S.pure_related hc)
  refine S.bind_related (again rfl hj (S.flags_and (· != 0) he hc)) (fun t t' ht => ?_)
  refine S.acceptToken_related (by decide) (fun i hi => ?_) (L.complain _ (by decide) (by decide))
  refine S.bind_related (again rfl (S.behind_trans hi hj) (S.flags_and (· == 0) he hc))
    (fun u u' hu => ?_)
  exact S.pure_related (S.value_map (fun c t u => if c != 0 then t else u) hc ht hu)

theorem logicalOr_related (he : S.flags e e') (hfloor : floor ≤ depth)
    (same : Same S floor k descend descend' .logicalOr depth)
    (again : Again S k operand operand' depth) :
    S.related k (logicalOr descend operand e depth) (logicalOr descend' operand' e' depth) := by
  refine S.bind_related (same he hfloor (by decide) (Nat.lt_succ_self _)) (fun l l' hl => ?_)
  refine S.acceptToken_related (by decide) (fun j hj => ?_) (S.pure_related hl)
  refine S.bind_related (again rfl hj (S.flags_and (· == 0) he hl)) (fun r r' hr => ?_)
  exact S.pure_related (S.value_map₂ (fun l r => flag (l != 0 || r != 0)) hl hr)

theorem binary_related (L : Leaves S floor p p') (he : S.flags e e') (hfloor : floor ≤ depth)
    (same : Same S floor k descend descend' .logicalAnd depth)
    (later : Later S floor k descend descend' .logicalAnd depth) :
    S.related k (binary p descend e depth) (binary p' descend' e' depth) := by
  have hcharge : charge .power depth < charge .logicalAnd depth := Nat.lt_succ_self _
  refine S.bind_related (same he hfloor (by decide) hcharge) (fun left left' hleft => ?_)
  exact binaryRhs_related L he (fun hj => later hj he hfloor hcharge) 1 hleft

theorem logicalAnd_related (L : Leaves S floor p p') (he : S.flags e e') (hfloor : floor ≤ depth)
    (same : Same S floor k descend descend' .logicalAnd depth)
    (later : Later S floor k descend descend' .logicalAnd depth)
    (again : Again S k operand operand' depth) :
    S.related k (logicalAnd p descend operand e depth)
      (logicalAnd p' descend' operand' e' depth) := by
  refine S.bind_related (binary_related L he hfloor same later) (fun l l' hl => ?_)
  refine S.acceptToken_related (by decide) (fun j hj => ?_) (S.pure_related hl)
  refine S.bind_related (again rfl hj (S.flags_and (· != 0) he hl)) (fun r r' hr => ?_)
  exact S.pure_related (S.value_map₂ (fun l r => flag (l != 0 && r != 0)) hl hr)

theorem power_related (L : Leaves S floor p p') (he : S.flags e e') (hfloor : floor ≤ depth)
    (same : Same S floor k descend descend' .power depth)
    (again : Again S k operand operand' depth) :
    S.related k (power p descend operand e depth) (power p' descend' operand' e' depth) := by
  refine S.bind_related (same he hfloor (by decide) (Nat.lt_succ_self _)) (fun b b' hb => ?_)
  refine S.acceptToken_related (by decide) (fun j hj => ?_) (S.pure_related hb)
  exact S.bind_related (again rfl hj he) (fun x x' hx => L.raised he hb hx)

theorem namePrimary_related (L : Leaves S floor p p') (he : S.flags e e') (hfloor : floor ≤ depth)
    {name : Name} (hname : S.token (.name name)) :
    S.related k (namePrimary p depth name e) (namePrimary p' depth name e') := by
  refine S.bind_related (L.read hname hfloor he) (fun v v' hv => ?_)
  refine S.acceptToken_related (by decide) (fun j hj => L.postfixed _ hname he hv) ?_
  exact S.acceptToken_related (by decide) (fun j hj => L.postfixed _ hname he hv)
    (S.pure_related hv)

theorem asName_eq_some {token : Token} {name : Name} (h : asName token = some name) :
    token = .name name := by
  cases token with
  | name other => cases h; rfl
  | _ => cases h

theorem step_related (L : Leaves S floor p p') (he : S.flags e e') (hfloor : floor ≤ depth)
    (delta : Int64) : S.related k (step p depth delta e) (step p' depth delta e') := by
  refine S.accept_related rfl (fun j token name _ htoken hpick => ?_)
    (L.complain _ (by decide) (by decide))
  rw [asName_eq_some hpick] at htoken
  exact L.stepped delta htoken hfloor he

theorem parenthesised_related (L : Leaves S floor p p')
    (hside : depth < maxNameDepth → ∀ {j}, S.reaches j k →
      S.related j (descend ⟨.assignment, e, depth + 1⟩) (descend' ⟨.assignment, e', depth + 1⟩)) :
    S.related k (parenthesised p descend e depth) (parenthesised p' descend' e' depth) := by
  unfold parenthesised
  split
  · exact L.complain _ (by decide) (by decide)
  · next h =>
    refine S.bind_related (comma_related (hside (Nat.lt_of_not_le h))) (fun v v' hv => ?_)
    exact S.acceptToken_related (by decide) (fun j hj => S.pure_related hv)
      (L.complain _ (by decide) (by decide))

theorem primary_related (L : Leaves S floor p p') (he : S.flags e e') (hfloor : floor ≤ depth)
    (later : Later S floor k descend descend' .primary depth) :
    S.related k (primary p descend e depth) (primary p' descend' e' depth) := by
  have hcomplain : ∀ {j}, S.related j (complain p .expectingPrimary)
      (complain p' .expectingPrimary) := L.complain _ (by decide) (by decide)
  refine S.accept_related rfl (fun j tok token hj htok hpick => ?_) hcomplain
  obtain rfl : token = tok := by
    unfold anyToken at hpick
    split at hpick
    · cases hpick
    · cases hpick; rfl
  -- A prefix operator leaves its operand's value to a function of it.
  have hprefix : ∀ g : Int64 → Int64,
      S.related j (descend ⟨.prefixed, e, depth⟩ >>= fun v => pure (g v))
        (descend' ⟨.prefixed, e', depth⟩ >>= fun v => pure (g v)) := fun g =>
    S.bind_related (later hj he hfloor (Nat.lt_succ_self _))
      (fun v v' hv => S.pure_related (S.value_map₁ g hv))
  cases token with
  | number value => exact S.pure_related (S.value_refl value)
  | name name => exact namePrimary_related L he hfloor htok
  | increment => exact step_related L he hfloor 1
  | decrement => exact step_related L he hfloor (-1)
  | lParen =>
    exact parenthesised_related L fun h {i} hi =>
      later (S.behind_of_reaches hi hj) he (by omega) (charge_deeper h _ _)
  | not => exact hprefix (fun v => flag (v == 0))
  | bitNot => exact hprefix (fun v => ~~~v)
  | binary op =>
    cases op with
    | add => exact later hj he hfloor (Nat.lt_succ_self _)
    | subtract => exact hprefix (fun v => -v)
    | _ => exact hcomplain
  | _ => exact hcomplain

theorem prefixed_related (L : Leaves S floor p p') (he : S.flags e e') (hfloor : floor ≤ depth)
    (same : Same S floor k descend descend' .prefixed depth) :
    S.related k (prefixed p descend e depth) (prefixed p' descend' e' depth) := by
  unfold prefixed
  split
  · exact L.complain _ (by decide) (by decide)
  · next h =>
    exact same he (by omega) (by decide) (charge_deeper (Nat.lt_of_not_le h) _ _)

/-- **A simulation passes from the calls a rule makes to the rule.** -/
theorem body_related (L : Leaves S floor p p') (he : S.flags e e') (hfloor : floor ≤ depth)
    (same : Same S floor k descend descend' rule depth)
    (later : Later S floor k descend descend' rule depth)
    (again : Again S k operand operand' depth) :
    S.related k (body p descend operand ⟨rule, e, depth⟩)
      (body p' descend' operand' ⟨rule, e', depth⟩) := by
  cases rule with
  | assignment => exact assignment_related L he hfloor same again
  | conditional => exact conditional_related L he hfloor same again
  | logicalOr => exact logicalOr_related he hfloor same again
  | logicalAnd => exact logicalAnd_related L he hfloor same later again
  | power => exact power_related L he hfloor same again
  | primary => exact primary_related L he hfloor later
  | prefixed => exact prefixed_related L he hfloor same

/-- A simulation that relates walks cut short relates whole walks. -/
theorem walk_related (L : Leaves S floor p p') (hbot : ∀ k, S.related k ⊥ ⊥) :
    ∀ (n k : Nat) {rule : Rule} {e e' : Bool} {depth : Nat}, S.flags e e' → floor ≤ depth →
      S.related k (walk p n ⟨rule, e, depth⟩) (walk p' n ⟨rule, e', depth⟩) := by
  intro n
  induction n with
  | zero => intro k rule e e' depth _ _; exact hbot k
  | succ n ih =>
    intro k rule e e' depth he hfloor
    exact body_related L he hfloor (fun he hfloor _ _ => ih k he hfloor)
      (fun _ => fun he hfloor _ => ih _ he hfloor) (fun _ _ => fun he => ih _ he hfloor)

end Rules

end Nsh.Arithmetic
