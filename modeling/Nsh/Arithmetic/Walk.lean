import Nsh.Arithmetic.Simulation

/-!
# Walks and the activations they are allowed

Three instances of the simulation.  A walk whose evaluations finish more often
finishes more often (`walk_mono`).  A walk takes tokens and never returns one,
so past `8 * tokens + order` activations a bound changes nothing
(`walk_stable`).  And within that bound a walk that opens only evaluations that
finish does finish (`walk_finishes`), as does every walk that only parses
(`parsing_finishes`).
-/

namespace Nsh.Arithmetic

open Variables

variable {W : Type}

/-! ### More finished evaluations -/

/-- One walk below another in the flat order. -/
def leSimulation (W : Type) : Simulation W where
  related _ m m' := m ≤ m'
  reaches _ _ := True
  behind _ _ _ := True
  enough _ _ := True
  value := Eq
  flags := Eq
  token _ := True
  reaches_refl _ := trivial
  reaches_trans _ _ := trivial
  reaches_behind _ := trivial
  behind_reaches _ _ := trivial
  behind_of_reaches _ _ := trivial
  enough_zero _ := le_refl _
  enough_succ _ _ := trivial
  value_refl _ := rfl
  value_map := equal_map
  flags_and := equal_and
  pure_related := by rintro k a _ rfl; exact le_refl _
  bind_related hm hf := Run.bind_mono hm fun a => hf a a rfl
  accept_related := by
    intro k β pick t t' o o' _ ht ho s
    unfold accept
    cases hp : pick s.current with
    | none => exact ho s
    | some b => exact ht k s.current b trivial trivial hp _
  acceptAssignment_related := by
    intro k t t' o o' ht ho s
    unfold acceptAssignment
    split
    · exact ht k _ _ trivial trivial _
    · exact ho s
  lookahead_related := by
    intro k test y y' n n' hy hn s
    unfold lookahead
    split
    · exact hy s
    · exact hn s
  inTurns_related := by
    intro k loop loop' h s
    exact h k trivial _ trivial s

theorem onShell_mono {α : Type} {m m' : ShellRun W α} (h : m ≤ m') : onShell m ≤ onShell m' :=
  Run.within_mono h

/-- Two settings that differ in how often their evaluations finish, where names
    are read at depths from `floor` on. -/
structure Setting.Below (floor : Nat) (p p' : Setting W) : Prop where
  host : p.host = p'.host
  input : p.input = p'.input
  bash : p.bash = p'.bash
  nested : ∀ t depth, floor < depth → depth ≤ maxNameDepth → p.nested t depth ≤ p'.nested t depth
  restart : ∀ t, p.restart t ≤ p'.restart t

section Below

variable {floor : Nat} {p p' : Setting W}

theorem complain_eq_of_input {α : Type} (h : p.input = p'.input) (c : Complaint) :
    (complain p c : Walk W α) = complain p' c := by
  unfold complain
  rw [h]

theorem apply_eq_of_input (h : p.input = p'.input) (op : BinaryOperator) (left right : Int64) :
    apply p op left right = apply p' op left right := by
  unfold apply
  simp only [complain_eq_of_input h]

theorem Setting.Below.valueOf_le (h : Setting.Below floor p p') {depth : Nat}
    (hfloor : floor ≤ depth) (value : Bytes) : valueOf p depth value ≤ valueOf p' depth value := by
  unfold valueOf
  rw [complain_eq_of_input h.input]
  split_ifs with hblank hdepth
  · exact le_refl _
  · exact le_refl _
  · exact onShell_mono (h.nested value (depth + 1) (by omega) (by omega))

theorem Setting.Below.resolve_le (h : Setting.Below floor p p') (base subscript : Bytes) :
    onShell (resolveTextSelector p.host p.restart base subscript) ≤
      onShell (resolveTextSelector p'.host p'.restart base subscript) := by
  rw [h.host]
  exact onShell_mono (resolveTextSelector_mono h.restart base subscript)

theorem Setting.Below.read_le (h : Setting.Below floor p p') {depth : Nat}
    (hfloor : floor ≤ depth) (name : Name) : read p depth name ≤ read p' depth name := by
  unfold read
  cases name.subscript with
  | none =>
    simp only [scalar]
    rw [h.host, h.bash]
    split
    · refine Run.bind_mono_right fun value => ?_
      cases value with
      | none => exact le_refl _
      | some value => exact h.valueOf_le hfloor value
    · exact le_refl _
  | some subscript =>
    exact Run.bind_mono (h.resolve_le _ _) fun selector =>
      Run.bind_mono_right fun s => h.valueOf_le hfloor _

theorem Setting.Below.write_le (h : Setting.Below floor p p') (name : Name) (value : Int64) :
    write p name value ≤ write p' name value := by
  unfold write
  cases name.subscript with
  | none =>
    simp only
    rw [h.host]
  | some subscript =>
    refine Run.bind_mono (h.resolve_le _ _) fun selector => ?_
    refine Run.bind_mono ?_ fun _ => le_refl _
    rw [h.host]
    exact onShell_mono (assignElement_mono h.restart _ _ _ _ _)

theorem Setting.Below.leaves (h : Setting.Below floor p p') :
    Leaves (leSimulation W) floor p p' where
  complain := by
    intro k c _ _
    exact le_of_eq (complain_eq_of_input h.input c)
  read := by
    rintro k depth e _ name _ hfloor rfl
    cases e with
    | false => exact le_refl _
    | true => exact h.read_le hfloor name
  postfixed := by
    rintro k e _ value _ name delta _ rfl rfl
    cases e with
    | false => exact le_refl _
    | true => exact Run.bind_mono (h.write_le name _) fun _ => le_refl _
  stepped := by
    rintro k depth e _ name delta _ hfloor rfl
    cases e with
    | false => exact le_refl _
    | true => exact Run.bind_mono (h.read_le hfloor name) fun value => h.write_le name _
  assigned := by
    rintro k depth e _ result _ name op _ hfloor rfl rfl
    cases e with
    | false => exact le_refl _
    | true =>
      refine Run.bind_mono ?_ fun value => h.write_le name value
      cases op with
      | none => exact le_refl _
      | some op =>
        exact Run.bind_mono (h.read_le hfloor name) fun value =>
          le_of_eq (apply_eq_of_input h.input op value result)
  applied := by
    rintro k e _ left _ right _ op rfl rfl rfl
    exact le_of_eq (by unfold applied; rw [apply_eq_of_input h.input])
  raised := by
    rintro k e _ base _ exponent _ rfl rfl rfl
    exact le_of_eq (by unfold raised; rw [apply_eq_of_input h.input])

end Below

theorem Setting.Below.refl (p : Setting W) : Setting.Below 0 p p where
  host := rfl
  input := rfl
  bash := rfl
  nested _ _ _ _ := le_refl _
  restart _ := le_refl _

/-- A walk whose evaluations finish more often finishes more often. -/
theorem walk_mono {floor : Nat} {p p' : Setting W} (h : Setting.Below floor p p') (n : Nat)
    {rule : Rule} {e : Bool} {depth : Nat} (hfloor : floor ≤ depth) :
    walk p n ⟨rule, e, depth⟩ ≤ walk p' n ⟨rule, e, depth⟩ :=
  walk_related h.leaves (fun _ => le_refl _) n 0 rfl hfloor

/-- The charge of a call. -/
def Call.charge (call : Call) : Nat := Nsh.Arithmetic.charge call.rule call.depth

/-- The rules are charged for every call but those for right operands. -/
theorem body_guarded (p : Setting W) : Nested.Guarded (body p) Call.charge := by
  intro c c' r r' call hc hr
  obtain ⟨rule, e, depth⟩ := call
  refine body_related (k := 0) (Setting.Below.refl p).leaves rfl (Nat.zero_le depth) ?_ ?_ ?_
  · rintro rule' e _ depth' rfl _ _ hcharge
    exact hc _ hcharge
  · rintro j tok _ rule' e _ depth' rfl _ hcharge
    exact hc _ hcharge
  · rintro j tok _ _ rule' e _ rfl
    exact hr _

/-! ### Walks take tokens -/

/-- A computation that leaves the tokens where they are. -/
def Keeps {α : Type} (m : Walk W α) : Prop := ∀ s v t, m s = .done v t → t.rest = s.rest

theorem keeps_pure {α : Type} (a : α) : Keeps (pure a : Walk W α) := by
  intro s v t h
  cases h
  rfl

theorem keeps_get : Keeps (Run.get : Walk W (Parser W)) := by
  intro s v t h
  cases h
  rfl

theorem keeps_complain {α : Type} (p : Setting W) (c : Complaint) :
    Keeps (complain p c : Walk W α) := by
  intro s v t h
  cases h

theorem keeps_bind {α β : Type} {m : Walk W α} {f : α → Walk W β} (hm : Keeps m)
    (hf : ∀ a, Keeps (f a)) : Keeps (m >>= f) := by
  intro s v t h
  obtain ⟨a, u, hu, ht⟩ := Run.bind_eq_done h
  rw [hf a u v t ht, hm s a u hu]

theorem keeps_onShell {α : Type} (m : ShellRun W α) : Keeps (onShell m) := by
  intro s v t h
  unfold onShell Run.within at h
  split at h
  · cases h; rfl
  · cases h
  · cases h

section Leaves

variable (p : Setting W)

theorem keeps_valueOf (depth : Nat) (value : Bytes) : Keeps (valueOf p depth value) := by
  unfold valueOf
  split_ifs
  · exact keeps_pure 0
  · exact keeps_complain p _
  · exact keeps_onShell _

theorem keeps_read (depth : Nat) (name : Name) : Keeps (read p depth name) := by
  unfold read
  cases name.subscript with
  | none =>
    simp only [scalar]
    split
    · refine keeps_bind (keeps_onShell _) fun value => ?_
      cases value with
      | some value => exact keeps_valueOf p depth value
      | none =>
        refine keeps_bind keeps_get fun s => ?_
        split
        · exact keeps_onShell _
        · exact keeps_pure 0
    · exact keeps_onShell _
  | some subscript =>
    exact keeps_bind (keeps_onShell _) fun selector =>
      keeps_bind keeps_get fun s => keeps_valueOf p depth _

theorem keeps_write (name : Name) (value : Int64) : Keeps (write p name value) := by
  unfold write
  cases name.subscript with
  | none => exact keeps_onShell _
  | some subscript =>
    exact keeps_bind (keeps_onShell _) fun selector =>
      keeps_bind (keeps_onShell _) fun _ => keeps_pure value

/-- An operator either has a value or is complained about; it touches nothing. -/
theorem apply_cases (op : BinaryOperator) (left right : Int64) (s : Parser W) :
    (∃ v, apply p op left right s = .done v s) ∨
      ∃ c, (c = .divisionError ∨ c = .negativeExponent) ∧
        apply p op left right s = .failed (arithmeticError p.input c s.shell) s := by
  cases op with
  | power =>
    simp only [apply]
    split
    · exact Or.inr ⟨.negativeExponent, Or.inr rfl, rfl⟩
    · exact Or.inl ⟨_, rfl⟩
  | remainder =>
    simp only [apply]
    split
    · exact Or.inr ⟨.divisionError, Or.inl rfl, rfl⟩
    · exact Or.inl ⟨_, rfl⟩
  | divide =>
    simp only [apply]
    split
    · exact Or.inr ⟨.divisionError, Or.inl rfl, rfl⟩
    · exact Or.inl ⟨_, rfl⟩
  | _ => exact Or.inl ⟨_, rfl⟩

theorem keeps_apply (op : BinaryOperator) (left right : Int64) : Keeps (apply p op left right) := by
  intro s v t h
  rcases apply_cases p op left right s with ⟨u, hu⟩ | ⟨c, _, hc⟩
  · rw [hu] at h; cases h; rfl
  · rw [hc] at h; cases h

theorem keeps_assignedValue (depth : Nat) (name : Name) (op : Option BinaryOperator)
    (result : Int64) : Keeps (assignedValue p depth name op result) := by
  cases op with
  | none => exact keeps_pure result
  | some op => exact keeps_bind (keeps_read p depth name) fun v => keeps_apply p op v result

theorem keeps_assigned (e : Bool) (depth : Nat) (name : Name) (op : Option BinaryOperator)
    (result : Int64) : Keeps (assigned p e depth name op result) := by
  cases e with
  | false => exact keeps_pure result
  | true =>
    exact keeps_bind (keeps_assignedValue p depth name op result) fun v => keeps_write p name v

end Leaves

/-! ### Bounded walks -/

/-- What a bounded simulation asks of two outcomes: a condition that sequencing
    respects and that holds of every outcome that is the same on both sides. -/
structure Pointwise (P : Outcome (Parser W) Error Int64 → Outcome (Parser W) Error Int64 → Prop) :
    Prop where
  done : ∀ v s, P (.done v s) (.done v s)
  failed : ∀ e s, P (.failed e s) (.failed e s)
  bind : ∀ {m m' : Walk W Int64} {f f' : Int64 → Walk W Int64} {s}, P (m s) (m' s) →
    (∀ v t, m s = .done v t → P (f v t) (f' v t)) → P ((m >>= f) s) ((m' >>= f') s)

/-- A walk below another, outcome by outcome. -/
theorem pointwise_le : Pointwise (W := W) (· ≤ ·) where
  done _ _ := le_refl _
  failed _ _ := le_refl _
  bind := by
    intro m m' f f' s hm hf
    rw [Run.bind_apply, Run.bind_apply]
    rcases hm with hm | hm
    · rw [hm]; exact bot_le
    · rw [← hm]
      cases hms : m s with
      | done v t => exact hf v t hms
      | failed e t => exact le_refl _
      | unfinished => exact le_refl _

/-- A walk that finishes. -/
theorem pointwise_finishes : Pointwise (W := W) (fun o _ => o ≠ .unfinished) where
  done _ _ := nofun
  failed _ _ := nofun
  bind := by
    intro m m' f f' s hm hf
    rw [Run.bind_apply]
    cases hms : m s with
    | done v t => exact hf v t hms
    | failed e t => exact nofun
    | unfinished => exact absurd hms hm

section Weighted

variable (weight : Token → Nat) (token : Token → Prop)
  (P : Outcome (Parser W) Error Int64 → Outcome (Parser W) Error Int64 → Prop)

/-- What a list of tokens weighs. -/
def size (rest : List Token) : Nat := (rest.map weight).sum

/-- From states whose tokens weigh at most `k` and are all `token`s, the outcomes
    compare, and the tokens left afterwards are the last of those. -/
def Bounded (k : Nat) (m m' : Walk W Int64) : Prop :=
  ∀ s, size weight s.rest ≤ k → (∀ t ∈ s.rest, token t) →
    P (m s) (m' s) ∧ ∀ v t, m s = .done v t → t.rest <:+ s.rest

variable {weight token P}

@[simp] theorem size_cons (t : Token) (rest : List Token) :
    size weight (t :: rest) = weight t + size weight rest := by
  simp [size]

theorem size_suffix {rest rest' : List Token} (h : rest <:+ rest') :
    size weight rest ≤ size weight rest' := by
  obtain ⟨front, rfl⟩ := h
  simp [size]

/-- Where every token weighs one, a list weighs its length. -/
theorem size_one (rest : List Token) : size (fun _ => 1) rest = rest.length := by
  simp [size]

theorem Bounded.of_keeps {k : Nat} {m m' : Walk W Int64} (hm : Keeps m)
    (h : ∀ s, P (m s) (m' s)) : Bounded weight token P k m m' :=
  fun s _ _ => ⟨h s, fun v t ht => by rw [hm s v t ht]⟩

theorem Bounded.anti {j k : Nat} {m m' : Walk W Int64} (hjk : j ≤ k)
    (h : Bounded weight token P k m m') : Bounded weight token P j m m' :=
  fun s hs => h s (le_trans hs hjk)

end Weighted

/-- A token that is taken is one of those left. -/
theorem rest_of_pick {β : Type} {pick : Token → Option β} (hpick : pick .eof = none)
    {s : Parser W} {b : β} (h : pick s.current = some b) :
    s.rest = s.current :: s.rest.drop 1 := by
  unfold Parser.current at h ⊢
  cases hrest : s.rest with
  | nil =>
    rw [hrest] at h
    exact absurd (hpick.symm.trans h) (by simp)
  | cons token rest => rfl

/-- Loops have turns enough: each token weighs one, or running out of turns is no
    harm. -/
def Loops (weight : Token → Nat)
    (P : Outcome (Parser W) Error Int64 → Outcome (Parser W) Error Int64 → Prop) : Prop :=
  (∀ tok, weight tok = 1) ∨ P .unfinished .unfinished

/-- Walks compared token by token; with `skips`, those that only parse. -/
def boundedSimulation {weight : Token → Nat} (token : Token → Prop) (skips : Bool)
    {P : Outcome (Parser W) Error Int64 → Outcome (Parser W) Error Int64 → Prop}
    (hP : Pointwise P) (hloops : Loops weight P) : Simulation W where
  related := Bounded weight token P
  reaches := (· ≤ ·)
  behind tok j k := j + weight tok ≤ k
  enough k turns := ((∀ tok, weight tok = 1) ∧ k < turns) ∨ P .unfinished .unfinished
  value := Eq
  flags e e' := e = e' ∧ (skips = true → e = false)
  token := token
  reaches_refl := le_refl
  reaches_trans := le_trans
  reaches_behind h := by omega
  behind_reaches h h' := by omega
  behind_of_reaches h h' := by omega
  enough_zero := by
    rintro k (⟨_, h⟩ | h)
    · exact absurd h (Nat.not_lt_zero _)
    · exact fun s _ _ => ⟨h, nofun⟩
  enough_succ := by
    rintro tok j k turns hj (⟨hw, hk⟩ | h)
    · have := hw tok
      exact Or.inl ⟨hw, by omega⟩
    · exact Or.inr h
  value_refl _ := rfl
  value_map := equal_map
  flags_and := by
    rintro g e _ a _ ⟨rfl, he⟩ rfl
    exact ⟨rfl, fun h => by rw [he h, Bool.false_and]⟩
  pure_related := by
    rintro k a _ rfl
    exact Bounded.of_keeps (keeps_pure a) fun s => hP.done a s
  bind_related := by
    intro k m m' f f' hm hf s hs htok
    have hnext : ∀ v t, m s = .done v t → size weight t.rest ≤ k ∧ ∀ u ∈ t.rest, token u := by
      intro v t hv
      have hsuffix := (hm s hs htok).2 v t hv
      exact ⟨le_trans (size_suffix hsuffix) hs, fun u hu => htok u (hsuffix.subset hu)⟩
    refine ⟨hP.bind (hm s hs htok).1 fun v t hv => ?_, fun v u h => ?_⟩
    · exact (hf v v rfl t (hnext v t hv).1 (hnext v t hv).2).1
    · obtain ⟨a, t, ht, hu⟩ := Run.bind_eq_done h
      have hlast := (hf a a rfl t (hnext a t ht).1 (hnext a t ht).2).2 v u hu
      exact hlast.trans ((hm s hs htok).2 a t ht)
  accept_related := by
    intro k β pick t t' o o' hpick ht ho s hs htok
    unfold accept
    cases hp : pick s.current with
    | none => exact ho s hs htok
    | some b =>
      have hrest := rest_of_pick hpick hp
      have hsize : size weight s.rest = weight s.current + size weight (s.rest.drop 1) :=
        (congrArg (size weight) hrest).trans (size_cons _ _)
      have hcurrent : s.current ∈ s.rest := hrest ▸ List.mem_cons_self
      obtain ⟨h, hkept⟩ := ht (size weight (s.rest.drop 1)) s.current b (by omega)
        (htok _ hcurrent) hp { s with rest := s.rest.drop 1 } (le_refl _)
        (fun u hu => htok u (List.mem_of_mem_drop hu))
      exact ⟨h, fun v u hu => (hkept v u hu).trans (List.drop_suffix 1 s.rest)⟩
  acceptAssignment_related := by
    intro k t t' o o' ht ho s hs htok
    unfold acceptAssignment
    split
    · next name op rest hrest =>
      have hsize : size weight s.rest =
          weight (.name name) + (weight (.assign op) + size weight rest) := by
        rw [hrest, size_cons, size_cons]
      have hsuffix : rest <:+ s.rest := hrest ▸ ⟨[.name name, .assign op], rfl⟩
      obtain ⟨h, hkept⟩ := ht (size weight rest) name op (by omega)
        (htok _ (hrest ▸ List.mem_cons_self)) { s with rest := rest } (le_refl _)
        (fun u hu => htok u (hsuffix.subset hu))
      exact ⟨h, fun v u hu => (hkept v u hu).trans hsuffix⟩
    · exact ho s hs htok
  lookahead_related := by
    intro k test y y' n n' hy hn s hs htok
    unfold lookahead
    split
    · exact hy s hs htok
    · exact hn s hs htok
  inTurns_related := by
    intro k loop loop' h s hs htok
    refine h (size weight s.rest) hs _ ?_ s (le_refl _) htok
    rcases hloops with hw | hbot
    · have hsize : size weight s.rest = s.rest.length := by
        rw [funext hw, size_one]
      exact Or.inl ⟨hw, by omega⟩
    · exact Or.inr hbot

/-- The leaves of a bounded simulation, when reading and writing satisfy its
    condition. -/
theorem boundedLeaves {weight : Token → Nat}
    {P : Outcome (Parser W) Error Int64 → Outcome (Parser W) Error Int64 → Prop}
    (hP : Pointwise P) (hloops : Loops weight P) (token : Token → Prop) (skips : Bool)
    (floor : Nat) (p : Setting W)
    (hread : skips = false → ∀ depth name s, token (.name name) → floor ≤ depth →
      P (read p depth name s) (read p depth name s))
    (hwrite : skips = false → ∀ name value s, token (.name name) →
      P (write p name value s) (write p name value s)) :
    Leaves (boundedSimulation token skips hP hloops) floor p p := by
  -- A walk that evaluates is not one that skips.
  have hevaluates : (skips = true → true = false) → skips = false := by
    intro h
    cases skips with
    | false => rfl
    | true => exact absurd (h rfl) (by decide)
  have happly : ∀ op left right s, P (apply p op left right s) (apply p op left right s) := by
    intro op left right s
    rcases apply_cases p op left right s with ⟨v, hv⟩ | ⟨c, _, hc⟩
    · rw [hv]; exact hP.done v s
    · rw [hc]; exact hP.failed _ s
  exact {
    complain := fun c _ _ => Bounded.of_keeps (keeps_complain p c) fun s => hP.failed _ s
    read := by
      rintro k depth e _ name hname hfloor ⟨rfl, he⟩
      cases e with
      | false => exact Bounded.of_keeps (keeps_pure 0) fun s => hP.done 0 s
      | true =>
        exact Bounded.of_keeps (keeps_read p depth name)
          fun s => hread (hevaluates he) depth name s hname hfloor
    postfixed := by
      rintro k e _ value _ name delta hname ⟨rfl, he⟩ rfl
      cases e with
      | false => exact Bounded.of_keeps (keeps_pure value) fun s => hP.done value s
      | true =>
        exact Bounded.of_keeps (keeps_bind (keeps_write p name _) fun _ => keeps_pure value)
          fun s => hP.bind (hwrite (hevaluates he) name _ s hname) fun _ t _ => hP.done value t
    stepped := by
      rintro k depth e _ name delta hname hfloor ⟨rfl, he⟩
      cases e with
      | false => exact Bounded.of_keeps (keeps_pure 0) fun s => hP.done 0 s
      | true =>
        exact Bounded.of_keeps (keeps_bind (keeps_read p depth name) fun _ => keeps_write p name _)
          fun s => hP.bind (hread (hevaluates he) depth name s hname hfloor) fun _ t _ =>
            hwrite (hevaluates he) name _ t hname
    assigned := by
      rintro k depth e _ result _ name op hname hfloor ⟨rfl, he⟩ rfl
      cases e with
      | false => exact Bounded.of_keeps (keeps_pure result) fun s => hP.done result s
      | true =>
        have hvalue : ∀ s, P (assignedValue p depth name op result s)
            (assignedValue p depth name op result s) := by
          intro s
          cases op with
          | none => exact hP.done result s
          | some op =>
            exact hP.bind (hread (hevaluates he) depth name s hname hfloor) fun v t _ =>
              happly op v result t
        exact Bounded.of_keeps (keeps_assigned p true depth name op result)
          fun s => hP.bind (hvalue s) fun v t _ => hwrite (hevaluates he) name v t hname
    applied := by
      rintro k e _ left _ right _ op ⟨rfl, _⟩ rfl rfl
      cases e with
      | false => exact Bounded.of_keeps (keeps_pure right) fun s => hP.done right s
      | true => exact Bounded.of_keeps (keeps_apply p op left right) (happly op left right)
    raised := by
      rintro k e _ base _ exponent _ ⟨rfl, _⟩ rfl rfl
      cases e with
      | false => exact Bounded.of_keeps (keeps_pure exponent) fun s => hP.done exponent s
      | true =>
        exact Bounded.of_keeps (keeps_apply p .power base exponent) (happly .power base exponent) }

/-- Comma lists compare as their sides do. -/
theorem comma_bounded {weight : Token → Nat}
    {P : Outcome (Parser W) Error Int64 → Outcome (Parser W) Error Int64 → Prop}
    (hP : Pointwise P) (hloops : Loops weight P) {token : Token → Prop} {k depth : Nat} {e : Bool}
    {rules rules' : Call → Walk W Int64}
    (h : ∀ j ≤ k, Bounded weight token P j (rules ⟨.assignment, e, depth⟩)
      (rules' ⟨.assignment, e, depth⟩)) :
    Bounded weight token P k (comma rules e depth) (comma rules' e depth) :=
  @comma_related W (boundedSimulation token false hP hloops) rules rules' e e depth k
    fun {j} hj => h j hj

/-- Where each token weighs one, loops have turns enough. -/
theorem loops_one {P : Outcome (Parser W) Error Int64 → Outcome (Parser W) Error Int64 → Prop} :
    Loops (fun _ => 1) P := Or.inl fun _ => rfl

/-- A simulation bounded by the tokens left holds between walks allowed more
    activations than those can open. -/
theorem walk_bounded
    {P : Outcome (Parser W) Error Int64 → Outcome (Parser W) Error Int64 → Prop}
    {hP : Pointwise P} {token : Token → Prop} {skips : Bool} {floor : Nat} {p : Setting W}
    (L : Leaves (boundedSimulation token skips hP loops_one) floor p p) :
    ∀ (n n' k : Nat) (call : Call), (skips = true → call.evaluate = false) → floor ≤ call.depth →
      8 * k + call.rule.order < n → 8 * k + call.rule.order < n' →
      Bounded (fun _ => 1) token P k (walk p n call) (walk p n' call) := by
  intro n
  induction n with
  | zero => intro n' k call _ _ h; exact absurd h (Nat.not_lt_zero _)
  | succ n ih =>
    intro n' k call he hfloor hn hn'
    obtain ⟨rule, e, depth⟩ := call
    simp only at he hfloor hn hn'
    obtain ⟨n', rfl⟩ : ∃ m, n' = m + 1 := ⟨n' - 1, by omega⟩
    refine body_related (S := boundedSimulation token skips hP loops_one) (k := k) L ⟨rfl, he⟩
      hfloor ?_ ?_ ?_
    · rintro rule' e _ depth' ⟨rfl, he'⟩ hfloor' horder _
      exact ih n' k ⟨rule', e, depth'⟩ he' hfloor' (by simp only; omega) (by simp only; omega)
    · rintro j tok hj rule' e _ depth' ⟨rfl, he'⟩ hfloor' _
      have hj' : j + 1 ≤ k := hj
      have horder := order_le rule'
      exact ih n' j ⟨rule', e, depth'⟩ he' hfloor' (by simp only; omega) (by simp only; omega)
    · rintro j tok _ hj rule' e _ ⟨rfl, he'⟩
      have hj' : j + 1 ≤ k := hj
      have horder := order_le rule'
      exact ih n' j ⟨rule', e, depth⟩ he' hfloor (by simp only; omega) (by simp only; omega)

/-- **Past the activations its tokens can open, a bound changes nothing.** -/
theorem walk_stable (p : Setting W) {n n' : Nat} {call : Call} {s : Parser W}
    (hn : 8 * s.rest.length + call.rule.order < n)
    (hn' : 8 * s.rest.length + call.rule.order < n') : walk p n call s = walk p n' call s := by
  have L := boundedLeaves pointwise_le loops_one (fun _ => True) false 0 p
    (fun _ _ _ _ _ _ => le_refl _) (fun _ _ _ _ _ => le_refl _)
  have hfloor := Nat.zero_le call.depth
  have hsize := le_of_eq (size_one s.rest)
  have htok : ∀ t ∈ s.rest, True := fun _ _ => trivial
  have h := (walk_bounded L n n' s.rest.length call nofun hfloor hn hn' s hsize htok).1
  have h' := (walk_bounded L n' n s.rest.length call nofun hfloor hn' hn s hsize htok).1
  exact le_antisymm h h'

end Nsh.Arithmetic
