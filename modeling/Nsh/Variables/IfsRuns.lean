import Nsh.Variables.IfsAssigned

/-!
# The cache in every run

A run keeps the splitter's cache right as long as none of its steps is one of
the three that may not: an `unset` that takes the entry of `IFS` away, a kind
given to `IFS` while it has no value, and a declaration that makes `IFS` local
for an assignment that does not arrive.
-/

namespace Nsh.Variables

open Nsh.Run

variable {W : Type} {host : Host W}

/-! ### Which steps keep the cache -/

/-- The entry a declaration makes of `IFS` before anything else. -/
def enteredIfs (host : Host W) (operand : Bytes) (scope : DeclarationScope) (s : Shell W) :
    Shell W :=
  declareEntry host (text "IFS") scope
    (if (splitAssignmentOperand operand).2.1.isSome then .assigned else .discard) s

/-- A declaration of `IFS` leaves the cache for its assignment to put right. -/
def disturbsIfs (host : Host W) (requested : Requested) (operand : Bytes) (scope : DeclarationScope)
    (s : Shell W) : Prop :=
  ((splitAssignmentOperand operand).2.1.isSome ∧ scope = .runningBody ∧ freshLocal s (text "IFS")) ∨
    ∃ kind, requested.kind = some kind ∧
      convertible (enteredIfs host operand scope s) (text "IFS") kind = true ∧
      emptiesIfs (enteredIfs host operand scope s) kind .enforce

/-- The operation is neither refused nor stopped by an error. -/
def Operation.goesThrough (host : Host W) (op : Operation) (s : Shell W) : Prop :=
  ∀ n e t, op.perform host (Arithmetic.evaluate host n) s ≠ .failed e t

/-- The steps that keep the splitter's cache right. -/
def Operation.keepsIfs (host : Host W) (op : Operation) (s : Shell W) : Prop :=
  match op with
  | .attributed name attributes => name = text "IFS" → ¬ dropsIfs s attributes .marks
  | .unset operand => (readName s operand).getD operand = text "IFS" →
      ¬ dropsIfs s VariableAttributes.none
        (if s.options.dialect = .bash then AllExport.declines else .marks)
  | .giveKind name kind guard => name = text "IFS" → ¬ emptiesIfs s kind guard
  | .declare builtin requested operand scope =>
    declarationBase s builtin requested operand = .ok (some (text "IFS")) →
      disturbsIfs host requested operand scope s →
      (splitAssignmentOperand operand).2.1.isSome ∧ assignsIfs operand ∧
        (Operation.declare builtin requested operand scope).goesThrough host s
  | _ => True

/-! ### A declaration whose assignment arrives -/

section Declared

variable (hhost : Apart host) {evaluate : Bytes → ShellRun W Int64}

/-- Making `IFS` local afresh leaves it without a value and without an array kind. -/
theorem enteredIfs_fresh {operand : Bytes} {s : Shell W} (h : IfsEntered s)
    (hvalue : (splitAssignmentOperand operand).2.1.isSome)
    (hfresh : freshLocal s (text "IFS")) :
    ∃ entry, (enteredIfs host operand .runningBody s).entry (text "IFS") = some entry ∧
      (entry.state = .unset ∨ entry.state = .declared .scalar) := by
  obtain ⟨frame, hframe, hrecorded⟩ := hfresh
  obtain ⟨previous, hprevious⟩ := Option.isSome_iff_exists.mp h.held
  have hcallback := (h.entries _ _ hprevious).callback.mpr rfl
  have hlocal : (makeLocal host (text "IFS") .assigned s).entry (text "IFS") =
      some (Variable.fresh .unset VariableAttributes.none .ifs) := by
    unfold makeLocal
    rw [hframe, ← hcallback]
    simp only [hrecorded, hprevious, Bool.false_eq_true, if_false]
    exact Shell.entry_insert_self _ _ _
  unfold enteredIfs declareEntry
  rw [if_pos rfl, if_pos hvalue]
  generalize makeLocal host (text "IFS") .assigned s = made at hlocal
  have hensured : (ensureEntry (text "IFS") made).entry (text "IFS") =
        some (Variable.fresh .unset VariableAttributes.none .ifs) ∨
      (ensureEntry (text "IFS") made).entry (text "IFS") =
        some (Variable.fresh (.declared .scalar) VariableAttributes.none .ifs) := by
    unfold ensureEntry
    split
    · rw [hlocal]
      exact .inr (Shell.entry_insert_self _ _ _)
    · exact .inl hlocal
  have hrefresh : refresh host (text "IFS") (ensureEntry (text "IFS") made) =
      ensureEntry (text "IFS") made := by
    refine refresh_plain host fun entry hentry => ?_
    rcases hensured with h | h
    all_goals
      rw [h] at hentry
      cases hentry
      exact ⟨rfl, nofun⟩
  simp only [hrefresh]
  rcases hensured with h | h
  · exact ⟨_, h, .inl rfl⟩
  · exact ⟨_, h, .inr rfl⟩

/-- Before its assignment a declaration that disturbs the cache has left `IFS`
    without a value, and may give it the kind asked for. -/
theorem disturbsIfs_entered {requested : Requested} {operand : Bytes} {scope : DeclarationScope}
    {s : Shell W} (h : IfsEntered s) (hdisturbs : disturbsIfs host requested operand scope s) :
    variableValue (enteredIfs host operand scope s) (text "IFS") = none ∧
      ∀ kind, requested.kind = some kind →
        convertible (enteredIfs host operand scope s) (text "IFS") kind = true := by
  rcases hdisturbs with ⟨hvalue, rfl, hfresh⟩ | ⟨kind, hkind, hconvertible, _, hnone, _⟩
  · obtain ⟨entry, hentry, hstate⟩ := @enteredIfs_fresh _ host _ _ h hvalue hfresh
    obtain ⟨attributes, state, letters, callback, literal⟩ := entry
    constructor
    · rw [variableValue_of_entry hentry]
      rcases hstate with rfl | rfl <;> rfl
    · intro kind _
      unfold convertible variableKind
      rw [hentry]
      rcases hstate with rfl | rfl
      · rfl
      · exact Bool.or_true _
  · refine ⟨hnone, fun kind' hkind' => ?_⟩
    rw [hkind, Option.some.injEq] at hkind'
    exact hkind' ▸ hconvertible

/-- What the names of a declaration of `IFS` say. -/
theorem declarationBase_reaches {s : Shell W} {builtin : Bytes} {requested : Requested}
    {operand : Bytes}
    (h : declarationBase s builtin requested operand = .ok (some (text "IFS"))) :
    reachesIfs s (operandName (splitAssignmentOperand operand).1) := by
  unfold declarationBase at h
  simp only at h
  generalize (if requested.nameref = some true then refusedReference s requested _ _ else none) =
    refusal at h
  generalize hbase : (if requested.nameref.isSome = true then
    some (operandName (splitAssignmentOperand operand).1)
    else declaredName s (operandName (splitAssignmentOperand operand).1)) = base at h
  split_ifs at h
  split at h
  · cases h
  · cases h
  · cases base with
    | none => cases h
    | some base =>
      simp only at h
      split_ifs at h
      cases h
      split_ifs at hbase with hnameref
      · exact .inl (Option.some.inj hbase)
      · exact reachesIfs_of_declaredName hbase

include hhost in
theorem elsewhere_enteredIfs {operand : Bytes} {scope : DeclarationScope} {s : Shell W}
    (h : IfsKept (· = true) s) : Elsewhere s (enteredIfs host operand scope s) := by
  unfold enteredIfs declareEntry
  generalize (if (splitAssignmentOperand operand).2.1.isSome = true then LocalValue.assigned
    else LocalValue.discard) = value
  have hlocal : ∀ made, (if scope = .runningBody then makeLocal host (text "IFS") value s
      else s) = made → Elsewhere s made ∧ IfsKept (· = true) made := by
    rintro made rfl
    split
    · exact ⟨elsewhere_makeLocal h.toIfsEntered value, h.makeLocal hhost _ value fun _ _ _ => nofun⟩
    · exact ⟨.refl s, h⟩
  obtain ⟨helse, hkept⟩ := hlocal _ rfl
  simp only
  rw [refresh_ifs (hkept.ensureEntry _).toIfsEntered]
  exact helse.trans (elsewhere_ensureEntry _)

/-- Attributes leave a set `IFS` set. -/
theorem ifsIsSet_declareAttributes (requested : Requested) (base : Bytes) (scope : DeclarationScope)
    (wasExported : Bool) {s : Shell W} (h : ifsIsSet s = true) :
    ifsIsSet (declareAttributes requested base scope wasExported s) = true := by
  have hmodify : ∀ {change : Variable → Variable} {s : Shell W},
      (∀ entry, (change entry).state = entry.state) → ifsIsSet s = true →
      ifsIsSet (modifyEntry base change s) = true := by
    intro change s hstate h
    unfold modifyEntry
    cases hentry : s.entry base with
    | none => exact h
    | some entry =>
      by_cases hbase : base = text "IFS"
      · subst hbase
        rw [ifsIsSet_of_entry (Shell.entry_insert_self _ _ _), hstate, ← ifsIsSet_of_entry hentry]
        exact h
      · exact (ifsIsSet_congr (Shell.entry_insert_of_ne s hbase _)).trans h
  have heither : ∀ {c : Prop} {_ : Decidable c} {s t : Shell W}, ifsIsSet s = true →
      ifsIsSet t = true → ifsIsSet (if c then s else t) = true := by
    intro c _ s t hs ht
    split_ifs
    · exact hs
    · exact ht
  have hadd : ∀ {attributes : VariableAttributes} {s : Shell W}, ifsIsSet s = true →
      ifsIsSet (addAttributes base attributes s) = true := fun h => hmodify (fun _ => rfl) h
  have hclear : ∀ {s : Shell W}, ifsIsSet s = true → ifsIsSet (clearExported base s) = true :=
    fun h => hmodify (fun _ => rfl) h
  have hreferring : ifsIsSet (if requested.nameref = some true then
      setBashAttribute base .nameref true s else s) = true :=
    heither (hmodify (fun _ => rfl) h) h
  unfold declareAttributes
  exact heither (hclear (heither hreferring (hadd hreferring)))
    (heither (hclear (heither hreferring (hadd hreferring))) (heither hreferring (hadd hreferring)))

include hhost in
/-- A declaration that disturbs the cache and goes through leaves `IFS` set. -/
theorem declareName_setsIfs {builtin : Bytes} {requested : Requested} {operand value : Bytes}
    {scope : DeclarationScope} {s t : Shell W} {answer : Bool} (h : IfsKept (· = true) s)
    (hbase : declarationBase s builtin requested operand = .ok (some (text "IFS")))
    (hdisturbs : disturbsIfs host requested operand scope s)
    (hvalue : (splitAssignmentOperand operand).2.1 = some value) (hassigns : assignsIfs operand)
    (hrun : declareName host evaluate builtin requested (splitAssignmentOperand operand).1
      (text "IFS") (some value) (splitAssignmentOperand operand).2.2 scope s = .done answer t) :
    ifsIsSet t = true := by
  obtain ⟨hnone, hconvertible⟩ := disturbsIfs_entered h.toIfsEntered hdisturbs
  have helse : Elsewhere s (enteredIfs host operand scope s) := elsewhere_enteredIfs hhost h
  have hentered : IfsKept (· = true) (enteredIfs host operand scope s) :=
    h.declareEntry hhost _ _ _ fun _ _ _ _ => nofun
  unfold declareName at hrun
  rw [bind_done (modify_apply _ s), bind_done (get_apply _),
    show declareEntry host (text "IFS") scope
      (if (some value).isSome then .assigned else .discard) s
      = enteredIfs host operand scope s by unfold enteredIfs; rw [hvalue]] at hrun
  obtain ⟨given, u, hkind, hrest⟩ := bind_eq_done hrun
  -- The kind asked for can be given, and leaves `IFS` without a value still.
  have hgiven : given = true ∧ Elsewhere s u ∧ variableValue u (text "IFS") = none := by
    unfold declareKind at hkind
    rw [bind_done (get_apply _)] at hkind
    cases hrequested : requested.kind with
    | none =>
      rw [hrequested] at hkind
      cases hkind
      exact ⟨rfl, helse, hnone⟩
    | some kind =>
      rw [hrequested] at hkind
      simp only [hconvertible kind hrequested, if_true] at hkind
      obtain ⟨_, v, hensure, hpure⟩ := bind_eq_done hkind
      cases hpure
      obtain ⟨hkept, hunvalued⟩ := elsewhere_ensureKind hhost hentered.toIfsEntered hnone hensure
      exact ⟨rfl, helse.trans hkept, hunvalued⟩
  obtain ⟨rfl, hu, hunvalued⟩ := hgiven
  simp only [if_true] at hrest
  rw [bind_done (modify_apply _ u)] at hrest
  obtain ⟨_, v, hassign, hafter⟩ := bind_eq_done hrest
  have hletters := (variableValue_declareLetters requested (text "IFS") u).trans hunvalued
  have hset : ifsIsSet v = true := assignDeclared_setsIfs hhost hletters hassigns
    (reachesIfs_elsewhere (hu.trans (elsewhere_declareLetters requested u)) hletters
      (declarationBase_reaches hbase)) hassign
  obtain ⟨_, w, hmodify, hpure⟩ := bind_eq_done hafter
  cases hmodify
  cases hpure
  exact ifsIsSet_declareAttributes _ _ _ _ hset

end Declared

/-! ### One step -/

section Steps

variable (hhost : Apart host)
variable (hexpand : ∀ needed, (ifsInvariant needed : Invariant W).Expands host)

include hhost hexpand in
theorem evaluate_ifsKept (needed : Bool → Prop) (n : Nat) (input : Bytes) :
    (Arithmetic.evaluate host n input).Preserves (IfsKept needed) :=
  Arithmetic.evaluate_preserves (ifsInvariant_closed hhost (hexpand needed)) n input

include hhost hexpand in
theorem applyDeclaration_ifsKept {n : Nat} {builtin : Bytes} {requested : Requested}
    {operand : Bytes} {scope : DeclarationScope} {s t : Shell W}
    (h : IfsKept (fun _ => True) s)
    (hkeeps : (Operation.declare builtin requested operand scope).keepsIfs host s)
    (hends : (applyDeclaration host (Arithmetic.evaluate host n) builtin requested operand
      scope).Ends s t) : IfsKept (fun _ => True) t := by
  have hmeets : ∀ needed, IfsKept needed s → (∀ base,
      declarationBase s builtin requested operand = .ok (some base) →
      (declareName host (Arithmetic.evaluate host n) builtin requested
        (splitAssignmentOperand operand).1 base (splitAssignmentOperand operand).2.1
        (splitAssignmentOperand operand).2.2 scope s).Meets (IfsKept needed) fun _ => True) →
      IfsKept needed t := by
    intro needed hs hdeclare
    refine ends_meets hends (Q := fun _ => True) ?_
    unfold applyDeclaration
    rw [bind_done (get_apply s)]
    cases hbase : declarationBase s builtin requested operand with
    | error message =>
      simp only
      split
      · exact ⟨trivial, hs.congr rfl rfl⟩
      · exact ⟨trivial, hs⟩
    | ok reached =>
      cases reached with
      | none => exact ⟨trivial, hs⟩
      | some base => exact hdeclare base hbase
  have hdeclared : ∀ needed base, IfsKept needed s →
      (base = text "IFS" → needed false → ¬ disturbsIfs host requested operand scope s) →
      (declareName host (Arithmetic.evaluate host n) builtin requested
        (splitAssignmentOperand operand).1 base (splitAssignmentOperand operand).2.1
        (splitAssignmentOperand operand).2.2 scope s).Meets (IfsKept needed) fun _ => True := by
    intro needed base hs hcalm
    refine declareName_ifsKept hhost (hexpand needed) (evaluate_ifsKept hhost hexpand needed n)
      (hs.declareEntry hhost base scope _ fun hbase hassigned hscope hfresh hneeded => ?_)
      fun hbase hneeded kind hkind hconvertible hempties => ?_
    · refine hcalm hbase hneeded (.inl ⟨?_, hscope, hbase ▸ hfresh⟩)
      split_ifs at hassigned with hvalue
      exact hvalue
    · subst hbase
      exact hcalm rfl hneeded (.inr ⟨kind, hkind, hconvertible, hempties⟩)
  by_cases hdisturbs : declarationBase s builtin requested operand = .ok (some (text "IFS")) ∧
      disturbsIfs host requested operand scope s
  · -- The cache is right only where `IFS` is set, and the assignment leaves it set.
    obtain ⟨hbase, hdisturbs⟩ := hdisturbs
    obtain ⟨hvalue, hassigns, hthrough⟩ := hkeeps hbase hdisturbs
    have hloose : IfsKept (· = true) s := h.mono fun _ => trivial
    have hkept := hmeets (· = true) hloose fun base _ => hdeclared _ base hloose fun _ => nofun
    have hset : ifsIsSet t = true := by
      rcases hends with ⟨answer, hdone⟩ | ⟨e, hfailed⟩
      · obtain ⟨value, hvalue⟩ := Option.isSome_iff_exists.mp hvalue
        unfold applyDeclaration at hdone
        rw [bind_done (get_apply s), hbase] at hdone
        simp only [hvalue] at hdone
        exact declareName_setsIfs hhost hloose hbase hdisturbs hvalue hassigns hdone
      · exact absurd (bind_failed hfailed _) (hthrough n e t)
    exact hkept.mono fun _ => hset
  · refine hmeets _ h fun base hbase => hdeclared _ base h fun hifs _ hdisturbs' => ?_
    exact hdisturbs ⟨hifs ▸ hbase, hdisturbs'⟩

include hhost hexpand in
theorem makeLocalBytes_ifsKept (n : Nat) (assignment : Bytes) (attributes : VariableAttributes) :
    (makeLocalBytes host (Arithmetic.evaluate host n) assignment attributes).Preserves
      (IfsKept fun _ => True) := by
  have hclosed := ifsInvariant_closed hhost (hexpand fun _ => True)
  have he := evaluate_ifsKept hhost hexpand (fun _ => True) n
  intro s hs
  unfold makeLocalBytes
  rw [bind_done (get_apply s)]
  split
  · exact ⟨trivial, hs.record _ trivial⟩
  · generalize hname : (splitAssignment assignment).1 = name
    cases hentry : s.entry name with
    | some previous =>
      simp only [hentry]
      rw [bind_done (modify_apply _ s)]
      have hrecord := @IfsKept.record _ _ _ hs (s.table.locals.length - 1) (.saved name previous)
        (hs.entries name previous hentry)
      split
      · next hvalue =>
        obtain ⟨value, hvalue⟩ := Option.isSome_iff_exists.mp hvalue
        unfold setAssignmentBytes
        rw [hvalue]
        exact setBytes_preserves hclosed he _ _ _ _ hrecord
      · exact ⟨trivial, hrecord⟩
    | none =>
      have hother : name ≠ text "IFS" := hs.carries hentry
      simp only [hentry]
      refine meets_bind (Q := fun _ => True) ?_ fun _ _ =>
        preserves_modify fun shell hs => hs.record _ hother
      unfold setAssignmentBytes
      rw [hname]
      cases (splitAssignment assignment).2 with
      | some value => exact setBytes_preserves hclosed he _ _ _ _ hs
      | none => exact hs.unset hhost fun hifs => absurd hifs hother

include hhost hexpand in
theorem unsetOperand_ifsKept {n : Nat} {operand : Bytes} {s : Shell W}
    (h : IfsKept (fun _ => True) s)
    (hkeeps : (readName s operand).getD operand = text "IFS" →
      ¬ dropsIfs s VariableAttributes.none
        (if s.options.dialect = .bash then AllExport.declines else .marks)) :
    (unsetOperand host (Arithmetic.evaluate host n) operand s).Meets (IfsKept fun _ => True)
      fun _ => True := by
  have hclosed := ifsInvariant_closed hhost (hexpand fun _ => True)
  have he := evaluate_ifsKept hhost hexpand (fun _ => True) n
  unfold unsetOperand
  rw [bind_done (get_apply s)]
  generalize (readName s operand).getD operand = name at hkeeps ⊢
  by_cases hreadOnly : ((variableAttributes s name).map (·.readOnly)).getD false = true
  · rw [if_pos hreadOnly]
    by_cases hdialect : s.options.dialect = .bash
    · rw [if_pos hdialect]; exact ⟨trivial, h.congr rfl rfl⟩
    · rw [if_neg hdialect]; exact h
  · rw [if_neg hreadOnly]
    cases splitSubscript name with
    | some parts =>
      exact (Ensures.bind (resolveTextSelector_ensures hclosed he parts.1 parts.2)
        fun selector _ => unsetElement_preserves hclosed parts.1 selector) s h
    | none => exact h.unset hhost hkeeps

include hhost hexpand in
/-- **One step** keeps the cache right, unless it is one of the three. -/
theorem keepsIfs_step {op : Operation} {s t : Shell W} (hkeeps : op.keepsIfs host s)
    (hmoves : op.Moves host s t) (h : IfsKept (fun _ => True) s) : IfsKept (fun _ => True) t := by
  obtain ⟨n, hends⟩ := hmoves
  have hclosed := ifsInvariant_closed hhost (hexpand fun _ => True)
  have he := evaluate_ifsKept hhost hexpand (fun _ => True) n
  have hkept : (op.perform host (Arithmetic.evaluate host n)).Preserves (IfsKept fun _ => True) →
      IfsKept (fun _ => True) t := fun hpreserves => hpreserves.ends h hends
  have hmeets : ((op.perform host (Arithmetic.evaluate host n)) s).Meets (IfsKept fun _ => True)
      (fun _ => True) → IfsKept (fun _ => True) t := ends_meets hends
  have hmodify : ∀ {name change}, (∀ entry : Variable, (change entry).state = entry.state) →
      (∀ entry, (change entry).callback = entry.callback) →
      (∀ entry, (change entry).dynamicLineno = entry.dynamicLineno) →
      (Run.modify (modifyEntry name change) : ShellRun W Unit).Preserves (IfsKept fun _ => True) :=
    fun hstate hcallback hline =>
      preserves_modify fun _ hs => hs.modifyEntry _ hstate hcallback hline
  cases op with
  | assign name value attributes => exact hkept (setBytes_preserves hclosed he _ _ _)
  | attributed name attributes => exact hmeets (h.unset hhost hkeeps)
  | addAttributes name attributes =>
    exact hkept (hmodify (fun _ => rfl) (fun _ => rfl) fun _ => rfl)
  | clearExported name => exact hkept (hmodify (fun _ => rfl) (fun _ => rfl) fun _ => rfl)
  | setLetter name letter enabled =>
    exact hkept (hmodify (fun _ => rfl) (fun _ => rfl) fun _ => rfl)
  | unset operand => exact hmeets (unsetOperand_ifsKept hhost hexpand h hkeeps)
  | element name source expanded value append =>
    exact hkept (elementStatement_preserves hclosed he _ _ _ _ _)
  | compound name subscripted elements append guard =>
    exact hkept (compoundStatement_preserves hclosed he (fun _ => trivial) _ _ _ _ _)
  | appendTo name value => exact hkept (appendStatement_preserves hclosed he _ _)
  | textTarget name value append => exact hkept (assignTextTarget_preserves hclosed he _ _ _)
  | replace name value => exact hkept (assignValue_preserves hclosed _ trivial)
  | giveKind name kind guard => exact hmeets (h.ensureKind hhost fun hname _ => hkeeps hname)
  | declare builtin requested operand scope =>
    exact applyDeclaration_ifsKept hhost hexpand h hkeeps (ends_discard hends)
  | makeLocal assignment attributes => exact hkept (makeLocalBytes_ifsKept hhost hexpand n _ _)
  | read name => exact hkept ((lookupBytes_preserves hclosed name).bind fun _ => preserves_pure _)
  | arithmetic input => exact hkept ((he input).bind fun _ => preserves_pure _)
  | pushScope => exact hkept (preserves_modify fun _ hs => hs.pushLocalScope)
  | enterFunction => exact hkept (preserves_modify fun _ hs => hs.frames _)
  | leaveFunction => exact hkept (preserves_modify fun _ hs => hs.frames _)
  | unwind stop => exact hkept (preserves_modify fun _ hs => hs.unwind hhost stop)

end Steps

/-! ### The table a shell starts from -/

/-- Every entry is without the attributes `declare` gives. -/
def lettersFree (s : Shell W) : Prop :=
  ∀ name entry, s.entry name = some entry → entry.bashAttributes = {}

/-- No name has been given an attribute by `declare`, and only `IFS` can reach the
    cache. -/
structure Unlettered (s : Shell W) : Prop extends IfsEntered s where
  letters : lettersFree s

theorem IfsEntered.unneeded {s : Shell W} (h : IfsEntered s) : IfsKept (fun _ => False) s :=
  ⟨h, False.elim⟩

theorem lettersFree_insert {s : Shell W} (h : lettersFree s) {name : Bytes} {entry : Variable}
    (hletters : entry.bashAttributes = {}) : lettersFree (s.insert name entry) := by
  intro other found hfound
  by_cases hother : name = other
  · subst hother
    rw [Shell.entry_insert_self, Option.some.injEq] at hfound
    exact hfound ▸ hletters
  · rw [Shell.entry_insert_of_ne _ hother] at hfound
    exact h other found hfound

theorem lettersFree_setEntry (hhost : Apart host) (name value : Bytes)
    (attributes : VariableAttributes) (guard : ReadOnlyGuard) (allExport : AllExport) :
    (setEntry host name (some value) attributes .run guard allExport).Preserves lettersFree := by
  have hcallback : ∀ callback shown {s : Shell W}, lettersFree s →
      lettersFree (runCallback host name callback shown s) := by
    intro callback shown s hs other entry hentry
    unfold Shell.entry at hentry
    rw [runCallback_table hhost] at hentry
    exact hs other entry hentry
  refine setEntry_preserves (fun s attributes hs _ => ?_) (fun s old written hs hold => ?_)
    fun _ _ _ hvalue _ => nomatch hvalue
  · unfold createEntry
    split
    · exact hs
    · exact hcallback _ _ (lettersFree_insert hs rfl)
  · exact hcallback _ _ (lettersFree_insert hs (hs name old hold))

theorem Unlettered.withLocale {s : Shell W} (h : Unlettered s) (locale : Locale) :
    Unlettered { s with locale := locale } where
  held := h.held
  entries := h.entries
  records := h.records
  letters := h.letters

/-- A name that has an entry keeps one. -/
theorem isSome_entered {names : List (Bytes × Variable)} : ∀ {entries : ByteMap Variable}
    {name : Bytes}, (entries[name]?).isSome →
    ((names.foldl (fun entries builtin => entries.insertIfNew builtin.1 builtin.2)
      entries)[name]?).isSome := by
  induction names with
  | nil => intro entries name h; exact h
  | cons builtin names ih =>
    intro entries name h
    refine ih ?_
    rw [Std.ExtTreeMap.getElem?_insertIfNew]
    split
    · rfl
    · exact h

theorem carriesIfs_builtin {name : Bytes} {callback : Callback}
    (h : callback = .ifs ↔ name = text "IFS") (value : Option Bytes) :
    CarriesIfs (builtin name value callback).1 (builtin name value callback).2 ∧
      (builtin name value callback).2.bashAttributes = {} := ⟨⟨h, fun _ => rfl⟩, rfl⟩

theorem carriesIfs_builtins (defaultPath prompt continuation : Bytes) :
    ∀ builtin ∈ builtins defaultPath prompt continuation,
      CarriesIfs builtin.1 builtin.2 ∧ builtin.2.bashAttributes = {} := by
  intro entered hmem
  unfold builtins at hmem
  simp only [List.mem_cons, List.not_mem_nil, or_false] at hmem
  rcases hmem with rfl | rfl | rfl | rfl | rfl | rfl | rfl | rfl | rfl | rfl | rfl | rfl | rfl |
    rfl | rfl | rfl
  all_goals first
    | exact carriesIfs_builtin (by decide) _
    | exact ⟨⟨⟨nofun, fun h => absurd h (by decide)⟩, fun h => absurd h (by decide)⟩, rfl⟩

theorem unlettered_initializeVariables {s : Shell W} (hentries : s.table.entries = ∅)
    (hlocals : s.table.locals = []) (defaultPath prompt continuation : Bytes) :
    Unlettered (initializeVariables defaultPath prompt continuation s) := by
  have hmem := fun name entry =>
    @initializeVariables_mem _ s hentries defaultPath prompt continuation
    name entry
  refine ⟨⟨?_, fun name entry h => (carriesIfs_builtins _ _ _ _ (hmem name entry h)).1, ?_⟩,
    fun name entry h => (carriesIfs_builtins _ _ _ _ (hmem name entry h)).2⟩
  · unfold initializeVariables Shell.setEntries Shell.entry builtins
    rw [hentries, List.foldl_cons]
    refine isSome_entered ?_
    rw [Std.ExtTreeMap.getElem?_insertIfNew, if_pos ⟨Std.ReflCmp.compare_self,
      Std.ExtTreeMap.not_mem_empty⟩]
    rfl
  · intro scope hscope
    rw [show (initializeVariables defaultPath prompt continuation s).table.locals = [] from
      hlocals] at hscope
    cases hscope

theorem unlettered_enterLocaleVariable {s : Shell W} (h : Unlettered s) (pair : Bytes × Bytes) :
    Unlettered (enterLocaleVariable s pair) := by
  unfold enterLocaleVariable
  split
  · next hlocale =>
    have hname : pair.1 ≠ text "IFS" := fun hname => by
      rw [hname] at hlocale
      exact absurd hlocale (by decide)
    refine ⟨h.toIfsEntered.insert ⟨⟨nofun, fun hifs => absurd hifs hname⟩,
      fun hifs => absurd hifs hname⟩, lettersFree_insert h.letters ?_⟩
    cases hentry : s.entry pair.1 with
    | none => rfl
    | some entry => exact h.letters pair.1 entry hentry
  · exact h

theorem unlettered_setBytes (hhost : Apart host) {evaluate : Bytes → ShellRun W Int64}
    (name value : Bytes) (attributes : VariableAttributes) :
    (setBytes host evaluate name (some value) attributes).Preserves Unlettered := by
  intro s hs
  have hentered := setEntry_ifsKept hhost (fun _ => False) name value attributes .enforce .marks s
    hs.toIfsEntered.unneeded
  have hletters := lettersFree_setEntry hhost name value attributes .enforce .marks s hs.letters
  rw [setBytes_unlettered (hs.letters name)]
  cases hrun : setEntry host name (some value) attributes .run .enforce .marks s with
  | done a t => rw [hrun] at hentered hletters; exact ⟨trivial, hentered.2.toIfsEntered, hletters.2⟩
  | failed e t => rw [hrun] at hentered hletters; exact ⟨hentered.toIfsEntered, hletters⟩
  | unfinished => trivial

theorem unlettered_import (hhost : Apart host) {evaluate : Bytes → ShellRun W Int64}
    (pairs : List (Bytes × Bytes)) :
    (importEnvironmentPairs host evaluate pairs).Preserves Unlettered := by
  induction pairs with
  | nil => exact preserves_pure _
  | cons pair rest ih =>
    refine ensures_get.bind fun shell _ => ?_
    split
    · exact (unlettered_setBytes hhost _ _ _).bind fun _ => ih
    · exact ih

/-- A write of `IFS` that goes through puts the cache right. -/
theorem ifsKept_of_assigned (hhost : Apart host) {value : Bytes} {attributes : VariableAttributes}
    {guard : ReadOnlyGuard} {allExport : AllExport} {s t : Shell W} (h : IfsEntered s)
    (hrun : setEntry host (text "IFS") (some value) attributes .run guard allExport s =
      .done () t) (needed : Bool → Prop) : IfsKept needed t := by
  rcases setEntry_cases host (text "IFS") (some value) attributes .run guard allExport s with
    ⟨e, hcase⟩ | ⟨hnone, _⟩ | ⟨old, written, hold, hcase⟩ | ⟨_, _, hvalue, _⟩
  · rw [hcase] at hrun; cases hrun
  · exact absurd rfl (h.unneeded.carries hnone)
  · rw [hcase] at hrun
    cases hrun
    exact h.unneeded.update hhost hold _ written fun hname => absurd rfl hname
  · cases hvalue

/-- A shell starts with the cache right. -/
theorem ifsKept_start (hhost : Apart host) {evaluate : Bytes → ShellRun W Int64}
    {pairs : List (Bytes × Bytes)} {defaultPath prompt continuation : Bytes} {blank s : Shell W}
    (hentries : blank.table.entries = ∅) (hlocals : blank.table.locals = [])
    (hstart : startVariables host evaluate pairs defaultPath prompt continuation blank =
      .done () s) : IfsKept (fun _ => True) s := by
  have hentered := unlettered_initializeVariables hentries hlocals defaultPath prompt continuation
  have hlocale :
      ∀ {s : Shell W}, Unlettered s → Unlettered (pairs.foldl enterLocaleVariable s) := by
    clear hstart
    induction pairs with
    | nil => intro s h; exact h
    | cons pair rest ih => intro s h; exact ih (unlettered_enterLocaleVariable h pair)
  unfold startVariables at hstart
  rw [bind_done (modify_apply _ blank), bind_done (modify_apply _ _)] at hstart
  obtain ⟨_, u, himport, hset⟩ := bind_eq_done hstart
  have hu : Unlettered u := by
    refine (Ensures.done (unlettered_import hhost pairs) ?_ himport).2
    have hnamed := hlocale hentered
    simp only
    cases selectedLocale host (pairs.foldl enterLocaleVariable
      (initializeVariables defaultPath prompt continuation blank)) with
    | none => exact hnamed
    | some locale => exact hnamed.withLocale locale
  rw [setBytes_unlettered (hu.letters _)] at hset
  exact ifsKept_of_assigned hhost hu.toIfsEntered hset _

/-! ### Runs -/

instance (s : Shell W) : Decidable (ifsAgrees s) := inferInstanceAs (Decidable (_ = _))

/-- **The cache is the variable in every state a run reaches**, as long as each of
    its steps keeps it. -/
theorem ifs_cached (hhost : Apart host)
    (hexpand : ∀ needed, (ifsInvariant needed : Invariant W).Expands host)
    {evaluate : Bytes → ShellRun W Int64} {pairs : List (Bytes × Bytes)}
    {defaultPath prompt continuation : Bytes} {blank s t : Shell W}
    (hentries : blank.table.entries = ∅) (hlocals : blank.table.locals = [])
    (hstart : startVariables host evaluate pairs defaultPath prompt continuation blank =
      .done () s)
    (run : RunsThrough host (Operation.keepsIfs host) s t) : ifsAgrees t :=
  (run.keeps (fun _ _ _ hkeeps hmoves => keepsIfs_step hhost hexpand hkeeps hmoves)
    (ifsKept_start hhost hentries hlocals hstart)).agrees trivial

/-- What a call gives `IFS` is gone when it returns. -/
theorem ifs_cached_call :
    ∃ s t, startVariables Host.plain (Arithmetic.evaluate Host.plain 0) [] [] [] []
        (blankShell .posix) = .done () s ∧
      performAll Host.plain 0 [.assign (text "IFS") (text ",") VariableAttributes.none, .pushScope,
        .makeLocal (text "IFS=:") VariableAttributes.none, .unwind 0] s = some t ∧
      t.ifs.bytes = text "," ∧ ifsAgrees t := by
  have hany : (startAndPerform .posix 0 [.assign (text "IFS") (text ",") VariableAttributes.none,
      .pushScope, .makeLocal (text "IFS=:") VariableAttributes.none, .unwind 0]).any
      (fun t => t.ifs.bytes == text ",") = true := by decide +kernel
  obtain ⟨t, hrun, hcomma⟩ := (Option.any_eq_true _ _).mp hany
  obtain ⟨s, hstart, hperform⟩ := startAndPerform_some hrun
  refine ⟨s, t, hstart, hperform, eq_of_beq hcomma, ifs_cached apart_plain
    (fun _ => expands_plain _) rfl rfl hstart (RunsThrough.of_performAll ?_ hperform)⟩
  intro op hop s
  simp only [List.mem_cons, List.not_mem_nil, or_false] at hop
  rcases hop with rfl | rfl | rfl | rfl <;> trivial

/-- A caller makes `IFS` local and its callee unsets it: the entry goes without its
    callback, and the splitter keeps the colon. -/
theorem ifs_not_cached :
    ∃ s t, startVariables Host.plain (Arithmetic.evaluate Host.plain 0) [] [] [] []
        (blankShell .bash) = .done () s ∧
      RunsThrough Host.plain (fun _ _ => True) s t ∧
      ifsIsSet t = false ∧ t.ifs.bytes = text ":" ∧ ¬ ifsAgrees t := by
  have hany : (startAndPerform .bash 0 [.pushScope, .enterFunction,
      .declare (text "local") {} (text "IFS=:") .runningBody, .pushScope, .enterFunction,
      .unset (text "IFS")]).any
      (fun t => decide (ifsIsSet t = false ∧ t.ifs.bytes = text ":" ∧ ¬ ifsAgrees t)) = true := by
    decide +kernel
  obtain ⟨t, hrun, hstale⟩ := (Option.any_eq_true _ _).mp hany
  obtain ⟨s, hstart, hperform⟩ := startAndPerform_some hrun
  exact ⟨s, t, hstart, RunsThrough.of_performAll (fun _ _ _ => trivial) hperform,
    of_decide_eq_true hstale⟩

end Nsh.Variables
