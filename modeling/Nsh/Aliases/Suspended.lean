import Mathlib.Algebra.BigOperators.Group.List.Basic
import Mathlib.Tactic.Abel
import Nsh.Aliases.Overlays

/-!
# Suspended aliases

An alias is to be in use exactly while a frame has its text.  The reader is a stack of
frames over the table of the aliases; what it is asked to do is an `Act`, and a run is any
order of these.
-/

namespace Nsh.Aliases

/-- The frames with that of standard input first, the one that is read, and the table. -/
structure State where
  frames : List InputFrame
  current : Nat
  aliases : AliasTable

/-- `InputFrame::EMPTY`. -/
def InputFrame.empty : InputFrame where
  previous := none
  lineRemaining := 0
  eofLatched := false
  eofObserved := false
  position := 0
  buffer := []
  overlays := []
  deferredOverlays := []
  unreadCount := 0
  source := []

/-- The reader of a new shell, with what its standard input has to give. -/
def State.initial (source : Bytes) : State where
  frames := [{ InputFrame.empty with source := source }]
  current := 0
  aliases := AliasTable.new

inductive Act where
  /-- `read_input_unit`, and `read_input_unit_preserving_nul`. -/
  | read (preserveNul : Bool)
  | unreadInputUnits (count : Nat)
  | unreadInputUnit
  /-- A command word that may be an alias. -/
  | expandAlias (name : Bytes)
  /-- What a here-document puts back. -/
  | pushBack (string : Bytes)
  | setInputString (string : Bytes)
  | setInputDescriptor (source : Bytes)
  | pushStandardInput
  | popInputFrame
  | setAlias (name value : Bytes)
  | unalias (name : Bytes)
  | clearAliases
deriving DecidableEq, Repr

namespace State

/-- The same with the frame that is read, and the table, replaced; there is nothing after a
    frame that is not there. -/
def withCurrent (change : InputFrame → AliasTable → InputFrame × AliasTable) (s : State) :
    Option State :=
  match s.frames[s.current]? with
  | none => none
  | some frame =>
    some { s with
      frames := s.frames.set s.current (change frame s.aliases).1
      aliases := (change frame s.aliases).2 }

/-- `unread_input_unit`, of the frame. -/
def unreadUnit (frame : InputFrame) : InputFrame :=
  { frame with
    unreadCount := if frame.eofObserved then frame.unreadCount else frame.unreadCount + 1
    eofObserved := false }

/-- What the parser does with a word that may be an alias. -/
def expandAlias (name : Bytes) (s : State) : Option State :=
  match s.aliases.lookup name true with
  | none => some s
  | some value =>
    if value = [] then some s
    else s.withCurrent fun frame aliases =>
      (pushStringInput value (some name) frame, aliases.beginExpansion name)

/-- `push_input_frame`, with what is set in the new frame. -/
def pushInputFrame (frame : InputFrame) (s : State) : State :=
  { s with
    frames := s.frames ++ [{ frame with previous := some s.current }]
    current := s.frames.length }

/-- `push_standard_input`. -/
def pushStandardInput (s : State) : Option State :=
  match s.frames with
  | [] => none
  | base :: frames =>
    some { s with frames := { base with previous := some s.current } :: frames, current := 0 }

/-- What is left when the last frame is popped and another is read. -/
def popLast (previous : Nat) (s : State) : Option State :=
  match s.frames.getLast?, s.frames.dropLast[previous]? with
  | some dying, some under =>
    some { s with
      frames := s.frames.dropLast.set previous (clearInputOverlays under)
      current := previous
      aliases := releaseInputOverlays (dying.deferredOverlays ++ dying.overlays.reverse)
        (releaseInputOverlays under.deferredOverlays s.aliases) }
  | _, _ => none

/-- `pop_input_frame`. -/
def popInputFrame (s : State) : Option State :=
  match s.frames[s.current]? with
  | none => none
  | some frame =>
    let popped := { s with frames := s.frames.set s.current { frame with previous := none } }
    if s.current = 0 then some { popped with current := frame.previous.getD 0 }
    else popped.popLast (frame.previous.getD 0)

/-- Nothing where the source indexes past the frames. -/
def step (s : State) : Act → Option State
  | .read preserveNul => s.withCurrent fun frame aliases =>
      (readInputUnit preserveNul frame aliases).2
  | .unreadInputUnits count => s.withCurrent fun frame aliases =>
      ({ frame with unreadCount := frame.unreadCount + count }, aliases)
  | .unreadInputUnit => s.withCurrent fun frame aliases => (unreadUnit frame, aliases)
  | .expandAlias name => s.expandAlias name
  | .pushBack string => s.withCurrent fun frame aliases =>
      (pushStringInput string none frame, aliases)
  | .setInputString string => some (s.pushInputFrame { InputFrame.empty with
      buffer := string, lineRemaining := string.length, eofLatched := true })
  | .setInputDescriptor source => some (s.pushInputFrame { InputFrame.empty with source := source })
  | .pushStandardInput => s.pushStandardInput
  | .popInputFrame => s.popInputFrame
  | .setAlias name value => some { s with aliases := s.aliases.set name value }
  | .unalias name => some { s with aliases := s.aliases.remove name }
  | .clearAliases => some { s with aliases := s.aliases.clear }

def run : List Act → State → Option State
  | [], s => some s
  | act :: acts, s => (s.step act).bind (run acts)

/-- The aliases whose texts the frames have. -/
def held (s : State) : Multiset Bytes := (s.frames.map InputFrame.names).sum

/-- Every alias there is is in use exactly while a frame has its text. -/
def Suspended (s : State) : Prop :=
  ∀ name entry, s.aliases name = some entry → (entry.inUse = true ↔ name ∈ s.held)

/-- The next read drops no alias. -/
def LosesNothing (s : State) : Prop :=
  ∀ frame, s.frames[s.current]? = some frame → frame.LosesNothing

end State

/-! ### What is held -/

/-- An alias is in use exactly when a text of it is held, and no two are. -/
structure Marks (held : Multiset Bytes) (aliases : AliasTable) : Prop where
  nodup : held.Nodup
  inUse : ∀ name, name ∈ held ↔ aliases.inUse name = true

theorem Marks.release {held others : Multiset Bytes} {aliases after : AliasTable}
    (h : Marks (held + others) aliases) (hreleases : Releases others aliases after) :
    Marks held after := by
  obtain ⟨hheld, -, hdisjoint⟩ := Multiset.nodup_add.mp h.nodup
  refine ⟨hheld, fun name => ?_⟩
  by_cases hother : name ∈ others
  · have hnot : name ∉ held := fun hmem => Multiset.disjoint_left.mp hdisjoint hmem hother
    refine iff_of_false hnot ?_
    rw [AliasTable.inUse, hreleases name, if_pos hother, AliasTable.any_finished]
    exact Bool.false_ne_true
  · have hsame : after.inUse name = aliases.inUse name := by
      rw [AliasTable.inUse, hreleases name, if_neg hother, AliasTable.inUse]
    rw [hsame, ← h.inUse name, Multiset.mem_add]
    exact ⟨.inl, fun hor => hor.resolve_right hother⟩

theorem Marks.begin {held : Multiset Bytes} {aliases : AliasTable} {name : Bytes}
    (h : Marks held aliases) (hsome : (aliases name).isSome = true)
    (hfree : aliases.inUse name = false) :
    Marks ((some name).toList + held) (aliases.beginExpansion name) := by
  have hnot : name ∉ held := by
    rw [h.inUse, hfree]
    exact Bool.false_ne_true
  have hcons : ((some name).toList + held : Multiset Bytes) = name ::ₘ held :=
    Multiset.singleton_add name held
  rw [hcons]
  refine ⟨Multiset.nodup_cons.mpr ⟨hnot, h.nodup⟩, fun other => ?_⟩
  rw [Multiset.mem_cons, AliasTable.inUse_beginExpansion hsome, h.inUse, Bool.or_eq_true,
    decide_eq_true_iff]

theorem Marks.suspended {s : State} (h : Marks s.held s.aliases) : s.Suspended := by
  intro name entry hentry
  rw [h.inUse, AliasTable.inUse, hentry]
  rfl

theorem sum_set {frames : List InputFrame} {i : ℕ} {frame : InputFrame}
    (h : frames[i]? = some frame) (other : InputFrame) :
    ((frames.set i other).map InputFrame.names).sum + frame.names =
      (frames.map InputFrame.names).sum + other.names := by
  induction frames generalizing i with
  | nil => cases h
  | cons first frames ih =>
    cases i with
    | zero =>
      obtain rfl := Option.some.inj h
      rw [List.set_cons_zero, List.map_cons, List.map_cons, List.sum_cons, List.sum_cons]
      abel
    | succ i =>
      rw [List.set_cons_succ, List.map_cons, List.map_cons, List.sum_cons, List.sum_cons, add_assoc,
        ih h, add_assoc]

theorem sum_set_same {frames : List InputFrame} {i : ℕ} {frame : InputFrame}
    (h : frames[i]? = some frame) {other : InputFrame} (hnames : other.names = frame.names) :
    ((frames.set i other).map InputFrame.names).sum = (frames.map InputFrame.names).sum := by
  have hset := sum_set h other
  rw [hnames] at hset
  exact add_right_cancel hset

theorem withCurrent_some {s s' : State}
    {change : InputFrame → AliasTable → InputFrame × AliasTable}
    (h : s.withCurrent change = some s') :
    ∃ frame, s.frames[s.current]? = some frame ∧
      s'.held + frame.names = s.held + (change frame s.aliases).1.names ∧
      s'.aliases = (change frame s.aliases).2 := by
  unfold State.withCurrent at h
  split at h
  · cases h
  · next frame hframe =>
    obtain rfl := Option.some.inj h
    exact ⟨frame, hframe, sum_set hframe _, rfl⟩

/-! ### One act -/

/-- What a read does to the aliases that are held: it releases some, and some it drops. -/
theorem step_read {s s' : State} {preserveNul : Bool} (h : s.step (.read preserveNul) = some s') :
    ∃ frame, s.frames[s.current]? = some frame ∧
      s.held = s'.held + (if frame.readOut then dropped 0 frame.overlays else 0) +
        namesOf frame.deferredOverlays ∧
      Releases (namesOf frame.deferredOverlays) s.aliases s'.aliases := by
  replace h : (s.withCurrent fun frame aliases => (readInputUnit preserveNul frame aliases).2) =
    some s' := h
  obtain ⟨frame, hframe, hheld, haliases⟩ := withCurrent_some h
  refine ⟨frame, hframe, ?_, ?_⟩
  · rw [← readInputUnit_names preserveNul frame s.aliases] at hheld
    apply add_right_cancel (b := (readInputUnit preserveNul frame s.aliases).2.1.names)
    rw [← hheld]
    abel
  · rw [haliases]
    exact releases_releaseInputOverlays _ _

theorem Marks.read {s s' : State} {preserveNul : Bool} (h : Marks s.held s.aliases)
    (hstep : s.step (.read preserveNul) = some s') (hnothing : s.LosesNothing) :
    Marks s'.held s'.aliases := by
  obtain ⟨frame, hframe, hheld, hreleases⟩ := step_read hstep
  have hnone : (if frame.readOut then dropped 0 frame.overlays else 0) = 0 := by
    split
    · next hout => exact hnothing frame hframe hout
    · rfl
  rw [hnone, add_zero] at hheld
  rw [hheld] at h
  exact h.release hreleases

/-- An alias that is dropped stays in use with no frame that has its text. -/
theorem Marks.not_suspended {s s' : State} {preserveNul : Bool} (h : Marks s.held s.aliases)
    (hstep : s.step (.read preserveNul) = some s') (hloses : ¬ s.LosesNothing) :
    ¬ s'.Suspended := by
  intro hsuspended
  obtain ⟨frame, hframe, hheld, hreleases⟩ := step_read hstep
  simp only [State.LosesNothing, InputFrame.LosesNothing, not_forall] at hloses
  obtain ⟨frame', hframe', hout, hdropped⟩ := hloses
  obtain rfl := Option.some.inj (hframe.symm.trans hframe')
  rw [if_pos hout] at hheld
  obtain ⟨name, hname⟩ := Multiset.exists_mem_of_ne_zero hdropped
  have hnodup := h.nodup
  rw [hheld] at hnodup
  obtain ⟨hkept, -, hreleased⟩ := Multiset.nodup_add.mp hnodup
  obtain ⟨-, -, hapart⟩ := Multiset.nodup_add.mp hkept
  have hmem : name ∈ s.held := by
    rw [hheld, Multiset.mem_add, Multiset.mem_add]
    exact .inl (.inr hname)
  have hwaits : name ∉ namesOf frame.deferredOverlays :=
    Multiset.disjoint_left.mp hreleased (Multiset.mem_add.mpr (.inr hname))
  have hgone : name ∉ s'.held := fun hheld' => Multiset.disjoint_left.mp hapart hheld' hname
  have hsame : s'.aliases name = s.aliases name := by rw [hreleases name, if_neg hwaits]
  have hinUse := (h.inUse name).mp hmem
  rw [AliasTable.inUse, Option.any_eq_true] at hinUse
  obtain ⟨entry, hentry, hentryUse⟩ := hinUse
  exact hgone ((hsuspended name entry (hsame.trans hentry)).mp hentryUse)

theorem held_pushInputFrame {frame : InputFrame} (s : State) (hnames : frame.names = 0) :
    (s.pushInputFrame frame).held = s.held := by
  show ((s.frames ++ [{ frame with previous := some s.current }]).map InputFrame.names).sum = _
  rw [List.map_append, List.sum_append, List.map_singleton, List.sum_singleton]
  exact (congrArg (s.held + ·) hnames).trans (add_zero s.held)

theorem Marks.popLast {s s' : State} {previous : ℕ} (h : Marks s.held s.aliases)
    (hpop : s.popLast previous = some s') : Marks s'.held s'.aliases := by
  unfold State.popLast at hpop
  split at hpop
  · next dying under hdying hunder =>
    obtain rfl := Option.some.inj hpop
    have hlast : s.frames = s.frames.dropLast ++ [dying] :=
      (List.dropLast_append_getLast? dying hdying).symm
    have hset := sum_set hunder (clearInputOverlays under)
    have hcleared : under.names =
        (clearInputOverlays under).names + namesOf under.deferredOverlays := by
      show _ = namesOf under.overlays + namesOf [] + _
      rw [namesOf, add_zero, InputFrame.names]
    have hdyingNames :
        dying.names = namesOf (dying.deferredOverlays ++ dying.overlays.reverse) := by
      rw [namesOf_append, namesOf_reverse, add_comm, InputFrame.names]
    have hheld : s.held =
        ((s.frames.dropLast.set previous (clearInputOverlays under)).map InputFrame.names).sum +
          (namesOf (dying.deferredOverlays ++ dying.overlays.reverse) +
            namesOf under.deferredOverlays) := by
      have hothers : (s.frames.dropLast.map InputFrame.names).sum =
          ((s.frames.dropLast.set previous (clearInputOverlays under)).map InputFrame.names).sum +
            namesOf under.deferredOverlays := by
        apply add_right_cancel (b := (clearInputOverlays under).names)
        rw [← hset, hcleared]
        abel
      have hsum : s.held = (s.frames.dropLast.map InputFrame.names).sum + dying.names := by
        conv_lhs => rw [State.held, hlast, List.map_append, List.sum_append, List.map_singleton,
          List.sum_singleton]
      rw [hsum, hothers, hdyingNames]
      abel
    rw [hheld] at h
    exact h.release ((releases_releaseInputOverlays _ _).add (releases_releaseInputOverlays _ _))
  · cases hpop

theorem Marks.popInputFrame {s s' : State} (h : Marks s.held s.aliases)
    (hpop : s.popInputFrame = some s') : Marks s'.held s'.aliases := by
  unfold State.popInputFrame at hpop
  split at hpop
  · cases hpop
  · next frame hframe =>
    have hset := sum_set_same hframe
      (show InputFrame.names { frame with previous := none } = frame.names from rfl)
    split at hpop
    · obtain rfl := Option.some.inj hpop
      show Marks (List.sum (List.map InputFrame.names (s.frames.set s.current _))) s.aliases
      rw [hset]
      exact h
    · refine Marks.popLast ?_ hpop
      show Marks (List.sum (List.map InputFrame.names (s.frames.set s.current _))) s.aliases
      rw [hset]
      exact h

theorem Marks.step {s s' : State} {act : Act} (h : Marks s.held s.aliases)
    (hstep : s.step act = some s')
    (hnothing : ∀ preserveNul, act = .read preserveNul → s.LosesNothing) :
    Marks s'.held s'.aliases := by
  cases act with
  | read preserveNul => exact h.read hstep (hnothing preserveNul rfl)
  | unreadInputUnits count =>
    obtain ⟨frame, hframe, hheld, haliases⟩ := withCurrent_some hstep
    rw [haliases, add_right_cancel hheld]
    exact h
  | unreadInputUnit =>
    obtain ⟨frame, hframe, hheld, haliases⟩ := withCurrent_some hstep
    rw [haliases, add_right_cancel hheld]
    exact h
  | expandAlias name =>
    replace hstep : s.expandAlias name = some s' := hstep
    unfold State.expandAlias at hstep
    split at hstep
    · obtain rfl := Option.some.inj hstep
      exact h
    · next value hlookup =>
      split at hstep
      · obtain rfl := Option.some.inj hstep
        exact h
      · obtain ⟨frame, hframe, hheld, haliases⟩ := withCurrent_some hstep
        obtain ⟨hsome, hfree⟩ := AliasTable.lookup_true hlookup
        have hpushed : s'.held = (some name).toList + s.held := by
          rw [names_pushStringInput] at hheld
          apply add_right_cancel (b := frame.names)
          rw [hheld]
          abel
        rw [haliases, hpushed]
        exact h.begin hsome hfree
  | pushBack string =>
    obtain ⟨frame, hframe, hheld, haliases⟩ := withCurrent_some hstep
    rw [names_pushStringInput] at hheld
    have hpushed : s'.held = s.held := by
      apply add_right_cancel (b := frame.names)
      rw [hheld]
      exact congrArg (s.held + ·) (zero_add frame.names)
    rw [haliases, hpushed]
    exact h
  | setInputString string =>
    obtain rfl := Option.some.inj hstep
    rw [held_pushInputFrame s rfl]
    exact h
  | setInputDescriptor source =>
    obtain rfl := Option.some.inj hstep
    rw [held_pushInputFrame s rfl]
    exact h
  | pushStandardInput =>
    replace hstep : s.pushStandardInput = some s' := hstep
    unfold State.pushStandardInput at hstep
    split at hstep
    · cases hstep
    · next base frames hframes =>
      obtain rfl := Option.some.inj hstep
      rw [State.held, hframes] at h
      exact h
  | popInputFrame => exact h.popInputFrame hstep
  | setAlias name value =>
    obtain rfl := Option.some.inj hstep
    exact ⟨h.nodup, fun other => (h.inUse other).trans (by rw [AliasTable.inUse_set])⟩
  | unalias name =>
    obtain rfl := Option.some.inj hstep
    exact ⟨h.nodup, fun other => (h.inUse other).trans (by rw [AliasTable.inUse_remove])⟩
  | clearAliases =>
    obtain rfl := Option.some.inj hstep
    exact ⟨h.nodup, fun other => (h.inUse other).trans (by rw [AliasTable.inUse_clear])⟩

/-! ### Runs -/

theorem marks_initial (source : Bytes) :
    Marks (State.initial source).held (State.initial source).aliases := by
  have hheld : (State.initial source).held = 0 := rfl
  rw [hheld]
  refine ⟨Multiset.nodup_zero, fun name => ?_⟩
  exact iff_of_false (Multiset.notMem_zero name) Bool.false_ne_true

theorem run_cons {act : Act} {acts : List Act} {s t : State} :
    s.run (act :: acts) = some t ↔ ∃ s', s.step act = some s' ∧ s'.run acts = some t :=
  Option.bind_eq_some_iff

/-- A read that leads to a state in which the aliases are suspended has dropped none. -/
theorem Marks.losesNothing {s : State} (h : Marks s.held s.aliases) {preserveNul : Bool}
    (hsuspended : ∀ s', s.step (.read preserveNul) = some s' → s'.Suspended) :
    s.LosesNothing := by
  by_contra hloses
  cases hstep : s.step (.read preserveNul) with
  | some s' => exact h.not_suspended hstep hloses (hsuspended s' hstep)
  | none =>
    replace hstep : (s.withCurrent fun frame aliases =>
      (readInputUnit preserveNul frame aliases).2) = none := hstep
    unfold State.withCurrent at hstep
    split at hstep
    · next hnone =>
      apply hloses
      intro frame hframe
      rw [hnone] at hframe
      cases hframe
    · cases hstep

theorem suspended_from {acts : List Act} {s : State} (h : Marks s.held s.aliases) :
    (∀ front, front <+: acts → ∀ t, s.run front = some t → t.Suspended) ↔
      ∀ front preserveNul, front ++ [.read preserveNul] <+: acts →
        ∀ t, s.run front = some t → t.LosesNothing := by
  induction acts generalizing s with
  | nil =>
    constructor
    · intro _ front preserveNul hfront
      have hlength := hfront.length_le
      simp at hlength
    · intro _ front hfront t hrun
      obtain rfl := List.prefix_nil.mp hfront
      obtain rfl := Option.some.inj hrun
      exact h.suspended
  | cons act acts ih =>
    constructor
    · intro hall
      have hfirst : ∀ preserveNul, act = .read preserveNul → s.LosesNothing := by
        rintro preserveNul rfl
        apply h.losesNothing
        intro s' hstep
        exact hall [.read preserveNul] (List.prefix_cons_inj _ |>.mpr List.nil_prefix) s'
          (run_cons.mpr ⟨s', hstep, rfl⟩)
      intro front preserveNul hfront t hrun
      cases front with
      | nil =>
        obtain rfl := Option.some.inj hrun
        exact hfirst preserveNul (List.cons_prefix_cons.mp hfront).1.symm
      | cons first front =>
        obtain ⟨rfl, hrest⟩ := List.cons_prefix_cons.mp hfront
        obtain ⟨s', hstep, hrun'⟩ := run_cons.mp hrun
        refine (ih (h.step hstep hfirst)).mp ?_ front preserveNul hrest t hrun'
        intro front' hfront' t' hrun''
        exact hall (first :: front') ((List.prefix_cons_inj first).mpr hfront') t'
          (run_cons.mpr ⟨s', hstep, hrun''⟩)
    · intro hall front hfront t hrun
      cases front with
      | nil =>
        obtain rfl := Option.some.inj hrun
        exact h.suspended
      | cons first front =>
        obtain ⟨rfl, hrest⟩ := List.cons_prefix_cons.mp hfront
        obtain ⟨s', hstep, hrun'⟩ := run_cons.mp hrun
        have hfirst : ∀ preserveNul, first = .read preserveNul → s.LosesNothing := by
          rintro preserveNul rfl
          exact hall [] preserveNul ((List.prefix_cons_inj _).mpr List.nil_prefix) s rfl
        refine (ih (h.step hstep hfirst)).mpr ?_ front hrest t hrun'
        intro front' preserveNul hfront' t' hrun''
        exact hall (first :: front') preserveNul ((List.prefix_cons_inj first).mpr hfront') t'
          (run_cons.mpr ⟨s', hstep, hrun''⟩)

/-- **An alias is in use exactly while its text is read** in every state of a run whose reads
    drop no alias, and in no other run. -/
theorem suspended_iff (source : Bytes) (acts : List Act) :
    (∀ front, front <+: acts → ∀ s, (State.initial source).run front = some s → s.Suspended) ↔
      ∀ front preserveNul, front ++ [.read preserveNul] <+: acts →
        ∀ s, (State.initial source).run front = some s → s.LosesNothing :=
  suspended_from (marks_initial source)

/-- Once no frame has a text, no alias is in use. -/
theorem State.Suspended.released {s : State} (h : s.Suspended) (hheld : s.held = 0)
    (name : Bytes) : s.aliases.inUse name = false := by
  rw [AliasTable.inUse, Option.any_eq_false]
  intro entry hentry
  have hnot : name ∉ s.held := by
    rw [hheld]
    exact Multiset.notMem_zero name
  exact Bool.eq_false_iff.mpr (mt (h name entry hentry).mp hnot)

/-- The alias `X` is the word of the text of `T`.  A here-document in the text of `X` reads
    the last byte of the text of `T` and puts it back; what is put back and the text of `T`
    are then popped by one read, while the text of `X` still waits. -/
def passedOver : List Act :=
  [.setAlias (text "T") (text "X "), .setAlias (text "X") (text "E"), .read false, .read false,
    .unreadInputUnit, .expandAlias (text "T"), .read false, .read false, .unreadInputUnit,
    .expandAlias (text "X"), .read false, .read false, .pushBack (text " "), .read false,
    .read false, .read false]

/-- No frame has a text any more, and `X` is in use. -/
def State.leftInUse (s : State) : Bool :=
  s.aliases.inUse (text "X") &&
    s.frames.all fun frame => frame.overlays.isEmpty && frame.deferredOverlays.isEmpty

theorem State.held_of_leftInUse {s : State} (h : s.leftInUse = true) :
    s.aliases.inUse (text "X") = true ∧ s.held = 0 := by
  rw [State.leftInUse, Bool.and_eq_true, List.all_eq_true] at h
  obtain ⟨hinUse, hempty⟩ := h
  refine ⟨hinUse, ?_⟩
  rw [State.held]
  apply List.sum_eq_zero
  intro names hnames
  obtain ⟨frame, hframe, rfl⟩ := List.mem_map.mp hnames
  have hframe' := hempty frame hframe
  rw [Bool.and_eq_true, List.isEmpty_iff, List.isEmpty_iff] at hframe'
  rw [InputFrame.names, hframe'.1, hframe'.2, namesOf, add_zero]

/-- An alias stays in use with no frame that has its text. -/
theorem not_suspended :
    ¬ ∀ (source : Bytes) (acts : List Act) (s : State),
        (State.initial source).run acts = some s → s.Suspended := by
  intro h
  have hrun : ((State.initial (text "T\n")).run passedOver).any State.leftInUse = true := by
    decide +kernel
  obtain ⟨s, hsome, hleft⟩ := (Option.any_eq_true _ _).mp hrun
  obtain ⟨hinUse, hheld⟩ := State.held_of_leftInUse hleft
  have hreleased := (h _ _ s hsome).released hheld (text "X")
  rw [hinUse] at hreleased
  cases hreleased

end Nsh.Aliases
