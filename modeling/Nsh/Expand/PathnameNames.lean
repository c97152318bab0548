import Nsh.Expand.PathnameSplit
import Mathlib.Data.List.TakeWhile

/-!
# The names a pattern stands for

In the POSIX dialect a field is replaced by the names its pattern stands for that
exist: each component with an operator replaced by a listed name it matches, the
others and every slash as written.
-/

namespace Nsh.Expand.Pathname

open Patterns

variable {Node W : Type} {t : Tree Node} {locale : Locale}

/-! ### What a pattern stands for -/

/-- Names for the components of a pattern, from the directory `place` on. -/
inductive Replaces (t : Tree Node) (locale : Locale) : Option Node → List Step → List Bytes → Prop
  | nil {place : Option Node} : Replaces t locale place [] []
  | literal {place : Option Node} {step : Step} {steps : List Step} {names : List Bytes}
      (hmeta : step.component.hasMeta = false)
      (hnames : Replaces t locale (place.bind (t.lookup · step.component.bytes)) steps names) :
      Replaces t locale place (step :: steps) (step.component.bytes :: names)
  | listed {place : Option Node} {step : Step} {steps : List Step} {entries names : List Bytes}
      {name : Bytes} (hmeta : step.component.hasMeta = true)
      (hlist : place.bind t.list = some entries)
      (hentry : name ∈ entries ∨
        startsWithLiteralDot step.component = true ∧ (name = text "." ∨ name = text ".."))
      (hdot : name.head? = some (chr '.') → startsWithLiteralDot step.component = true)
      (hmatch : step.component.matches locale name = true)
      (hnames : Replaces t locale (place.bind (t.lookup · name)) steps names) :
      Replaces t locale place (step :: steps) (name :: names)

/-- A name the pattern cut so stands for, and which exists. -/
def Generated (t : Tree Node) (locale : Locale) (s : Split) (name : Bytes) : Prop :=
  ∃ names, Replaces t locale (some (if 0 < s.leading then t.root else t.current)) s.steps names ∧
    name = s.text names ∧ t.existsAt name = true ∧ (0 < s.trailing → t.directoryAt name = true)

/-! ### Paths -/

theorem pathNames_append (path rest : Bytes) :
    pathNames (path ++ chr '/' :: rest) = pathNames path ++ pathNames rest := by
  unfold pathNames
  rw [List.splitOnP_append_cons path rest (by decide), List.filter_append]

theorem pathNames_nil : pathNames [] = [] := rfl

theorem pathNames_slashes (n : ℕ) (rest : Bytes) :
    pathNames (slashes n ++ rest) = pathNames rest := by
  induction n with
  | zero => rfl
  | succ n ih =>
    rw [← ih]
    exact pathNames_append [] _

theorem pathNames_append_slashes (path : Bytes) (n : ℕ) :
    pathNames (path ++ slashes n) = pathNames path := by
  cases n with
  | zero => rw [slashes, List.replicate_zero, List.append_nil]
  | succ n =>
    have hbehind : pathNames (slashes n) = [] := by
      rw [← List.append_nil (slashes n), pathNames_slashes, pathNames_nil]
    rw [slashes, List.replicate_succ, pathNames_append, ← slashes, hbehind, List.append_nil]

/-- One name of a path. -/
structure IsEntry (name : Bytes) : Prop where
  ne_nil : name ≠ []
  slashless : chr '/' ∉ name

namespace IsEntry

variable {name : Bytes}

theorem pathNames_eq (h : IsEntry name) : pathNames name = [name] := by
  unfold pathNames
  rw [List.splitOnP_eq_singleton, List.filter_cons_of_pos, List.filter_nil]
  · cases hname : name with
    | nil => exact absurd hname h.ne_nil
    | cons => rfl
  · intro byte hmem
    rw [beq_eq_false_iff_ne]
    rintro rfl
    exact h.slashless hmem

theorem getLast_ne (h : IsEntry name) (front : Bytes) :
    (front ++ name).getLast? ≠ some (chr '/') := by
  intro hlast
  rw [List.getLast?_append_of_ne_nil _ h.ne_nil] at hlast
  exact h.slashless (List.mem_of_getLast? hlast)

theorem head_ne (h : IsEntry name) : name.head? ≠ some (chr '/') := fun hhead =>
  h.slashless (List.mem_of_head? hhead)

end IsEntry

/-- A path that ends in a slash takes a name behind it as it is. -/
theorem pathNames_of_getLast {path : Bytes} (hlast : path.getLast? = some (chr '/')) {name : Bytes}
    (h : IsEntry name) : pathNames (path ++ name) = pathNames path ++ [name] := by
  obtain ⟨front, rfl⟩ := List.getLast?_eq_some_iff.1 hlast
  rw [List.append_assoc, List.singleton_append, pathNames_append, h.pathNames_eq, pathNames_append,
    pathNames_nil, List.append_nil]

theorem pathNames_join (path : Bytes) {name : Bytes} (h : IsEntry name) :
    pathNames (join path name) = pathNames path ++ [name] := by
  unfold join
  split
  · next hlast => exact pathNames_of_getLast hlast h
  · rw [pathNames_append, h.pathNames_eq]

theorem head?_join {path : Bytes} (hne : path ≠ []) (name : Bytes) :
    (join path name).head? = path.head? := by
  unfold join
  split <;> exact List.head?_append_of_ne_nil _ hne

theorem join_ne_nil {path : Bytes} (hne : path ≠ []) (name : Bytes) : join path name ≠ [] := by
  unfold join
  split <;> exact List.append_ne_nil_of_left_ne_nil hne _

theorem pathNames_appendComponent (front : Bytes) (separator : ℕ) {name : Bytes}
    (h : IsEntry name) :
    pathNames (appendComponent front separator name) = pathNames front ++ [name] := by
  unfold appendComponent
  split
  · obtain ⟨n, hn⟩ : ∃ n, max separator 1 = n + 1 := ⟨max separator 1 - 1, by omega⟩
    have hslash : front ++ slashes (n + 1) ++ name = front ++ chr '/' :: (slashes n ++ name) := by
      rw [slashes, List.replicate_succ, List.append_assoc, List.cons_append]
      rfl
    rw [hn, hslash, pathNames_append, pathNames_slashes, h.pathNames_eq]
  · next hfront =>
    rcases Classical.em (front = []) with rfl | hne
    · rw [List.nil_append, h.pathNames_eq, pathNames_nil, List.nil_append]
    · have hlast : front.getLast? = some (chr '/') := by
        by_contra hlast
        exact hfront ⟨hne, hlast⟩
      exact pathNames_of_getLast hlast h

namespace Tree

variable (t : Tree Node)

theorem walk_append (node : Node) (names : List Bytes) (name : Bytes) :
    t.walk node (names ++ [name]) = (t.walk node names).bind (t.lookup · name) := by
  unfold walk
  rw [List.foldlM_append]
  congr 1
  funext other
  rw [List.foldlM_cons]
  cases t.lookup other name <;> rfl

theorem resolve_join {path name : Bytes} (hne : path ≠ []) (h : IsEntry name) :
    t.resolve (join path name) = (t.resolve path).bind (t.lookup · name) := by
  unfold resolve start
  rw [pathNames_join path h, head?_join hne, walk_append]

/-- The current directory is where a path begins that does not begin with a slash. -/
theorem walk_current (names : List Bytes) :
    t.walk t.current (text "." :: names) = t.walk t.current names := by
  unfold walk
  rw [List.foldlM_cons, t.lookup_current]
  rfl

theorem existsAt_of_directoryAt {path : Bytes} (h : t.directoryAt path = true) :
    t.existsAt path = true := by
  obtain ⟨node, hnode, _⟩ := (Option.any_eq_true _ _).1 h
  unfold existsAt
  cases hlast : (pathNames path).getLast? with
  | none => rfl
  | some last =>
    obtain ⟨front, hfront⟩ := List.getLast?_eq_some_iff.1 hlast
    unfold resolve at hnode
    rw [hfront, walk_append] at hnode
    obtain ⟨place, hplace, hlookup⟩ := Option.bind_eq_some_iff.1 hnode
    simp only [hfront, List.dropLast_concat, hplace, Option.any_some]
    exact t.entry_lookup place last (by rw [hlookup]; rfl)

theorem visible_of_walk {node place : Node} {names : List Bytes}
    (h : t.walk node names = some place) : ∀ name ∈ names, (0 : UInt8) ∉ name := by
  induction names generalizing node with
  | nil => exact nofun
  | cons first names ih =>
    unfold walk at h
    rw [List.foldlM_cons] at h
    obtain ⟨next, hnext, hrest⟩ := Option.bind_eq_some_iff.1 h
    rintro name (_ | ⟨_, hmem⟩)
    · exact t.entry_visible node first (t.entry_lookup node first (by rw [hnext]; rfl))
    · exact ih hrest name hmem

/-- The names along a path that exists. -/
theorem visible_of_existsAt {path : Bytes} (h : t.existsAt path = true) :
    ∀ name ∈ pathNames path, (0 : UInt8) ∉ name := by
  unfold existsAt at h
  cases hlast : (pathNames path).getLast? with
  | none =>
    rw [List.getLast?_eq_none_iff.1 hlast]
    exact nofun
  | some last =>
    rw [hlast] at h
    obtain ⟨front, hfront⟩ := List.getLast?_eq_some_iff.1 hlast
    obtain ⟨place, hplace, hentry⟩ := (Option.any_eq_true _ _).1 h
    rw [hfront, List.dropLast_concat] at hplace
    rw [hfront]
    intro name hmem
    rcases List.mem_append.1 hmem with hmem | hmem
    · exact t.visible_of_walk hplace name hmem
    · rw [List.mem_singleton.1 hmem]
      exact t.entry_visible place last hentry

/-- The path of a candidate and the text that is shown of it name the same file. -/
theorem congr_path {path display : Bytes} {names : List Bytes} (hne : names ≠ [])
    (hdisplay : pathNames display = names)
    (h : path.head? = some (chr '/') ∧ display.head? = some (chr '/') ∧ pathNames path = names ∨
      path.head? ≠ some (chr '/') ∧ display.head? ≠ some (chr '/') ∧
        pathNames path = text "." :: names) :
    t.existsAt path = t.existsAt display ∧ t.directoryAt path = t.directoryAt display := by
  rcases h with ⟨hpath, hshown, hnames⟩ | ⟨hpath, hshown, hnames⟩
  · unfold existsAt directoryAt resolve start
    rw [hnames, hdisplay, if_pos hpath, if_pos hshown]
    exact ⟨rfl, rfl⟩
  · obtain ⟨front, last, rfl⟩ := List.eq_nil_or_concat' names |>.resolve_left hne
    unfold existsAt directoryAt resolve start
    rw [hnames, hdisplay, if_neg hpath, if_neg hshown, walk_current]
    refine ⟨?_, rfl⟩
    rw [← List.cons_append, List.getLast?_concat, List.getLast?_concat]
    simp only
    rw [List.dropLast_concat, List.dropLast_concat, walk_current]

end Tree

/-! ### The walk -/

/-- A candidate, with names behind it. -/
def Candidate.extendAll : Candidate → List Step → List Bytes → Candidate
  | candidate, step :: steps, name :: names =>
    (candidate.extend step.slashes name).extendAll steps names
  | candidate, _, _ => candidate

/-- The settings of the POSIX dialect. -/
def posixSettings : GlobSettings := settings .posix {} []

theorem settings_posix (shopts : GlobShopts) (ignored : List Pattern) :
    settings .posix shopts ignored = posixSettings := rfl

theorem isEntry_dot : IsEntry (text ".") ∧ IsEntry (text "..") :=
  ⟨⟨by decide, by decide⟩, ⟨by decide, by decide⟩⟩

/-- Every component that is taken as written is a name. -/
def Literal (steps : List Step) : Prop := ∀ step ∈ steps, IsEntry step.component.bytes

theorem mem_children {candidates : List Candidate} {separator : ℕ} {component : Pattern}
    {candidate : Candidate} :
    candidate ∈ children t locale candidates separator component posixSettings ↔
      ∃ origin ∈ candidates, ∃ entries name, t.readDirectory origin.path = some entries ∧
        (name ∈ entries ∨ startsWithLiteralDot component = true ∧
          (name = text "." ∨ name = text "..")) ∧
        (name.head? = some (chr '.') → startsWithLiteralDot component = true) ∧
        component.matches locale name = true ∧ candidate = origin.extend separator name := by
  have hnames : ∀ entries name, name ∈ entryNames component posixSettings entries ↔
      (name ∈ entries ∨ startsWithLiteralDot component = true ∧
        (name = text "." ∨ name = text "..")) := by
    intro entries name
    unfold entryNames
    cases startsWithLiteralDot component with
    | false => simp [posixSettings, settings, GlobSettings.skipsDotEntries]
    | true => simp [posixSettings, settings, GlobSettings.skipsDotEntries]
  have htakes : ∀ name, takes locale component posixSettings name = true ↔
      (name.head? = some (chr '.') → startsWithLiteralDot component = true) ∧
        component.matches locale name = true := by
    intro name
    unfold takes
    cases startsWithLiteralDot component with
    | false => simp [posixSettings, settings]
    | true => simp [posixSettings, settings]
  unfold children
  rw [List.mem_flatMap]
  constructor
  · rintro ⟨origin, horigin, hmem⟩
    cases hlist : t.readDirectory origin.path with
    | none =>
      rw [hlist] at hmem
      cases hmem
    | some entries =>
      rw [hlist] at hmem
      obtain ⟨name, hname, rfl⟩ := List.mem_map.1 hmem
      obtain ⟨hentry, htaken⟩ := List.mem_filter.1 hname
      exact ⟨origin, horigin, entries, name, hlist, (hnames entries name).1 hentry,
        ((htakes name).1 htaken).1, ((htakes name).1 htaken).2, rfl⟩
  · rintro ⟨origin, horigin, entries, name, hlist, hentry, hdot, hmatch, rfl⟩
    refine ⟨origin, horigin, ?_⟩
    rw [hlist]
    exact List.mem_map.2 ⟨name, List.mem_filter.2 ⟨(hnames entries name).2 hentry,
      (htakes name).2 ⟨hdot, hmatch⟩⟩, rfl⟩

theorem isEntry_listed {place : Option Node} {entries : List Bytes}
    (hlist : place.bind t.list = some entries) {component : Pattern} {name : Bytes}
    (hentry : name ∈ entries ∨ startsWithLiteralDot component = true ∧
      (name = text "." ∨ name = text "..")) : IsEntry name := by
  rcases hentry with hmem | ⟨_, rfl | rfl⟩
  · obtain ⟨node, _, hnode⟩ := Option.bind_eq_some_iff.1 hlist
    obtain ⟨hne, hslashless⟩ := t.list_names node entries hnode name hmem
    exact ⟨hne, hslashless⟩
  · exact isEntry_dot.1
  · exact isEntry_dot.2

/-- What the walk ends at, and whether it met an operator. -/
theorem matchesFrom_posix (t : Tree Node) (locale : Locale) (steps : List Step)
    (hliteral : Literal steps) (sawMeta : Bool)
    (candidates : List Candidate) (hpaths : ∀ candidate ∈ candidates, candidate.path ≠ []) :
    (matchesFrom t locale posixSettings sawMeta candidates steps).1 =
        (sawMeta || steps.any fun step => step.component.hasMeta) ∧
      ∀ candidate, candidate ∈ (matchesFrom t locale posixSettings sawMeta candidates steps).2 ↔
        ∃ origin ∈ candidates, ∃ names,
          Replaces t locale (t.resolve origin.path) steps names ∧
            candidate = origin.extendAll steps names := by
  induction steps generalizing sawMeta candidates with
  | nil =>
    refine ⟨(Bool.or_false _).symm, fun candidate => ?_⟩
    constructor
    · intro hmem
      exact ⟨candidate, hmem, [], .nil, rfl⟩
    · rintro ⟨origin, horigin, names, hnames, rfl⟩
      cases hnames
      exact horigin
  | cons step steps ih =>
    have hsteps : Literal steps := fun other hmem => hliteral other (List.mem_cons_of_mem _ hmem)
    have hseparator : posixSettings.separator sawMeta step.slashes = step.slashes := rfl
    rw [matchesFrom]
    simp only [hseparator]
    split
    · next hmeta =>
      obtain ⟨hsaw, hends⟩ := ih hsteps true
        (children t locale candidates step.slashes step.component posixSettings) (by
          intro candidate hmem
          obtain ⟨origin, horigin, _, name, _, _, _, _, rfl⟩ := mem_children.1 hmem
          exact join_ne_nil (hpaths origin horigin) name)
      refine ⟨?_, fun candidate => (hends candidate).trans ?_⟩
      · rw [hsaw, List.any_cons, hmeta]
        simp only [Bool.true_or, Bool.or_true]
      constructor
      · rintro ⟨child, hchild, names, hnames, rfl⟩
        obtain ⟨origin, horigin, entries, name, hlist, hentry, hdot, hmatch, rfl⟩ :=
          mem_children.1 hchild
        have hname := isEntry_listed hlist hentry
        refine ⟨origin, horigin, name :: names, .listed hmeta hlist hentry hdot hmatch ?_, rfl⟩
        rwa [← t.resolve_join (hpaths origin horigin) hname]
      · rintro ⟨origin, horigin, names, hnames, rfl⟩
        cases hnames with
        | literal hordinary _ =>
          rw [hmeta] at hordinary
          cases hordinary
        | @listed _ _ _ entries names name _ hlist hentry hdot hmatch hnames =>
          have hname := isEntry_listed hlist hentry
          refine ⟨origin.extend step.slashes name, mem_children.2
            ⟨origin, horigin, entries, name, hlist, hentry, hdot, hmatch, rfl⟩, names, ?_, rfl⟩
          show Replaces t locale (t.resolve (join origin.path name)) steps names
          rwa [t.resolve_join (hpaths origin horigin) hname]
    · next hmeta =>
      have hmeta := Bool.eq_false_iff.2 hmeta
      have hname := hliteral step List.mem_cons_self
      obtain ⟨hsaw, hends⟩ := ih hsteps sawMeta
        (candidates.map fun candidate => candidate.extend step.slashes step.component.bytes) (by
          intro candidate hmem
          obtain ⟨origin, horigin, rfl⟩ := List.mem_map.1 hmem
          exact join_ne_nil (hpaths origin horigin) _)
      refine ⟨?_, fun candidate => (hends candidate).trans ?_⟩
      · rw [hsaw, List.any_cons, hmeta, Bool.false_or]
      constructor
      · rintro ⟨child, hchild, names, hnames, rfl⟩
        obtain ⟨origin, horigin, rfl⟩ := List.mem_map.1 hchild
        refine ⟨origin, horigin, step.component.bytes :: names, .literal hmeta ?_, rfl⟩
        rwa [← t.resolve_join (hpaths origin horigin) hname]
      · rintro ⟨origin, horigin, names, hnames, rfl⟩
        cases hnames with
        | listed hoperator _ _ _ _ _ =>
          rw [hmeta] at hoperator
          cases hoperator
        | @literal _ _ _ names _ hnames =>
          refine ⟨_, List.mem_map_of_mem horigin, names, ?_, rfl⟩
          show Replaces t locale (t.resolve (join origin.path step.component.bytes)) steps names
          rwa [t.resolve_join (hpaths origin horigin) hname]

theorem Replaces.isEntry {place : Option Node} {steps : List Step} {names : List Bytes}
    (h : Replaces t locale place steps names) (hliteral : Literal steps) :
    names.length = steps.length ∧ ∀ name ∈ names, IsEntry name := by
  induction h with
  | nil => exact ⟨rfl, nofun⟩
  | literal _ _ ih =>
    obtain ⟨hlength, hnames⟩ := ih fun step hmem => hliteral step (List.mem_cons_of_mem _ hmem)
    refine ⟨by rw [List.length_cons, List.length_cons, hlength], ?_⟩
    rintro name (_ | ⟨_, hmem⟩)
    · exact hliteral _ List.mem_cons_self
    · exact hnames name hmem
  | listed _ hlist hentry _ _ _ ih =>
    obtain ⟨hlength, hnames⟩ := ih fun step hmem => hliteral step (List.mem_cons_of_mem _ hmem)
    refine ⟨by rw [List.length_cons, List.length_cons, hlength], ?_⟩
    rintro name (_ | ⟨_, hmem⟩)
    · exact isEntry_listed hlist hentry
    · exact hnames name hmem

theorem literal_of_cut {p : Pattern} {s : Split} (hcut : Cut p s) : Literal s.steps := by
  intro step hmem
  refine ⟨?_, ?_⟩
  · intro hnil
    exact hcut.filled step hmem (List.map_eq_nil_iff.1 hnil)
  · intro hslash
    obtain ⟨mark, hmark, hbyte⟩ := List.mem_map.1 hslash
    have hnot := hcut.slashless step hmem mark hmark
    unfold isSlash at hnot
    rw [hbyte] at hnot
    cases hnot

/-! ### What is shown -/

/-- Behind a name, every component stands with the slashes in front of it. -/
theorem display_extendAll_behind {steps : List Step} {names : List Bytes}
    (hlength : names.length = steps.length) (hnames : ∀ name ∈ names, IsEntry name)
    (hslashes : ∀ step ∈ steps, 0 < step.slashes) (candidate : Candidate)
    (hne : candidate.display ≠ []) (hlast : candidate.display.getLast? ≠ some (chr '/')) :
    (candidate.extendAll steps names).display = candidate.display ++ textFrom steps names ∧
      (candidate.extendAll steps names).display.getLast? ≠ some (chr '/') := by
  induction steps generalizing names candidate with
  | nil =>
    obtain rfl := List.length_eq_zero_iff.1 hlength
    refine ⟨(List.append_nil _).symm, hlast⟩
  | cons step steps ih =>
    obtain ⟨name, names, rfl⟩ := List.exists_cons_of_length_eq_add_one hlength
    have hname := hnames name List.mem_cons_self
    have hpos := hslashes step List.mem_cons_self
    have hdisplay : (candidate.extend step.slashes name).display =
        candidate.display ++ slashes step.slashes ++ name := by
      have hmax : max step.slashes 1 = step.slashes := max_eq_left hpos
      show appendComponent _ _ _ = _
      unfold appendComponent
      rw [if_pos ⟨hne, hlast⟩, hmax]
    obtain ⟨htext, hend⟩ := ih (Nat.succ.inj hlength)
      (fun other hmem => hnames other (List.mem_cons_of_mem _ hmem))
      (fun other hmem => hslashes other (List.mem_cons_of_mem _ hmem))
      (candidate.extend step.slashes name)
      (by rw [hdisplay]; exact List.append_ne_nil_of_right_ne_nil _ hname.ne_nil)
      (by rw [hdisplay]; exact hname.getLast_ne _)
    refine ⟨?_, hend⟩
    show ((candidate.extend step.slashes name).extendAll steps names).display = _
    rw [htext, hdisplay, textFrom]
    simp only [List.append_assoc]

/-- The text shown for names is that of the pattern with these for its components. -/
theorem display_extendAll {p : Pattern} {s : Split} (hcut : Cut p s) {names : List Bytes}
    (hlength : names.length = s.steps.length) (hnames : ∀ name ∈ names, IsEntry name)
    (hsteps : s.steps ≠ []) (path : Bytes) :
    ((⟨path, slashes s.leading⟩ : Candidate).extendAll s.steps names).display =
        slashes s.leading ++ textFrom s.steps names ∧
      ((⟨path, slashes s.leading⟩ : Candidate).extendAll s.steps names).display.getLast? ≠
        some (chr '/') := by
  obtain ⟨step, steps, hcons⟩ := List.exists_cons_of_ne_nil hsteps
  rw [hcons] at hlength ⊢
  obtain ⟨name, names, rfl⟩ := List.exists_cons_of_length_eq_add_one hlength
  have hname := hnames name List.mem_cons_self
  have hfirst : step.slashes = 0 := hcut.first step (by rw [hcons]; rfl)
  have hapart : ∀ other ∈ steps, 0 < other.slashes := by
    intro other hmem
    exact hcut.apart other (by rw [hcons]; exact hmem)
  have hdisplay : ((⟨path, slashes s.leading⟩ : Candidate).extend step.slashes name).display =
      slashes s.leading ++ name := by
    show appendComponent _ _ _ = _
    unfold appendComponent
    rw [if_neg]
    rintro ⟨hne, hlast⟩
    cases hleading : s.leading with
    | zero =>
      rw [hleading] at hne
      exact hne rfl
    | succ n =>
      rw [hleading, slashes_succ, List.getLast?_concat] at hlast
      exact hlast rfl
  obtain ⟨htext, hend⟩ := display_extendAll_behind (Nat.succ.inj hlength)
    (fun other hmem => hnames other (List.mem_cons_of_mem _ hmem)) hapart
    ((⟨path, slashes s.leading⟩ : Candidate).extend step.slashes name)
    (by rw [hdisplay]; exact List.append_ne_nil_of_right_ne_nil _ hname.ne_nil)
    (by rw [hdisplay]; exact hname.getLast_ne _)
  refine ⟨?_, hend⟩
  show (((⟨path, slashes s.leading⟩ : Candidate).extend step.slashes name).extendAll steps
    names).display = _
  rw [htext, hdisplay, textFrom, hfirst]
  simp [slashes]

theorem names_extendAll {steps : List Step} {names : List Bytes}
    (hlength : names.length = steps.length) (hnames : ∀ name ∈ names, IsEntry name)
    (candidate : Candidate) (hne : candidate.path ≠ []) :
    pathNames (candidate.extendAll steps names).path = pathNames candidate.path ++ names ∧
      (candidate.extendAll steps names).path.head? = candidate.path.head? ∧
      pathNames (candidate.extendAll steps names).display =
        pathNames candidate.display ++ names := by
  induction steps generalizing names candidate with
  | nil =>
    obtain rfl := List.length_eq_zero_iff.1 hlength
    exact ⟨(List.append_nil _).symm, rfl, (List.append_nil _).symm⟩
  | cons step steps ih =>
    obtain ⟨name, names, rfl⟩ := List.exists_cons_of_length_eq_add_one hlength
    have hname := hnames name List.mem_cons_self
    obtain ⟨hpath, hhead, hdisplay⟩ := ih (Nat.succ.inj hlength)
      (fun other hmem => hnames other (List.mem_cons_of_mem _ hmem))
      (candidate.extend step.slashes name) (join_ne_nil hne name)
    refine ⟨?_, ?_, ?_⟩
    · show pathNames ((candidate.extend step.slashes name).extendAll steps names).path = _
      rw [hpath]
      show pathNames (join candidate.path name) ++ names = _
      rw [pathNames_join _ hname, List.append_assoc, List.singleton_append]
    · show ((candidate.extend step.slashes name).extendAll steps names).path.head? = _
      rw [hhead]
      exact head?_join hne name
    · show pathNames ((candidate.extend step.slashes name).extendAll steps names).display = _
      rw [hdisplay]
      show pathNames (appendComponent candidate.display step.slashes name) ++ names = _
      rw [pathNames_appendComponent _ _ hname, List.append_assoc, List.singleton_append]

/-- A text begins with a slash where the pattern does. -/
theorem head?_text {p : Pattern} {s : Split} (hcut : Cut p s) {names : List Bytes}
    (hlength : names.length = s.steps.length) (hnames : ∀ name ∈ names, IsEntry name)
    (hsteps : s.steps ≠ []) : (s.text names).head? = some (chr '/') ↔ 0 < s.leading := by
  obtain ⟨step, steps, hcons⟩ := List.exists_cons_of_ne_nil hsteps
  rw [hcons] at hlength
  obtain ⟨name, names, rfl⟩ := List.exists_cons_of_length_eq_add_one hlength
  have hname := hnames name List.mem_cons_self
  have hfirst : step.slashes = 0 := hcut.first step (by rw [hcons]; rfl)
  unfold Split.text
  rw [hcons, textFrom, hfirst]
  cases s.leading with
  | zero =>
    have hhead : (slashes 0 ++ (slashes 0 ++ name ++ textFrom steps names) ++
        slashes s.trailing).head? = name.head? := by
      simp only [slashes, List.replicate_zero, List.nil_append, List.append_assoc]
      exact List.head?_append_of_ne_nil _ hname.ne_nil
    rw [hhead]
    exact ⟨fun h => absurd h hname.head_ne, fun h => absurd h (lt_irrefl 0)⟩
  | succ n => exact ⟨fun _ => Nat.succ_pos n, fun _ => rfl⟩

theorem steps_ne_nil {s : Split}
    (hmeta : s.steps.any (fun step => step.component.hasMeta) = true) : s.steps ≠ [] := by
  intro hnil
  rw [hnil] at hmeta
  cases hmeta

/-- The names along a text are those it was written with. -/
theorem pathNames_text {p : Pattern} {s : Split} (hcut : Cut p s) {names : List Bytes}
    (hlength : names.length = s.steps.length) (hnames : ∀ name ∈ names, IsEntry name)
    (hsteps : s.steps ≠ []) : pathNames (s.text names) = names := by
  have hleading : pathNames (slashes s.leading) = [] := by
    rw [← List.append_nil (slashes s.leading), pathNames_slashes, pathNames_nil]
  have htext : s.text names =
      ((⟨text "/", slashes s.leading⟩ : Candidate).extendAll s.steps names).display ++
        slashes s.trailing := by
    rw [(display_extendAll hcut hlength hnames hsteps (text "/")).1]
    rfl
  rw [htext, pathNames_append_slashes,
    (names_extendAll hlength hnames ⟨text "/", slashes s.leading⟩ (List.cons_ne_nil _ _)).2.2]
  show pathNames (slashes s.leading) ++ names = names
  rw [hleading, List.nil_append]

/-! ### The names -/

/-- **What the walk answers are the names the pattern stands for.** -/
theorem mem_matchesOf (t : Tree Node) (locale : Locale) {p : Pattern} {s : Split} (hs : split p = s)
    (hcut : Cut p s)
    (hmeta : s.steps.any (fun step => step.component.hasMeta) = true) (name : Bytes) :
    name ∈ matchesOf t locale p posixSettings ↔ Generated t locale s name := by
  have hliteral := literal_of_cut hcut
  have hsteps := steps_ne_nil hmeta
  let path : Bytes := if s.leading > 0 then text "/" else text "."
  let origin : Candidate := ⟨path, slashes s.leading⟩
  have hne : path ≠ [] := by
    show (if s.leading > 0 then text "/" else text ".") ≠ []
    split <;> decide
  have horigin : t.resolve path = some (if 0 < s.leading then t.root else t.current) := by
    show t.resolve (if s.leading > 0 then text "/" else text ".") = _
    split
    · rfl
    · exact t.walk_current []
  obtain ⟨hsaw, hends⟩ := matchesFrom_posix t locale s.steps hliteral false
    [origin] (by
      intro candidate hmem
      rw [List.mem_singleton.1 hmem]
      exact hne)
  rw [Bool.false_or, hmeta] at hsaw
  -- what one candidate at the end of the walk is worth
  have hshown : ∀ names, Replaces t locale (some (if 0 < s.leading then t.root else t.current))
      s.steps names →
      (shown t locale s.trailing s.trailing posixSettings (origin.extendAll s.steps names) =
          some name ↔
        name = s.text names ∧ t.existsAt name = true ∧
          (0 < s.trailing → t.directoryAt name = true)) := by
    intro names hnames
    obtain ⟨hlength, hentries⟩ := hnames.isEntry hliteral
    obtain ⟨hdisplay, hlast⟩ := display_extendAll hcut hlength hentries hsteps path
    obtain ⟨hpath, hhead, _⟩ := names_extendAll hlength hentries origin hne
    have htext : s.text names = (origin.extendAll s.steps names).display ++ slashes s.trailing := by
      rw [hdisplay]
      rfl
    have hdisplayed : (if s.trailing > 0 ∧
        (origin.extendAll s.steps names).display.getLast? ≠ some (chr '/') then
          (origin.extendAll s.steps names).display ++ slashes s.trailing
        else (origin.extendAll s.steps names).display) = s.text names := by
      rw [htext]
      split
      · rfl
      · next hno =>
        have hzero : s.trailing = 0 := by
          by_contra hpos
          exact hno ⟨Nat.pos_of_ne_zero hpos, hlast⟩
        rw [hzero, slashes, List.replicate_zero, List.append_nil]
    have hnonempty : names ≠ [] := fun hnil => hsteps (List.length_eq_zero_iff.1 (by
      rw [← hlength, hnil]
      rfl))
    have htextNames := pathNames_text hcut hlength hentries hsteps
    have hplace : (origin.extendAll s.steps names).path.head? = path.head? := hhead
    have hfile : t.existsAt (origin.extendAll s.steps names).path = t.existsAt (s.text names) ∧
        t.directoryAt (origin.extendAll s.steps names).path = t.directoryAt (s.text names) := by
      refine t.congr_path hnonempty htextNames ?_
      have hstart := head?_text hcut hlength hentries hsteps
      rw [hpath, hplace]
      rcases Nat.eq_zero_or_pos s.leading with hzero | hpos
      · have hdot : path = text "." := if_neg (by omega)
        refine .inr ⟨by show path.head? ≠ _; rw [hdot]; decide, fun hslash => ?_, ?_⟩
        · have hleadingPos := hstart.1 hslash
          omega
        · show pathNames path ++ names = _
          rw [hdot]
          rfl
      · have hroot : path = text "/" := if_pos hpos
        refine .inl ⟨by show path.head? = _; rw [hroot]; decide, hstart.2 hpos, ?_⟩
        show pathNames path ++ names = _
        rw [hroot]
        rfl
    have hfound : (if s.trailing > 0 then t.directoryAt (s.text names)
        else t.existsAt (s.text names)) = true ↔ t.existsAt (s.text names) = true ∧
          (0 < s.trailing → t.directoryAt (s.text names) = true) := by
      split
      · next hpos => exact ⟨fun h => ⟨t.existsAt_of_directoryAt h, fun _ => h⟩, fun h => h.2 hpos⟩
      · next hnone => exact ⟨fun h => ⟨h, fun hpos => absurd hpos hnone⟩, fun h => h.1⟩
    have hignored : isIgnored locale (s.text names) posixSettings = false := rfl
    unfold shown
    simp only
    rw [hdisplayed, hfile.1, hfile.2, hignored, Bool.not_false, Bool.and_true]
    constructor
    · intro hsome
      by_cases h : (if s.trailing > 0 then t.directoryAt (s.text names)
          else t.existsAt (s.text names)) = true
      · rw [if_pos h] at hsome
        cases hsome
        exact ⟨rfl, hfound.1 h⟩
      · rw [if_neg h] at hsome
        cases hsome
    · rintro ⟨rfl, hexists⟩
      rw [if_pos (hfound.2 hexists)]
  have hanswers : matchesOf t locale p posixSettings =
      (matchesFrom t locale posixSettings false [origin] s.steps).2.filterMap
        (shown t locale s.trailing s.trailing posixSettings) := by
    have hseparator : ∀ sawMeta, posixSettings.separator sawMeta s.trailing = s.trailing :=
      fun _ => rfl
    unfold matchesOf
    rw [hs]
    simp only [hseparator]
    exact if_pos hsaw
  rw [hanswers, List.mem_filterMap]
  constructor
  · rintro ⟨candidate, hcandidate, hname⟩
    obtain ⟨other, hother, names, hnames, rfl⟩ := (hends candidate).1 hcandidate
    rw [List.mem_singleton.1 hother] at hnames hname
    have hplaced := horigin ▸ hnames
    obtain ⟨htext, hexists, hdirectory⟩ := (hshown names hplaced).1 hname
    exact ⟨names, hplaced, htext, hexists, hdirectory⟩
  · rintro ⟨names, hnames, htext, hexists, hdirectory⟩
    refine ⟨origin.extendAll s.steps names, (hends _).2 ⟨origin, List.mem_singleton_self _, names,
      ?_, rfl⟩, (hshown names hnames).2 ⟨htext, hexists, hdirectory⟩⟩
    show Replaces t locale (t.resolve path) s.steps names
    rw [horigin]
    exact hnames

/-! ### The order of the names -/

section Order

variable {strcoll : Bytes → Bytes → Ordering}

theorem visible_eq {bytes : Bytes} (h : (0 : UInt8) ∉ bytes) : visible bytes = bytes := by
  unfold visible
  rw [List.takeWhile_eq_self_iff]
  intro byte hmem
  rw [bne_iff_ne]
  rintro rfl
  exact h hmem

theorem mem_dedup {names : List Bytes} {name : Bytes} : name ∈ dedup names ↔ name ∈ names := by
  fun_induction dedup names with
  | case1 => exact Iff.rfl
  | case2 => exact Iff.rfl
  | case3 next names ih =>
    rw [ih]
    constructor
    · exact List.mem_cons_of_mem _
    · intro hmem
      rcases List.mem_cons.1 hmem with heq | hmem
      · rw [heq]
        exact List.mem_cons_self
      · exact hmem
  | case4 first next names hne ih => rw [List.mem_cons, ih, ← List.mem_cons]

instance [Std.TransCmp strcoll] : Std.TransCmp (collate strcoll) where
  eq_swap {left right} := by
    unfold collate
    exact Std.OrientedCmp.eq_swap
  isLE_trans h h' := by
    unfold collate at h h' ⊢
    exact Std.TransCmp.isLE_trans h h'

/-- Sorted names have their duplicates side by side. -/
theorem pairwise_dedup [Std.TransCmp strcoll] [Std.LawfulEqCmp strcoll] {names : List Bytes}
    (hvisible : ∀ name ∈ names, (0 : UInt8) ∉ name)
    (hsorted : names.Pairwise fun left right => (collate strcoll left right).isLE = true) :
    (dedup names).Pairwise fun left right => collate strcoll left right = .lt := by
  fun_induction dedup names with
  | case1 => exact .nil
  | case2 => exact List.pairwise_singleton _ _
  | case3 next names ih =>
    exact ih (fun name hmem => hvisible name (List.mem_cons_of_mem _ hmem)) hsorted.of_cons
  | case4 first next names hne ih =>
    refine .cons ?_ (ih (fun name hmem => hvisible name (List.mem_cons_of_mem _ hmem))
      hsorted.of_cons)
    intro name hmem
    have hmem := mem_dedup.1 hmem
    have hfirst := hvisible first List.mem_cons_self
    have hnext := hvisible next (List.mem_cons_of_mem _ List.mem_cons_self)
    have hle := List.rel_of_pairwise_cons hsorted (List.mem_cons_self : next ∈ next :: names)
    have hlt : collate strcoll first next = .lt := by
      rcases Ordering.isLE_iff_eq_lt_or_eq_eq.1 hle with hlt | heq
      · exact hlt
      · unfold collate at heq
        rw [visible_eq hfirst, visible_eq hnext] at heq
        exact absurd (Std.LawfulEqCmp.eq_of_compare heq) hne
    rcases List.mem_cons.1 hmem with rfl | hbehind
    · exact hlt
    · exact Std.TransCmp.lt_of_lt_of_isLE hlt (List.rel_of_pairwise_cons hsorted.of_cons hbehind)

theorem pairwise_sorted [Std.TransCmp strcoll] (names : List Bytes) :
    (names.mergeSort fun left right => (collate strcoll left right).isLE).Pairwise
      fun left right => (collate strcoll left right).isLE = true := by
  refine List.pairwise_mergeSort (fun _ _ _ => Std.TransCmp.isLE_trans) ?_ names
  intro left right
  rw [Bool.or_eq_true]
  by_cases hle : (collate strcoll left right).isLE = true
  · exact .inl hle
  · exact .inr (Ordering.isLE_of_eq_lt (Std.OrientedCmp.lt_of_not_isLE hle))

end Order

/-! ### Fields -/

theorem visible_text {steps : List Step} {names : List Bytes}
    (hnames : ∀ name ∈ names, (0 : UInt8) ∉ name) (leading trailing : ℕ) :
    (0 : UInt8) ∉ (⟨leading, steps, trailing⟩ : Split).text names := by
  have hslashes : ∀ n, (0 : UInt8) ∉ slashes n := by
    intro n hmem
    exact absurd (List.eq_of_mem_replicate hmem) (by decide)
  have hfrom : (0 : UInt8) ∉ textFrom steps names := by
    induction steps generalizing names with
    | nil => exact List.not_mem_nil
    | cons step steps ih =>
      cases names with
      | nil => exact List.not_mem_nil
      | cons name names =>
        rw [textFrom, List.mem_append, List.mem_append]
        rintro ((hmem | hmem) | hmem)
        · exact hslashes _ hmem
        · exact hnames name List.mem_cons_self hmem
        · exact ih (fun other hother => hnames other (List.mem_cons_of_mem _ hother)) hmem
  unfold Split.text
  rw [List.mem_append, List.mem_append]
  rintro ((hmem | hmem) | hmem)
  · exact hslashes _ hmem
  · exact hfrom hmem
  · exact hslashes _ hmem

theorem Generated.visible {p : Pattern} {s : Split} (hcut : Cut p s) (hsteps : s.steps ≠ [])
    {name : Bytes} (h : Generated t locale s name) : (0 : UInt8) ∉ name := by
  obtain ⟨names, hnames, rfl, hexists, _⟩ := h
  obtain ⟨hlength, hentries⟩ := hnames.isEntry (literal_of_cut hcut)
  refine visible_text (fun name hmem => t.visible_of_existsAt hexists name ?_) _ _
  rwa [pathNames_text hcut hlength hentries hsteps]

/-- **Pathname expansion yields the existing names** its pattern stands for, sorted and
    each once, and leaves a field that has none as it is. -/
theorem expand_names (t : Tree Node) (strcoll : Bytes → Bytes → Ordering) [Std.TransCmp strcoll]
    [Std.LawfulEqCmp strcoll] (shell : Shell W) (hposix : shell.options.dialect = .posix)
    (shopts : GlobShopts) (ignored : List Pattern) (f : Field) {p : Pattern}
    (hp : p = f.pattern (settings shell.options.dialect shopts ignored).options)
    (hmeta : p.hasMeta = true) :
    ∃ s, Cut p s ∧ ∃ names : List Bytes,
      names.Pairwise (fun left right => collate strcoll left right = .lt) ∧
      (∀ name, name ∈ names ↔ Generated t shell.locale s name) ∧
      expand t strcoll shell (settings shell.options.dialect shopts ignored) [f] =
        .ok (if names = [] then [f]
          else names.map fun name => Field.fromBytes name false false false) := by
  rw [hposix, settings_posix] at hp ⊢
  have hcut := cut_split p
  have hplain : p.options.extended = false := by
    rw [hp]
    rfl
  have hoperator := (split_hasMeta hplain).trans hmeta
  have hmem := mem_matchesOf t shell.locale rfl hcut hoperator
  let sorted := (matchesOf t shell.locale p posixSettings).mergeSort fun left right =>
    (collate strcoll left right).isLE
  have hshown : ∀ name ∈ sorted, (0 : UInt8) ∉ name := by
    intro name hname
    exact ((hmem name).1 (List.mem_mergeSort.1 hname)).visible hcut (steps_ne_nil hoperator)
  refine ⟨split p, hcut, dedup sorted, pairwise_dedup hshown (pairwise_sorted _), ?_, ?_⟩
  · intro name
    rw [mem_dedup, List.mem_mergeSort, hmem]
  · have hfield : expandField t strcoll shell posixSettings f =
        .ok (if dedup sorted = [] then [f]
          else (dedup sorted).map fun name => Field.fromBytes name false false false) := by
      unfold expandField
      rw [← hp]
      simp only [hmeta, if_true]
      show (if (dedup sorted).isEmpty then _ else _) = _
      cases dedup sorted with
      | nil => rfl
      | cons name names => rfl
    rw [expand, hfield]
    exact congrArg Except.ok (List.append_nil _)

/-- A directory that holds `.b` and `a`. -/
def homeTree : Tree Bool where
  root := true
  current := true
  lookup node name :=
    if node = true ∧ name = text "." then some true
    else if node = true ∧ (name = text "a" ∨ name = text ".b") then some false
    else none
  entry node name :=
    node && (name == text "." || name == text "a" || name == text ".b")
  isDirectory node := node
  list node := if node then some [text ".b", text "a"] else none
  lookup_current := rfl
  entry_lookup := by
    intro node name h
    split at h
    · next hdot => simp [hdot.1, hdot.2]
    · split at h
      · next hname => rcases hname.2 with heq | heq <;> simp [hname.1, heq]
      · cases h
  entry_visible := by
    intro node name h
    simp only [Bool.and_eq_true, Bool.or_eq_true, beq_iff_eq] at h
    rcases h.2 with (rfl | rfl) | rfl <;> decide
  list_names := by
    intro node names h
    split at h
    · cases h
      decide
    · cases h

def homeShell : Shell Unit where
  options := { dialect := .posix }
  locale := Locale.c
  table := { entries := ∅ }
  world := ()

/-- The field of an unquoted `*`. -/
def star : Field := Field.fromBytes (text "*") false false false

theorem expand_star : ∃ s, Cut (star.pattern ⟨false, false⟩) s ∧ ∃ names : List Bytes,
    names.Pairwise (fun left right => collate compare left right = .lt) ∧
    (∀ name, name ∈ names ↔ Generated homeTree Locale.c s name) ∧
    expand homeTree compare homeShell (settings .posix {} []) [star] =
      .ok (if names = [] then [star]
        else names.map fun name => Field.fromBytes name false false false) :=
  expand_names homeTree compare homeShell rfl {} [] star rfl (by decide)

end Nsh.Expand.Pathname
