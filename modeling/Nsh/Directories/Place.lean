import Nsh.Directories.Model
import Nsh.Lib.Lines

/-!
# Places in the tree of directories

What a logical path stands for: a root, which may be spelled with one slash or with
two, and the names below it.  An operand of `cd` is a walk from such a place, a step
for each of its components, and `logical_path` computes the walk on the spelling: it
never shows an empty component, a dot or a dot-dot.
-/

namespace Nsh.Directories

/-- A component that names a directory of its own. -/
structure Name where
  bytes : Bytes
  nonempty : bytes ≠ []
  noSlash : chr '/' ∉ bytes
  notDot : bytes ≠ text "."
  notDotDot : bytes ≠ text ".."
deriving DecidableEq, Repr

/-- A directory, by the way down to it. -/
structure Place where
  /-- Whether the root is spelled with two slashes. -/
  doubled : Bool
  /-- The names on the way down, the outermost first. -/
  names : List Name
deriving DecidableEq, Repr

def Place.root (doubled : Bool) : Bytes := if doubled then text "//" else text "/"

/-- A name and the slash behind it. -/
def Name.opened (name : Name) : Bytes := name.bytes ++ [chr '/']

/-- The spelling that a name may be put behind. -/
def Place.opened (place : Place) : Bytes :=
  Place.root place.doubled ++ place.names.flatMap Name.opened

/-- The canonical spelling. -/
def Place.path (place : Place) : Bytes :=
  if place.names = [] then Place.root place.doubled else place.opened.dropLast

def Place.parent (place : Place) : Place := { place with names := place.names.dropLast }

def Place.child (place : Place) (name : Name) : Place :=
  { place with names := place.names ++ [name] }

/-! ### Walks -/

/-- What a component asks for. -/
inductive Step where
  | stay
  | up
  | down (name : Name)
deriving DecidableEq, Repr

def Step.ofComponent (component : Bytes) : Step :=
  if component = text ".." then .up
  else if h : component ≠ [] ∧ chr '/' ∉ component ∧ component ≠ text "." ∧
      component ≠ text ".." then .down ⟨component, h.1, h.2.1, h.2.2.1, h.2.2.2⟩
  else .stay

/-- The steps a path asks for. -/
def steps (dir : Bytes) : List Step := (dir.splitOn (chr '/')).map Step.ofComponent

/-- One step.  A directory is left for its parent only where it is one. -/
def Place.take (isDirectory : Bytes → Bool) (place : Place) : Step → Option Place
  | .stay => some place
  | .up =>
    if place.names ≠ [] ∧ isDirectory place.opened = false then none else some place.parent
  | .down name => some (place.child name)

/-- Where a walk along a path begins. -/
def Place.start (current : Option Place) (dir : Bytes) : Option Place :=
  if pathIsAbsolute dir then
    some ⟨decide (dir[1]? = some (chr '/') ∧ dir[2]? ≠ some (chr '/')), []⟩
  else current

/-- Where a path leads. -/
def Place.visit (isDirectory : Bytes → Bool) (current : Option Place) (dir : Bytes) :
    Option Place := do
  let place ← Place.start current dir
  (steps dir).foldlM (Place.take isDirectory) place

/-! ### The spelling of a place -/

variable {isDirectory : Bytes → Bool}

theorem root_getLast (doubled : Bool) : (Place.root doubled).getLast? = some (chr '/') := by
  cases doubled <;> decide

theorem opened_child (place : Place) (name : Name) :
    (place.child name).opened = place.opened ++ name.bytes ++ [chr '/'] := by
  simp [Place.opened, Place.child, Name.opened]

theorem opened_getLast (place : Place) : place.opened.getLast? = some (chr '/') := by
  rcases List.eq_nil_or_concat place.names with hnil | ⟨names, name, hnames⟩
  · rw [Place.opened, hnil, List.flatMap_nil, List.append_nil]
    exact root_getLast place.doubled
  · simp [Place.opened, hnames, Name.opened]

/-- A place is at the root or below another. -/
theorem place_cases (place : Place) :
    place.names = [] ∨ ∃ (above : Place) (name : Name), place = above.child name := by
  rcases List.eq_nil_or_concat place.names with hnil | ⟨names, name, hnames⟩
  · exact .inl hnil
  · refine .inr ⟨⟨place.doubled, names⟩, name, ?_⟩
    cases place with
    | mk doubled all =>
      cases hnames
      rw [Place.child, List.concat_eq_append]

theorem parent_child (place : Place) (name : Name) : (place.child name).parent = place := by
  cases place with
  | mk doubled names => rw [Place.child, Place.parent, List.dropLast_concat]

theorem path_child (place : Place) (name : Name) :
    (place.child name).path = place.opened ++ name.bytes := by
  rw [Place.path, if_neg (by simp [Place.child]), opened_child, List.dropLast_concat]

theorem path_root {place : Place} (h : place.names = []) :
    place.path = Place.root place.doubled ∧ place.opened = Place.root place.doubled := by
  refine ⟨if_pos h, ?_⟩
  rw [Place.opened, h, List.flatMap_nil, List.append_nil]

/-- A place is spelled longer than its root when it is below it. -/
theorem root_length_lt (place : Place) :
    (Place.root place.doubled).length < place.opened.length ↔ place.names ≠ [] := by
  rcases place_cases place with hroot | ⟨above, name, rfl⟩
  · rw [(path_root hroot).2]
    simp [hroot]
  · refine iff_of_true ?_ (by simp [Place.child])
    rw [opened_child]
    simp only [Place.opened, Place.child, List.length_append, List.length_singleton]
    omega

/-- The second byte says how the root is spelled. -/
theorem opened_second (place : Place) :
    place.opened[1]? = some (chr '/') ↔ place.doubled = true := by
  cases place with
  | mk doubled names =>
    cases doubled with
    | true => simp [Place.opened, Place.root, text]
    | false =>
      cases names with
      | nil => simp [Place.opened, Place.root, text]
      | cons name names =>
        cases hbytes : name.bytes with
        | nil => exact absurd hbytes name.nonempty
        | cons first rest =>
          have hfirst : first ≠ chr '/' := by
            intro h
            apply name.noSlash
            rw [hbytes, h]
            exact List.mem_cons_self
          simp [Place.opened, Place.root, text, Name.opened, hbytes, hfirst]

/-- The slash a relative walk puts behind the place it sets out from. -/
theorem path_opened (place : Place) :
    (if place.path.getLast? = some (chr '/') then place.path else place.path ++ [chr '/']) =
      place.opened := by
  rcases place_cases place with hroot | ⟨above, name, rfl⟩
  · rw [(path_root hroot).1, (path_root hroot).2, if_pos (root_getLast _)]
  · have hlast : (above.opened ++ name.bytes).getLast? ≠ some (chr '/') := by
      rw [List.getLast?_append_of_ne_nil _ name.nonempty]
      intro h
      exact name.noSlash (List.mem_of_getLast? h)
    rw [path_child, if_neg hlast, opened_child]

theorem Place.path_head (place : Place) : place.path.head? = some (chr '/') := by
  have hroot : ∀ doubled behind, (Place.root doubled ++ behind).head? = some (chr '/') := by
    intro doubled behind
    cases doubled <;> rfl
  rcases place_cases place with h | ⟨above, name, rfl⟩
  · have hpath := hroot place.doubled []
    rw [List.append_nil] at hpath
    rw [(path_root h).1, hpath]
  · rw [path_child, Place.opened, List.append_assoc]
    exact hroot _ _

/-- What `logical_path` makes of the spelling it has built. -/
theorem opened_path (place : Place) :
    (if (Place.root place.doubled).length < place.opened.length then place.opened.dropLast
      else place.opened) = place.path := by
  by_cases h : place.names = []
  · rw [if_neg (by rw [root_length_lt]; simp [h]), (path_root h).1, (path_root h).2]
  · rw [if_pos ((root_length_lt place).mpr h), Place.path, if_neg h]

/-! ### One component -/

/-- Taking bytes off the end until a slash is bare. -/
theorem popComponent_append {limit : Nat} {front : Bytes} (hlimit : limit ≤ front.length)
    (hlast : front.getLast? = some (chr '/')) (name : Bytes) (hslash : chr '/' ∉ name) :
    popComponent limit (front ++ name ++ [chr '/']) = front := by
  rw [popComponent, if_neg (by simp; omega), List.dropLast_concat]
  induction name using List.reverseRecOn with
  | nil =>
    rw [List.append_nil, if_pos hlast]
  | append_singleton name last ih =>
    have hlast' : last ≠ chr '/' := by
      intro h
      apply hslash
      rw [h]
      simp
    have hname : chr '/' ∉ name := fun h => hslash (List.mem_append_left _ h)
    rw [if_neg (by simpa using hlast'), ← List.append_assoc, popComponent,
      if_neg (by simp; omega), List.dropLast_concat]
    exact ih hname

theorem popComponent_opened (place : Place) :
    popComponent (Place.root place.doubled).length place.opened = place.parent.opened := by
  rcases place_cases place with hroot | ⟨above, name, rfl⟩
  · have hparent : place.parent = place := by
      cases place with
      | mk doubled names =>
        cases hroot
        rfl
    rw [hparent, (path_root hroot).2, popComponent, if_pos (le_refl _)]
  · rw [parent_child, opened_child]
    apply popComponent_append _ (opened_getLast above) name.bytes name.noSlash
    simp [Place.opened, Place.child]

/-- A component is appended to the spelling of a place as its step is taken from it. -/
theorem appendComponent_opened (place : Place) {component : Bytes} (h : chr '/' ∉ component) :
    appendComponent isDirectory (Place.root place.doubled).length place.opened component =
      (place.take isDirectory (Step.ofComponent component)).map Place.opened := by
  unfold appendComponent
  by_cases hstay : component = [] ∨ component = text "."
  · have hstep : Step.ofComponent component = .stay := by
      rcases hstay with rfl | rfl <;> decide
    rw [if_pos hstay, hstep]
    rfl
  · rw [if_neg hstay]
    by_cases hup : component = text ".."
    · have hstep : Step.ofComponent (text "..") = .up := by decide
      rw [if_pos hup, hup, hstep, Place.take, popComponent_opened]
      by_cases hleaves : place.names ≠ [] ∧ isDirectory place.opened = false
      · rw [if_pos hleaves, if_pos ⟨(root_length_lt place).mpr hleaves.1, hleaves.2⟩]
        rfl
      · rw [if_neg hleaves, if_neg fun h => hleaves ⟨(root_length_lt place).mp h.1, h.2⟩]
        rfl
    · rw [not_or] at hstay
      rw [if_neg hup, Step.ofComponent, if_neg hup, dif_pos ⟨hstay.1, h, hstay.2, hup⟩]
      simp [Place.take, opened_child]

theorem take_doubled {place next : Place} {step : Step}
    (h : place.take isDirectory step = some next) : next.doubled = place.doubled := by
  cases step with
  | stay => cases h; rfl
  | up =>
    rw [Place.take] at h
    split_ifs at h
    cases h
    rfl
  | down name => cases h; rfl

/-! ### A whole walk -/

theorem splitOn_noSlash (dir : Bytes) :
    ∀ component ∈ dir.splitOn (chr '/'), chr '/' ∉ component := by
  induction dir using line_induction (chr '/') with
  | last line hline =>
    intro component hmem
    rw [List.splitOn_eq_singleton hline, List.mem_singleton] at hmem
    rw [hmem]
    exact hline
  | step line text hline ih =>
    intro component hmem
    rw [List.splitOn_append_cons_self_of_not_mem hline, List.mem_cons] at hmem
    rcases hmem with rfl | hmem
    · exact hline
    · exact ih component hmem

/-- Appending components is walking. -/
theorem foldlM_opened (components : List Bytes) : ∀ place : Place,
    (∀ component ∈ components, chr '/' ∉ component) →
    components.foldlM (appendComponent isDirectory (Place.root place.doubled).length)
        place.opened =
      ((components.map Step.ofComponent).foldlM (Place.take isDirectory) place).map
        Place.opened := by
  induction components with
  | nil => intro place _; rfl
  | cons component components ih =>
    intro place h
    rw [List.map_cons, List.foldlM_cons, List.foldlM_cons,
      appendComponent_opened place (h component List.mem_cons_self)]
    cases htake : place.take isDirectory (Step.ofComponent component) with
    | none => rfl
    | some next =>
      rw [← take_doubled htake]
      exact ih next fun component hmem => h component (List.mem_cons_of_mem _ hmem)

theorem foldlM_doubled : ∀ {walk : List Step} {place last : Place},
    walk.foldlM (Place.take isDirectory) place = some last → last.doubled = place.doubled := by
  intro walk
  induction walk with
  | nil =>
    intro place last h
    cases h
    rfl
  | cons step walk ih =>
    intro place last h
    rw [List.foldlM_cons] at h
    cases htake : place.take isDirectory step with
    | none =>
      rw [htake] at h
      cases h
    | some next =>
      rw [htake] at h
      exact (ih h).trans (take_doubled htake)

/-- A walk from a place, on its spelling. -/
theorem walk_opened (place : Place) (dir : Bytes) :
    ((dir.splitOn (chr '/')).foldlM
        (appendComponent isDirectory (Place.root place.doubled).length) place.opened).bind
      (fun path => some (if (Place.root place.doubled).length < path.length then path.dropLast
        else path)) =
      ((steps dir).foldlM (Place.take isDirectory) place).map Place.path := by
  rw [foldlM_opened _ place (splitOn_noSlash dir), steps]
  cases hwalk : ((dir.splitOn (chr '/')).map Step.ofComponent).foldlM
      (Place.take isDirectory) place with
  | none => rfl
  | some last =>
    rw [Option.map_some, Option.bind_some, Option.map_some, ← foldlM_doubled hwalk,
      opened_path last]

/-- **`logical_path` computes walks**: from the canonical spelling of a place it comes to the
canonical spelling of the place the operand leads to, and to nothing where the walk leaves
something that is no directory. -/
theorem logicalPath_path (current : Option Place) (dir : Bytes) :
    logicalPath isDirectory (current.map Place.path) dir =
      (Place.visit isDirectory current dir).map Place.path := by
  unfold logicalPath Place.visit Place.start
  by_cases habsolute : pathIsAbsolute dir = true
  · rw [if_pos habsolute, if_pos habsolute]
    by_cases hdoubled : dir[1]? = some (chr '/') ∧ dir[2]? ≠ some (chr '/')
    · rw [if_pos hdoubled, decide_eq_true hdoubled]
      exact walk_opened ⟨true, []⟩ dir
    · rw [if_neg hdoubled, decide_eq_false hdoubled]
      exact walk_opened ⟨false, []⟩ dir
  · rw [if_neg habsolute, if_neg habsolute]
    cases current with
    | none => rfl
    | some place =>
      simp only [Option.map_some, Option.bind_eq_bind, Option.bind_some, path_opened,
        opened_second]
      have hlimit : (if place.doubled = true then 2 else 1) =
          (Place.root place.doubled).length := by
        cases place.doubled <;> rfl
      rw [hlimit]
      exact walk_opened place dir

/-! ### Walks put together -/

theorem foldlM_steps_append (front rest : Bytes) (place : Place) :
    (steps (front ++ chr '/' :: rest)).foldlM (Place.take isDirectory) place =
      ((steps front).foldlM (Place.take isDirectory) place).bind fun middle =>
        (steps rest).foldlM (Place.take isDirectory) middle := by
  rw [steps, List.splitOn_append_cons_self, List.map_append, List.foldlM_append]
  rfl

/-- A walk begins where its first part does, the slashes in front being no part by
themselves. -/
theorem start_append (current : Option Place) {front : Bytes} (rest : Bytes)
    (h : ∃ byte ∈ front, byte ≠ chr '/') :
    Place.start current (front ++ chr '/' :: rest) = Place.start current front := by
  have habsolute : pathIsAbsolute (front ++ chr '/' :: rest) = pathIsAbsolute front := by
    cases front with
    | nil => simp at h
    | cons first front => rfl
  unfold Place.start
  rw [habsolute]
  by_cases hroot : pathIsAbsolute front = true
  · rw [if_pos hroot, if_pos hroot]
    refine congrArg (fun doubled => some (Place.mk doubled [])) (decide_eq_decide.mpr ?_)
    rcases front with _ | ⟨first, _ | ⟨second, _ | ⟨third, front⟩⟩⟩
    · simp at h
    · have hfirst : first = chr '/' := by simpa [pathIsAbsolute] using hroot
      simp [hfirst] at h
    · have hfirst : first = chr '/' := by simpa [pathIsAbsolute] using hroot
      have hsecond : second ≠ chr '/' := by simpa [hfirst] using h
      simp [hsecond]
    · exact Iff.rfl
  · rw [if_neg hroot, if_neg hroot]

/-- A walk along two parts is a walk along the one and then along the other. -/
theorem visit_append (current : Option Place) {front rest : Bytes}
    (h : ∃ byte ∈ front, byte ≠ chr '/') (hrest : pathIsAbsolute rest = false) :
    Place.visit isDirectory current (front ++ chr '/' :: rest) =
      (Place.visit isDirectory current front).bind fun middle =>
        Place.visit isDirectory (some middle) rest := by
  have hstart : ∀ middle, Place.start (some middle) rest = some middle := fun middle => by
    rw [Place.start, hrest]
    rfl
  unfold Place.visit
  rw [start_append current rest h]
  cases Place.start current front with
  | none => rfl
  | some place =>
    simp only [Option.bind_eq_bind, Option.bind_some, foldlM_steps_append, hstart]

/-- **An operand of two parts is followed part by part**: the logical path of `a/b` is that of
`b` from the logical path of `a`. -/
theorem logicalPath_append (current : Option Place) {front rest : Bytes}
    (h : ∃ byte ∈ front, byte ≠ chr '/') (hrest : pathIsAbsolute rest = false) :
    logicalPath isDirectory (current.map Place.path) (front ++ chr '/' :: rest) =
      (logicalPath isDirectory (current.map Place.path) front).bind fun middle =>
        logicalPath isDirectory (some middle) rest := by
  rw [logicalPath_path, logicalPath_path, visit_append current h hrest]
  cases Place.visit isDirectory current front with
  | none => rfl
  | some middle =>
    rw [Option.bind_some, Option.map_some, Option.bind_some]
    exact (logicalPath_path (some middle) rest).symm

theorem logicalPath_append_up :
    logicalPath (fun _ => true) (some (text "//a/b")) (text "./c" ++ chr '/' :: text "../..") =
      (logicalPath (fun _ => true) (some (text "//a/b")) (text "./c")).bind fun middle =>
        logicalPath (fun _ => true) (some middle) (text "../..") :=
  logicalPath_append (some ⟨true, [⟨text "a", by decide, by decide, by decide, by decide⟩,
    ⟨text "b", by decide, by decide, by decide, by decide⟩]⟩)
    ⟨chr '.', by decide, by decide⟩ (by decide)

/-! ### The spelling names its place -/

end Nsh.Directories
