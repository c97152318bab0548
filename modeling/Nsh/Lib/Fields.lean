import Mathlib.Data.List.Basic

/-!
# Splitting at delimiters

A sequence is cut into fields at delimiters of two sorts.  White space delimits fields
and never makes an empty one; any other delimiter ends a field also when nothing is in
it, and the white space around it belongs to it.  `split` reads the sequence from left
to right and says what a splitter has to return.
-/

namespace Nsh

/-- What an element is to the splitter. -/
inductive Role where
  | datum
  | white
  | delimiter
deriving DecidableEq

/-- Where a reader stands: no field begun, white space behind a field, or inside the
    field whose data are these. -/
inductive Place (α : Type) where
  | between
  | behind
  | field (data : List α)

variable {α β : Type}

theorem Place.between_ne (data : List α) : Place.between ≠ .field data := by
  intro hplace
  cases hplace

theorem Place.behind_ne (data : List α) : Place.behind ≠ .field data := by
  intro hplace
  cases hplace

/-- The data of the field a reader is in. -/
def Place.data : Place α → List α
  | .between => []
  | .behind => []
  | .field data => data

def Place.map (f : α → β) : Place α → Place β
  | .between => .between
  | .behind => .behind
  | .field data => .field (data.map f)

def splitFrom (role : α → Role) : Place α → List α → List (List α)
  | .field data, [] => [data]
  | _, [] => []
  | place, x :: xs =>
    match role x, place with
    | .datum, place => splitFrom role (.field (place.data ++ [x])) xs
    | .white, .field data => data :: splitFrom role .behind xs
    | .white, place => splitFrom role place xs
    | .delimiter, .behind => splitFrom role .between xs
    | .delimiter, place => place.data :: splitFrom role .between xs

/-- The fields of a sequence. -/
def split (role : α → Role) (xs : List α) : List (List α) := splitFrom role .between xs

section

attribute [local simp] splitFrom

variable {role : α → Role} {place : Place α} {x : α} {xs data : List α}

@[simp] theorem splitFrom_field_nil : splitFrom role (.field data) [] = [data] := rfl

@[simp] theorem splitFrom_between_nil : splitFrom role .between [] = [] := rfl

@[simp] theorem splitFrom_behind_nil : splitFrom role .behind [] = [] := rfl

theorem splitFrom_datum (h : role x = .datum) :
    splitFrom role place (x :: xs) = splitFrom role (.field (place.data ++ [x])) xs := by
  simp [h]

theorem splitFrom_white_field (h : role x = .white) :
    splitFrom role (.field data) (x :: xs) = data :: splitFrom role .behind xs := by
  simp [h]

theorem splitFrom_white_between (h : role x = .white) :
    splitFrom role .between (x :: xs) = splitFrom role .between xs := by
  simp [h]

theorem splitFrom_white_behind (h : role x = .white) :
    splitFrom role .behind (x :: xs) = splitFrom role .behind xs := by
  simp [h]

theorem splitFrom_delimiter_field (h : role x = .delimiter) :
    splitFrom role (.field data) (x :: xs) = data :: splitFrom role .between xs := by
  simp [h, Place.data]

theorem splitFrom_delimiter_between (h : role x = .delimiter) :
    splitFrom role .between (x :: xs) = [] :: splitFrom role .between xs := by
  simp [h, Place.data]

theorem splitFrom_delimiter_behind (h : role x = .delimiter) :
    splitFrom role .behind (x :: xs) = splitFrom role .between xs := by
  simp [h]

end

/-- A stretch of data is read into one field. -/
theorem splitFrom_datums {role : α → Role} {ys : List α} (h : ∀ y ∈ ys, role y = .datum)
    (hne : ys ≠ []) (place : Place α) (zs : List α) :
    splitFrom role place (ys ++ zs) = splitFrom role (.field (place.data ++ ys)) zs := by
  induction ys generalizing place with
  | nil => exact absurd rfl hne
  | cons y ys ih =>
    rw [List.cons_append, splitFrom_datum (h y List.mem_cons_self)]
    rcases ys with _ | ⟨y', ys⟩
    · rfl
    · rw [ih (fun z hz => h z (List.mem_cons_of_mem y hz)) (List.cons_ne_nil y' ys)]
      simp [Place.data]

/-! ### What splitting keeps -/

/-- The fields hold the data, in order, and nothing else. -/
theorem flatten_splitFrom (role : α → Role) (place : Place α) (xs : List α) :
    (splitFrom role place xs).flatten =
      place.data ++ xs.filter fun x => decide (role x = .datum) := by
  induction xs generalizing place with
  | nil =>
    cases place with
    | between => rfl
    | behind => rfl
    | field data => simp [Place.data]
  | cons x xs ih =>
    cases hrole : role x with
    | datum => simp [splitFrom_datum hrole, ih, hrole, Place.data]
    | white =>
      cases place with
      | between => simp [splitFrom_white_between hrole, ih, hrole, Place.data]
      | behind => simp [splitFrom_white_behind hrole, ih, hrole, Place.data]
      | field data => simp [splitFrom_white_field hrole, ih, hrole, Place.data]
    | delimiter =>
      cases place with
      | between => simp [splitFrom_delimiter_between hrole, ih, hrole, Place.data]
      | behind => simp [splitFrom_delimiter_behind hrole, ih, hrole, Place.data]
      | field data => simp [splitFrom_delimiter_field hrole, ih, hrole, Place.data]

theorem flatten_split (role : α → Role) (xs : List α) :
    (split role xs).flatten = xs.filter fun x => decide (role x = .datum) :=
  flatten_splitFrom role .between xs

/-- Only the roles of the elements count. -/
theorem splitFrom_congr {role role' : α → Role} (place : Place α) (xs : List α)
    (h : ∀ x ∈ xs, role x = role' x) : splitFrom role place xs = splitFrom role' place xs := by
  induction xs generalizing place with
  | nil =>
    cases place with
    | between => rfl
    | behind => rfl
    | field data => rfl
  | cons x xs ih =>
    have hrest (place : Place α) : splitFrom role place xs = splitFrom role' place xs :=
      ih place fun y hy => h y (List.mem_cons_of_mem x hy)
    cases place with
    | between => simp only [splitFrom, h x List.mem_cons_self, hrest]
    | behind => simp only [splitFrom, h x List.mem_cons_self, hrest]
    | field data => simp only [splitFrom, h x List.mem_cons_self, hrest]

/-- Relabelling the elements relabels the fields. -/
theorem splitFrom_map (f : α → β) (role : β → Role) (place : Place α) (xs : List α) :
    (splitFrom (fun x => role (f x)) place xs).map (List.map f) =
      splitFrom role (place.map f) (xs.map f) := by
  induction xs generalizing place with
  | nil =>
    cases place with
    | between => rfl
    | behind => rfl
    | field data => rfl
  | cons x xs ih =>
    cases hrole : role (f x) with
    | datum => cases place <;> simp [splitFrom, hrole, ih, Place.map, Place.data]
    | white => cases place <;> simp [splitFrom, hrole, ih, Place.map]
    | delimiter => cases place <;> simp [splitFrom, hrole, ih, Place.map, Place.data]

theorem split_map (f : α → β) (role : β → Role) (xs : List α) :
    (split (fun x => role (f x)) xs).map (List.map f) = split role (xs.map f) :=
  splitFrom_map f role .between xs

/-- Two readings of which the second takes fewer elements for delimiters, and those it
    takes for the same, agree exactly where it misses none; the elements may be seen
    through any function. -/
theorem split_eq_iff {role role' : α → Role} (f : α → β) (xs : List α)
    (h : ∀ x ∈ xs, role' x ≠ .datum → role x = role' x) :
    (split role xs).map (List.map f) = (split role' xs).map (List.map f) ↔
      ∀ x ∈ xs, role' x = .datum → role x = .datum := by
  constructor
  · intro heq
    -- the data of the first reading are among those of the second, and as many
    have hsub : (xs.filter fun x => decide (role x = .datum)).Sublist
        (xs.filter fun x => decide (role' x = .datum)) := by
      have hfilter : (xs.filter fun x => decide (role x = .datum)) =
          (xs.filter fun x => decide (role' x = .datum)).filter fun x =>
            decide (role x = .datum) := by
        rw [List.filter_filter]
        apply List.filter_congr
        intro x hx
        by_cases hdatum : role' x = .datum
        · simp [hdatum]
        · simp [h x hx hdatum]
      rw [hfilter]
      exact List.filter_sublist
    have hlength := congrArg (fun fields => fields.flatten.length) heq
    simp only [← List.map_flatten, List.length_map, flatten_split] at hlength
    have hsame := hsub.eq_of_length hlength
    intro x hx hdatum
    have hmem : x ∈ xs.filter fun x => decide (role' x = .datum) :=
      List.mem_filter.mpr ⟨hx, decide_eq_true hdatum⟩
    rw [← hsame] at hmem
    exact of_decide_eq_true (List.mem_filter.mp hmem).2
  · intro hnone
    have hroles : split role xs = split role' xs := by
      apply splitFrom_congr
      intro x hx
      by_cases hdatum : role' x = .datum
      · rw [hnone x hx hdatum, hdatum]
      · exact h x hx hdatum
    rw [hroles]

/-! ### Where the fields begin -/

/-- The fields with the positions they begin at; `start` is where the field a reader is in
    began and `position` where it stands. -/
def locateFrom (role : α → Role) : Place α → Nat → Nat → List α → List (Nat × List α)
  | .field data, start, _, [] => [(start, data)]
  | _, _, _, [] => []
  | place, start, position, x :: xs =>
    match role x, place with
    | .datum, .field data => locateFrom role (.field (data ++ [x])) start (position + 1) xs
    | .datum, _ => locateFrom role (.field [x]) position (position + 1) xs
    | .white, .field data => (start, data) :: locateFrom role .behind start (position + 1) xs
    | .white, place => locateFrom role place start (position + 1) xs
    | .delimiter, .behind => locateFrom role .between start (position + 1) xs
    | .delimiter, .field data => (start, data) :: locateFrom role .between start (position + 1) xs
    | .delimiter, .between => (position, []) :: locateFrom role .between start (position + 1) xs

/-- The fields of a sequence with the positions they begin at. -/
def locate (role : α → Role) (xs : List α) : List (Nat × List α) := locateFrom role .between 0 0 xs

theorem map_snd_locateFrom (role : α → Role) (place : Place α) (start position : Nat)
    (xs : List α) :
    (locateFrom role place start position xs).map Prod.snd = splitFrom role place xs := by
  induction xs generalizing place start position with
  | nil =>
    cases place with
    | between => rfl
    | behind => rfl
    | field data => rfl
  | cons x xs ih =>
    cases hrole : role x with
    | datum => cases place <;> simp [locateFrom, splitFrom, hrole, ih, Place.data]
    | white => cases place <;> simp [locateFrom, splitFrom, hrole, ih]
    | delimiter => cases place <;> simp [locateFrom, splitFrom, hrole, ih, Place.data]

theorem map_snd_locate (role : α → Role) (xs : List α) :
    (locate role xs).map Prod.snd = split role xs := map_snd_locateFrom role .between 0 0 xs

/-- Outside a field it does not count where one began last. -/
theorem locateFrom_start (role : α → Role) {place : Place α} (hplace : ∀ data, place ≠ .field data)
    (start start' position : Nat) (xs : List α) :
    locateFrom role place start position xs = locateFrom role place start' position xs := by
  induction xs generalizing place position with
  | nil =>
    cases place with
    | between => rfl
    | behind => rfl
    | field data => exact absurd rfl (hplace data)
  | cons x xs ih =>
    have hbetween (position : Nat) :=
      ih (show ∀ data, Place.between ≠ .field data from nofun) position
    have hbehind (position : Nat) :=
      ih (show ∀ data, Place.behind ≠ .field data from nofun) position
    cases place with
    | field data => exact absurd rfl (hplace data)
    | between =>
      cases hrole : role x <;> simp only [locateFrom, hrole]
      · exact hbetween _
      · rw [hbetween]
    | behind =>
      cases hrole : role x <;> simp only [locateFrom, hrole]
      · exact hbehind _
      · exact hbetween _

/-- A field as it stands in the sequence: its data from where it begins, which is no white
    space. -/
structure Located (role : α → Role) (xs : List α) (field : Nat × List α) : Prop where
  data : ∀ x ∈ field.2, role x = .datum
  stands : field.2 <+: xs.drop field.1
  begins : ∃ x, xs[field.1]? = some x ∧ role x ≠ .white

/-- Data at the end of what has been read. -/
theorem Located.of_drop {role : α → Role} {before data : List α} {start : Nat} (hne : data ≠ [])
    (hdrop : before.drop start = data) (hdatum : ∀ x ∈ data, role x = .datum) (rest : List α) :
    Located role (before ++ rest) (start, data) := by
  have hlt : start < before.length := by
    by_contra hge
    exact hne (hdrop ▸ List.drop_eq_nil_of_le (Nat.le_of_not_lt hge))
  refine ⟨hdatum, ?_, ?_⟩
  · rw [List.drop_append_of_le_length (Nat.le_of_lt hlt), hdrop]
    exact List.prefix_append data rest
  · refine ⟨before[start], ?_, ?_⟩
    · rw [List.getElem?_append_left hlt, List.getElem?_eq_getElem hlt]
    · have hmem : before[start] ∈ data := by
        rw [← hdrop, List.drop_eq_getElem_cons hlt]
        exact List.mem_cons_self
      rw [hdatum _ hmem]
      exact nofun

theorem locateFrom_located {role : α → Role} {place : Place α} {start : Nat} (before : List α)
    {xs : List α} (hplace : ∀ data, place = .field data →
      data ≠ [] ∧ before.drop start = data ∧ ∀ x ∈ data, role x = .datum) :
    ∀ field ∈ locateFrom role place start before.length xs, Located role (before ++ xs) field := by
  induction xs generalizing place start before with
  | nil =>
    intro field hmem
    cases place with
    | between => exact absurd hmem List.not_mem_nil
    | behind => exact absurd hmem List.not_mem_nil
    | field data =>
      obtain ⟨hne, hdrop, hdatum⟩ := hplace data rfl
      rw [List.mem_singleton.mp hmem]
      exact Located.of_drop hne hdrop hdatum []
  | cons x xs ih =>
    have hsplit : before ++ x :: xs = (before ++ [x]) ++ xs := by simp
    have hlength : before.length + 1 = (before ++ [x]).length := by simp
    have hidle (place' : Place α) (hno : ∀ data, place' ≠ .field data) (start' : Nat) :
        ∀ field ∈ locateFrom role place' start' (before.length + 1) xs,
          Located role (before ++ x :: xs) field := by
      rw [hsplit, hlength]
      exact ih (before ++ [x]) fun data heq => absurd heq (hno data)
    have hbegun (data : List α) (start' : Nat) (hne : data ≠ [])
        (hdrop : (before ++ [x]).drop start' = data) (hdatum : ∀ x ∈ data, role x = .datum) :
        ∀ field ∈ locateFrom role (.field data) start' (before.length + 1) xs,
          Located role (before ++ x :: xs) field := by
      rw [hsplit, hlength]
      rintro field hmem
      exact ih (before ++ [x])
        (fun data' heq => (Place.field.inj heq) ▸ ⟨hne, hdrop, hdatum⟩) field hmem
    have hfirst (hrole : role x = .datum) :
        ∀ field ∈ locateFrom role (.field [x]) before.length (before.length + 1) xs,
          Located role (before ++ x :: xs) field :=
      hbegun [x] before.length (List.cons_ne_nil x []) List.drop_left fun y hy =>
        List.mem_singleton.mp hy ▸ hrole
    cases hrole : role x with
    | datum =>
      cases place with
      | between =>
        simp only [locateFrom, hrole]
        exact hfirst hrole
      | behind =>
        simp only [locateFrom, hrole]
        exact hfirst hrole
      | field data =>
        obtain ⟨hne, hdrop, hdatum⟩ := hplace data rfl
        simp only [locateFrom, hrole]
        refine hbegun (data ++ [x]) start (by simp) ?_ ?_
        · have hle : start ≤ before.length := by
            by_contra hgt
            exact hne (hdrop ▸ List.drop_eq_nil_of_le (by omega))
          rw [List.drop_append_of_le_length hle, hdrop]
        · intro y hy
          rcases List.mem_append.mp hy with hold | hnew
          · exact hdatum y hold
          · rw [List.mem_singleton.mp hnew, hrole]
    | white =>
      cases place with
      | between =>
        simp only [locateFrom, hrole]
        exact hidle .between nofun start
      | behind =>
        simp only [locateFrom, hrole]
        exact hidle .behind nofun start
      | field data =>
        obtain ⟨hne, hdrop, hdatum⟩ := hplace data rfl
        simp only [locateFrom, hrole]
        rintro field (_ | ⟨_, hmem⟩)
        · exact Located.of_drop hne hdrop hdatum (x :: xs)
        · exact hidle .behind nofun start field hmem
    | delimiter =>
      cases place with
      | between =>
        simp only [locateFrom, hrole]
        rintro field (_ | ⟨_, hmem⟩)
        · refine ⟨fun y hy => absurd hy List.not_mem_nil, List.nil_prefix, x, ?_, ?_⟩
          · simp
          · rw [hrole]
            exact nofun
        · exact hidle .between nofun start field hmem
      | behind =>
        simp only [locateFrom, hrole]
        exact hidle .between nofun start
      | field data =>
        obtain ⟨hne, hdrop, hdatum⟩ := hplace data rfl
        simp only [locateFrom, hrole]
        rintro field (_ | ⟨_, hmem⟩)
        · exact Located.of_drop hne hdrop hdatum (x :: xs)
        · exact hidle .between nofun start field hmem

/-- Every field stands in the sequence where it is said to begin. -/
theorem locate_located (role : α → Role) (xs : List α) :
    ∀ field ∈ locate role xs, Located role xs field :=
  locateFrom_located [] nofun

end Nsh
