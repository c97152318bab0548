import Nsh.Expand.Pathname
import Mathlib.Data.List.TakeWhile

/-!
# The components of a pattern

`split` cuts a pattern at its slashes and loses none of it: written back with its
own components it is the pattern, and a pattern that has an operator has one in
some component.
-/

namespace Nsh.Expand.Pathname

open Patterns

/-- The components in order, each behind its slashes. -/
def textFrom : List Step → List Bytes → Bytes
  | step :: steps, name :: names => slashes step.slashes ++ name ++ textFrom steps names
  | _, _ => []

/-- What a split shows with these names for its components. -/
def Split.text (s : Split) (names : List Bytes) : Bytes :=
  slashes s.leading ++ textFrom s.steps names ++ slashes s.trailing

def Step.Slashless (step : Step) : Prop := ∀ mark ∈ step.component.marks, isSlash mark = false

/-- The pattern, cut at its slashes. -/
structure Cut (p : Pattern) (s : Split) : Prop where
  text : s.text (s.steps.map fun step => step.component.bytes) = p.bytes
  marks : s.steps.flatMap (fun step => step.component.marks) =
    p.marks.filter fun mark => !isSlash mark
  options : ∀ step ∈ s.steps, step.component.options = p.options
  filled : ∀ step ∈ s.steps, step.component.marks ≠ []
  slashless : ∀ step ∈ s.steps, step.Slashless
  first : ∀ step, s.steps.head? = some step → step.slashes = 0
  apart : ∀ step ∈ s.steps.tail, 0 < step.slashes

/-! ### The loop -/

theorem slashes_succ (n : ℕ) : slashes (n + 1) = slashes n ++ [chr '/'] := List.replicate_succ'

theorem textFrom_append (steps : List Step) (step : Step) :
    textFrom (steps ++ [step]) ((steps ++ [step]).map fun step => step.component.bytes) =
      textFrom steps (steps.map fun step => step.component.bytes) ++
        (slashes step.slashes ++ step.component.bytes) := by
  induction steps with
  | nil => simp [textFrom]
  | cons first steps ih =>
    simp only [List.cons_append, List.map_cons, textFrom, List.append_assoc]
    rw [ih]

/-- What the loop has cut off a pattern when the marks `left` remain, `run` slashes having
    been read since the last component. -/
structure Cutting (p : Pattern) (s : Split) (run : ℕ) (left : List Mark) : Prop where
  text : ({ s with trailing := run } : Split).text (s.steps.map fun step => step.component.bytes) ++
    left.map Mark.byte = p.bytes
  marks : s.steps.flatMap (fun step => step.component.marks) ++
    left.filter (fun mark => !isSlash mark) = p.marks.filter fun mark => !isSlash mark
  options : ∀ step ∈ s.steps, step.component.options = p.options
  filled : ∀ step ∈ s.steps, step.component.marks ≠ []
  slashless : ∀ step ∈ s.steps, step.Slashless
  first : ∀ step, s.steps.head? = some step → step.slashes = 0
  apart : ∀ step ∈ s.steps.tail, 0 < step.slashes
  leading : s.steps = [] → s.leading = 0
  /-- A component ends in front of a slash, or with the pattern. -/
  ended : s.steps ≠ [] → run = 0 → ∀ mark, left.head? = some mark → isSlash mark = true

namespace Cutting

variable {p : Pattern} {s : Split} {run : ℕ}

theorem start (p : Pattern) : Cutting p ⟨0, [], 0⟩ 0 p.marks where
  text := rfl
  marks := rfl
  options := nofun
  filled := nofun
  slashless := nofun
  first := nofun
  apart := nofun
  leading _ := rfl
  ended h := absurd rfl h

theorem slash {mark : Mark} {rest : List Mark} (h : Cutting p s run (mark :: rest))
    (hslash : isSlash mark = true) : Cutting p s (run + 1) rest where
  text := by
    have hbyte : mark.byte = chr '/' := eq_of_beq hslash
    rw [← h.text]
    unfold Split.text
    simp only [List.map_cons, slashes_succ, hbyte, List.append_assoc, List.singleton_append]
  marks := by
    rw [← h.marks, List.filter_cons_of_neg (by rw [hslash]; decide)]
  options := h.options
  filled := h.filled
  slashless := h.slashless
  first := h.first
  apart := h.apart
  leading := h.leading
  ended _ hrun := by omega

/-- A component is cut off. -/
theorem component {mark : Mark} {rest : List Mark} (h : Cutting p s run (mark :: rest))
    (hslash : isSlash mark = false) :
    Cutting p
      { leading := if s.steps.isEmpty then run else s.leading
        steps := s.steps ++ [⟨if s.steps.isEmpty then 0 else run,
          ⟨(mark :: rest).takeWhile fun mark => !isSlash mark, p.options⟩⟩]
        trailing := s.trailing } 0
      ((mark :: rest).dropWhile fun mark => !isSlash mark) := by
  have hsplit : (mark :: rest).takeWhile (fun mark => !isSlash mark) ++
      (mark :: rest).dropWhile (fun mark => !isSlash mark) = mark :: rest :=
    List.takeWhile_append_dropWhile
  have hslashless : ∀ other ∈ (mark :: rest).takeWhile (fun mark => !isSlash mark),
      isSlash other = false := by
    intro other hmem
    have hother := List.mem_takeWhile_imp hmem
    simpa using hother
  constructor
  · rw [← h.text]
    conv_rhs => rw [← hsplit, List.map_append]
    unfold Split.text
    simp only [textFrom_append]
    cases hsteps : s.steps with
    | nil =>
      simp [textFrom, slashes, h.leading hsteps, Pattern.bytes]
    | cons step steps =>
      simp [slashes, Pattern.bytes, List.append_assoc]
  · rw [← h.marks]
    conv_rhs => rw [← hsplit, List.filter_append]
    have hkeep : ((mark :: rest).takeWhile fun mark => !isSlash mark).filter
        (fun mark => !isSlash mark) = (mark :: rest).takeWhile fun mark => !isSlash mark := by
      rw [List.filter_eq_self]
      intro other hmem
      rw [hslashless other hmem]
      rfl
    rw [hkeep, List.flatMap_append, List.append_assoc]
    simp
  · intro step hmem
    rcases List.mem_append.1 hmem with hmem | hmem
    · exact h.options step hmem
    · rw [List.mem_singleton.1 hmem]
  · intro step hmem
    rcases List.mem_append.1 hmem with hmem | hmem
    · exact h.filled step hmem
    · rw [List.mem_singleton.1 hmem, List.takeWhile_cons_of_pos (by rw [hslash]; decide)]
      exact List.cons_ne_nil _ _
  · intro step hmem
    rcases List.mem_append.1 hmem with hmem | hmem
    · exact h.slashless step hmem
    · rw [List.mem_singleton.1 hmem]
      exact hslashless
  · intro step hstep
    cases hsteps : s.steps with
    | nil =>
      rw [hsteps] at hstep
      cases hstep
      rfl
    | cons other steps =>
      rw [hsteps] at hstep
      cases hstep
      exact h.first _ (by rw [hsteps]; rfl)
  · intro step hstep
    cases hsteps : s.steps with
    | nil =>
      rw [hsteps] at hstep
      cases hstep
    | cons other steps =>
      rw [hsteps, List.cons_append, List.tail_cons] at hstep
      rcases List.mem_append.1 hstep with hmem | hmem
      · exact h.apart step (by rw [hsteps]; exact hmem)
      · rw [List.mem_singleton.1 hmem]
        have hrun : run ≠ 0 := fun hzero => by
          have hhead := h.ended (by rw [hsteps]; exact List.cons_ne_nil _ _) hzero mark rfl
          rw [hslash] at hhead
          cases hhead
        exact Nat.pos_of_ne_zero hrun
  · intro hnil
    exact absurd hnil (List.append_ne_nil_of_right_ne_nil _ (List.cons_ne_nil _ _))
  · intro _ _ other hother
    have hnot := List.head?_dropWhile_not (fun mark => !isSlash mark) (mark :: rest)
    rw [hother] at hnot
    simpa using hnot

theorem cut (h : Cutting p s run []) : Cut p { s with trailing := run } where
  text := by
    have htext := h.text
    rwa [List.map_nil, List.append_nil] at htext
  marks := by
    have hmarks := h.marks
    rwa [List.filter_nil, List.append_nil] at hmarks
  options := h.options
  filled := h.filled
  slashless := h.slashless
  first := h.first
  apart := h.apart

theorem splitFrom {marks : List Mark} (h : Cutting p s run marks) {fuel : ℕ}
    (hfuel : marks.length < fuel) : Cut p (splitFrom p.options fuel marks run s) := by
  induction fuel generalizing marks run s with
  | zero => omega
  | succ fuel ih =>
    cases marks with
    | nil => exact h.cut
    | cons mark rest =>
      rw [List.length_cons] at hfuel
      rw [Pathname.splitFrom]
      split
      · next hslash => exact ih (h.slash hslash) (by omega)
      · next hslash =>
        have hslash := Bool.eq_false_iff.2 hslash
        refine ih (h.component hslash) ?_
        rw [List.dropWhile_cons_of_pos (by rw [hslash]; decide)]
        have hle := (List.dropWhile_sublist (fun mark => !isSlash mark) (l := rest)).length_le
        omega

end Cutting

/-- **`split` cuts a pattern at its slashes.** -/
theorem cut_split (p : Pattern) : Cut p (split p) :=
  (Cutting.start p).splitFrom (Nat.lt_succ_self _)

/-! ### Operators -/

/-- The operators of a pattern are those of its first component and those behind. -/
theorem hasMetaFrom_append {p q : Pattern} (hp : p.options.extended = false)
    (hq : q.options.extended = false) {component : List Mark}
    (hcomponent : ∀ mark ∈ component, isSlash mark = false) {rest : List Mark}
    (hrest : ∀ mark, rest.head? = some mark → isSlash mark = true) (opened : Bool)
    (offset offset' : ℕ) :
    p.hasMetaFrom opened offset (component ++ rest) =
      (q.hasMetaFrom opened offset' component ||
        p.hasMetaFrom false (offset + component.length) rest) := by
  induction component generalizing opened offset offset' with
  | nil =>
    cases rest with
    | nil => rfl
    | cons mark rest =>
      have hbyte : mark.byte = chr '/' := eq_of_beq (hrest mark rfl)
      rw [List.nil_append, Pattern.hasMetaFrom, Pattern.hasMetaFrom, Pattern.hasMetaFrom,
        if_pos hbyte, if_pos hbyte]
      rfl
  | cons mark component ih =>
    have hbyte : mark.byte ≠ chr '/' := by
      have hmark := hcomponent mark List.mem_cons_self
      unfold isSlash at hmark
      simpa using hmark
    have hlength : offset + (mark :: component).length = offset + 1 + component.length := by
      rw [List.length_cons]
      omega
    have hnext := fun opened =>
      ih (fun other hmem => hcomponent other (List.mem_cons_of_mem _ hmem))
      opened (offset + 1) (offset' + 1)
    rw [List.cons_append, Pattern.hasMetaFrom, Pattern.hasMetaFrom, hlength, if_neg hbyte,
      if_neg hbyte, hp, hq]
    simp only [Bool.false_eq_true, false_and, and_false, if_false, hnext]
    split
    · rfl
    split
    · rfl
    split
    · rfl
    split
    · rfl
    · rfl

/-- No component that was cut off has an operator, or one has. -/
theorem splitFrom_hasMeta {p : Pattern} (hplain : p.options.extended = false) {fuel : ℕ}
    {marks : List Mark} (hfuel : marks.length < fuel) (run : ℕ) (s : Split) (offset : ℕ) :
    (splitFrom p.options fuel marks run s).steps.any (fun step => step.component.hasMeta) =
      (s.steps.any (fun step => step.component.hasMeta) || p.hasMetaFrom false offset marks) := by
  induction fuel generalizing marks run s offset with
  | zero => omega
  | succ fuel ih =>
    cases marks with
    | nil => exact (Bool.or_false _).symm
    | cons mark rest =>
      rw [List.length_cons] at hfuel
      rw [splitFrom]
      split
      · next hslash =>
        have hbyte : mark.byte = chr '/' := eq_of_beq hslash
        rw [ih (by omega) _ _ (offset + 1), Pattern.hasMetaFrom, if_pos hbyte]
      · next hslash =>
        have hslash := Bool.eq_false_iff.2 hslash
        let component := (mark :: rest).takeWhile fun mark => !isSlash mark
        let behind := (mark :: rest).dropWhile fun mark => !isSlash mark
        have hsplit : mark :: rest = component ++ behind :=
          List.takeWhile_append_dropWhile.symm
        have hcomponent : ∀ other ∈ component, isSlash other = false := by
          intro other hmem
          have hother := List.mem_takeWhile_imp hmem
          simpa using hother
        have hbehind : ∀ other, behind.head? = some other → isSlash other = true := by
          intro other hother
          have hnot := List.head?_dropWhile_not (fun mark => !isSlash mark) (mark :: rest)
          rw [show (mark :: rest).dropWhile (fun mark => !isSlash mark) = behind from rfl,
            hother] at hnot
          simpa using hnot
        have hfuel' : behind.length < fuel := by
          show ((mark :: rest).dropWhile fun mark => !isSlash mark).length < fuel
          rw [List.dropWhile_cons_of_pos (by rw [hslash]; decide)]
          have hle := (List.dropWhile_sublist (fun mark => !isSlash mark) (l := rest)).length_le
          omega
        rw [ih hfuel' _ _ (offset + component.length), List.any_append]
        conv_rhs => rw [hsplit]
        rw [hasMetaFrom_append (q := ⟨component, p.options⟩) hplain hplain hcomponent hbehind false
          offset 0, Bool.or_assoc, List.any_cons, List.any_nil, Bool.or_false]
        rfl

/-- A pattern that has an operator has one in some component. -/
theorem split_hasMeta {p : Pattern} (hplain : p.options.extended = false) :
    (split p).steps.any (fun step => step.component.hasMeta) = p.hasMeta := by
  unfold split
  rw [splitFrom_hasMeta hplain (Nat.lt_succ_self _) 0 _ 0]
  rfl

end Nsh.Expand.Pathname
