import Nsh.Directories.Failing

/-!
# What `pushd` and `popd` leave behind

`pushd` changes the stack after a `cd` that succeeded, and a `cd` that fails before it
has moved the process leaves everything.  What comes behind the move is the assignments
to `OLDPWD` and `PWD` and the path that is printed: where they are not refused, a `cd`
that fails has changed nothing (`cdFailsIn_still`).  `popd` takes its entry off the stack
first, and does not give it back when the `cd` fails.
-/

namespace Nsh.Directories

open Nsh.Variables Nsh.Run

variable {W C O : Type} {host : Host W}

/-! ### All or nothing -/

section Moves

variable (host) (evaluate : Bytes → ShellRun W Int64) (platform : Platform C O)

end Moves

/-- The working directory, every entry below it and `DIRSTACK` are as they were. -/
structure Unmoved (s t : Shell W C O) : Prop extends SamePlace s t where
  stack : t.table.entry (text "DIRSTACK") = s.table.entry (text "DIRSTACK")

theorem Unmoved.refl (s : Shell W C O) : Unmoved s s := ⟨SamePlace.refl s, rfl⟩

variable {evaluate : Bytes → ShellRun W Int64} {platform : Platform C O}

/-- The operands behind the options, unless they are refused. -/
def operands : List Bytes → Option (List Bytes)
  | [] => some []
  | word :: rest =>
    if word = text "--" then some rest
    else if 2 ≤ word.length ∧ word.head? = some (chr '-') then none
    else some (word :: rest)

variable (host evaluate platform) in
theorem changeTo_cases (s : Shell W C O) (target : Bytes) :
    changeTo host evaluate platform target s = .unfinished ∨
    (∃ u, cd host evaluate platform [target] s = .done (.done 0) u ∧
      changeTo host evaluate platform target s = .done true u) ∨
    (∃ u status, CdFailsIn host evaluate platform s target u ∧
      changeTo host evaluate platform target s = .done false { u with status := status }) := by
  unfold changeTo CdFailsIn
  cases hcd : cd host evaluate platform [target] s with
  | unfinished => exact .inl rfl
  | failed e u => exact .inr (.inr ⟨u, e.status, .inl ⟨e, rfl⟩, rfl⟩)
  | done flow u =>
    right
    by_cases hflow : flow = .done 0
    · subst hflow
      exact .inl ⟨u, rfl, rfl⟩
    · refine .inr ⟨u, u.status, .inr ⟨flow, rfl, hflow⟩, ?_⟩
      cases flow with
      | done status =>
        have hstatus : ¬ status = 0 := fun hzero => hflow (congrArg Flow.done hzero)
        simp [ExitStatus.success, hstatus]
      | exit status => rfl
      | breakLoops levels status => rfl
      | continueLoop levels status => rfl
      | returning status explicit => rfl

/-- A `cd` ends in one way. -/
theorem CdFailsIn.unique {s u u' : Shell W C O} {target : Bytes}
    (h : CdFailsIn host evaluate platform s target u)
    (h' : CdFailsIn host evaluate platform s target u') : u = u' := by
  rcases h with ⟨e, he⟩ | ⟨flow, hflow, _⟩
  · rcases h' with ⟨e', he'⟩ | ⟨flow', hflow', _⟩
    · rw [he] at he'; cases he'; rfl
    · rw [he] at hflow'; cases hflow'
  · rcases h' with ⟨e', he'⟩ | ⟨flow', hflow', _⟩
    · rw [hflow] at he'; cases he'
    · rw [hflow] at hflow'; cases hflow'; rfl

/-- A `cd` that fails leaves the directories below. -/
theorem CdFailsIn.below {s u : Shell W C O} {target : Bytes}
    (h : CdFailsIn host evaluate platform s target u) : u.below = s.below := by
  have hkept : (cd host evaluate platform [target]).Preserves (Below s.below) := cd_below [target]
  rcases h with ⟨e, he⟩ | ⟨flow, hflow, _⟩
  · exact hkept.ends rfl (.inr ⟨e, he⟩)
  · exact hkept.ends rfl (.inl ⟨flow, hflow⟩)

end Nsh.Directories
