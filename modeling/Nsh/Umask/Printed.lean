import Mathlib.Tactic.IntervalCases
import Nsh.Umask.Installed

/-!
# What `umask` prints is a mode

The report without options is an octal number and the one under `-S` has a clause for
each class, so either is an operand that brings the mask back, whatever mask there is by
then.
-/

namespace Nsh.Umask

open Nsh

/-- The letters of what a class is allowed, as the report lists them. -/
def listedLetters (allows : Permission → Bool) : List Letter :=
  (if allows .read then [.read] else []) ++ (if allows .write then [.write] else []) ++
    (if allows .exec then [.exec] else [])

/-- The clauses the symbolic report consists of. -/
def reportedClauses (allows : Permissions) : List Clause :=
  [⟨[.user], ⟨.set, .letters (listedLetters (allows .user))⟩, []⟩,
    ⟨[.group], ⟨.set, .letters (listedLetters (allows .group))⟩, []⟩,
    ⟨[.other], ⟨.set, .letters (listedLetters (allows .other))⟩, []⟩]

theorem listedLetters_grants (start : Permissions) (allows : Permission → Bool) (p : Permission) :
    ((listedLetters allows).any fun letter => letter.grants start p) = allows p := by
  unfold listedLetters
  cases hread : allows .read <;> cases hwrite : allows .write <;> cases hexec : allows .exec <;>
    cases p <;> simp [Letter.grants, hread, hwrite, hexec]

/-- The clauses of the report leave what they were made from, whatever there was before. -/
theorem applied_reported (start allows : Permissions) (lookUp : Permissions → Permissions) :
    applied start lookUp (reportedClauses allows) = allows := by
  funext c p
  have hgrants := fun c => listedLetters_grants start (allows c) p
  cases c <;> simp [reportedClauses, applied, Clause.apply, Action.apply, Clause.classes,
    Who.selects, What.granted, hgrants]

theorem reportClass_eq (mask : CreationMask) (c : Class) (index : ℕ) (letter : UInt8)
    (hindex : c.shift = 6 - 3 * index) (hle : index ≤ 2) :
    reportClass (~~~mask.read) index letter =
      letter :: chr '=' :: (listedLetters (mask.allows c)).map Letter.letter := by
  have hallows : ∀ p, mask.allows c p = (~~~mask.read).getLsbD (c.shift + p.index) := by
    intro p
    rw [← allowed_read]
    rfl
  have hread : 8 - 3 * index = c.shift + Permission.read.index := by
    show _ = c.shift + 2
    omega
  have hwrite : 7 - 3 * index = c.shift + Permission.write.index := by
    show _ = c.shift + 1
    omega
  have hexec : 6 - 3 * index = c.shift + Permission.exec.index := by
    show _ = c.shift + 0
    omega
  rw [reportClass, listedLetters, hallows, hallows, hallows, hread, hwrite, hexec, List.map_append,
    List.map_append]
  congr 2
  cases (~~~mask.read).getLsbD (c.shift + Permission.read.index) <;>
    cases (~~~mask.read).getLsbD (c.shift + Permission.write.index) <;>
      cases (~~~mask.read).getLsbD (c.shift + Permission.exec.index) <;> rfl

theorem reportSymbolic_eq (mask : CreationMask) :
    reportSymbolic mask.read = printClauses (reportedClauses mask.allows) ++ [0x0a] := by
  rw [reportSymbolic, reportClass_eq mask .user 0 _ rfl (by decide),
    reportClass_eq mask .group 1 _ rfl (by decide), reportClass_eq mask .other 2 _ rfl (by decide)]
  simp [reportedClauses, printClauses, Clause.print, Action.print, What.print, Who.letter,
    Op.letter]

/-- The digits of the octal report. -/
def reportedDigits (mask : CreationMask) : List (Fin 8) :=
  [⟨mask.toNat / 512 % 8, Nat.mod_lt _ (by decide)⟩,
    ⟨mask.toNat / 64 % 8, Nat.mod_lt _ (by decide)⟩,
    ⟨mask.toNat / 8 % 8, Nat.mod_lt _ (by decide)⟩, ⟨mask.toNat % 8, Nat.mod_lt _ (by decide)⟩]

theorem reportOctal_eq (mask : CreationMask) :
    reportOctal mask.read = printOctal (reportedDigits mask) ++ [0x0a] := by
  have hread : mask.read.toNat = mask.toNat := BitVec.toNat_setWidth_of_le (by decide)
  simp [reportOctal, reportedDigits, printOctal, octalDigit, hread]

theorem octalNumber_reported (mask : CreationMask) :
    octalNumber (reportedDigits mask) = mask.toNat := by
  have hlt : mask.toNat < 2 ^ 9 := mask.isLt
  simp only [octalNumber, reportedDigits, List.reverse_cons, List.reverse_nil, List.nil_append,
    List.cons_append, List.map_cons, List.map_nil, Nat.ofDigits_cons, Nat.ofDigits_nil]
  omega

/-- A mask is what it allows. -/
theorem allows_injective {mask other : CreationMask} (h : mask.allows = other.allows) :
    mask = other := by
  have hbit : ∀ c p, mask.getLsbD (bit c p) = other.getLsbD (bit c p) := by
    intro c p
    have hallows : (!mask.getLsbD (bit c p)) = !other.getLsbD (bit c p) :=
      congrFun (congrFun h c) p
    simpa using hallows
  apply BitVec.eq_of_getLsbD_eq
  intro i hi
  have hplace : ∃ c p, bit c p = i := by
    interval_cases i
    · exact ⟨.other, .exec, rfl⟩
    · exact ⟨.other, .write, rfl⟩
    · exact ⟨.other, .read, rfl⟩
    · exact ⟨.group, .exec, rfl⟩
    · exact ⟨.group, .write, rfl⟩
    · exact ⟨.group, .read, rfl⟩
    · exact ⟨.user, .exec, rfl⟩
    · exact ⟨.user, .write, rfl⟩
    · exact ⟨.user, .read, rfl⟩
  obtain ⟨c, p, rfl⟩ := hplace
  exact hbit c p

/-- A word that does not begin with `-` is an operand. -/
theorem scanOptions_operand {word : Bytes} (h : word.head? ≠ some (chr '-')) :
    scanOptions [word] = .ok (false, [word]) := by
  rw [scanOptions, if_pos (Or.inl h)]

/-- **What `umask` prints brings the mask back**, with either style and from any mask. -/
theorem run_printed (mask other : CreationMask) (args : List Bytes) {symbolic : Bool}
    (h : scanOptions (args.drop 1) = .ok (symbolic, [])) :
    ∃ printed, run mask args = (.ok (printed ++ [0x0a]), mask) ∧
      run other [text "umask", printed] = (.ok [], mask) := by
  have hrun : run mask args =
      (.ok (if symbolic then reportSymbolic mask.read else reportOctal mask.read), mask) := by
    rw [run, h]
    rfl
  cases symbolic with
  | true =>
    refine ⟨printClauses (reportedClauses mask.allows), ?_, ?_⟩
    · rw [hrun, if_pos rfl, reportSymbolic_eq]
    · have hscan : scanOptions ([text "umask", printClauses (reportedClauses mask.allows)].drop 1) =
          .ok (false, [printClauses (reportedClauses mask.allows)]) := by
        apply scanOptions_operand
        simp [reportedClauses, printClauses, Clause.print, Who.letter]
        decide
      obtain ⟨permissions, hmode, hallowed⟩ :=
        newMask_clauses other (reportedClauses mask.allows)
      rw [run_operand hscan hmode]
      rw [applied_reported] at hallowed
      rw [allows_injective ((installed_allows permissions).trans hallowed)]
  | false =>
    refine ⟨printOctal (reportedDigits mask), ?_, ?_⟩
    · rw [hrun, if_neg Bool.false_ne_true, reportOctal_eq]
    · have hscan : scanOptions ([text "umask", printOctal (reportedDigits mask)].drop 1) =
          .ok (false, [printOctal (reportedDigits mask)]) := by
        apply scanOptions_operand
        intro hhead
        have hdigit := isAsciiDigit_octalDigit ⟨mask.toNat / 512 % 8, Nat.mod_lt _ (by decide)⟩
        have hfirst : octalDigit (mask.toNat / 512 % 8) = chr '-' := Option.some.inj hhead
        rw [hfirst] at hdigit
        revert hdigit
        decide
      have hword : CreationMask.installed (BitVec.ofNat 32 (octalNumber (reportedDigits mask))) =
          mask := by
        rw [octalNumber_reported, CreationMask.installed, BitVec.setWidth_ofNat_of_le (by decide),
          BitVec.ofNat_toNat, BitVec.setWidth_eq]
      rw [run_operand hscan (newMask_octal other.read (List.cons_ne_nil _ _)), hword]

theorem run_printed_symbolic :
    ∃ printed, run 0o027 [text "umask", text "-S"] = (.ok (printed ++ [0x0a]), 0o027) ∧
      run 0o777 [text "umask", printed] = (.ok [], 0o027) :=
  run_printed 0o027 0o777 [text "umask", text "-S"] (by decide : _ = Except.ok (true, []))

end Nsh.Umask
