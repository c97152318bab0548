import Nsh.Umask.Clauses

/-!
# What `umask` installs

A symbolic operand installs the complement of the permissions its clauses leave, an octal one
the low nine bits of its number, and a refused one nothing.
-/

namespace Nsh.Umask

open Nsh

/-- The permissions a mask leaves to new files. -/
def CreationMask.allows (mask : CreationMask) : Permissions := fun c p => !mask.getLsbD (bit c p)

theorem allowed_read (mask : CreationMask) : allowed (~~~mask.read) = mask.allows := by
  funext c p
  have hbit : bit c p < 9 := bit_lt c p
  have hword : bit c p < 32 := lt_trans hbit (by decide)
  rw [allowed, CreationMask.allows, BitVec.getLsbD_not, CreationMask.read,
    BitVec.getLsbD_setWidth]
  simp only [hword, decide_true, Bool.true_and]

theorem installed_allows (permissions : BitVec 32) :
    (CreationMask.installed (~~~permissions)).allows = allowed permissions := by
  funext c p
  have hbit : bit c p < 9 := bit_lt c p
  have hword : bit c p < 32 := lt_trans hbit (by decide)
  rw [allowed, CreationMask.allows, CreationMask.installed, BitVec.getLsbD_setWidth,
    BitVec.getLsbD_not]
  simp only [hbit, hword, decide_true, Bool.true_and, Bool.not_not]

/-! ### A symbolic operand -/

theorem isAsciiDigit_who (who : Who) : isAsciiDigit who.letter = false := by
  cases who <;> decide

theorem isAsciiDigit_op (op : Op) : isAsciiDigit op.letter = false := by
  cases op <;> decide

theorem Clause.print_head (clause : Clause) (behind : Bytes) :
    (clause.print ++ behind).head?.any isAsciiDigit = false := by
  rw [Clause.print]
  cases clause.who with
  | nil => exact isAsciiDigit_op clause.first.op
  | cons who others => exact isAsciiDigit_who who

/-- No symbolic mode begins like a number. -/
theorem printClauses_head (clauses : List Clause) :
    (printClauses clauses).head?.any isAsciiDigit = false := by
  cases clauses with
  | nil => rfl
  | cons clause clauses =>
    cases clauses with
    | nil =>
      have := clause.print_head []
      rwa [List.append_nil] at this
    | cons next clauses => exact clause.print_head _

theorem newMask_clauses (mask : CreationMask) (clauses : List Clause) :
    ∃ permissions, newMask mask.read (printClauses clauses) = .ok (~~~permissions) ∧
      allowed permissions = applied mask.allows (fun _ => mask.allows) clauses := by
  obtain ⟨permissions, hread, hallowed⟩ :=
    readMode_clauses (~~~mask.read) clauses (~~~mask.read)
  rw [allowed_read] at hallowed
  rw [readMode] at hread
  refine ⟨permissions, ?_, hallowed⟩
  rw [newMask, printClauses_head, if_neg Bool.false_ne_true, hread]

/-! ### Where it does not matter what a class is copied from -/

/-- The actions of some clauses, each with the classes it is about. -/
def actions (clauses : List Clause) : List ((Class → Bool) × Action) :=
  clauses.flatMap fun clause =>
    (clause.first :: clause.more).map fun action => (clause.classes, action)

theorem applied_actions (start : Permissions) (lookUp : Permissions → Permissions)
    (clauses : List Clause) : applied start lookUp clauses =
      (actions clauses).foldl (fun current step =>
        step.2.apply step.1 start (lookUp current) current) start := by
  rw [applied, actions, List.foldl_flatMap]
  congr 1
  funext current clause
  rw [Clause.apply, List.foldl_map]

/-- No class is copied once an action was about it; `touched` are those one was about. -/
def CopiedFirst : (Class → Bool) → List ((Class → Bool) × Action) → Prop
  | _, [] => True
  | touched, (classes, action) :: rest =>
    (∀ c, action.what = .copy c → touched c = false) ∧
      CopiedFirst (fun c => touched c || classes c) rest

/-- An action leaves the classes it is not about. -/
theorem Action.apply_other {classes : Class → Bool} {c : Class} (start copied : Permissions)
    (action : Action) (current : Permissions) (hc : classes c = false) :
    action.apply classes start copied current c = current c := by
  funext p
  rw [Action.apply, hc]
  exact if_neg Bool.false_ne_true

theorem Action.apply_congr {copied copied' : Permissions} (classes : Class → Bool)
    (start : Permissions) (action : Action) (current : Permissions)
    (h : ∀ c, action.what = .copy c → copied c = copied' c) :
    action.apply classes start copied current = action.apply classes start copied' current := by
  have hgranted : action.what.granted start copied = action.what.granted start copied' := by
    funext p
    cases hwhat : action.what with
    | letters listed => rfl
    | copy c => exact congrFun (h c hwhat) p
  unfold Action.apply
  rw [hgranted]

theorem foldl_copiedFirst (start : Permissions) (steps : List ((Class → Bool) × Action)) :
    ∀ (touched : Class → Bool) (current : Permissions),
      (∀ c, touched c = false → current c = start c) → CopiedFirst touched steps →
      steps.foldl (fun current step => step.2.apply step.1 start start current) current =
        steps.foldl (fun current step => step.2.apply step.1 start current current) current := by
  induction steps with
  | nil => exact fun _ _ _ _ => rfl
  | cons step steps ih =>
    intro touched current hcurrent hcopied
    obtain ⟨hfirst, hrest⟩ := hcopied
    have hstep : step.2.apply step.1 start start current =
        step.2.apply step.1 start current current :=
      step.2.apply_congr step.1 start current fun c hc => (hcurrent c (hfirst c hc)).symm
    rw [List.foldl_cons, List.foldl_cons, ← hstep]
    refine ih _ _ (fun c hc => ?_) hrest
    rw [Bool.or_eq_false_iff] at hc
    rw [step.2.apply_other start start current hc.2, hcurrent c hc.1]

/-- **As long as no class is copied after a change** it is the mode `chmod` applies. -/
theorem applied_copiedFirst (start : Permissions) {clauses : List Clause}
    (h : CopiedFirst (fun _ => false) (actions clauses)) :
    applied start (fun _ => start) clauses = applied start (fun current => current) clauses := by
  rw [applied_actions, applied_actions]
  exact foldl_copiedFirst start (actions clauses) _ start (fun _ _ => rfl) h

/-! ### An octal operand -/

/-- How a number is written with octal digits, the first the weightiest. -/
def printOctal (digits : List (Fin 8)) : Bytes := digits.map fun digit => octalDigit digit.val

/-- The number some octal digits stand for. -/
def octalNumber (digits : List (Fin 8)) : ℕ :=
  Nat.ofDigits 8 (digits.reverse.map fun digit => digit.val)

theorem isOctalDigit_octalDigit (digit : Fin 8) : isOctalDigit (octalDigit digit.val) = true := by
  revert digit
  decide

theorem isAsciiDigit_octalDigit (digit : Fin 8) : isAsciiDigit (octalDigit digit.val) = true := by
  revert digit
  decide

theorem octalDigit_toNat (digit : Fin 8) :
    (octalDigit digit.val).toNat - (chr '0').toNat = digit.val := by
  revert digit
  decide

theorem octalNumber_concat (digits : List (Fin 8)) (digit : Fin 8) :
    octalNumber (digits ++ [digit]) = 8 * octalNumber digits + digit.val := by
  rw [octalNumber, octalNumber, List.reverse_append, List.reverse_singleton, List.singleton_append,
    List.map_cons, Nat.ofDigits_cons]
  exact Nat.add_comm _ _

/-- One more octal digit, in the word. -/
theorem shift_add_digit (n d : ℕ) :
    (BitVec.ofNat 32 n <<< 3) + BitVec.ofNat 32 d = BitVec.ofNat 32 (8 * n + d) := by
  apply BitVec.eq_of_toNat_eq
  rw [BitVec.toNat_add, BitVec.toNat_shiftLeft, BitVec.toNat_ofNat, BitVec.toNat_ofNat,
    BitVec.toNat_ofNat, Nat.shiftLeft_eq]
  omega

/-- The digits are summed up modulo the width of the word. -/
theorem octalMask_printOctal (digits : List (Fin 8)) :
    octalMask (printOctal digits) = BitVec.ofNat 32 (octalNumber digits) := by
  induction digits using List.reverseRecOn with
  | nil => rfl
  | append_singleton digits digit ih =>
    have hstep : octalMask (printOctal (digits ++ [digit])) =
        (octalMask (printOctal digits) <<< 3) +
          BitVec.ofNat 32 ((octalDigit digit.val).toNat - (chr '0').toNat) := by
      rw [printOctal, List.map_append, octalMask, List.foldl_append]
      rfl
    rw [hstep, ih, octalDigit_toNat, shift_add_digit, octalNumber_concat]

theorem newMask_octal (mask : BitVec 32) {digits : List (Fin 8)} (hne : digits ≠ []) :
    newMask mask (printOctal digits) = .ok (BitVec.ofNat 32 (octalNumber digits)) := by
  have hdigits : (printOctal digits).all isOctalDigit = true := by
    rw [printOctal, List.all_map, List.all_eq_true]
    exact fun digit _ => isOctalDigit_octalDigit digit
  have hhead : (printOctal digits).head?.any isAsciiDigit = true := by
    cases digits with
    | nil => exact absurd rfl hne
    | cons digit digits => exact isAsciiDigit_octalDigit digit
  rw [newMask, if_pos hhead, if_pos hdigits, octalMask_printOctal]

/-! ### The builtin -/

section Run

variable {mask : CreationMask} {args rest : List Bytes} {symbolic : Bool} {mode : Bytes}

theorem run_operand (h : scanOptions (args.drop 1) = .ok (symbolic, mode :: rest))
    {word : BitVec 32} (hword : newMask mask.read mode = .ok word) :
    run mask args = (.ok [], CreationMask.installed word) := by
  rw [run, h]
  simp only [List.head?_cons, hword]

/-- A refused operand, or an option, leaves the mask as it is. -/
theorem run_refused {message : Bytes} (h : (run mask args).1 = .error message) :
    (run mask args).2 = mask := by
  rw [run] at h ⊢
  cases hscan : scanOptions (args.drop 1) with
  | error message => rfl
  | ok scanned =>
    obtain ⟨symbolic, operands⟩ := scanned
    rw [hscan] at h
    cases operands with
    | nil => rfl
    | cons mode rest =>
      simp only [List.head?_cons] at h ⊢
      cases hmode : newMask mask.read mode with
      | error message => rfl
      | ok word =>
        rw [hmode] at h
        cases h

end Run

/-- **What an operand does.**  The clauses of a symbolic one are applied from left to right,
    each action to what those before it left, while `X` and a copied class look at the
    permissions there were at the start. -/
theorem run_mode (mask : CreationMask) (args : List Bytes) {symbolic : Bool} {mode : Bytes}
    {rest : List Bytes} (h : scanOptions (args.drop 1) = .ok (symbolic, mode :: rest)) :
    (∀ clauses, mode = printClauses clauses →
      (run mask args).1 = .ok [] ∧
        (run mask args).2.allows = applied mask.allows (fun _ => mask.allows) clauses ∧
        (CopiedFirst (fun _ => false) (actions clauses) →
          (run mask args).2.allows = applied mask.allows (fun current => current) clauses)) ∧
    (∀ digits, digits ≠ [] → mode = printOctal digits →
      run mask args = (.ok [], BitVec.ofNat 9 (octalNumber digits))) ∧
    (∀ message, (run mask args).1 = .error message → (run mask args).2 = mask) := by
  refine ⟨?_, ?_, fun message => run_refused⟩
  · rintro clauses rfl
    obtain ⟨permissions, hmode, hallowed⟩ := newMask_clauses mask clauses
    have hinstalled := (installed_allows permissions).trans hallowed
    rw [run_operand h hmode]
    exact ⟨rfl, hinstalled, fun hcopied => hinstalled.trans (applied_copiedFirst _ hcopied)⟩
  · rintro digits hne rfl
    have hword : CreationMask.installed (BitVec.ofNat 32 (octalNumber digits)) =
        BitVec.ofNat 9 (octalNumber digits) := BitVec.setWidth_ofNat_of_le (by decide) _
    rw [run_operand h (newMask_octal mask.read hne), hword]

/-- `umask 'g=u,o=g'`: the group is given the owner's permissions, and the others what the
    group had before. -/
def groupThenOther : List Clause :=
  [⟨[.group], ⟨.set, .copy .user⟩, []⟩, ⟨[.other], ⟨.set, .copy .group⟩, []⟩]

theorem run_mode_group : (run 0o077 [text "umask", text "g=u,o=g"]).2.allows =
    applied (CreationMask.allows 0o077) (fun _ => CreationMask.allows 0o077) groupThenOther :=
  ((@run_mode 0o077 [text "umask", text "g=u,o=g"] false (text "g=u,o=g") [] rfl).1
    groupThenOther (by decide)).2.1

/-- Looking a class up in what the actions before it left is another mode. -/
theorem not_run_copies_result : ¬ ∀ (mask : CreationMask) (args : List Bytes) (symbolic : Bool)
    (rest : List Bytes) (clauses : List Clause),
    scanOptions (args.drop 1) = .ok (symbolic, printClauses clauses :: rest) →
    (run mask args).2.allows = applied mask.allows (fun current => current) clauses := by
  intro h
  have hother := congrFun (congrFun (h 0o077 [text "umask", text "g=u,o=g"] false []
    groupThenOther (by rfl)) .other) .read
  revert hother
  decide

end Nsh.Umask
