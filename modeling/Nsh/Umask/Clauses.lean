import Nsh.Umask.Mode
import Mathlib.Data.Nat.Digits.Defs

/-!
# A mode clause by clause

A symbolic mode is a list of clauses, and a clause one or more actions on the classes it
names.  Each action acts on the permissions the actions before it left; a class that is
copied, like `X`, is looked up in the permissions there were at the start.
-/

namespace Nsh.Umask

open Nsh

inductive Class
  | user | group | other
deriving DecidableEq, Repr

inductive Permission
  | read | write | exec
deriving DecidableEq, Repr

/-- Who may do what. -/
abbrev Permissions : Type := Class → Permission → Bool

inductive Who
  | all | user | group | other
deriving DecidableEq, Repr

inductive Op
  | add | remove | set
deriving DecidableEq, Repr

inductive Letter
  | read | write | exec | execIfAny
deriving DecidableEq, Repr

/-- What an action grants or takes: listed permissions, or those of a class. -/
inductive What
  | letters (listed : List Letter)
  | copy (copied : Class)
deriving DecidableEq, Repr

structure Action where
  op : Op
  what : What
deriving DecidableEq, Repr

structure Clause where
  who : List Who
  first : Action
  more : List Action
deriving DecidableEq, Repr

/-! ### What a mode means -/

def Who.selects : Who → Class → Bool
  | .all, _ => true
  | .user, c => c == .user
  | .group, c => c == .group
  | .other, c => c == .other

/-- The classes a clause acts on; all of them where it names none. -/
def Clause.classes (clause : Clause) (c : Class) : Bool :=
  clause.who.isEmpty || clause.who.any fun who => who.selects c

/-- Whether any class may execute. -/
def anyExec (permissions : Permissions) : Bool :=
  permissions .user .exec || permissions .group .exec || permissions .other .exec

def Letter.grants (start : Permissions) : Letter → Permission → Bool
  | .read, p => p == .read
  | .write, p => p == .write
  | .exec, p => p == .exec
  | .execIfAny, p => p == .exec && anyExec start

/-- The permissions an action is about; `copied` is where it looks a class up. -/
def What.granted (start copied : Permissions) : What → Permission → Bool
  | .letters listed, p => listed.any fun letter => letter.grants start p
  | .copy c, p => copied c p

def Action.apply (classes : Class → Bool) (start copied : Permissions) (action : Action)
    (current : Permissions) : Permissions := fun c p =>
  if classes c then
    match action.op with
    | .add => current c p || action.what.granted start copied p
    | .remove => current c p && !action.what.granted start copied p
    | .set => action.what.granted start copied p
  else current c p

/-- The actions of a clause from left to right.  `lookUp` gives the permissions a copied
    class is looked up in, from the present ones. -/
def Clause.apply (start : Permissions) (lookUp : Permissions → Permissions) (clause : Clause)
    (current : Permissions) : Permissions :=
  (clause.first :: clause.more).foldl (fun current action =>
    action.apply clause.classes start (lookUp current) current) current

/-- The clauses from left to right. -/
def applied (start : Permissions) (lookUp : Permissions → Permissions) (clauses : List Clause) :
    Permissions :=
  clauses.foldl (fun current clause => clause.apply start lookUp current) start

/-! ### How a mode is written -/

def Who.letter : Who → UInt8
  | .all => chr 'a'
  | .user => chr 'u'
  | .group => chr 'g'
  | .other => chr 'o'

def Op.letter : Op → UInt8
  | .add => chr '+'
  | .remove => chr '-'
  | .set => chr '='

def Letter.letter : Letter → UInt8
  | .read => chr 'r'
  | .write => chr 'w'
  | .exec => chr 'x'
  | .execIfAny => chr 'X'

def Class.letter : Class → UInt8
  | .user => chr 'u'
  | .group => chr 'g'
  | .other => chr 'o'

def What.print : What → Bytes
  | .letters listed => listed.map Letter.letter
  | .copy c => [c.letter]

def Action.print (action : Action) : Bytes := action.op.letter :: action.what.print

def Clause.print (clause : Clause) : Bytes :=
  clause.who.map Who.letter ++ (clause.first :: clause.more).flatMap Action.print

/-- Clauses with commas between them. -/
def printClauses : List Clause → Bytes
  | [] => []
  | [clause] => clause.print
  | clause :: clauses => clause.print ++ chr ',' :: printClauses clauses

/-! ### The bits of a class -/

def Permission.index : Permission → ℕ
  | .read => 2
  | .write => 1
  | .exec => 0

def Class.shift : Class → ℕ
  | .user => 6
  | .group => 3
  | .other => 0

/-- Where a word keeps a permission of a class. -/
def bit (c : Class) (p : Permission) : ℕ := c.shift + p.index

/-- The permissions a word holds. -/
def allowed (word : BitVec 32) : Permissions := fun c p => word.getLsbD (bit c p)

/-- The positions that stand for the three classes, or some of them. -/
def positionsFor (user group other : Bool) : BitVec 32 :=
  (if user then 0o100 else 0) ||| (if group then 0o010 else 0) ||| (if other then 0o001 else 0)

def positionsOf (classes : Class → Bool) : BitVec 32 :=
  positionsFor (classes .user) (classes .group) (classes .other)

theorem bit_lt (c : Class) (p : Permission) : bit c p < 9 := by
  cases c <;> cases p <;> decide

theorem index_lt (p : Permission) : p.index < 3 := by
  cases p <;> decide

theorem positionsOf_congr {classes classes' : Class → Bool} (h : ∀ c, classes c = classes' c) :
    positionsOf classes = positionsOf classes' := by
  rw [funext h]

/-- What stands for some classes is nothing only where there are none. -/
theorem positionsOf_eq_zero {classes : Class → Bool} :
    positionsOf classes = 0 ↔ ∀ c, classes c = false := by
  have hall : (∀ c, classes c = false) ↔
      classes .user = false ∧ classes .group = false ∧ classes .other = false :=
    ⟨fun h => ⟨h _, h _, h _⟩, fun ⟨hu, hg, ho⟩ c => by cases c <;> assumption⟩
  rw [hall, positionsOf]
  generalize classes .user = u
  generalize classes .group = g
  generalize classes .other = o
  revert u g o
  decide

theorem positionsOf_or (classes : Class → Bool) (who : Who) :
    positionsOf classes ||| whoPositions who.letter =
      positionsOf fun c => classes c || who.selects c := by
  rw [positionsOf, positionsOf]
  generalize classes .user = u
  generalize classes .group = g
  generalize classes .other = o
  cases who <;> revert u g o <;> decide

/-- Three permission bits, copied to the positions of some classes. -/
theorem mul_positionsOf (word : BitVec 32) (classes : Class → Bool) (c : Class) (p : Permission) :
    ((word &&& 0o7) * positionsOf classes).getLsbD (bit c p) =
      (classes c && word.getLsbD p.index) := by
  have hlow : ∃ k : Fin 8, word &&& 0o7 = BitVec.ofNat 32 k.val ∧
      ∀ p : Permission, word.getLsbD p.index = k.val.testBit p.index := by
    refine ⟨⟨word.toNat % 8, Nat.mod_lt _ (by decide)⟩, ?_, fun p => ?_⟩
    · apply BitVec.eq_of_toNat_eq
      have hand : word.toNat &&& 7 = word.toNat % 8 := Nat.and_two_pow_sub_one_eq_mod word.toNat 3
      rw [BitVec.toNat_and, BitVec.toNat_ofNat]
      show word.toNat &&& 7 = word.toNat % 8 % 2 ^ 32
      rw [hand]
      omega
    · have := index_lt p
      show word.toNat.testBit p.index = (word.toNat % 2 ^ 3).testBit p.index
      rw [Nat.testBit_mod_two_pow, decide_eq_true this, Bool.true_and]
  obtain ⟨k, hk, hbit⟩ := hlow
  rw [hk, hbit]
  clear hk hbit
  rw [positionsOf]
  cases c <;> generalize classes .user = u <;> generalize classes .group = g <;>
    generalize classes .other = o <;> cases p <;> revert k u g o <;> decide +kernel

/-! ### Letters -/

theorem isWho_letter (who : Who) : isWho who.letter = true := by
  cases who <;> decide

theorem isAction_letter (op : Op) : isAction op.letter = true := by
  cases op <;> decide

theorem isWho_op (op : Op) : isWho op.letter = false := by
  cases op <;> decide

theorem isPermission_op (op : Op) : isPermission op.letter = false := by
  cases op <;> decide

theorem isPermission_letter (letter : Letter) : isPermission letter.letter = true := by
  cases letter <;> decide

theorem isPermission_class (c : Class) : isPermission c.letter = true := by
  cases c <;> decide

theorem isPermission_print (what : What) : ∀ b ∈ what.print, isPermission b = true := by
  intro b hb
  cases what with
  | letters listed =>
    rw [What.print] at hb
    obtain ⟨letter, -, rfl⟩ := List.mem_map.mp hb
    exact isPermission_letter letter
  | copy c =>
    rw [What.print, List.mem_singleton] at hb
    exact hb ▸ isPermission_class c

/-- The class letters of a clause, on top of classes already selected. -/
theorem foldl_whoPositions (who : List Who) : ∀ classes : Class → Bool,
    (who.map Who.letter).foldl (fun ps letter => ps ||| whoPositions letter)
        (positionsOf classes) =
      positionsOf fun c => classes c || who.any fun who => who.selects c := by
  induction who with
  | nil =>
    intro classes
    simp
  | cons first who ih =>
    intro classes
    rw [List.map_cons, List.foldl_cons, positionsOf_or, ih]
    refine positionsOf_congr fun c => ?_
    rw [List.any_cons, Bool.or_assoc]

/-- The execute bits, all at once. -/
theorem and_exec_eq_zero (mask : BitVec 32) :
    mask &&& 0o111 = 0 ↔ anyExec (allowed mask) = false := by
  have hbits : ∀ i < 32, (0o111 : BitVec 32).getLsbD i = true → i = 0 ∨ i = 3 ∨ i = 6 := by decide
  have hexec : anyExec (allowed mask) =
      (mask.getLsbD 6 || mask.getLsbD 3 || mask.getLsbD 0) := rfl
  rw [hexec, Bool.or_eq_false_iff, Bool.or_eq_false_iff]
  constructor
  · intro h
    have hfalse : ∀ i, (0o111 : BitVec 32).getLsbD i = true → mask.getLsbD i = false := by
      intro i hi
      have hand : (mask &&& 0o111).getLsbD i = false := by
        rw [h]
        exact BitVec.getLsbD_zero
      rwa [BitVec.getLsbD_and, hi, Bool.and_true] at hand
    exact ⟨⟨hfalse 6 (by decide), hfalse 3 (by decide)⟩, hfalse 0 (by decide)⟩
  · rintro ⟨⟨huser, hgroup⟩, hother⟩
    apply BitVec.eq_of_getLsbD_eq
    intro i hi
    have hzero : (0 : BitVec 32).getLsbD i = false := BitVec.getLsbD_zero
    rw [BitVec.getLsbD_and, hzero]
    cases hone : (0o111 : BitVec 32).getLsbD i with
    | false => rw [Bool.and_false]
    | true =>
      rw [Bool.and_true]
      rcases hbits i hi hone with rfl | rfl | rfl
      · exact hother
      · exact hgroup
      · exact huser

/-- The bits a list of letters is read as. -/
theorem foldl_permissionBits (mask : BitVec 32) (p : Permission) (letters : Bytes) :
    ∀ bits : BitVec 32,
    (letters.foldl (fun bits letter => bits ||| permissionBits mask letter) bits).getLsbD p.index =
      (bits.getLsbD p.index || letters.any fun letter =>
        (permissionBits mask letter).getLsbD p.index) := by
  induction letters with
  | nil =>
    intro bits
    simp
  | cons letter letters ih =>
    intro bits
    rw [List.foldl_cons, ih, BitVec.getLsbD_or, List.any_cons, Bool.or_assoc]

theorem permissionBits_letter (mask : BitVec 32) (letter : Letter) (p : Permission) :
    (permissionBits mask letter.letter).getLsbD p.index = letter.grants (allowed mask) p := by
  have hread : permissionBits mask Letter.read.letter = 0o4 := rfl
  have hwrite : permissionBits mask Letter.write.letter = 0o2 := rfl
  have hexec : permissionBits mask Letter.exec.letter = 0o1 := rfl
  cases letter with
  | read =>
    rw [hread, Letter.grants]
    cases p <;> decide
  | write =>
    rw [hwrite, Letter.grants]
    cases p <;> decide
  | exec =>
    rw [hexec, Letter.grants]
    cases p <;> decide
  | execIfAny =>
    have hbits : permissionBits mask Letter.execIfAny.letter =
        if mask &&& 0o111 ≠ 0 then 0o1 else 0 := by
      have hletter : Letter.execIfAny.letter = chr 'X' := rfl
      unfold permissionBits
      rw [hletter, if_neg (by decide), if_neg (by decide), if_neg (by decide), if_neg (by decide),
        if_neg (by decide), if_neg (by decide)]
      simp only [true_and]
    rw [hbits, Letter.grants]
    cases hexec : anyExec (allowed mask) with
    | false =>
      rw [if_neg (not_not.mpr ((and_exec_eq_zero mask).mpr hexec)), Bool.and_false]
      exact BitVec.getLsbD_zero
    | true =>
      have hne : mask &&& 0o111 ≠ 0 := fun h => by
        rw [(and_exec_eq_zero mask).mp h] at hexec
        cases hexec
      rw [if_pos hne, Bool.and_true]
      cases p <;> decide

theorem permissionBits_class (mask : BitVec 32) (c : Class) (p : Permission) :
    (permissionBits mask c.letter).getLsbD p.index = allowed mask c p := by
  cases c with
  | user =>
    show (mask >>> 6).getLsbD p.index = _
    rw [BitVec.getLsbD_ushiftRight]
    rfl
  | group =>
    show (mask >>> 3).getLsbD p.index = _
    rw [BitVec.getLsbD_ushiftRight]
    rfl
  | other =>
    show mask.getLsbD p.index = mask.getLsbD (0 + p.index)
    rw [Nat.zero_add]

/-- What an action's letters are read as is what it grants, a class being looked up at the
    start. -/
theorem read_what (mask : BitVec 32) (what : What) (p : Permission) :
    ((what.print.foldl (fun bits letter => bits ||| permissionBits mask letter) 0).getLsbD
      p.index) = what.granted (allowed mask) (allowed mask) p := by
  rw [foldl_permissionBits]
  cases what with
  | letters listed =>
    rw [What.print, What.granted, List.any_map]
    simp only [Function.comp_def, permissionBits_letter]
    simp
  | copy c =>
    rw [What.print, What.granted, List.any_cons, List.any_nil, permissionBits_class]
    simp

/-- The word an action leaves holds the permissions the action leaves. -/
theorem allowed_act (mask newMask : BitVec 32) (classes : Class → Bool) (action : Action) :
    allowed (act action.op.letter newMask (positionsOf classes)
        ((action.what.print.foldl (fun bits letter => bits ||| permissionBits mask letter) 0 &&&
          0o7) * positionsOf classes)) =
      action.apply classes (allowed mask) (allowed mask) (allowed newMask) := by
  funext c p
  have hread := mul_positionsOf
    (action.what.print.foldl (fun bits letter => bits ||| permissionBits mask letter) 0) classes c p
  rw [read_what] at hread
  have hall : (positionsOf classes * 0o7).getLsbD (bit c p) = classes c := by
    have := mul_positionsOf 0o7 classes c p
    rw [BitVec.mul_comm]
    have hseven : (0o7 : BitVec 32) &&& 0o7 = 0o7 := by decide
    rw [hseven] at this
    rw [this]
    cases p <;> simp [Permission.index]
  have hinside : bit c p < 32 := lt_trans (bit_lt c p) (by decide)
  have hleft : action.apply classes (allowed mask) (allowed mask) (allowed newMask) c p =
      if classes c then
        match action.op with
        | .add => newMask.getLsbD (bit c p) || action.what.granted (allowed mask) (allowed mask) p
        | .remove =>
          newMask.getLsbD (bit c p) && !action.what.granted (allowed mask) (allowed mask) p
        | .set => action.what.granted (allowed mask) (allowed mask) p
      else newMask.getLsbD (bit c p) := rfl
  rw [hleft, allowed]
  cases hop : action.op with
  | add =>
    have hact : ∀ bits, act Op.add.letter newMask (positionsOf classes) bits = newMask ||| bits :=
      fun _ => rfl
    rw [hact, BitVec.getLsbD_or, hread]
    cases classes c <;> simp
  | remove =>
    have hact : ∀ bits, act Op.remove.letter newMask (positionsOf classes) bits =
        newMask &&& ~~~bits := fun _ => rfl
    rw [hact, BitVec.getLsbD_and, BitVec.getLsbD_not, hread]
    cases classes c <;> simp [hinside]
  | set =>
    have hact : ∀ bits, act Op.set.letter newMask (positionsOf classes) bits =
        bits ||| (newMask &&& ~~~(positionsOf classes * 0o7)) := fun _ => rfl
    rw [hact, BitVec.getLsbD_or, BitVec.getLsbD_and, BitVec.getLsbD_not, hread, hall]
    cases classes c <;> simp [hinside]

/-! ### A mode is read clause by clause -/

/-- The loop with as many turns as it can take. -/
def readMode (mask newMask positions : BitVec 32) (bytes : Bytes) : Option (BitVec 32) :=
  turns mask bytes.length newMask positions bytes

theorem readMode_cons (mask newMask positions : BitVec 32) {bytes : Bytes} (hne : bytes ≠ [])
    {turned : BitVec 32 × BitVec 32 × Bytes}
    (h : turn mask newMask positions bytes = some turned) :
    readMode mask newMask positions bytes = readMode mask turned.1 turned.2.1 turned.2.2 := by
  cases bytes with
  | nil => exact absurd rfl hne
  | cons byte bytes =>
    have hshort := turn_length h
    rw [List.length_cons] at hshort
    rw [readMode, List.length_cons, turns, h, Option.bind_some,
      turns_fuel mask bytes.length _ _ _ (by omega), readMode]

section Front

variable {p : UInt8 → Bool}

theorem takeWhile_front (front : Bytes) {back : Bytes} (hfront : ∀ b ∈ front, p b = true)
    (hback : ∀ b ∈ back.head?, p b = false) : (front ++ back).takeWhile p = front := by
  rw [List.takeWhile_append_of_pos hfront]
  cases back with
  | nil => simp
  | cons b back =>
    have := hback b rfl
    simp [this]

theorem dropWhile_front (front : Bytes) {back : Bytes} (hfront : ∀ b ∈ front, p b = true)
    (hback : ∀ b ∈ back.head?, p b = false) : (front ++ back).dropWhile p = back := by
  rw [List.dropWhile_append_of_pos hfront]
  cases back with
  | nil => simp
  | cons b back =>
    have := hback b rfl
    simp [this]

end Front

/-- What can stand behind an action on some positions: the end, a comma, or another action. -/
inductive Behind (positions : BitVec 32) : Bytes → BitVec 32 → Bytes → Prop
  | done : Behind positions [] positions []
  | comma (rest : Bytes) : Behind positions (chr ',' :: rest) 0 rest
  | action (op : Op) (rest : Bytes) :
      Behind positions (op.letter :: rest) positions (op.letter :: rest)

theorem Behind.not_permission {positions positions' : BitVec 32} {behind rest : Bytes}
    (h : Behind positions behind positions' rest) : ∀ b ∈ behind.head?, isPermission b = false := by
  intro b hb
  cases h with
  | done => cases hb
  | comma rest =>
    obtain rfl : chr ',' = b := by simpa using hb
    decide
  | action op rest =>
    obtain rfl : op.letter = b := by simpa using hb
    exact isPermission_op op

/-- The positions some class letters select on top of others; all of them for none. -/
def selection (positions : BitVec 32) (who : List Who) : BitVec 32 :=
  let selected := (who.map Who.letter).foldl (fun ps letter => ps ||| whoPositions letter) positions
  if selected = 0 then 0o111 else selected

/-- What an action makes of a word. -/
def Action.acted (mask : BitVec 32) (classes : Class → Bool) (action : Action)
    (newMask : BitVec 32) : BitVec 32 :=
  act action.op.letter newMask (positionsOf classes)
    ((action.what.print.foldl (fun bits letter => bits ||| permissionBits mask letter) 0 &&& 0o7) *
      positionsOf classes)

/-- One turn: class letters, and an action on the classes they select. -/
theorem turn_action (mask newMask positions : BitVec 32) (who : List Who) {classes : Class → Bool}
    (action : Action) {behind rest : Bytes} {positions' : BitVec 32}
    (hselected : selection positions who = positionsOf classes)
    (hbehind : Behind (positionsOf classes) behind positions' rest) :
    turn mask newMask positions (who.map Who.letter ++ (action.print ++ behind)) =
      some (action.acted mask classes newMask, positions', rest) := by
  have hletters : ∀ b ∈ who.map Who.letter, isWho b = true := by
    intro b hb
    obtain ⟨w, -, rfl⟩ := List.mem_map.mp hb
    exact isWho_letter w
  have hop : ∀ b ∈ (action.print ++ behind).head?, isWho b = false := by
    intro b hb
    obtain rfl : action.op.letter = b := by simpa [Action.print] using hb
    exact isWho_op action.op
  have hprint := isPermission_print action.what
  have hnot := hbehind.not_permission
  rw [turn, takeWhile_front _ hletters hop, dropWhile_front _ hletters hop]
  simp only [Action.print, List.cons_append, isAction_letter, if_true]
  rw [takeWhile_front _ hprint hnot, dropWhile_front _ hprint hnot]
  rw [selection] at hselected
  rw [hselected]
  cases hbehind with
  | done => rfl
  | comma rest => rfl
  | action op rest =>
    have hcomma : op.letter ≠ chr ',' := by cases op <;> decide
    simp only [if_neg hcomma, isAction_letter, if_true]
    rfl

/-- A clause: its first action selects the classes, and they stay selected up to its end. -/
theorem readMode_actions (mask : BitVec 32) {classes : Class → Bool}
    (hclasses : positionsOf classes ≠ 0) {tail rest : Bytes} {positions' : BitVec 32}
    (htail : Behind (positionsOf classes) tail positions' rest) (more : List Action) :
    ∀ (newMask positions : BitVec 32) (who : List Who) (first : Action),
      selection positions who = positionsOf classes →
      ∃ newMask',
        readMode mask newMask positions
            (who.map Who.letter ++ ((first :: more).flatMap Action.print ++ tail)) =
          readMode mask newMask' positions' rest ∧
        allowed newMask' = (first :: more).foldl (fun current action =>
          action.apply classes (allowed mask) (allowed mask) current) (allowed newMask) := by
  induction more with
  | nil =>
    intro newMask positions who first hselected
    have hturn := turn_action mask newMask positions who first hselected htail
    refine ⟨first.acted mask classes newMask, ?_, allowed_act mask newMask classes first⟩
    rw [List.flatMap_cons, List.flatMap_nil, List.append_nil]
    exact readMode_cons mask newMask positions (by simp [Action.print]) hturn
  | cons second more ih =>
    intro newMask positions who first hselected
    have hbehind : Behind (positionsOf classes) ((second :: more).flatMap Action.print ++ tail)
        (positionsOf classes) ((second :: more).flatMap Action.print ++ tail) := by
      rw [List.flatMap_cons, Action.print, List.cons_append, List.cons_append]
      exact .action second.op _
    have hturn := turn_action mask newMask positions who first hselected hbehind
    have hkept : selection (positionsOf classes) [] = positionsOf classes := by
      rw [selection, List.map_nil, List.foldl_nil]
      exact if_neg hclasses
    obtain ⟨newMask', hread, hallowed⟩ :=
      ih (first.acted mask classes newMask) (positionsOf classes) [] second hkept
    rw [List.map_nil, List.nil_append] at hread
    refine ⟨newMask', ?_, ?_⟩
    · rw [← hread, List.flatMap_cons, List.append_assoc]
      exact readMode_cons mask newMask positions (by simp [Action.print]) hturn
    · rw [hallowed, List.foldl_cons (l := second :: more)]
      congr 1
      exact allowed_act mask newMask classes first

/-! ### Clauses -/

theorem Who.selects_some (who : Who) : ∃ c, who.selects c = true := by
  cases who with
  | all => exact ⟨.user, rfl⟩
  | user => exact ⟨.user, rfl⟩
  | group => exact ⟨.group, rfl⟩
  | other => exact ⟨.other, rfl⟩

theorem Clause.classes_some (clause : Clause) : ∃ c, clause.classes c = true := by
  cases hwho : clause.who with
  | nil => exact ⟨.user, by rw [Clause.classes, hwho]; rfl⟩
  | cons who others =>
    obtain ⟨c, hc⟩ := who.selects_some
    exact ⟨c, by rw [Clause.classes, hwho, List.any_cons, hc]; simp⟩

theorem Clause.positionsOf_ne_zero (clause : Clause) : positionsOf clause.classes ≠ 0 := by
  intro hzero
  obtain ⟨c, hc⟩ := clause.classes_some
  rw [positionsOf_eq_zero.mp hzero c] at hc
  cases hc

theorem Clause.selection_eq (clause : Clause) :
    selection 0 clause.who = positionsOf clause.classes := by
  have hletters := foldl_whoPositions clause.who fun _ => false
  have hnone : positionsOf (fun _ => false) = 0 := by decide
  rw [hnone] at hletters
  rw [selection, hletters]
  cases hwho : clause.who with
  | nil =>
    have hall : clause.classes = fun _ => true := by
      funext c
      rw [Clause.classes, hwho]
      rfl
    rw [hall]
    rfl
  | cons who others =>
    have hsame : (fun c => false || clause.who.any fun who => who.selects c) = clause.classes := by
      funext c
      rw [Clause.classes, hwho]
      rfl
    rw [← hwho, hsame]
    exact if_neg clause.positionsOf_ne_zero

theorem readMode_nil (mask newMask positions : BitVec 32) :
    readMode mask newMask positions [] = some newMask := rfl

/-- A symbolic mode is read clause by clause. -/
theorem readMode_clauses (mask : BitVec 32) (clauses : List Clause) : ∀ newMask : BitVec 32,
    ∃ newMask', readMode mask newMask 0 (printClauses clauses) = some newMask' ∧
      allowed newMask' = clauses.foldl (fun current clause =>
        clause.apply (allowed mask) (fun _ => allowed mask) current) (allowed newMask) := by
  induction clauses with
  | nil => exact fun newMask => ⟨newMask, rfl, rfl⟩
  | cons clause clauses ih =>
    intro newMask
    cases clauses with
    | nil =>
      obtain ⟨newMask', hread, hallowed⟩ := readMode_actions mask clause.positionsOf_ne_zero .done
        clause.more newMask 0 clause.who clause.first clause.selection_eq
      rw [List.append_nil] at hread
      exact ⟨newMask', by rw [printClauses, Clause.print, hread, readMode_nil], hallowed⟩
    | cons next clauses =>
      obtain ⟨between, hread, hallowed⟩ := readMode_actions mask clause.positionsOf_ne_zero
        (.comma (printClauses (next :: clauses))) clause.more newMask 0 clause.who clause.first
        clause.selection_eq
      obtain ⟨newMask', hrest, hdone⟩ := ih between
      refine ⟨newMask', ?_, ?_⟩
      · rw [printClauses, Clause.print, List.append_assoc, hread, hrest]
        exact List.cons_ne_nil _ _
      · rw [hdone, hallowed]
        rfl

end Nsh.Umask
