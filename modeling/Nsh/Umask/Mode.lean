import Nsh.Shell.Bytes

/-!
# `umask`

The mask is the process's: the builtin reads it from the kernel and writes one back.  A
symbolic mode is read over two words of permissions, the ones the mask allowed when the
builtin started and the ones it is building.
-/

namespace Nsh.Umask

open Nsh

/-! ### Options -/

/-- The option letters of `umask`, and the byte that ends the option string. -/
def isOption (option : UInt8) : Bool := option == chr 'S' || option == 0

/-- `Options::next` to its end, with `S` the only option: whether there was one, and the
    operands. -/
def scanOptions : List Bytes → Except Bytes (Bool × List Bytes)
  | [] => .ok (false, [])
  | word :: rest =>
    if word.head? ≠ some (chr '-') ∨ word.length < 2 then .ok (false, word :: rest)
    else if word = text "--" then .ok (false, rest)
    else
      match (word.drop 1).find? fun option => !isOption option with
      | some option => .error (text "Illegal option -" ++ [option])
      | none => (scanOptions rest).map fun scanned => (true, scanned.2)

/-! ### The report -/

/-- The permissions of one class, in the symbolic report. -/
def reportClass (allowed : BitVec 32) (class_index : ℕ) (letter : UInt8) : Bytes :=
  letter :: chr '=' ::
    ((if allowed.getLsbD (8 - 3 * class_index) then [chr 'r'] else []) ++
      (if allowed.getLsbD (7 - 3 * class_index) then [chr 'w'] else []) ++
      (if allowed.getLsbD (6 - 3 * class_index) then [chr 'x'] else []))

def reportSymbolic (mask : BitVec 32) : Bytes :=
  reportClass (~~~mask) 0 (chr 'u') ++ chr ',' :: (reportClass (~~~mask) 1 (chr 'g') ++
    chr ',' :: (reportClass (~~~mask) 2 (chr 'o') ++ [0x0a]))

/-- One octal digit. -/
def octalDigit (n : ℕ) : UInt8 := UInt8.ofNat ((chr '0').toNat + n % 8)

/-- `{mask:04o}` of a mask of nine bits, with a line feed. -/
def reportOctal (mask : BitVec 32) : Bytes :=
  [octalDigit (mask.toNat / 512), octalDigit (mask.toNat / 64), octalDigit (mask.toNat / 8),
    octalDigit mask.toNat, 0x0a]

/-! ### A mode -/

def isOctalDigit (b : UInt8) : Bool := decide (chr '0' ≤ b) && decide (b ≤ chr '7')

/-- The number of octal digits, in a word of 32 bits. -/
def octalMask (digits : Bytes) : BitVec 32 :=
  digits.foldl (fun mask digit =>
    (mask <<< 3) + BitVec.ofNat 32 (digit.toNat - (chr '0').toNat)) 0

def isWho (b : UInt8) : Bool := (text "augo").contains b

def isAction (b : UInt8) : Bool := (text "=+-").contains b

def isPermission (b : UInt8) : Bool := (text "rwxugoXs").contains b

/-- The positions a class letter selects. -/
def whoPositions (letter : UInt8) : BitVec 32 :=
  if letter = chr 'a' then 0o111
  else if letter = chr 'u' then 0o100
  else if letter = chr 'g' then 0o010
  else 0o001

/-- The bits a permission letter stands for, read off the permissions at the start. -/
def permissionBits (mask : BitVec 32) (letter : UInt8) : BitVec 32 :=
  if letter = chr 'r' then 0o4
  else if letter = chr 'w' then 0o2
  else if letter = chr 'x' then 0o1
  else if letter = chr 'u' then mask >>> 6
  else if letter = chr 'g' then mask >>> 3
  else if letter = chr 'o' then mask
  else if letter = chr 'X' ∧ mask &&& 0o111 ≠ 0 then 0o1
  else 0

/-- The permissions after an action on the selected positions. -/
def act (op : UInt8) (newMask positions bits : BitVec 32) : BitVec 32 :=
  if op = chr '-' then newMask &&& ~~~bits
  else if op = chr '=' then bits ||| (newMask &&& ~~~(positions * 0o7))
  else newMask ||| bits

/-- One turn of the loop: the class letters, an action and its permissions, and what
    stands behind them.  `none` is a mode that is refused. -/
def turn (mask newMask positions : BitVec 32) (bytes : Bytes) :
    Option (BitVec 32 × BitVec 32 × Bytes) :=
  let selected := (bytes.takeWhile isWho).foldl (fun ps letter => ps ||| whoPositions letter)
    positions
  let positions := if selected = 0 then 0o111 else selected
  match bytes.dropWhile isWho with
  | [] => none
  | op :: rest =>
    if isAction op then
      let letters := rest.takeWhile isPermission
      let read := letters.foldl (fun bits letter => bits ||| permissionBits mask letter) 0
      let bits := (read &&& 0o7) * positions
      let newMask := act op newMask positions bits
      match rest.dropWhile isPermission with
      | [] => some (newMask, positions, [])
      | next :: behind =>
        if next = chr ',' then some (newMask, 0, behind)
        else if isAction next then some (newMask, positions, next :: behind)
        else none
    else none

/-- The loop over a mode. -/
def turns (mask : BitVec 32) : ℕ → BitVec 32 → BitVec 32 → Bytes → Option (BitVec 32)
  | _, newMask, _, [] => some newMask
  | 0, _, _, _ :: _ => none
  | fuel + 1, newMask, positions, byte :: bytes =>
    (turn mask newMask positions (byte :: bytes)).bind fun turned =>
      turns mask fuel turned.1 turned.2.1 turned.2.2

/-- The mask an operand asks for, or the error it is refused with. -/
def newMask (mask : BitVec 32) (mode : Bytes) : Except Bytes (BitVec 32) :=
  if mode.head?.any isAsciiDigit then
    if mode.all isOctalDigit then .ok (octalMask mode)
    else .error (text "Illegal number: " ++ mode)
  else
    match turns (~~~mask) mode.length (~~~mask) 0 mode with
    | some permissions => .ok (~~~permissions)
    | none => .error (text "Illegal mode: " ++ mode)

/-! ### The builtin -/

/-- The nine bits the kernel keeps. -/
abbrev CreationMask : Type := BitVec 9

/-- `creation_mask`. -/
def CreationMask.read (mask : CreationMask) : BitVec 32 := mask.setWidth 32

/-- `replace_creation_mask`: `umask` keeps the permission bits of what it is given. -/
def CreationMask.installed (mask : BitVec 32) : CreationMask := mask.setWidth 9

/-- `run`: what is written or the error, and the mask the process is left with. -/
def run (mask : CreationMask) (args : List Bytes) : Except Bytes Bytes × CreationMask :=
  match scanOptions (args.drop 1) with
  | .error message => (.error message, mask)
  | .ok (symbolic, operands) =>
    match operands.head? with
    | none => (.ok (if symbolic then reportSymbolic mask.read else reportOctal mask.read), mask)
    | some mode =>
      match newMask mask.read mode with
      | .error message => (.error message, mask)
      | .ok newMask => (.ok [], CreationMask.installed newMask)

/-- Each turn takes a byte at the least, so a turn for each byte is enough. -/
theorem turn_length {mask newMask positions : BitVec 32} {bytes : Bytes}
    {turned : BitVec 32 × BitVec 32 × Bytes} (h : turn mask newMask positions bytes = some turned) :
    turned.2.2.length < bytes.length := by
  have hwho : (bytes.dropWhile isWho).length ≤ bytes.length :=
    (List.dropWhile_sublist isWho).length_le
  simp only [turn] at h
  split at h
  · cases h
  · next op rest hrest =>
    have hpermission : (rest.dropWhile isPermission).length ≤ rest.length :=
      (List.dropWhile_sublist isPermission).length_le
    rw [hrest, List.length_cons] at hwho
    split at h
    · split at h
      · cases h
        exact Nat.lt_of_lt_of_le (Nat.succ_pos rest.length) hwho
      · next next behind hbehind =>
        rw [hbehind, List.length_cons] at hpermission
        split at h
        · cases h
          simp only
          omega
        · split at h
          · cases h
            simp only [List.length_cons]
            omega
          · cases h
    · cases h

/-- More turns than bytes change nothing. -/
theorem turns_fuel (mask : BitVec 32) (fuel : ℕ) : ∀ (newMask positions : BitVec 32)
    (bytes : Bytes), bytes.length ≤ fuel →
    turns mask fuel newMask positions bytes = turns mask bytes.length newMask positions bytes := by
  induction fuel using Nat.strong_induction_on with
  | _ fuel ih =>
    intro newMask positions bytes hfuel
    cases bytes with
    | nil => cases fuel <;> rfl
    | cons byte bytes =>
      obtain ⟨fuel, rfl⟩ : ∃ n, fuel = n + 1 := ⟨fuel - 1, by simp at hfuel; omega⟩
      rw [List.length_cons, turns, turns]
      cases hturn : turn mask newMask positions (byte :: bytes) with
      | none => rfl
      | some turned =>
        have hshort := turn_length hturn
        rw [List.length_cons] at hshort hfuel
        rw [Option.bind_some, Option.bind_some,
          ih fuel (Nat.lt_succ_self fuel) _ _ turned.2.2 (by omega)]
        rcases Nat.lt_or_ge bytes.length (fuel + 1) with hlt | hge
        · exact (ih bytes.length hlt _ _ turned.2.2 (by omega)).symm
        · have hsame : bytes.length = fuel := by omega
          rw [hsame]
          exact (ih fuel (Nat.lt_succ_self fuel) _ _ turned.2.2 (by omega)).symm

end Nsh.Umask
