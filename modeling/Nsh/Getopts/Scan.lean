import Nsh.Shell.Bytes

/-!
# The option scan of `getopts`

Each call of `getopts` finds one option, in the word where the call before it
stopped or in the next one.  The scan is compared with reading the words from left
to right by the utility syntax rules.
-/

namespace Nsh.Getopts

/-- What one call finds. -/
structure Found where
  option : UInt8
  /-- What `OPTARG` is set to; it is unset where there is nothing. -/
  argument : Option Bytes
  /-- What is reported of a bad option, behind the name of the program. -/
  complaint : Option Bytes
  done : Bool
  next : Nat
  /-- The word the next call goes on in, and how far it has been read. -/
  cursor : Option (Nat × Nat)
deriving DecidableEq, Repr

/-- The cursor a call starts from, where the words still bear it out. -/
def currentCursor (words : List Bytes) (next : Nat) (offset : Option Nat) : Option (Nat × Nat) :=
  match offset with
  | none => none
  | some offset =>
    if 0 < next ∧ (words[next - 1]?).any fun word => decide (offset ≤ word.length) then
      some (next - 1, offset)
    else none

/-- Step into the next word, or find the end and how many words it leaves behind. -/
def enter (words : List Bytes) (next : Nat) : Except Nat (Nat × Nat × Nat) :=
  match words[next]? with
  | none => .error next
  | some word =>
    if word.head? ≠ some (chr '-') ∨ word.length = 1 then .error next
    else if word = text "--" then .error (next + 1)
    else .ok (next + 1, next, 1)

/-- The words stepped into, the word of the next option, and where it stands there. -/
def locate (words : List Bytes) (next : Nat) (cursor : Option (Nat × Nat)) :
    Except Nat (Nat × Nat × Nat) :=
  match cursor with
  | none => enter words next
  | some (word, offset) =>
    if (words.getD word []).length ≤ offset then enter words next else .ok (next, word, offset)

/-- The loop over the option string, which ends at the option or at the end. -/
def search (option : UInt8) : Bytes → Bytes
  | [] => []
  | [letter] => if letter = option then [letter] else []
  | letter :: colon :: rest =>
    if letter = option then letter :: colon :: rest
    else if colon = chr ':' then search option rest
    else search option (colon :: rest)

/-- The option string asks for the quiet form. -/
def isQuiet (optstr : Bytes) : Bool := optstr.head? == some (chr ':')

def illegalOption (option : UInt8) : Bytes := text ": Illegal option -" ++ [option, 0x0a]

def noArgument (option : UInt8) : Bytes := text ": No arg for -" ++ option :: text " option\n"

/-- What the option at a place in a word comes to. -/
def optionAt (optstr : Bytes) (words : List Bytes) (next word offset : Nat) : Found :=
  let option := (words.getD word []).getD offset 0
  let offset := offset + 1
  match search option (if isQuiet optstr then optstr.tail else optstr) with
  | [] =>
    if isQuiet optstr then ⟨chr '?', some [option], none, false, next, some (word, offset)⟩
    else ⟨chr '?', none, some (illegalOption option), false, next, some (word, offset)⟩
  | _ :: spec =>
    if spec.head? = some (chr ':') then
      if offset < (words.getD word []).length then
        ⟨option, some ((words.getD word []).drop offset), none, false, next, none⟩
      else
        match words[next]? with
        | some argument => ⟨option, some argument, none, false, next + 1, none⟩
        | none =>
          if isQuiet optstr then ⟨chr ':', some [option], none, false, next, some (word, offset)⟩
          else ⟨chr '?', none, some (noArgument option), false, next, some (word, offset)⟩
    else ⟨option, none, none, false, next, some (word, offset)⟩

/-- The scan of `getopts`. -/
def scan (optstr : Bytes) (words : List Bytes) (index : Nat) (offset : Option Nat) : Found :=
  match locate words (index - 1) (currentCursor words (index - 1) offset) with
  | .error next => ⟨chr '?', none, none, true, next, none⟩
  | .ok (next, word, offset) => optionAt optstr words next word offset

/-! ### The utility syntax rules -/

/-- What the words hold, in order. -/
inductive Item where
  | option (letter : UInt8) (argument : Option Bytes)
  | unknown (letter : UInt8)
  | missing (letter : UInt8)
deriving DecidableEq, Repr

/-- The letters of an option string, those that take an argument with a colon. -/
def spelled (letters : List (UInt8 × Bool)) : Bytes :=
  letters.flatMap fun letter => if letter.2 then [letter.1, chr ':'] else [letter.1]

def optionString (quiet : Bool) (letters : List (UInt8 × Bool)) : Bytes :=
  (if quiet then [chr ':'] else []) ++ spelled letters

/-- Whether a letter is an option, and takes an argument. -/
def takesArgument (letters : List (UInt8 × Bool)) (letter : UInt8) : Option Bool :=
  letters.lookup letter

/-- How many bytes a group of options and the words behind it are, a word having an end. -/
def size (group : Bytes) (words : List Bytes) : Nat :=
  group.length + (words.map fun word => word.length + 1).sum

/-- An item in front of others. -/
def behind (item : Item) (scanned : List Item × List Bytes) : List Item × List Bytes :=
  (item :: scanned.1, scanned.2)

/-- What is read from the rest of a group of options and the words behind it, and the words
that are left. -/
def itemsOf (letters : List (UInt8 × Bool)) (group : Bytes) (words : List Bytes) :
    List Item × List Bytes :=
  match group, words with
  | letter :: group, words =>
    match takesArgument letters letter with
    | none => behind (.unknown letter) (itemsOf letters group words)
    | some false => behind (.option letter none) (itemsOf letters group words)
    | some true =>
      if group ≠ [] then behind (.option letter (some group)) (itemsOf letters [] words)
      else
        match words with
        | [] => ([.missing letter], [])
        | argument :: words => behind (.option letter (some argument)) (itemsOf letters [] words)
  | [], [] => ([], [])
  | [], word :: words =>
    if word = text "--" then ([], words)
    else if word.head? = some (chr '-') ∧ 1 < word.length then itemsOf letters word.tail words
    else ([], word :: words)
termination_by size group words
decreasing_by
  all_goals
    simp only [size, List.length_cons, List.map_cons, List.sum_cons, List.length_nil,
      List.length_tail]
    omega

theorem itemsOf_letter (letters : List (UInt8 × Bool)) (letter : UInt8) (group : Bytes)
    (words : List Bytes) :
    itemsOf letters (letter :: group) words =
      match takesArgument letters letter with
      | none => behind (.unknown letter) (itemsOf letters group words)
      | some false => behind (.option letter none) (itemsOf letters group words)
      | some true =>
        if group ≠ [] then behind (.option letter (some group)) (itemsOf letters [] words)
        else
          match words with
          | [] => ([.missing letter], [])
          | argument :: words =>
            behind (.option letter (some argument)) (itemsOf letters [] words) := by
  rw [itemsOf.eq_def]

theorem itemsOf_end (letters : List (UInt8 × Bool)) : itemsOf letters [] [] = ([], []) := by
  rw [itemsOf.eq_def]

theorem itemsOf_word (letters : List (UInt8 × Bool)) (word : Bytes) (words : List Bytes) :
    itemsOf letters [] (word :: words) =
      if word = text "--" then ([], words)
      else if word.head? = some (chr '-') ∧ 1 < word.length then itemsOf letters word.tail words
      else ([], word :: words) := by
  rw [itemsOf.eq_def]

/-- There are no more items than bytes. -/
theorem length_itemsOf (letters : List (UInt8 × Bool)) (group : Bytes) (words : List Bytes) :
    (itemsOf letters group words).1.length ≤ group.length + (words.map List.length).sum := by
  induction group, words using itemsOf.induct letters with
  | case1 letter group words htakes ih =>
    rw [itemsOf_letter, htakes]
    simp only [behind, List.length_cons]
    omega
  | case2 letter group words htakes ih =>
    rw [itemsOf_letter, htakes]
    simp only [behind, List.length_cons]
    omega
  | case3 letter group words htakes hgroup ih =>
    rw [itemsOf_letter, htakes]
    simp only [if_pos hgroup, behind, List.length_cons, List.length_nil] at ih ⊢
    omega
  | case4 letter group htakes hgroup =>
    rw [itemsOf_letter, htakes]
    simp only [if_neg hgroup, List.length_cons, List.length_nil]
    omega
  | case5 letter group htakes hgroup argument words ih =>
    rw [itemsOf_letter, htakes]
    simp only [if_neg hgroup, behind, List.length_cons, List.length_nil, List.map_cons,
      List.sum_cons] at ih ⊢
    omega
  | case6 => simp [itemsOf_end]
  | case7 words =>
    rw [itemsOf_word, if_pos rfl]
    exact Nat.zero_le _
  | case8 word words hdashes hgroup ih =>
    rw [itemsOf_word, if_neg hdashes, if_pos hgroup, List.map_cons, List.sum_cons]
    rw [List.length_tail] at ih
    simp only [List.length_nil]
    omega
  | case9 word words hdashes hgroup =>
    rw [itemsOf_word, if_neg hdashes, if_neg hgroup]
    exact Nat.zero_le _

/-- What a call reports of an item. -/
def Item.reported (quiet : Bool) : Item → UInt8 × Option Bytes × Option Bytes
  | .option letter argument => (letter, argument, none)
  | .unknown letter =>
    if quiet then (chr '?', some [letter], none)
    else (chr '?', none, some (illegalOption letter))
  | .missing letter =>
    if quiet then (chr ':', some [letter], none)
    else (chr '?', none, some (noArgument letter))

/-! ### The option string -/

section

variable {letters : List (UInt8 × Bool)} {quiet : Bool}

theorem head_spelled (hletters : ∀ letter ∈ letters, letter.1 ≠ chr ':') :
    (spelled letters).head? ≠ some (chr ':') := by
  cases letters with
  | nil => intro h; cases h
  | cons first rest =>
    have hfirst := hletters first List.mem_cons_self
    intro h
    rw [spelled, List.flatMap_cons] at h
    split at h <;> exact hfirst (Option.some.inj h)

theorem isQuiet_optionString (hletters : ∀ letter ∈ letters, letter.1 ≠ chr ':') :
    isQuiet (optionString quiet letters) = quiet := by
  cases quiet with
  | true => rfl
  | false =>
    have hhead := head_spelled hletters
    exact beq_eq_false_iff_ne.mpr hhead

theorem letters_optionString (hletters : ∀ letter ∈ letters, letter.1 ≠ chr ':') :
    (if isQuiet (optionString quiet letters) then (optionString quiet letters).tail
      else optionString quiet letters) = spelled letters := by
  rw [isQuiet_optionString hletters]
  cases quiet with
  | true => rfl
  | false => rfl

theorem search_unknown {letter : UInt8} (hletters : ∀ l ∈ letters, l.1 ≠ chr ':')
    (h : takesArgument letters letter = none) : search letter (spelled letters) = [] := by
  induction letters with
  | nil => rfl
  | cons first rest ih =>
    obtain ⟨l, takes⟩ := first
    have hrest : ∀ l ∈ rest, l.1 ≠ chr ':' := fun l hl => hletters l (List.mem_cons_of_mem _ hl)
    rw [takesArgument, List.lookup_cons] at h
    split at h
    · cases h
    · next hne =>
      have hlne : ¬ l = letter := fun heq => by simp [heq] at hne
      have hih := ih hrest h
      have hhead := head_spelled hrest
      rw [spelled, List.flatMap_cons]
      show search letter (_ ++ spelled rest) = []
      cases takes with
      | true =>
        show search letter (l :: chr ':' :: spelled rest) = []
        rw [search, if_neg hlne, if_pos rfl, hih]
      | false =>
        show search letter (l :: spelled rest) = []
        cases hspelled : spelled rest with
        | nil => rw [search, if_neg hlne]
        | cons next others =>
          rw [hspelled] at hih hhead
          rw [search, if_neg hlne, if_neg fun heq => hhead (congrArg some heq), hih]

theorem search_option {letter : UInt8} {takes : Bool} (hletters : ∀ l ∈ letters, l.1 ≠ chr ':')
    (h : takesArgument letters letter = some takes) :
    ∃ spec, search letter (spelled letters) = letter :: spec ∧
      (spec.head? = some (chr ':') ↔ takes = true) := by
  induction letters with
  | nil => cases h
  | cons first rest ih =>
    obtain ⟨l, ltakes⟩ := first
    have hrest : ∀ l ∈ rest, l.1 ≠ chr ':' := fun l hl => hletters l (List.mem_cons_of_mem _ hl)
    have hhead := head_spelled hrest
    rw [takesArgument, List.lookup_cons] at h
    rw [spelled, List.flatMap_cons]
    show ∃ spec, search letter (_ ++ spelled rest) = _ ∧ _
    split at h
    · next heq =>
      obtain rfl : letter = l := by simpa using heq
      cases h
      cases takes with
      | true =>
        refine ⟨chr ':' :: spelled rest, ?_, fun _ => rfl, fun _ => rfl⟩
        show search letter (letter :: chr ':' :: spelled rest) = _
        rw [search, if_pos rfl]
      | false =>
        refine ⟨spelled rest, ?_, fun hcolon => absurd hcolon hhead, fun h => by cases h⟩
        show search letter (letter :: spelled rest) = _
        cases hspelled : spelled rest with
        | nil => rw [search, if_pos rfl]
        | cons next others => rw [search, if_pos rfl]
    · next hne =>
      have hlne : ¬ l = letter := fun heq => by simp [heq] at hne
      obtain ⟨spec, hsearch, htakes⟩ := ih hrest h
      refine ⟨spec, ?_, htakes⟩
      cases ltakes with
      | true =>
        show search letter (l :: chr ':' :: spelled rest) = _
        rw [search, if_neg hlne, if_pos rfl, hsearch]
      | false =>
        show search letter (l :: spelled rest) = _
        cases hspelled : spelled rest with
        | nil =>
          rw [hspelled] at hsearch
          cases hsearch
        | cons next others =>
          rw [hspelled] at hsearch hhead
          rw [search, if_neg hlne, if_neg fun heq => hhead (congrArg some heq), hsearch]

end

/-! ### One call -/

section

variable {letters : List (UInt8 × Bool)} {quiet : Bool} {words : List Bytes}

/-- The group of options a position stands in. -/
def groupAt (words : List Bytes) (index : Nat) : Option Nat → Bytes
  | none => []
  | some offset => (words.getD (index - 2) []).drop offset

/-- The position is in order: an offset is in the word the index has stepped over. -/
structure Placed (words : List Bytes) (index : Nat) (offset : Option Nat) : Prop where
  started : 1 ≤ index
  bounded : index ≤ words.length + 1
  within : ∀ o, offset = some o → 2 ≤ index ∧
    ∃ word, words[index - 2]? = some word ∧ o ≤ word.length

/-- What one call has to do with what is read from the words: the end where nothing is read, or
the first item, and the rest of them from the position it leaves. -/
def Takes (letters : List (UInt8 × Bool)) (quiet : Bool) (words : List Bytes) (found : Found) :
    List Item × List Bytes → Prop
  | ([], left) => found = ⟨chr '?', none, none, true, found.next, none⟩ ∧
      words.drop found.next = left ∧ found.next ≤ words.length
  | (item :: items, left) =>
    found.done = false ∧ item.reported quiet = (found.option, found.argument, found.complaint) ∧
      Placed words (found.next + 1) (found.cursor.map (·.2)) ∧
      itemsOf letters (groupAt words (found.next + 1) (found.cursor.map (·.2)))
        (words.drop found.next) = (items, left)

theorem placed_next {next : Nat} {word : Bytes} (hword : words[next]? = some word) {offset : Nat}
    (hoffset : offset ≤ word.length) : Placed words (next + 1 + 1) (some offset) := by
  have hlt := (List.getElem?_eq_some_iff.mp hword).1
  refine ⟨by omega, by omega, fun o ho => ?_⟩
  cases ho
  exact ⟨by omega, word, hword, hoffset⟩

theorem placed_none {next : Nat} {word : Bytes} (hword : words[next]? = some word) :
    Placed words (next + 1 + 1) none := by
  have hlt := (List.getElem?_eq_some_iff.mp hword).1
  exact ⟨by omega, by omega, fun _ ho => by cases ho⟩

variable (quiet) in
/-- **An option in a word** is the first item of what is read from there. -/
theorem optionAt_takes (hletters : ∀ l ∈ letters, l.1 ≠ chr ':') {at' : Nat} {word : Bytes}
    (hword : words[at']? = some word) {offset : Nat} (hoffset : offset < word.length) :
    Takes letters quiet words
      (optionAt (optionString quiet letters) words (at' + 1) at' offset)
      (itemsOf letters (word.drop offset) (words.drop (at' + 1))) := by
  have hgetD : words.getD at' [] = word := by
    rw [List.getD_eq_getElem?_getD, hword]
    rfl
  have hdrop : word.drop offset = word[offset] :: word.drop (offset + 1) :=
    List.drop_eq_getElem_cons hoffset
  have hletter : word.getD offset 0 = word[offset] := by
    rw [List.getD_eq_getElem?_getD, List.getElem?_eq_getElem hoffset]
    rfl
  have hgroup : groupAt words (at' + 1 + 1) (some (offset + 1)) = word.drop (offset + 1) := by
    show (words.getD at' []).drop (offset + 1) = _
    rw [hgetD]
  have hleft : itemsOf letters (groupAt words (at' + 1 + 1) (some (offset + 1)))
      (words.drop (at' + 1)) = itemsOf letters (word.drop (offset + 1)) (words.drop (at' + 1)) := by
    rw [hgroup]
  unfold optionAt
  dsimp only
  rw [hgetD, hletter, letters_optionString hletters, isQuiet_optionString hletters, hdrop,
    itemsOf_letter]
  generalize word[offset] = letter
  cases htakes : takesArgument letters letter with
  | none =>
    rw [search_unknown hletters htakes]
    dsimp only
    cases quiet with
    | true => exact ⟨rfl, rfl, placed_next hword hoffset, hleft⟩
    | false => exact ⟨rfl, rfl, placed_next hword hoffset, hleft⟩
  | some takes =>
    obtain ⟨spec, hsearch, hcolon⟩ := search_option hletters htakes
    rw [hsearch]
    dsimp only
    cases takes with
    | false =>
      rw [if_neg fun h => absurd (hcolon.mp h) Bool.false_ne_true]
      exact ⟨rfl, rfl, placed_next hword hoffset, hleft⟩
    | true =>
      rw [if_pos (hcolon.mpr rfl)]
      dsimp only
      by_cases hattached : offset + 1 < word.length
      · have hne : word.drop (offset + 1) ≠ [] := by
          rw [Ne, List.drop_eq_nil_iff]
          omega
        rw [if_pos hattached, if_pos hne]
        exact ⟨rfl, rfl, placed_none hword, rfl⟩
      · have hnil : word.drop (offset + 1) = [] := List.drop_eq_nil_iff.mpr (by omega)
        rw [hnil] at hleft
        rw [if_neg hattached, hnil, if_neg (fun h : ([] : Bytes) ≠ [] => h rfl)]
        cases hnext : words[at' + 1]? with
        | none =>
          have hend : words.drop (at' + 1) = [] :=
            List.drop_eq_nil_iff.mpr (List.getElem?_eq_none_iff.mp hnext)
          rw [hend, itemsOf_end] at hleft
          rw [hend]
          dsimp only
          cases quiet with
          | true =>
            refine ⟨rfl, rfl, placed_next hword hoffset, ?_⟩
            show itemsOf letters _ (words.drop (at' + 1)) = _
            rw [hend]
            exact hleft
          | false =>
            refine ⟨rfl, rfl, placed_next hword hoffset, ?_⟩
            show itemsOf letters _ (words.drop (at' + 1)) = _
            rw [hend]
            exact hleft
        | some argument =>
          have hsplit : words.drop (at' + 1) = argument :: words.drop (at' + 1 + 1) := by
            obtain ⟨hlt, rfl⟩ := List.getElem?_eq_some_iff.mp hnext
            exact List.drop_eq_getElem_cons hlt
          rw [hsplit]
          exact ⟨rfl, rfl, placed_none hnext, rfl⟩

variable (quiet) in
/-- Stepping into the next word is reading on behind a group that is done. -/
theorem enter_takes (hletters : ∀ l ∈ letters, l.1 ≠ chr ':') {next : Nat}
    (hnext : next ≤ words.length) :
    Takes letters quiet words
      (match enter words next with
        | .error next => ⟨chr '?', none, none, true, next, none⟩
        | .ok (next, word, offset) => optionAt (optionString quiet letters) words next word offset)
      (itemsOf letters [] (words.drop next)) := by
  unfold enter
  cases hword : words[next]? with
  | none =>
    have hend : words.drop next = [] :=
      List.drop_eq_nil_iff.mpr (List.getElem?_eq_none_iff.mp hword)
    rw [hend, itemsOf_end]
    exact ⟨rfl, hend, hnext⟩
  | some word =>
    obtain ⟨hlt, hget⟩ := List.getElem?_eq_some_iff.mp hword
    have hsplit : words.drop next = word :: words.drop (next + 1) := by
      rw [← hget]
      exact List.drop_eq_getElem_cons hlt
    rw [hsplit, itemsOf_word]
    dsimp only
    by_cases hoperand : word.head? ≠ some (chr '-') ∨ word.length = 1
    · have hdashes : ¬ word = text "--" := by
        rintro rfl
        revert hoperand
        decide
      have hgroup : ¬ (word.head? = some (chr '-') ∧ 1 < word.length) := by
        rintro ⟨hhead, hlength⟩
        rcases hoperand with hne | hone
        · exact hne hhead
        · omega
      rw [if_pos hoperand, if_neg hdashes, if_neg hgroup]
      exact ⟨rfl, hsplit, hnext⟩
    · rw [not_or, Classical.not_not] at hoperand
      obtain ⟨hhead, hone⟩ := hoperand
      rw [if_neg (by rw [not_or, Classical.not_not]; exact ⟨hhead, hone⟩)]
      by_cases hdashes : word = text "--"
      · rw [if_pos hdashes, if_pos hdashes]
        exact ⟨rfl, rfl, hlt⟩
      · have hlength : 1 < word.length := by
          cases word with
          | nil => cases hhead
          | cons first rest =>
            rw [List.length_cons] at hone ⊢
            omega
        rw [if_neg hdashes, if_neg hdashes, if_pos ⟨hhead, hlength⟩, ← List.drop_one]
        exact optionAt_takes quiet hletters hword hlength

variable (quiet) in
/-- **A call takes the first item** of what is read from its position, or finds the end. -/
theorem scan_takes (hletters : ∀ l ∈ letters, l.1 ≠ chr ':') {index : Nat} {offset : Option Nat}
    (hplaced : Placed words index offset) :
    Takes letters quiet words (scan (optionString quiet letters) words index offset)
      (itemsOf letters (groupAt words index offset) (words.drop (index - 1))) := by
  have hstarted := hplaced.started
  have hbounded := hplaced.bounded
  have henter := enter_takes quiet hletters (show index - 1 ≤ words.length by omega)
  unfold scan
  cases offset with
  | none => exact henter
  | some offset =>
    obtain ⟨htwo, word, hword, hoffset⟩ := hplaced.within offset rfl
    have hgetD : words.getD (index - 2) [] = word := by
      rw [List.getD_eq_getElem?_getD, hword]
      rfl
    have hcursor : currentCursor words (index - 1) (some offset) = some (index - 2, offset) := by
      unfold currentCursor
      dsimp only
      rw [show index - 1 - 1 = index - 2 by omega, hword, if_pos]
      exact ⟨by omega, by simpa using hoffset⟩
    have hgroup : groupAt words index (some offset) = word.drop offset := by
      show (words.getD (index - 2) []).drop offset = _
      rw [hgetD]
    rw [hcursor, hgroup]
    unfold locate
    dsimp only
    rw [hgetD]
    by_cases hread : word.length ≤ offset
    · rw [if_pos hread, List.drop_eq_nil_iff.mpr hread]
      exact henter
    · rw [if_neg hread]
      have hoption := optionAt_takes quiet hletters hword (Nat.lt_of_not_le hread)
      rwa [show index - 2 + 1 = index - 1 by omega] at hoption

end

end Nsh.Getopts
