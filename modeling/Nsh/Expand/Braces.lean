import Nsh.Expand.BraceSequence

/-!
# Brace expansion

One word becomes several: braces around alternatives, or around a sequence, stand for
each of them in turn.  The first pair of braces of a word is expanded, what is behind it
on its own, and the words are their combinations.  A word is a list of units, so that a
quoted byte or an expansion is never taken for syntax.
-/

namespace Nsh.Expand.Brace

open Spending (Returns Frugal)

variable {Part : Type}

/-- Whether a unit is this byte, unquoted. -/
def WordUnit.isUnquoted (byte : UInt8) (unit : WordUnit Part) : Bool :=
  unit.unquoted == some byte

/-- The most words one brace expansion may build. -/
def wordLimit : Nat := 65536

/-- How deeply one brace expansion may nest. -/
def depthLimit : Nat := 256

/-- The offset of the unquoted `}` that closes a brace in front of these units. -/
def closingBrace : List (WordUnit Part) → Nat → Option Nat
  | [], _ => none
  | unit :: rest, depth =>
    if unit.isUnquoted (chr '}') then
      if depth = 0 then some 0 else (closingBrace rest (depth - 1)).map (· + 1)
    else if unit.isUnquoted (chr '{') then (closingBrace rest (depth + 1)).map (· + 1)
    else (closingBrace rest depth).map (· + 1)

/-- The parts of an amble between its own commas; `part` is the one being read. -/
def commaParts : List (WordUnit Part) → Nat → List (WordUnit Part) → List (List (WordUnit Part))
  | [], _, part => [part]
  | unit :: rest, depth, part =>
    if unit.isUnquoted (chr '{') then commaParts rest (depth + 1) (part ++ [unit])
    else if unit.isUnquoted (chr '}') then commaParts rest (depth - 1) (part ++ [unit])
    else if unit.isUnquoted (chr ',') ∧ depth = 0 then part :: commaParts rest 0 []
    else commaParts rest depth (part ++ [unit])

section

variable (expandedOrSelf : List (WordUnit Part) → Spend (List (List (WordUnit Part))))

/-- The alternatives of an amble, each part expanded; none without a comma. -/
def commaSeparated (amble : List (WordUnit Part)) :
    Spend (Option (List (List (WordUnit Part)))) :=
  match commaParts amble 0 [] with
  | [_] => return none
  | parts => do
    let alternatives ← parts.mapM expandedOrSelf
    return some alternatives.flatten

/-- What an amble stands for, if it is a sequence or has alternatives. -/
def alternatives (amble : List (WordUnit Part)) : Spend (Option (List (List (WordUnit Part)))) := do
  match ← sequence amble with
  | some items => return some items.value
  | none => commaSeparated expandedOrSelf amble

/-- The words of a pair of braces: `before` is in front of them and `tail` behind. -/
def combined (before tail : List (WordUnit Part)) (alternatives : List (List (WordUnit Part))) :
    Spend (Option (List (List (WordUnit Part)))) := do
  let tails ← expandedOrSelf tail
  charge (alternatives.length * tails.length)
  return some (alternatives.flatMap fun alternative =>
    tails.map fun tail => before ++ alternative ++ tail)

/-- The loop over the opening braces: `before` is what is in front of the unit read next. -/
def expandFrom (before : List (WordUnit Part)) :
    List (WordUnit Part) → Spend (Option (List (List (WordUnit Part))))
  | [] => return none
  | unit :: rest =>
    if unit.isUnquoted (chr '{') then
      match closingBrace rest 0 with
      | none => expandFrom (before ++ [unit]) rest
      | some close => do
        match ← alternatives expandedOrSelf (rest.take close) with
        | none => expandFrom (before ++ [unit]) rest
        | some alternatives => combined expandedOrSelf before (rest.drop (close + 1)) alternatives
    else expandFrom (before ++ [unit]) rest

end

/-- The words of some units; the number is how many nesting levels may still be entered. -/
def expandedOrSelf : Nat → List (WordUnit Part) → Spend (List (List (WordUnit Part)))
  | 0, _ => throw .depth
  | depth + 1, units => do
    match ← expandFrom (expandedOrSelf depth) [] units with
    | some words => return words
    | none =>
      charge 1
      return [units]

/-- The words a word's braces stand for, none if it has no brace expression. -/
def expandUnits (depth : Nat) (units : List (WordUnit Part)) :
    Spend (Option (List (List (WordUnit Part)))) := expandFrom (expandedOrSelf depth) [] units

/-- `expand`: an empty result leaves the word as it is. -/
def expand (units : List (WordUnit Part)) : Except Refused (List (List (WordUnit Part))) :=
  match expandUnits depthLimit units wordLimit with
  | .ok (words, _) => .ok (words.getD [])
  | .error refused => .error refused

/-- The words that are expanded further: those of the braces, or the word itself. -/
def bracedWords (units : List (WordUnit Part)) : Except Refused (List (List (WordUnit Part))) := do
  let braced ← expand units
  return if braced.isEmpty then [units] else braced

/-! ### One brace -/

section

variable {recur : List (WordUnit Part) → Spend (List (List (WordUnit Part)))}
  {before rest : List (WordUnit Part)} {unit : WordUnit Part}

theorem expandFrom_other (h : unit.isUnquoted (chr '{') = false) :
    expandFrom recur before (unit :: rest) = expandFrom recur (before ++ [unit]) rest := by
  rw [expandFrom, if_neg (by rw [h]; exact Bool.false_ne_true)]

theorem expandFrom_unclosed (h : unit.isUnquoted (chr '{') = true)
    (hclose : closingBrace rest 0 = none) :
    expandFrom recur before (unit :: rest) = expandFrom recur (before ++ [unit]) rest := by
  rw [expandFrom, if_pos h, hclose]

theorem expandFrom_closed {close : Nat} (h : unit.isUnquoted (chr '{') = true)
    (hclose : closingBrace rest 0 = some close) :
    expandFrom recur before (unit :: rest) =
      alternatives recur (rest.take close) >>= fun found =>
        match found with
        | none => expandFrom recur (before ++ [unit]) rest
        | some alternatives => combined recur before (rest.drop (close + 1)) alternatives := by
  rw [expandFrom, if_pos h, hclose]

end

/-! ### No more words than the limit -/

theorem frugal_sequenceLength (start stop step : Int64) :
    Frugal (sequenceLength start stop step) := by
  unfold sequenceLength
  split
  · exact Spending.frugal_throw _
  · exact (Spending.frugal_charge _ _).bind fun _ => Spending.frugal_pure _

theorem frugal_sequenceItems (first last : Bytes) (step : Option Int64) :
    Frugal (sequenceItems first last step) := by
  have hnumeric : Frugal (numericSequence first last step) := by
    unfold numericSequence
    split
    · exact (frugal_sequenceLength _ _ _).bind fun _ => Spending.frugal_pure _
    · exact Spending.frugal_pure _
  have hletters : Frugal (characterSequence first last step) := by
    unfold characterSequence
    split
    · split
      · exact (frugal_sequenceLength _ _ _).bind fun _ => Spending.frugal_pure _
      · exact Spending.frugal_pure _
    · exact Spending.frugal_pure _
  exact hnumeric.bind fun _ => hletters.bind fun _ => Spending.frugal_pure _

theorem frugal_sequence (amble : List (WordUnit Part)) : Frugal (sequence amble) := by
  have hterms (terms : List Bytes) : Frugal (sequenceTerms terms) := by
    unfold sequenceTerms
    split
    · exact frugal_sequenceItems _ _ _
    · split
      · exact frugal_sequenceItems _ _ _
      · exact Spending.frugal_pure _
    · exact Spending.frugal_pure _
  unfold sequence
  split
  · exact Spending.frugal_pure _
  · exact (hterms _).bind fun _ => Spending.frugal_pure _

section

variable {recur : List (WordUnit Part) → Spend (List (List (WordUnit Part)))}

theorem frugal_commaSeparated (hrecur : ∀ units, Frugal (recur units))
    (amble : List (WordUnit Part)) : Frugal (commaSeparated recur amble) := by
  unfold commaSeparated
  split
  · exact Spending.frugal_pure _
  · exact (Spending.frugal_mapM hrecur _).bind fun _ => Spending.frugal_pure _

theorem frugal_alternatives (hrecur : ∀ units, Frugal (recur units))
    (amble : List (WordUnit Part)) : Frugal (alternatives recur amble) := by
  refine (frugal_sequence amble).bind fun items => ?_
  cases items with
  | none => exact frugal_commaSeparated hrecur amble
  | some items => exact Spending.frugal_pure _

theorem frugal_combined (hrecur : ∀ units, Frugal (recur units))
    (before tail : List (WordUnit Part)) (alternatives : List (List (WordUnit Part))) :
    Frugal (combined recur before tail alternatives) :=
  (hrecur tail).bind fun _ =>
    (Spending.frugal_charge _ _).bind fun _ => Spending.frugal_pure _

theorem length_flatMap_map {α β γ : Type} (f : α → β → γ) (l : List α) (m : List β) :
    (l.flatMap fun a => m.map (f a)).length = l.length * m.length := by
  induction l with
  | nil => simp
  | cons a l ih =>
    rw [List.flatMap_cons, List.length_append, List.length_map, ih, List.length_cons,
      Nat.succ_mul, Nat.add_comm]

theorem length_combined (hrecur : ∀ units, Frugal (recur units))
    {before tail : List (WordUnit Part)} {alternatives words : List (List (WordUnit Part))}
    {budget left : Nat}
    (h : combined recur before tail alternatives budget = .ok (some words, left)) :
    words.length ≤ budget := by
  obtain ⟨tails, between, htails, hrest⟩ := Spending.of_bind_ok h
  obtain ⟨_, charged, hcharge, hwords⟩ := Spending.of_bind_ok hrest
  have hcount := Spending.charged_le hcharge
  have hless := hrecur tail _ _ _ htails
  cases hwords
  rw [length_flatMap_map]
  exact Nat.le_trans hcount hless

/-- The words of a word with braces are charged for, after what is inside them. -/
theorem expandFrom_spends (hrecur : ∀ units, Frugal (recur units))
    (before rest : List (WordUnit Part)) :
    Frugal (expandFrom recur before rest) ∧
      ∀ budget words left, expandFrom recur before rest budget = .ok (some words, left) →
        words.length ≤ budget := by
  induction rest generalizing before with
  | nil =>
    refine ⟨Spending.frugal_pure none, fun budget words left h => ?_⟩
    cases h
  | cons unit rest ih =>
    obtain ⟨hfrugal, hbound⟩ := ih (before ++ [unit])
    cases hopen : unit.isUnquoted (chr '{') with
    | false =>
      rw [expandFrom_other hopen]
      exact ⟨hfrugal, hbound⟩
    | true =>
      cases hclose : closingBrace rest 0 with
      | none =>
        rw [expandFrom_unclosed hopen hclose]
        exact ⟨hfrugal, hbound⟩
      | some close =>
        rw [expandFrom_closed hopen hclose]
        constructor
        · refine (frugal_alternatives hrecur _).bind fun found => ?_
          cases found with
          | none => exact hfrugal
          | some alternatives => exact frugal_combined hrecur before _ alternatives
        · intro budget words left h
          obtain ⟨found, between, hfound, hrest⟩ := Spending.of_bind_ok h
          refine Nat.le_trans ?_ (frugal_alternatives hrecur _ _ _ _ hfound)
          cases found with
          | none => exact hbound _ _ _ hrest
          | some alternatives => exact length_combined hrecur hrest

theorem frugal_expandedOrSelf (depth : Nat) (units : List (WordUnit Part)) :
    Frugal (expandedOrSelf depth units) := by
  induction depth generalizing units with
  | zero => exact Spending.frugal_throw _
  | succ depth ih =>
    refine (expandFrom_spends ih [] units).1.bind fun found => ?_
    cases found with
    | some words => exact Spending.frugal_pure words
    | none => exact (Spending.frugal_charge _ _).bind fun _ => Spending.frugal_pure _

theorem length_bracedWords {units : List (WordUnit Part)} {words : List (List (WordUnit Part))}
    (h : bracedWords units = .ok words) : words.length ≤ wordLimit := by
  unfold bracedWords expand at h
  split at h
  · next found left hfound =>
    have hbound := (expandFrom_spends (frugal_expandedOrSelf depthLimit) [] units).2 wordLimit
    cases found with
    | none =>
      obtain rfl : [units] = words := Except.ok.inj h
      exact (show 1 ≤ wordLimit by decide)
    | some found =>
      have hlength := hbound found left hfound
      cases found with
      | nil =>
        obtain rfl : [units] = words := Except.ok.inj h
        exact (show 1 ≤ wordLimit by decide)
      | cons first others =>
        obtain rfl : first :: others = words := Except.ok.inj h
        exact hlength
  · cases h

end

/-! ### What is quoted is no syntax -/

/-- A relabelling of units that keeps the unquoted bytes and makes no others. -/
def Blind {Other : Type} (f : WordUnit Part → WordUnit Other) : Prop :=
  ∀ unit, (f unit).unquoted = unit.unquoted

section

variable {Other : Type} {f : WordUnit Part → WordUnit Other}

theorem isUnquoted_map (hf : Blind f) (byte : UInt8) (unit : WordUnit Part) :
    (f unit).isUnquoted byte = unit.isUnquoted byte := by
  rw [WordUnit.isUnquoted, WordUnit.isUnquoted, hf]

theorem closingBrace_map (hf : Blind f) (units : List (WordUnit Part)) (depth : Nat) :
    closingBrace (units.map f) depth = closingBrace units depth := by
  induction units generalizing depth with
  | nil => rfl
  | cons unit rest ih =>
    simp only [List.map_cons, closingBrace, isUnquoted_map hf, ih]

theorem commaParts_map (hf : Blind f) (units part : List (WordUnit Part)) (depth : Nat) :
    commaParts (units.map f) depth (part.map f) =
      (commaParts units depth part).map (List.map f) := by
  induction units generalizing depth part with
  | nil => rfl
  | cons unit rest ih =>
    have hnext (depth : Nat) := ih (part ++ [unit]) depth
    have hnew := ih [] 0
    rw [List.map_append, List.map_singleton] at hnext
    simp only [List.map_cons, commaParts, isUnquoted_map hf, hnext]
    split
    · rfl
    · split
      · rfl
      · split
        · rw [List.map_cons, ← hnew]
          rfl
        · rfl

theorem literalText_map (hf : Blind f) (units : List (WordUnit Part)) :
    literalText (units.map f) = literalText units := by
  have hsame : (fun unit => (f unit).unquoted) = WordUnit.unquoted := funext hf
  rw [literalText, literalText, List.mapM_map, ← hsame]
  rfl

theorem map_plain (hf : Blind f) (term : Bytes) : (plain term).map f = plain term := by
  rw [plain, List.map_map, plain]
  refine List.map_congr_left fun byte _ => ?_
  have hbyte := hf (.literal byte false)
  show f (.literal byte false) = _
  rcases hunit : f (.literal byte false) with ⟨other, _ | _⟩ | part
  · rw [hunit] at hbyte
    rw [Option.some.inj hbyte]
  · rw [hunit] at hbyte
    cases hbyte
  · rw [hunit] at hbyte
    cases hbyte

/-- What a pair of braces stands for, relabelled. -/
theorem alternatives_map (hf : Blind f)
    {recur : List (WordUnit Part) → Spend (List (List (WordUnit Part)))}
    {recur' : List (WordUnit Other) → Spend (List (List (WordUnit Other)))}
    (hrecur : ∀ units, recur' (units.map f) = List.map (List.map f) <$> recur units)
    (amble : List (WordUnit Part)) :
    alternatives recur' (amble.map f) =
      Option.map (List.map (List.map f)) <$> alternatives recur amble := by
  have hcomma : commaSeparated recur' (amble.map f) =
      Option.map (List.map (List.map f)) <$> commaSeparated recur amble := by
    have hparts : commaParts (amble.map f) 0 [] =
        (commaParts amble 0 []).map (List.map f) := commaParts_map hf amble [] 0
    have hmapM (parts : List (List (WordUnit Part))) :
        (parts.map (List.map f)).mapM recur' =
          List.map (List.map (List.map f)) <$> parts.mapM recur := by
      induction parts with
      | nil => rfl
      | cons part parts ih =>
        simp only [List.map_cons, List.mapM_cons, hrecur, ih, bind_map_left, map_bind, map_pure]
    have hflatten (parts : List (List (WordUnit Part))) :
        ((parts.map (List.map f)).mapM recur' >>= fun found => pure (some found.flatten)) =
          Option.map (List.map (List.map f)) <$>
            (parts.mapM recur >>= fun found => pure (some found.flatten)) := by
      simp only [hmapM, bind_map_left, map_bind, map_pure, Option.map_some, List.map_flatten]
    rw [commaSeparated, commaSeparated, hparts]
    rcases commaParts amble 0 [] with _ | ⟨first, _ | ⟨second, others⟩⟩
    · exact hflatten []
    · exact (map_pure (Option.map (List.map (List.map f))) none).symm
    · exact hflatten (first :: second :: others)
  rw [alternatives, alternatives, map_bind, sequence, sequence, literalText_map hf]
  cases literalText amble with
  | none =>
    simp only [pure_bind]
    exact hcomma
  | some text =>
    simp only [bind_assoc, pure_bind]
    congr 1
    funext items
    cases items with
    | none => exact hcomma
    | some items =>
      have hitems : (items.value.map plain).map (List.map f) = items.value.map plain := by
        rw [List.map_map]
        exact List.map_congr_left fun term _ => map_plain hf term
      simp [hitems]

section

variable {recur : List (WordUnit Part) → Spend (List (List (WordUnit Part)))}
  {recur' : List (WordUnit Other) → Spend (List (List (WordUnit Other)))}

theorem combined_map
    (hrecur : ∀ units, recur' (units.map f) = List.map (List.map f) <$> recur units)
    (before tail : List (WordUnit Part)) (alternatives : List (List (WordUnit Part))) :
    combined recur' (before.map f) (tail.map f) (alternatives.map (List.map f)) =
      Option.map (List.map (List.map f)) <$> combined recur before tail alternatives := by
  have hwords (tails : List (List (WordUnit Part))) :
      ((alternatives.map (List.map f)).flatMap fun alternative =>
        (tails.map (List.map f)).map fun tail => before.map f ++ alternative ++ tail) =
        (alternatives.flatMap fun alternative =>
          tails.map fun tail => before ++ alternative ++ tail).map (List.map f) := by
    rw [List.map_flatMap, List.flatMap_map]
    refine congrArg (List.flatMap · alternatives) (funext fun alternative => ?_)
    rw [List.map_map, List.map_map]
    refine List.map_congr_left fun tail _ => ?_
    simp
  simp only [combined, hrecur, bind_map_left, map_bind, map_pure, List.length_map, hwords,
    Option.map_some]

theorem expandFrom_map (hf : Blind f)
    (hrecur : ∀ units, recur' (units.map f) = List.map (List.map f) <$> recur units)
    (before rest : List (WordUnit Part)) :
    expandFrom recur' (before.map f) (rest.map f) =
      Option.map (List.map (List.map f)) <$> expandFrom recur before rest := by
  induction rest generalizing before with
  | nil => exact (map_pure (Option.map (List.map (List.map f))) none).symm
  | cons unit rest ih =>
    have hnext := ih (before ++ [unit])
    rw [List.map_append, List.map_singleton] at hnext
    have hsame := isUnquoted_map hf (chr '{') unit
    rw [List.map_cons]
    cases hopen : unit.isUnquoted (chr '{') with
    | false =>
      rw [expandFrom_other hopen, expandFrom_other (hsame.trans hopen)]
      exact hnext
    | true =>
      have hclose' := closingBrace_map hf rest 0
      cases hclose : closingBrace rest 0 with
      | none =>
        rw [expandFrom_unclosed hopen hclose,
          expandFrom_unclosed (hsame.trans hopen) (hclose'.trans hclose)]
        exact hnext
      | some close =>
        rw [expandFrom_closed hopen hclose,
          expandFrom_closed (hsame.trans hopen) (hclose'.trans hclose), ← List.map_take,
          ← List.map_drop, alternatives_map hf hrecur, bind_map_left, map_bind]
        congr 1
        funext found
        cases found with
        | none => exact hnext
        | some alternatives => exact combined_map hrecur before _ alternatives

end

theorem expandedOrSelf_map (hf : Blind f) (depth : Nat) (units : List (WordUnit Part)) :
    expandedOrSelf depth (units.map f) =
      List.map (List.map f) <$> expandedOrSelf depth units := by
  induction depth generalizing units with
  | zero => rfl
  | succ depth ih =>
    have hfrom := expandFrom_map hf ih [] units
    rw [List.map_nil] at hfrom
    rw [expandedOrSelf, expandedOrSelf, hfrom, bind_map_left, map_bind]
    congr 1
    funext found
    cases found with
    | none => simp
    | some words => simp

/-- Relabelling what is quoted relabels the words. -/
theorem expand_map (hf : Blind f) (units : List (WordUnit Part)) :
    expand (units.map f) = List.map (List.map f) <$> expand units := by
  have hunits : expandUnits depthLimit (units.map f) =
      Option.map (List.map (List.map f)) <$> expandUnits depthLimit units :=
    expandFrom_map hf (expandedOrSelf_map hf depthLimit) [] units
  unfold expand
  rw [hunits]
  cases hrun : expandUnits depthLimit units wordLimit with
  | error refused =>
    rw [Spending.map_error _ hrun]
    rfl
  | ok out =>
    obtain ⟨words, left⟩ := out
    rw [Spending.map_ok _ hrun]
    cases words with
    | none => rfl
    | some words => rfl

end
/-! ### Brace trees -/

/-- Whether a unit is no unquoted brace or comma. -/
def WordUnit.isFree (unit : WordUnit Part) : Bool :=
  !unit.isUnquoted (chr '{') && !unit.isUnquoted (chr '}') && !unit.isUnquoted (chr ',')

mutual

/-- A word with braces: a run free of unquoted braces and commas, two words in a row, or
    braces around alternatives. -/
inductive Braced (Part : Type) where
  | run (units : List (WordUnit Part)) (free : units.all WordUnit.isFree = true)
  | append (left right : Braced Part)
  | braces (alternatives : Alternatives Part)

/-- At least two alternatives. -/
inductive Alternatives (Part : Type) where
  | pair (first second : Braced Part)
  | cons (first : Braced Part) (more : Alternatives Part)

end

mutual

/-- The word as it is written. -/
def Braced.units : Braced Part → List (WordUnit Part)
  | .run units _ => units
  | .append left right => left.units ++ right.units
  | .braces alternatives =>
    .literal (chr '{') false :: (alternatives.units ++ [.literal (chr '}') false])

def Alternatives.units : Alternatives Part → List (WordUnit Part)
  | .pair first second => first.units ++ .literal (chr ',') false :: second.units
  | .cons first more => first.units ++ .literal (chr ',') false :: more.units

end

mutual

/-- The words a tree stands for, in lexicographic order from left to right. -/
def Braced.words : Braced Part → List (List (WordUnit Part))
  | .run units _ => [units]
  | .append left right => left.words.flatMap fun word => right.words.map (word ++ ·)
  | .braces alternatives => alternatives.words

def Alternatives.words : Alternatives Part → List (List (WordUnit Part))
  | .pair first second => first.words ++ second.words
  | .cons first more => first.words ++ more.words

end

def Alternatives.parts : Alternatives Part → List (Braced Part)
  | .pair first second => [first, second]
  | .cons first more => first :: more.parts

theorem Alternatives.words_eq : (a : Alternatives Part) →
    a.words = (a.parts.map Braced.words).flatten
  | .pair first second => by simp [Alternatives.words, Alternatives.parts]
  | .cons first more => by
    rw [Alternatives.words, Alternatives.parts, words_eq more]
    rfl

/-! ### The scans over a tree -/

section

variable {unit : WordUnit Part} {rest : List (WordUnit Part)} {depth : Nat}

theorem isFree_iff : unit.isFree = true ↔ unit.isUnquoted (chr '{') = false ∧
    unit.isUnquoted (chr '}') = false ∧ unit.isUnquoted (chr ',') = false := by
  simp [WordUnit.isFree, and_assoc]

theorem closingBrace_free (h : unit.isFree = true) :
    closingBrace (unit :: rest) depth = (closingBrace rest depth).map (· + 1) := by
  obtain ⟨hopen, hclose, -⟩ := isFree_iff.mp h
  rw [closingBrace, hopen, hclose]
  rfl

theorem closingBrace_comma :
    closingBrace (.literal (chr ',') false :: rest) depth =
      (closingBrace rest depth).map (· + 1) := rfl

theorem closingBrace_open :
    closingBrace (.literal (chr '{') false :: rest) depth =
      (closingBrace rest (depth + 1)).map (· + 1) := rfl

theorem closingBrace_close :
    closingBrace (.literal (chr '}') false :: rest) (depth + 1) =
      (closingBrace rest depth).map (· + 1) := rfl

theorem commaParts_free {part : List (WordUnit Part)} (h : unit.isFree = true) :
    commaParts (unit :: rest) depth part = commaParts rest depth (part ++ [unit]) := by
  obtain ⟨hopen, hclose, hcomma⟩ := isFree_iff.mp h
  rw [commaParts, hopen, hclose, hcomma]
  simp

theorem commaParts_open {part : List (WordUnit Part)} :
    commaParts (.literal (chr '{') false :: rest) depth part =
      commaParts rest (depth + 1) (part ++ [.literal (chr '{') false]) := rfl

theorem commaParts_close {part : List (WordUnit Part)} :
    commaParts (.literal (chr '}') false :: rest) (depth + 1) part =
      commaParts rest depth (part ++ [.literal (chr '}') false]) := rfl

theorem commaParts_comma {part : List (WordUnit Part)} :
    commaParts (.literal (chr ',') false :: rest) (depth + 1) part =
      commaParts rest (depth + 1) (part ++ [.literal (chr ',') false]) := rfl

theorem commaParts_separator {part : List (WordUnit Part)} :
    commaParts (.literal (chr ',') false :: rest) 0 part = part :: commaParts rest 0 [] := rfl

theorem map_add_add (o : Option Nat) (a b : Nat) :
    (o.map (· + a)).map (· + b) = o.map (· + (a + b)) := by
  rw [Option.map_map]
  refine congrArg (Option.map · o) (funext fun n => ?_)
  simp only [Function.comp_apply]
  omega

end

mutual

/-- A tree closes the braces it opens, and no others. -/
theorem closingBrace_units (t : Braced Part) (rest : List (WordUnit Part)) (depth : Nat) :
    closingBrace (t.units ++ rest) depth = (closingBrace rest depth).map (· + t.units.length) := by
  match t with
  | .run units free =>
    rw [Braced.units]
    induction units with
    | nil => simp
    | cons unit units ih =>
      rw [List.all_cons, Bool.and_eq_true] at free
      rw [List.cons_append, closingBrace_free free.1, ih free.2, map_add_add, List.length_cons]
  | .append left right =>
    rw [Braced.units, List.append_assoc, closingBrace_units left, closingBrace_units right,
      map_add_add, List.length_append, Nat.add_comm]
  | .braces alternatives =>
    rw [Braced.units, List.cons_append, closingBrace_open, List.append_assoc,
      closingBrace_alternatives alternatives, List.singleton_append, closingBrace_close,
      map_add_add, map_add_add, List.length_cons, List.length_append, List.length_singleton,
      Nat.add_comm 1]

theorem closingBrace_alternatives (a : Alternatives Part) (rest : List (WordUnit Part))
    (depth : Nat) :
    closingBrace (a.units ++ rest) depth = (closingBrace rest depth).map (· + a.units.length) := by
  match a with
  | .pair first second =>
    rw [Alternatives.units, List.append_assoc, List.cons_append, closingBrace_units first,
      closingBrace_comma, closingBrace_units second, map_add_add, map_add_add,
      List.length_append, List.length_cons, Nat.add_comm first.units.length,
      ← Nat.add_assoc second.units.length]
  | .cons first more =>
    rw [Alternatives.units, List.append_assoc, List.cons_append, closingBrace_units first,
      closingBrace_comma, closingBrace_alternatives more, map_add_add, map_add_add,
      List.length_append, List.length_cons, Nat.add_comm first.units.length,
      ← Nat.add_assoc more.units.length]

end

mutual

/-- A tree has no comma of its own, -/
theorem commaParts_units (t : Braced Part) (rest part : List (WordUnit Part)) (depth : Nat) :
    commaParts (t.units ++ rest) depth part = commaParts rest depth (part ++ t.units) := by
  match t with
  | .run units free =>
    rw [Braced.units]
    induction units generalizing part with
    | nil => simp
    | cons unit units ih =>
      rw [List.all_cons, Bool.and_eq_true] at free
      rw [List.cons_append, commaParts_free free.1, ih _ free.2, List.append_assoc]
      rfl
  | .append left right =>
    rw [Braced.units, List.append_assoc, commaParts_units left, commaParts_units right,
      List.append_assoc]
  | .braces alternatives =>
    rw [Braced.units, List.cons_append, commaParts_open, List.append_assoc,
      commaParts_alternatives alternatives, List.singleton_append, commaParts_close]
    simp

/-- nor have alternatives inside a brace. -/
theorem commaParts_alternatives (a : Alternatives Part) (rest part : List (WordUnit Part))
    (depth : Nat) :
    commaParts (a.units ++ rest) (depth + 1) part =
      commaParts rest (depth + 1) (part ++ a.units) := by
  match a with
  | .pair first second =>
    rw [Alternatives.units, List.append_assoc, List.cons_append, commaParts_units first,
      commaParts_comma, commaParts_units second]
    simp
  | .cons first more =>
    rw [Alternatives.units, List.append_assoc, List.cons_append, commaParts_units first,
      commaParts_comma, commaParts_alternatives more]
    simp

end

/-- The parts between the commas of an amble are its alternatives. -/
theorem commaParts_amble : (a : Alternatives Part) →
    commaParts a.units 0 [] = a.parts.map Braced.units
  | .pair first second => by
    have hsecond := commaParts_units second [] [] 0
    rw [List.append_nil] at hsecond
    rw [Alternatives.units, commaParts_units, commaParts_separator, hsecond]
    rfl
  | .cons first more => by
    rw [Alternatives.units, commaParts_units, commaParts_separator, commaParts_amble more]
    rfl

/-! ### A comma makes no sequence -/

section

variable {terms : List Bytes} {term bytes : Bytes} {byte : UInt8}

theorem splitDots_ne_nil (bytes : Bytes) : splitDots bytes ≠ [] := by
  induction bytes using splitDots.induct with
  | case1 => exact List.cons_ne_nil _ _
  | case2 => exact List.cons_ne_nil _ _
  | case3 first next rest hdots =>
    rw [splitDots, if_pos hdots]
    exact List.cons_ne_nil _ _
  | case4 first next rest hdots ih =>
    rw [splitDots, if_neg hdots]
    cases hrest : splitDots (next :: rest) with
    | nil => exact absurd hrest ih
    | cons term terms => exact List.cons_ne_nil _ _

theorem mem_splitDots (hdot : byte ≠ chr '.') (hmem : byte ∈ bytes) :
    ∃ term ∈ splitDots bytes, byte ∈ term := by
  induction bytes using splitDots.induct with
  | case1 => exact absurd hmem List.not_mem_nil
  | case2 only => exact ⟨[only], List.mem_singleton_self _, hmem⟩
  | case3 first next rest hdots ih =>
    rw [splitDots, if_pos hdots]
    rcases List.mem_cons.mp hmem with rfl | hmem
    · exact absurd hdots.1 hdot
    · rcases List.mem_cons.mp hmem with rfl | hmem
      · exact absurd hdots.2 hdot
      · obtain ⟨term, hterm, hin⟩ := ih hmem
        exact ⟨term, List.mem_cons_of_mem _ hterm, hin⟩
  | case4 first next rest hdots ih =>
    rw [splitDots, if_neg hdots]
    cases hrest : splitDots (next :: rest) with
    | nil => exact absurd hrest (splitDots_ne_nil _)
    | cons head terms =>
      rw [hrest] at ih
      rcases List.mem_cons.mp hmem with rfl | hmem
      · exact ⟨byte :: head, List.mem_cons_self, List.mem_cons_self⟩
      · obtain ⟨term, hterm, hin⟩ := ih hmem
        rcases List.mem_cons.mp hterm with rfl | hterm
        · exact ⟨first :: term, List.mem_cons_self, List.mem_cons_of_mem first hin⟩
        · exact ⟨term, List.mem_cons_of_mem _ hterm, hin⟩

theorem parseInteger_comma (hmem : chr ',' ∈ term) : parseInteger term = none := by
  cases hparse : parseInteger term with
  | none => rfl
  | some value => exact absurd ((parseInteger_eq_some hparse).2.2 _ hmem) (by decide)

theorem sequenceItems_comma {first last : Bytes} (step : Option Int64)
    (hmem : chr ',' ∈ first ∨ chr ',' ∈ last) : sequenceItems first last step = pure none := by
  have hnumeric : numericSequence first last step = pure none := by
    unfold numericSequence
    rcases hmem with hmem | hmem
    · rw [parseInteger_comma hmem]
    · rw [parseInteger_comma hmem]
      cases parseInteger first <;> rfl
  have hletters : characterSequence first last step = pure none := by
    unfold characterSequence
    split
    · next x y =>
      have hnot : (isAsciiAlphabetic x && isAsciiAlphabetic y) = false := by
        rw [Bool.and_eq_false_iff]
        rcases hmem with hmem | hmem
        · exact Or.inl (List.mem_singleton.mp hmem ▸ by decide)
        · exact Or.inr (List.mem_singleton.mp hmem ▸ by decide)
      rw [hnot]
      rfl
    · rfl
  rw [sequenceItems, hnumeric, hletters]
  rfl

theorem sequenceTerms_comma (hmem : ∃ term ∈ terms, chr ',' ∈ term) :
    sequenceTerms terms = pure none := by
  obtain ⟨term, hterm, hcomma⟩ := hmem
  match terms, hterm with
  | [first, last], hterm =>
    refine sequenceItems_comma none ?_
    simp only [List.mem_cons, List.not_mem_nil, or_false] at hterm
    rcases hterm with rfl | rfl
    · exact Or.inl hcomma
    · exact Or.inr hcomma
  | [first, last, step], hterm =>
    rw [sequenceTerms]
    cases hstep : parseInteger step with
    | none => rfl
    | some n =>
      refine sequenceItems_comma (some n) ?_
      simp only [List.mem_cons, List.not_mem_nil, or_false] at hterm
      rcases hterm with rfl | rfl | rfl
      · exact Or.inl hcomma
      · exact Or.inr hcomma
      · rw [parseInteger_comma hcomma] at hstep
        cases hstep
  | [], _ => rfl
  | [_], _ => rfl
  | _ :: _ :: _ :: _ :: _, _ => rfl

theorem mem_literalText {amble : List (WordUnit Part)} {unit : WordUnit Part}
    (h : literalText amble = some bytes) (hmem : unit ∈ amble) :
    ∃ byte ∈ bytes, unit.unquoted = some byte := by
  induction amble generalizing bytes with
  | nil => exact absurd hmem List.not_mem_nil
  | cons first rest ih =>
    rw [literalText, List.mapM_cons] at h
    obtain ⟨byte, hbyte, h⟩ := Option.bind_eq_some_iff.mp h
    obtain ⟨others, hothers, h⟩ := Option.bind_eq_some_iff.mp h
    obtain rfl : byte :: others = bytes := Option.some.inj h
    rcases List.mem_cons.mp hmem with rfl | hmem
    · exact ⟨byte, List.mem_cons_self, hbyte⟩
    · obtain ⟨other, hin, hother⟩ := ih hothers hmem
      exact ⟨other, List.mem_cons_of_mem byte hin, hother⟩

/-- Braces around an unquoted comma are no sequence. -/
theorem sequence_comma {amble : List (WordUnit Part)}
    (hmem : .literal (chr ',') false ∈ amble) : sequence amble = pure none := by
  rw [sequence]
  cases htext : literalText amble with
  | none => rfl
  | some text =>
    have hin : chr ',' ∈ text := by
      obtain ⟨byte, hin, hbyte⟩ := mem_literalText htext hmem
      exact (Option.some.inj hbyte) ▸ hin
    have hnone : sequenceTerms (splitDots text) = pure none :=
      sequenceTerms_comma (mem_splitDots (by decide) hin)
    simp only [hnone, pure_bind]
    rfl

end

/-! ### The words of a tree -/

/-- A tree has no brace, or it is what stands before the first, the alternatives and another
    tree behind them. -/
theorem Braced.first_brace (t : Braced Part) :
    (t.words = [t.units] ∧ ∀ unit ∈ t.units, unit.isUnquoted (chr '{') = false) ∨
      ∃ (before : List (WordUnit Part)) (a : Alternatives Part) (tail : Braced Part),
        (∀ unit ∈ before, unit.isUnquoted (chr '{') = false) ∧
        t.units = before ++ .literal (chr '{') false ::
          (a.units ++ .literal (chr '}') false :: tail.units) ∧
        t.words = a.words.flatMap fun alternative =>
          tail.words.map fun word => before ++ alternative ++ word := by
  match t with
  | .run units free =>
    refine Or.inl ⟨rfl, fun unit hmem => ?_⟩
    exact (isFree_iff.mp (List.all_eq_true.mp free unit hmem)).1
  | .braces alternatives =>
    refine Or.inr ⟨[], alternatives, .run [] rfl, nofun, ?_, ?_⟩
    · simp [Braced.units]
    · simp [Braced.words]
  | .append left right =>
    rcases first_brace left with ⟨hwords, hplain⟩ | ⟨before, a, tail, hbefore, hunits, hwords⟩
    · rcases first_brace right with ⟨hwords', hplain'⟩ | ⟨before, a, tail, hbefore, hunits, hwords'⟩
      · refine Or.inl ⟨?_, ?_⟩
        · rw [Braced.words, hwords, hwords', Braced.units]
          simp
        · intro unit hmem
          rcases List.mem_append.mp hmem with hmem | hmem
          · exact hplain unit hmem
          · exact hplain' unit hmem
      · refine Or.inr ⟨left.units ++ before, a, tail, ?_, ?_, ?_⟩
        · intro unit hmem
          rcases List.mem_append.mp hmem with hmem | hmem
          · exact hplain unit hmem
          · exact hbefore unit hmem
        · rw [Braced.units, hunits, List.append_assoc]
        · rw [Braced.words, hwords, hwords']
          simp [List.map_flatMap, Function.comp_def]
    · refine Or.inr ⟨before, a, .append tail right, hbefore, ?_, ?_⟩
      · rw [Braced.units, hunits, Braced.units]
        simp
      · rw [Braced.words, hwords, Braced.words]
        simp [List.flatMap_assoc, List.map_flatMap, List.flatMap_map, Function.comp_def]

section

variable {recur : List (WordUnit Part) → Spend (List (List (WordUnit Part)))}

theorem expandFrom_append {before plain : List (WordUnit Part)}
    (hplain : ∀ unit ∈ plain, unit.isUnquoted (chr '{') = false) (rest : List (WordUnit Part)) :
    expandFrom recur before (plain ++ rest) = expandFrom recur (before ++ plain) rest := by
  induction plain generalizing before with
  | nil => rw [List.nil_append, List.append_nil]
  | cons unit plain ih =>
    rw [List.cons_append, expandFrom_other (hplain unit List.mem_cons_self),
      ih fun unit' hmem => hplain unit' (List.mem_cons_of_mem unit hmem), List.append_assoc]
    rfl

theorem mem_units_comma (a : Alternatives Part) : .literal (chr ',') false ∈ a.units := by
  cases a with
  | pair first second => simp [Alternatives.units]
  | cons first more => simp [Alternatives.units]

theorem returns_alternatives (hrecur : ∀ t : Braced Part, Returns (recur t.units) t.words)
    (a : Alternatives Part) : Returns (alternatives recur a.units) (some a.words) := by
  rw [alternatives, sequence_comma (mem_units_comma a), pure_bind]
  show Returns (commaSeparated recur a.units) (some a.words)
  have hparts : commaSeparated recur a.units =
      (a.parts.map Braced.units).mapM recur >>= fun found => pure (some found.flatten) := by
    rw [commaSeparated, commaParts_amble]
    cases a with
    | pair first second => rfl
    | cons first more =>
      cases more with
      | pair second third => rfl
      | cons second others => rfl
  rw [hparts, Alternatives.words_eq]
  exact (Spending.returns_mapM Braced.units Braced.words fun t _ => hrecur t).bind
    (Spending.returns_pure _)

/-- The braces of a tree are expanded into its words. -/
theorem returns_expandFrom (hrecur : ∀ t : Braced Part, Returns (recur t.units) t.words)
    (t : Braced Part) :
    (t.words = [t.units] ∧ Returns (expandFrom recur [] t.units) none) ∨
      Returns (expandFrom recur [] t.units) (some t.words) := by
  rcases t.first_brace with ⟨hwords, hplain⟩ | ⟨before, a, tail, hbefore, hunits, hwords⟩
  · refine Or.inl ⟨hwords, ?_⟩
    have hall : expandFrom recur [] (t.units ++ []) = expandFrom recur ([] ++ t.units) [] :=
      expandFrom_append hplain []
    rw [List.append_nil] at hall
    rw [hall]
    exact Spending.returns_pure none
  · refine Or.inr ?_
    have hclose : closingBrace (a.units ++ .literal (chr '}') false :: tail.units) 0 =
        some a.units.length := by
      rw [closingBrace_alternatives]
      show (some 0).map (· + a.units.length) = _
      simp
    rw [hunits, expandFrom_append hbefore, expandFrom_closed rfl hclose, List.take_left,
      hwords]
    refine (returns_alternatives hrecur a).bind ?_
    have htail : (a.units ++ .literal (chr '}') false :: tail.units).drop (a.units.length + 1) =
        tail.units := by
      rw [← List.drop_drop, List.drop_left]
      rfl
    rw [htail]
    exact (hrecur tail).bind ((Spending.returns_charge _ _).bind (Spending.returns_pure _))

theorem returns_expandedOrSelf (depth : Nat) (t : Braced Part) :
    Returns (expandedOrSelf depth t.units) t.words := by
  induction depth generalizing t with
  | zero => exact Spending.returns_throw _ _
  | succ depth ih =>
    rw [expandedOrSelf]
    rcases returns_expandFrom ih t with ⟨hwords, hnone⟩ | hsome
    · refine hnone.bind ?_
      rw [hwords]
      exact (Spending.returns_charge _ _).bind (Spending.returns_pure _)
    · exact hsome.bind (Spending.returns_pure _)

end

mutual

theorem Braced.words_ne_nil (t : Braced Part) : t.words ≠ [] := by
  match t with
  | .run units _ => exact List.cons_ne_nil units []
  | .append left right =>
    have hleft := left.words_ne_nil
    have hright := right.words_ne_nil
    rw [Braced.words]
    cases hl : left.words with
    | nil => exact absurd hl hleft
    | cons first others => simp [hright]
  | .braces alternatives => exact alternatives.words_ne_nil

theorem Alternatives.words_ne_nil (a : Alternatives Part) : a.words ≠ [] := by
  match a with
  | .pair first second =>
    have hfirst := first.words_ne_nil
    simp [Alternatives.words, hfirst]
  | .cons first more =>
    have hfirst := first.words_ne_nil
    simp [Alternatives.words, hfirst]

end

theorem bracedWords_eq {t : Braced Part} {words : List (List (WordUnit Part))}
    (h : bracedWords t.units = .ok words) : words = t.words := by
  unfold bracedWords expand expandUnits at h
  split at h
  · next found left hfound =>
    rcases returns_expandFrom (returns_expandedOrSelf depthLimit) t with ⟨hwords, hnone⟩ | hsome
    · obtain rfl := hnone _ _ _ hfound
      obtain rfl : [t.units] = words := Except.ok.inj h
      exact hwords.symm
    · obtain rfl := hsome _ _ _ hfound
      cases hwords : t.words with
      | nil => exact absurd hwords t.words_ne_nil
      | cons first others =>
        rw [hwords] at h
        exact (Except.ok.inj h).symm
  · cases h

/-- **Brace expansion enumerates the product in order**: a tree that is not refused becomes
    its words, from left to right; what is quoted or no byte is carried along unseen; and
    there are never more words than the limit. -/
theorem bracedWords_enumerates (Part : Type) :
    (∀ (t : Braced Part) (words : List (List (WordUnit Part))),
      bracedWords t.units = .ok words → words = t.words) ∧
    (∀ (Other : Type) (f : WordUnit Part → WordUnit Other), Blind f →
      ∀ units, bracedWords (units.map f) = List.map (List.map f) <$> bracedWords units) ∧
    (∀ (units : List (WordUnit Part)) (words : List (List (WordUnit Part))),
      bracedWords units = .ok words → words.length ≤ 65536) := by
  refine ⟨fun t words h => bracedWords_eq h, fun Other f hf units => ?_,
    fun units words h => length_bracedWords h⟩
  unfold bracedWords
  rw [expand_map hf, map_bind, bind_map_left]
  congr 1
  funext braced
  rw [map_pure]
  cases braced with
  | nil => rfl
  | cons word words => rfl

/-- `a{',',$x}`, and the same with every quoted byte hidden in an expansion. -/
theorem bracedWords_enumerates_quoted :
    let tree : Braced Unit := .append (.run [.literal (chr 'a') false] rfl)
      (.braces (.pair (.run [.literal (chr ',') true] rfl) (.run [.part ()] rfl)))
    let hide : WordUnit Unit → WordUnit Unit := fun unit =>
      if unit.unquoted.isSome then unit else .part ()
    tree.words = [[.literal (chr 'a') false, .literal (chr ',') true],
        [.literal (chr 'a') false, .part ()]] ∧
      bracedWords (tree.units.map hide) = List.map (List.map hide) <$> bracedWords tree.units ∧
      tree.words.length ≤ 65536 := by
  intro tree hide
  obtain ⟨hwords, hblind, hlimit⟩ := bracedWords_enumerates Unit
  have hrun : bracedWords tree.units = .ok [[.literal (chr 'a') false, .literal (chr ',') true],
      [.literal (chr 'a') false, .part ()]] := rfl
  have htree := hwords tree _ hrun
  have hhide : Blind hide := by
    intro unit
    cases hunit : unit.unquoted with
    | none =>
      show (if unit.unquoted.isSome then unit else .part ()).unquoted = none
      rw [hunit]
      rfl
    | some byte =>
      show (if unit.unquoted.isSome then unit else .part ()).unquoted = some byte
      rw [hunit]
      exact hunit
  exact ⟨htree.symm, hblind Unit hide hhide tree.units, htree ▸ hlimit tree.units _ hrun⟩

end Nsh.Expand.Brace
