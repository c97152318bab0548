import Mathlib.Logic.Relation
import Nsh.Patterns.Pattern

/-!
# Reading a pattern

What a pattern says, apart from how it is walked: the list of its items from left
to right, and for every list of items which stretches of a subject it spans.  A
bracket expression is read into its members; `bracket_eq` says that the scanner,
which matches while it reads, finds the widths of the members it read.

A run of `*` is read star by star, or (`collapse`) as the walk reads it: the whole
run as one star, and then the pattern behind the run.
-/

namespace Nsh.Patterns

/-! ### Items -/

/-- One member of a bracket expression. -/
inductive BracketMember where
  | named (name : Bytes)
  | collating (delimiter : UInt8) (body : Bytes)
  | range (first last : Bytes)
  | character (bytes : Bytes)
deriving DecidableEq

/-- A well-formed bracket expression. -/
structure Bracket where
  inverted : Bool
  members : List BracketMember
deriving DecidableEq

/-- One item of a pattern. -/
inductive Item where
  | star
  | one
  | bracket (expression : Bracket)
  | literal (character : Bytes)
  | group (kind : UInt8) (alternatives : List (List Item))

/-! ### Bracket expressions -/

def BracketMember.widths (s : Subject) (offset : Nat) : BracketMember → List Nat
  | .named name => s.classWidths name offset
  | .collating delimiter body => s.collatingWidths delimiter body offset
  | .range first last => if s.rangeMatches first last offset then [1] else []
  | .character bytes =>
    if s.memberMatches bytes offset then [(s.widthAt offset).getD 0] else []

/-- Add every width the members match to those found so far. -/
def addMembers (s : Subject) (offset : Nat) (members : List BracketMember) (found : List Nat) :
    List Nat :=
  members.foldl (fun found member => (member.widths s offset).foldl addWidth found) found

/-- The subject widths the expression matches at `offset`, in the order found. -/
def Bracket.widths (b : Bracket) (s : Subject) (offset : Nat) : List Nat :=
  s.keptWidths b.inverted offset (addMembers s offset b.members [])

theorem addMembers_cons (s : Subject) (offset : Nat) (member : BracketMember)
    (members : List BracketMember) (found : List Nat) :
    addMembers s offset (member :: members) found =
      addMembers s offset members ((member.widths s offset).foldl addWidth found) := rfl

theorem BracketMember.foldl_range (s : Subject) (offset : Nat) (first last : Bytes)
    (found : List Nat) :
    ((BracketMember.range first last).widths s offset).foldl addWidth found =
      if s.rangeMatches first last offset then addWidth found 1 else found := by
  rw [widths]
  split
  · rfl
  · rfl

theorem BracketMember.foldl_character (s : Subject) (offset : Nat) (bytes : Bytes)
    (found : List Nat) :
    ((BracketMember.character bytes).widths s offset).foldl addWidth found =
      if s.memberMatches bytes offset then addWidth found ((s.widthAt offset).getD 0)
      else found := by
  rw [widths]
  split
  · rfl
  · rfl

namespace Matcher

def nestedSyntax (m : Matcher) (offset : Nat) : Option (BracketMember × Nat) :=
  (m.nestedBounds offset).map fun (delimiter, body, continuation) =>
    (if delimiter = chr ':' then .named body else .collating delimiter body, continuation)

/-- The members from `offset` to the closing `]`, and where the pattern continues. -/
def bracketMembers (m : Matcher) : Nat → Nat → Bool → Option (List BracketMember × Nat)
  | 0, _, _ => none
  | fuel + 1, offset, firstMember =>
    if m.pattern.length ≤ offset then none
    else if m.pattern.active offset (chr ']') && !firstMember then some ([], offset + 1)
    else match (if m.pattern.active offset (chr '[') then m.nestedSyntax offset else none) with
      | some (member, next) =>
        (m.bracketMembers fuel next false).map fun read => (member :: read.1, read.2)
      | none =>
        let memberEnd := m.patternEnd offset
        let first := m.pattern.bytes.extract offset memberEnd
        if m.rangeFollows memberEnd then
          let rangeEnd := m.patternEnd (memberEnd + 1)
          let last := m.pattern.bytes.extract (memberEnd + 1) rangeEnd
          (m.bracketMembers fuel rangeEnd false).map fun read =>
            (.range first last :: read.1, read.2)
        else
          (m.bracketMembers fuel memberEnd false).map fun read =>
            (.character first :: read.1, read.2)

/-- The bracket expression whose `[` is just before `offset`. -/
def bracketSyntax (m : Matcher) (offset : Nat) : Option (Bracket × Nat) :=
  (m.bracketMembers (m.pattern.length + 1)
      (if m.bracketInverted offset then offset + 1 else offset) true).map
    fun read => (⟨m.bracketInverted offset, read.1⟩, read.2)

theorem nestedMember_eq (m : Matcher) (offset subjectAt : Nat) :
    m.nestedMember offset subjectAt =
      (m.nestedSyntax offset).map fun read => (read.2, read.1.widths m.subject subjectAt) := by
  rw [nestedMember, nestedSyntax, Option.map_map]
  congr 1
  funext bounds
  simp only [Function.comp]
  split
  · rfl
  · rfl

theorem bracketFrom_eq (m : Matcher) (inverted : Bool) (subjectAt fuel offset : Nat)
    (firstMember : Bool) (matched : List Nat) :
    m.bracketFrom inverted subjectAt fuel offset firstMember matched =
      (m.bracketMembers fuel offset firstMember).map fun read =>
        (read.2, m.subject.keptWidths inverted subjectAt
          (addMembers m.subject subjectAt read.1 matched)) := by
  induction fuel generalizing offset firstMember matched with
  | zero => rfl
  | succ fuel ih =>
    -- a member read at the head of the list is folded into what was matched before
    have member (next : Nat) (member : BracketMember) :
        m.bracketFrom inverted subjectAt fuel next false
            ((member.widths m.subject subjectAt).foldl addWidth matched) =
          ((m.bracketMembers fuel next false).map fun read => (member :: read.1, read.2)).map
            fun read => (read.2, m.subject.keptWidths inverted subjectAt
              (addMembers m.subject subjectAt read.1 matched)) := by
      rw [ih, Option.map_map]
      rfl
    rw [bracketFrom, bracketMembers]
    split
    · rfl
    split
    · rfl
    have hnested : (if m.pattern.active offset (chr '[') then m.nestedMember offset subjectAt
        else none) =
        (if m.pattern.active offset (chr '[') then m.nestedSyntax offset else none).map
          fun read => (read.2, read.1.widths m.subject subjectAt) := by
      split
      · exact m.nestedMember_eq offset subjectAt
      · rfl
    rw [hnested]
    cases (if m.pattern.active offset (chr '[') then m.nestedSyntax offset else none) with
    | some read => exact member read.2 read.1
    | none =>
      simp only [Option.map_none]
      split
      · rw [← member, BracketMember.foldl_range]
      · rw [← member, BracketMember.foldl_character]

/-- **The scanner matches what it reads.** -/
theorem bracket_eq (m : Matcher) (offset subjectAt : Nat) :
    m.bracket offset subjectAt =
      (m.bracketSyntax offset).map fun read => (read.2, read.1.widths m.subject subjectAt) := by
  rw [bracket, bracketFrom_eq, bracketSyntax, Option.map_map]
  rfl

/-! ### Reading never goes backwards -/

theorem lt_patternEnd (m : Matcher) {offset : Nat} (h : offset < m.pattern.length) :
    offset < m.patternEnd offset := by
  have := m.characters.pattern.lt_endWithin (Nat.add_lt_add_left h m.patternStart)
  unfold patternEnd
  omega

theorem patternEnd_le (m : Matcher) {offset : Nat} (h : offset ≤ m.pattern.length) :
    m.patternEnd offset ≤ m.pattern.length := by
  have := m.characters.pattern.endWithin_le (Nat.add_le_add_left h m.patternStart)
  unfold patternEnd
  omega

end Matcher

theorem Pattern.lt_of_active {p : Pattern} {offset : Nat} {byte : UInt8}
    (h : p.active offset byte = true) : offset < p.length := by
  have hsome : p.marks[offset]? = some ⟨byte, false⟩ := by simpa [active] using h
  exact (List.getElem?_eq_some_iff.mp hsome).1

theorem Pattern.starRunEnd_le (p : Pattern) {offset : Nat} (h : offset ≤ p.length) :
    p.starRunEnd offset ≤ p.length := by
  have hrun := (List.takeWhile_sublist (· == (⟨chr '*', false⟩ : Mark))
    (l := p.marks.drop offset)).length_le
  rw [List.length_drop] at hrun
  unfold starRunEnd
  unfold length at h ⊢
  omega

theorem Pattern.lt_starRunEnd {p : Pattern} {offset : Nat}
    (h : p.active offset (chr '*') = true) : offset < p.starRunEnd offset := by
  have hlt := lt_of_active h
  have hmark : p.marks[offset]? = some ⟨chr '*', false⟩ := by simpa [active] using h
  have hget : p.marks[offset] = ⟨chr '*', false⟩ := (List.getElem?_eq_some_iff.mp hmark).2
  unfold starRunEnd
  rw [List.drop_eq_getElem_cons hlt, hget]
  simp

/-- Where a group and its alternatives lie. -/
structure ExtendedGroup.Within (group : ExtendedGroup) (offset length : Nat) : Prop where
  start : group.start = offset
  lt_next : offset < group.next
  next_le : group.next ≤ length
  alternatives : ∀ range ∈ group.alternatives, offset < range.1

theorem groupScan_within (bound : Nat) {marks : List Mark} {cursor start depth : Nat}
    {alternatives : List (Nat × Nat)} {read : List (Nat × Nat) × Nat}
    (h : groupScan marks cursor start depth alternatives = some read)
    (hcursor : bound < cursor) (hstart : bound < start)
    (halternatives : ∀ range ∈ alternatives, bound < range.1) :
    cursor < read.2 ∧ read.2 ≤ cursor + marks.length ∧ ∀ range ∈ read.1, bound < range.1 := by
  induction marks generalizing cursor start depth alternatives with
  | nil => simp [groupScan] at h
  | cons mark rest ih =>
    have hpushed : ∀ range ∈ alternatives ++ [(start, cursor)], bound < range.1 := by
      intro range hmem
      rcases List.mem_append.mp hmem with hmem | hmem
      · exact halternatives range hmem
      · rw [List.mem_singleton.mp hmem]; exact hstart
    have onward {start' depth' : Nat} {alternatives' : List (Nat × Nat)}
        (h : groupScan rest (cursor + 1) start' depth' alternatives' = some read)
        (hstart : bound < start') (halternatives : ∀ range ∈ alternatives', bound < range.1) :
        cursor < read.2 ∧ read.2 ≤ cursor + (mark :: rest).length ∧
          ∀ range ∈ read.1, bound < range.1 := by
      obtain ⟨hlt, hle, hranges⟩ := ih h (by omega) hstart halternatives
      refine ⟨by omega, ?_, hranges⟩
      rw [List.length_cons]
      omega
    rw [groupScan] at h
    split at h
    · exact onward h hstart halternatives
    split at h
    · exact onward h hstart halternatives
    split at h
    · split at h
      · cases h
        refine ⟨Nat.lt_succ_self cursor, ?_, hpushed⟩
        simp
      · exact onward h hstart halternatives
    split at h
    · exact onward h (by omega) hpushed
    · exact onward h hstart halternatives

theorem Pattern.extendedGroup_within {p : Pattern} {offset : Nat} {group : ExtendedGroup}
    (h : p.extendedGroup offset = some group) : group.Within offset p.length := by
  unfold extendedGroup at h
  split at h
  · cases h
  split at h
  · cases h
  next mark hmark =>
    split at h
    · cases h
    next hopen =>
      obtain ⟨read, hread, rfl⟩ := Option.map_eq_some_iff.mp h
      have hparen : offset + 1 < p.length := by
        have hactive : p.active (offset + 1) (chr '(') = true := by
          simpa using (by simpa using hopen : _ ∧ _).2
        exact lt_of_active hactive
      obtain ⟨hlt, hle, hranges⟩ := groupScan_within offset hread (by omega) (by omega)
        (by simp)
      rw [List.length_drop] at hle
      unfold length at hparen ⊢
      constructor
      · rfl
      · show offset < read.2
        omega
      · show read.2 ≤ p.marks.length
        omega
      · exact hranges

namespace Matcher

theorem nestedSyntax_within {m : Matcher} {offset : Nat} {read : BracketMember × Nat}
    (h : m.nestedSyntax offset = some read) : offset < read.2 ∧ read.2 ≤ m.pattern.length := by
  unfold nestedSyntax at h
  obtain ⟨bounds, hbounds, rfl⟩ := Option.map_eq_some_iff.mp h
  unfold nestedBounds at hbounds
  split at hbounds
  · cases hbounds
  split at hbounds
  · cases hbounds
  split at hbounds
  · cases hbounds
  next close hclose =>
    have hmem := List.mem_of_find?_eq_some hclose
    have hactive := List.find?_some hclose
    rw [List.mem_range'_1] at hmem
    have hlt := Pattern.lt_of_active (Bool.and_eq_true_iff.mp hactive).2
    simp only at hbounds
    split at hbounds
    · cases hbounds
    · cases hbounds
      exact ⟨by show offset < close + 2; omega, hlt⟩

theorem bracketMembers_within {m : Matcher} {fuel offset : Nat} {firstMember : Bool}
    {read : List BracketMember × Nat} (h : m.bracketMembers fuel offset firstMember = some read) :
    offset < read.2 ∧ read.2 ≤ m.pattern.length := by
  induction fuel generalizing offset firstMember read with
  | zero => cases h
  | succ fuel ih =>
    rw [bracketMembers] at h
    split at h
    · cases h
    next hlt =>
    have hlt := Nat.not_le.mp hlt
    split at h
    · cases h
      exact ⟨Nat.lt_succ_self offset, hlt⟩
    have hend := m.lt_patternEnd hlt
    split at h
    · next member next hnested =>
      obtain ⟨tail, htail, rfl⟩ := Option.map_eq_some_iff.mp h
      have hnext : offset < next := by
        split at hnested
        · exact (nestedSyntax_within hnested).1
        · cases hnested
      exact ⟨lt_trans hnext (ih htail).1, (ih htail).2⟩
    · simp only at h
      split at h
      · next hrange =>
        obtain ⟨tail, htail, rfl⟩ := Option.map_eq_some_iff.mp h
        have hfollows : m.patternEnd offset + 1 < m.pattern.length := by
          simp [rangeFollows] at hrange
          exact hrange.1.2
        have := m.lt_patternEnd hfollows
        exact ⟨by have := (ih htail).1; show offset < tail.2; omega, (ih htail).2⟩
      · obtain ⟨tail, htail, rfl⟩ := Option.map_eq_some_iff.mp h
        exact ⟨lt_trans hend (ih htail).1, (ih htail).2⟩

theorem bracketSyntax_within {m : Matcher} {offset : Nat} {read : Bracket × Nat}
    (h : m.bracketSyntax offset = some read) : offset < read.2 ∧ read.2 ≤ m.pattern.length := by
  unfold bracketSyntax at h
  obtain ⟨tail, htail, rfl⟩ := Option.map_eq_some_iff.mp h
  have := bracketMembers_within htail
  refine ⟨?_, this.2⟩
  have := this.1
  split at this
  · exact lt_trans (Nat.lt_succ_self offset) this
  · exact this

/-- The bracket expression whose `[` is at `offset`, when an unquoted `[` opens one there. -/
def bracketAt (m : Matcher) (offset : Nat) : Option (Bracket × Nat) :=
  if m.pattern.active offset (chr '[') then m.bracketSyntax (offset + 1) else none

theorem bracketAt_within {m : Matcher} {offset : Nat} {read : Bracket × Nat}
    (h : m.bracketAt offset = some read) : offset < read.2 ∧ read.2 ≤ m.pattern.length := by
  unfold bracketAt at h
  split at h
  · have := bracketSyntax_within h
    exact ⟨lt_trans (Nat.lt_succ_self offset) this.1, this.2⟩
  · cases h

/-! ### The items of a pattern -/

/-- One item and, by `rest`, what it leads to: the items behind it and those of its
    alternatives. -/
def itemsStep (collapse : Bool) (rest : Matcher → Nat → List Item) (m : Matcher) (offset : Nat) :
    List Item :=
  if m.pattern.length ≤ offset then []
  else match m.pattern.extendedGroup offset with
  | some group =>
    .group group.kind (group.alternatives.map fun range => rest (m.alternative range) 0) ::
      rest m group.next
  | none =>
    if m.pattern.active offset (chr '*') then
      .star :: rest m (if collapse then m.pattern.starRunEnd offset else offset + 1)
    else if m.pattern.active offset (chr '?') then .one :: rest m (offset + 1)
    else match m.bracketAt offset with
      | some (expression, next) => .bracket expression :: rest m next
      | none =>
        .literal (m.pattern.bytes.extract offset (m.patternEnd offset)) ::
          rest m (m.patternEnd offset)

def itemsFrom (collapse : Bool) : Nat → Matcher → Nat → List Item
  | 0 => fun _ _ => []
  | fuel + 1 => itemsStep collapse (itemsFrom collapse fuel)

/-- What the pattern says from `offset` on. -/
def items (collapse : Bool) (m : Matcher) (offset : Nat) : List Item :=
  itemsFrom collapse (m.pattern.length - offset + 1) m offset

theorem alternative_length_lt (m : Matcher) {offset : Nat} {range : Nat × Nat}
    (h : offset < range.1) (hlt : offset < m.pattern.length) :
    (m.alternative range).pattern.length < m.pattern.length - offset := by
  show (m.pattern.marks.extract range.1 range.2).length < m.pattern.marks.length - offset
  have hlt : offset < m.pattern.marks.length := hlt
  simp only [List.extract_eq_take_drop, List.length_take, List.length_drop]
  omega

/-- One item looks only at shorter readings. -/
theorem itemsStep_congr {collapse : Bool} {rest rest' : Matcher → Nat → List Item} {m : Matcher}
    {offset : Nat}
    (h : ∀ m' next, m'.pattern.length - next < m.pattern.length - offset →
      rest m' next = rest' m' next) :
    itemsStep collapse rest m offset = itemsStep collapse rest' m offset := by
  unfold itemsStep
  split
  · rfl
  next hlt =>
  have hlt := Nat.not_le.mp hlt
  have onward {next : Nat} (hnext : offset < next) : rest m next = rest' m next :=
    h m next (by omega)
  split
  · next group hgroup =>
    have hwithin := Pattern.extendedGroup_within hgroup
    have halternatives : (group.alternatives.map fun range => rest (m.alternative range) 0) =
        group.alternatives.map fun range => rest' (m.alternative range) 0 := by
      apply List.map_congr_left
      intro range hrange
      exact h _ 0 (m.alternative_length_lt (hwithin.alternatives range hrange) hlt)
    rw [onward hwithin.lt_next, halternatives]
  split
  · next hstar =>
    have hnext : offset < if collapse then m.pattern.starRunEnd offset else offset + 1 := by
      split
      · exact Pattern.lt_starRunEnd hstar
      · exact Nat.lt_succ_self offset
    rw [onward hnext]
  split
  · rw [onward (Nat.lt_succ_self offset)]
  split
  · next hread => rw [onward (bracketAt_within hread).1]
  · rw [onward (m.lt_patternEnd hlt)]

theorem itemsFrom_succ (collapse : Bool) {fuel : Nat} {m : Matcher} {offset : Nat}
    (h : m.pattern.length - offset < fuel) :
    itemsFrom collapse (fuel + 1) m offset = itemsFrom collapse fuel m offset := by
  induction fuel generalizing m offset with
  | zero => omega
  | succ fuel ih =>
    apply itemsStep_congr
    intro m' next hlt
    exact ih (by omega)

theorem itemsFrom_eq (collapse : Bool) {fuel : Nat} {m : Matcher} {offset : Nat}
    (h : m.pattern.length - offset < fuel) :
    itemsFrom collapse fuel m offset = m.items collapse offset := by
  obtain ⟨more, rfl⟩ := Nat.exists_eq_add_of_lt h
  induction more with
  | zero => rfl
  | succ more ih => rw [← ih (by omega), ← Nat.add_assoc, itemsFrom_succ collapse (by omega)]

/-- The items of a pattern without its fuel. -/
theorem items_eq (m : Matcher) (collapse : Bool) (offset : Nat) :
    m.items collapse offset = itemsStep collapse (items collapse) m offset := by
  apply itemsStep_congr
  intro m' next hlt
  exact itemsFrom_eq collapse hlt

theorem items_end (collapse : Bool) {m : Matcher} {offset : Nat}
    (h : m.pattern.length ≤ offset) : m.items collapse offset = [] := by
  rw [items_eq, itemsStep, if_pos h]

section

variable {m : Matcher} {offset : Nat} {collapse : Bool}

theorem items_group {group : ExtendedGroup} (h : m.pattern.extendedGroup offset = some group) :
    m.items collapse offset =
      .group group.kind
          (group.alternatives.map fun range => (m.alternative range).items collapse 0) ::
        m.items collapse group.next := by
  have hwithin := Pattern.extendedGroup_within h
  rw [items_eq, itemsStep, h,
    if_neg (Nat.not_le.mpr (lt_of_lt_of_le hwithin.lt_next hwithin.next_le))]

theorem items_star (hgroup : m.pattern.extendedGroup offset = none)
    (hstar : m.pattern.active offset (chr '*') = true) :
    m.items collapse offset =
      .star :: m.items collapse (if collapse then m.pattern.starRunEnd offset else offset + 1) := by
  rw [items_eq, itemsStep, if_neg (Nat.not_le.mpr (Pattern.lt_of_active hstar)), hgroup]
  simp only [if_pos hstar]

theorem items_one (hgroup : m.pattern.extendedGroup offset = none)
    (hstar : m.pattern.active offset (chr '*') = false)
    (hone : m.pattern.active offset (chr '?') = true) :
    m.items collapse offset = .one :: m.items collapse (offset + 1) := by
  rw [items_eq, itemsStep, if_neg (Nat.not_le.mpr (Pattern.lt_of_active hone)), hgroup]
  simp only [hstar, hone, if_true, Bool.false_eq_true, if_false]

theorem items_bracket (hgroup : m.pattern.extendedGroup offset = none)
    (hstar : m.pattern.active offset (chr '*') = false)
    (hone : m.pattern.active offset (chr '?') = false) {expression : Bracket} {next : Nat}
    (h : m.bracketAt offset = some (expression, next)) :
    m.items collapse offset = .bracket expression :: m.items collapse next := by
  have hlt := lt_of_lt_of_le (bracketAt_within h).1 (bracketAt_within h).2
  rw [items_eq, itemsStep, if_neg (Nat.not_le.mpr hlt), hgroup]
  simp only [hstar, hone, h, Bool.false_eq_true, if_false]

theorem items_literal (hlt : offset < m.pattern.length)
    (hgroup : m.pattern.extendedGroup offset = none)
    (hstar : m.pattern.active offset (chr '*') = false)
    (hone : m.pattern.active offset (chr '?') = false) (h : m.bracketAt offset = none) :
    m.items collapse offset =
      .literal (m.pattern.bytes.extract offset (m.patternEnd offset)) ::
        m.items collapse (m.patternEnd offset) := by
  rw [items_eq, itemsStep, if_neg (Nat.not_le.mpr hlt), hgroup]
  simp only [hstar, hone, h, Bool.false_eq_true, if_false]

end

/-- A pattern is read by one of five rules. -/
theorem read_cases (m : Matcher) (offset : Nat) :
    (∃ group, m.pattern.extendedGroup offset = some group) ∨
    (m.pattern.extendedGroup offset = none ∧
      (m.pattern.active offset (chr '*') = true ∨
      (m.pattern.active offset (chr '*') = false ∧
        (m.pattern.active offset (chr '?') = true ∨
        (m.pattern.active offset (chr '?') = false ∧
          ((∃ read, m.bracketAt offset = some read) ∨ m.bracketAt offset = none)))))) := by
  cases m.pattern.extendedGroup offset with
  | some group => simp
  | none =>
    cases m.pattern.active offset (chr '*') with
    | true => simp
    | false =>
      cases m.pattern.active offset (chr '?') with
      | true => simp
      | false =>
        cases m.bracketAt offset with
        | some read => simp
        | none => simp

/-! ### A pattern is read without its subject -/

section

variable (table subject subject' : Nsh.Characters) (pattern : Pattern) (start : Nat)
  (goal goal' : Goal)

theorem bracketMembers_congr (fuel offset : Nat) (firstMember : Bool) :
    bracketMembers ⟨⟨table, subject⟩, pattern, start, goal⟩ fuel offset firstMember =
      bracketMembers ⟨⟨table, subject'⟩, pattern, start, goal'⟩ fuel offset firstMember := by
  induction fuel generalizing offset firstMember with
  | zero => rfl
  | succ fuel ih =>
    rw [bracketMembers, bracketMembers]
    simp only [ih]
    rfl

theorem bracketAt_congr (offset : Nat) :
    bracketAt ⟨⟨table, subject⟩, pattern, start, goal⟩ offset =
      bracketAt ⟨⟨table, subject'⟩, pattern, start, goal'⟩ offset := by
  unfold bracketAt bracketSyntax
  rw [bracketMembers_congr table subject subject' pattern start goal goal']
  rfl

/-- The items depend on the pattern and its table alone. -/
theorem itemsFrom_congr (collapse : Bool) (fuel offset : Nat) :
    itemsFrom collapse fuel ⟨⟨table, subject⟩, pattern, start, goal⟩ offset =
      itemsFrom collapse fuel ⟨⟨table, subject'⟩, pattern, start, goal'⟩ offset := by
  induction fuel generalizing pattern start goal goal' offset with
  | zero => rfl
  | succ fuel ih =>
    rw [itemsFrom]
    unfold itemsStep
    rw [bracketAt_congr table subject subject' pattern start goal goal']
    simp only [alternative, ih pattern start goal goal',
      fun range : Nat × Nat => ih (pattern.slice range) (start + range.1) .every .every 0]
    rfl

end

end Matcher

/-- What the pattern says. -/
def Pattern.items (p : Pattern) (locale : Locale) (collapse : Bool) : List Item :=
  Matcher.items collapse ⟨⟨⟨locale, p.bytes⟩, ⟨locale, []⟩⟩, p, 0, .whole⟩ 0

theorem Pattern.items_eq (p : Pattern) (locale : Locale) (collapse : Bool)
    (subject : Nsh.Characters) (goal : Goal) :
    Matcher.items collapse ⟨⟨⟨locale, p.bytes⟩, subject⟩, p, 0, goal⟩ 0 = p.items locale collapse :=
  Matcher.itemsFrom_congr _ _ _ _ _ _ _ collapse _ 0

end Nsh.Patterns
