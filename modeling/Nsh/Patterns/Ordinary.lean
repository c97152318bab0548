import Nsh.Patterns.Reading
import Nsh.Patterns.Trial

/-!
# Patterns that are ordinary text

`has_meta` asks whether a pattern holds an operator at all, and so whether the
names that exist have to be read.  It reads brackets more loosely than the matcher
does: a pattern it calls ordinary has no operator the matcher knows either, and
matches its own text only.
-/

namespace Nsh.Patterns

namespace Pattern

/-- The loop of `has_meta` over the marks from `offset` on; `opened` says whether an
    unquoted `[` stands before them in the same component. -/
def hasMetaFrom (p : Pattern) : Bool → Nat → List Mark → Bool
  | _, _, [] => false
  | opened, offset, mark :: rest =>
    if mark.byte = chr '/' then p.hasMetaFrom false (offset + 1) rest
    else if mark.quoted then p.hasMetaFrom opened (offset + 1) rest
    else if mark.byte = chr '*' ∨ mark.byte = chr '?' then true
    else if mark.byte = chr '[' then p.hasMetaFrom true (offset + 1) rest
    else if mark.byte = chr ']' ∧ opened then true
    else if (mark.byte = chr '+' ∨ mark.byte = chr '@' ∨ mark.byte = chr '!') ∧
        p.options.extended ∧ p.active (offset + 1) (chr '(') then true
    else p.hasMetaFrom opened (offset + 1) rest

def hasMeta (p : Pattern) : Bool := p.hasMetaFrom false 0 p.marks

/-! ### What is ordinary -/

/-- No operator from `offset` on, an unquoted `[` standing before it or not. -/
structure OrdinaryFrom (p : Pattern) (opened : Bool) (offset : Nat) : Prop where
  star : ∀ i, offset ≤ i → p.active i (chr '*') = false
  one : ∀ i, offset ≤ i → p.active i (chr '?') = false
  closes : opened = true → ∀ i, offset ≤ i → p.active i (chr ']') = false
  bracket : ∀ i j, offset ≤ i → i < j → p.active i (chr '[') = true →
    p.active j (chr ']') = false
  group : ∀ i byte, offset ≤ i → isGroupKind byte = true → p.options.extended = true →
    p.active i byte = true → p.active (i + 1) (chr '(') = false

theorem active_of_drop {p : Pattern} {offset : Nat} {mark : Mark} {rest : List Mark}
    (h : p.marks.drop offset = mark :: rest) (byte : UInt8) :
    p.active offset byte = (mark == ⟨byte, false⟩) := by
  have hget : p.marks[offset]? = some mark := by rw [← List.head?_drop, h, List.head?_cons]
  unfold active
  rw [hget]
  rfl

theorem active_iff_of_drop {p : Pattern} {offset : Nat} {mark : Mark} {rest : List Mark}
    (h : p.marks.drop offset = mark :: rest) {byte : UInt8} :
    p.active offset byte = true ↔ mark.byte = byte ∧ mark.quoted = false := by
  rw [active_of_drop h, beq_iff_eq, Mark.mk.injEq]

/-- An ordinary rest stays ordinary behind a mark that is no operator. -/
theorem OrdinaryFrom.cons {p : Pattern} {opened opened' : Bool} {offset : Nat}
    (h : p.OrdinaryFrom opened' (offset + 1)) (hopened : opened = true → opened' = true)
    (hstar : p.active offset (chr '*') = false) (hone : p.active offset (chr '?') = false)
    (hcloses : opened = true → p.active offset (chr ']') = false)
    (hbracket : p.active offset (chr '[') = true → opened' = true)
    (hgroup : ∀ byte, isGroupKind byte = true → p.options.extended = true →
      p.active offset byte = true → p.active (offset + 1) (chr '(') = false) :
    p.OrdinaryFrom opened offset where
  star i hi := by
    rcases Nat.eq_or_lt_of_le hi with rfl | hlt
    · exact hstar
    · exact h.star i hlt
  one i hi := by
    rcases Nat.eq_or_lt_of_le hi with rfl | hlt
    · exact hone
    · exact h.one i hlt
  closes hopen i hi := by
    rcases Nat.eq_or_lt_of_le hi with rfl | hlt
    · exact hcloses hopen
    · exact h.closes (hopened hopen) i hlt
  bracket i j hi hij hactive := by
    rcases Nat.eq_or_lt_of_le hi with rfl | hlt
    · exact h.closes (hbracket hactive) j hij
    · exact h.bracket i j hlt hij hactive
  group i byte hi hkind hextended hactive := by
    rcases Nat.eq_or_lt_of_le hi with rfl | hlt
    · exact hgroup byte hkind hextended hactive
    · exact h.group i byte hlt hkind hextended hactive

/-- **What `has_meta` calls ordinary has no operator.** -/
theorem ordinary_of_hasMetaFrom {p : Pattern} (hslash : ∀ mark ∈ p.marks, mark.byte ≠ chr '/')
    {marks : List Mark} {opened : Bool} {offset : Nat} (hmarks : p.marks.drop offset = marks)
    (h : p.hasMetaFrom opened offset marks = false) : p.OrdinaryFrom opened offset := by
  induction marks generalizing opened offset with
  | nil =>
    have hlength : p.length ≤ offset := List.drop_eq_nil_iff.1 hmarks
    have hnone : ∀ i byte, offset ≤ i → p.active i byte = false := by
      intro i byte hi
      rw [Bool.eq_false_iff]
      intro hactive
      have hlt := lt_of_active hactive
      omega
    exact
      { star := fun i hi => hnone i _ hi
        one := fun i hi => hnone i _ hi
        closes := fun _ i hi => hnone i _ hi
        bracket := fun i j hi hij _ => hnone j _ (by omega)
        group := fun i _ hi _ _ _ => hnone (i + 1) _ (by omega) }
  | cons mark rest ih =>
    have hrest : p.marks.drop (offset + 1) = rest := by
      rw [← List.drop_drop, hmarks, List.drop_succ_cons, List.drop_zero]
    have hmem : mark ∈ p.marks := List.mem_of_mem_drop (hmarks ▸ List.mem_cons_self)
    have hactive : ∀ byte, p.active offset byte = true ↔ mark.byte = byte ∧ mark.quoted = false :=
      fun byte => active_iff_of_drop hmarks
    unfold hasMetaFrom at h
    rw [if_neg (hslash mark hmem)] at h
    split at h
    · next hquoted =>
      have hnot : ∀ byte, p.active offset byte = false := fun byte => by
        rw [Bool.eq_false_iff, ne_eq, hactive]
        rintro ⟨_, hunquoted⟩
        rw [hquoted] at hunquoted
        cases hunquoted
      refine (ih hrest h).cons id (hnot _) (hnot _) (fun _ => hnot _) ?_ ?_
      · intro hopen
        rw [hnot] at hopen
        cases hopen
      · intro byte _ _ hkind
        rw [hnot] at hkind
        cases hkind
    split at h
    · cases h
    next hmeta =>
    have hstar : p.active offset (chr '*') = false := by
      rw [Bool.eq_false_iff, ne_eq, hactive]
      exact fun heq => hmeta (.inl heq.1)
    have hone : p.active offset (chr '?') = false := by
      rw [Bool.eq_false_iff, ne_eq, hactive]
      exact fun heq => hmeta (.inr heq.1)
    split at h
    · next hopen =>
      refine (ih hrest h).cons (fun _ => rfl) hstar hone (fun _ => ?_) (fun _ => rfl) ?_
      · rw [Bool.eq_false_iff, ne_eq, hactive, hopen]
        exact fun heq => absurd heq.1 (by decide)
      · intro byte hkind _ hbyte
        rw [hactive, hopen] at hbyte
        rw [← hbyte.1] at hkind
        exact absurd hkind (by decide)
    next hopen =>
    have hnotOpen : p.active offset (chr '[') = true → opened = true := fun hbyte =>
      absurd ((hactive _).1 hbyte).1 hopen
    split at h
    · cases h
    next hclose =>
    split at h
    · cases h
    next hgroup =>
    refine (ih hrest h).cons id hstar hone (fun hopened => ?_) hnotOpen ?_
    · rw [Bool.eq_false_iff, ne_eq, hactive]
      exact fun heq => hclose ⟨heq.1, hopened⟩
    · intro byte hkind hextended hbyte
      rw [Bool.eq_false_iff]
      intro hparen
      have hmark := ((hactive byte).1 hbyte).1
      rw [← hmark] at hkind
      unfold isGroupKind at hkind
      simp only [Bool.or_eq_true, beq_iff_eq] at hkind
      rcases hkind with (((hkind | hkind) | hkind) | hkind) | hkind
      · exact hmeta (.inr hkind)
      · exact hmeta (.inl hkind)
      · exact hgroup ⟨.inl hkind, hextended, hparen⟩
      · exact hgroup ⟨.inr (.inl hkind), hextended, hparen⟩
      · exact hgroup ⟨.inr (.inr hkind), hextended, hparen⟩

theorem OrdinaryFrom.extendedGroup {p : Pattern} (h : p.OrdinaryFrom false 0) (offset : Nat) :
    p.extendedGroup offset = none := by
  unfold Pattern.extendedGroup
  cases hextended : p.options.extended with
  | false => rfl
  | true =>
    simp only [Bool.not_true, Bool.false_eq_true, if_false]
    cases hmark : p.marks[offset]? with
    | none => rfl
    | some mark =>
      simp only
      rw [if_pos]
      by_contra hgroup
      simp only [Bool.or_eq_true, Bool.not_eq_true', not_or, Bool.not_eq_false,
        Bool.not_eq_true] at hgroup
      obtain ⟨⟨hkind, hquoted⟩, hparen⟩ := hgroup
      have hactive : p.active offset mark.byte = true := by
        unfold active
        rw [hmark, beq_iff_eq, Option.some.injEq, ← hquoted]
      rw [h.group offset mark.byte (Nat.zero_le _) hkind hextended hactive] at hparen
      cases hparen

end Pattern

namespace Matcher

variable {m : Matcher}

/-- A list of members ends at an unquoted `]`. -/
theorem bracketMembers_closes {fuel offset : Nat} {firstMember : Bool}
    {read : List BracketMember × Nat} (h : m.bracketMembers fuel offset firstMember = some read) :
    ∃ close, offset ≤ close ∧ m.pattern.active close (chr ']') = true := by
  induction fuel generalizing offset firstMember read with
  | zero => cases h
  | succ fuel ih =>
    have onward : ∀ {next firstMember tail}, offset ≤ next →
        m.bracketMembers fuel next firstMember = some tail →
          ∃ close, offset ≤ close ∧ m.pattern.active close (chr ']') = true := by
      intro next firstMember tail hle htail
      obtain ⟨close, hclose, hactive⟩ := ih htail
      exact ⟨close, hle.trans hclose, hactive⟩
    rw [bracketMembers] at h
    split at h
    · cases h
    next hlt =>
    have hend := m.lt_patternEnd (Nat.not_le.1 hlt)
    split at h
    · next hclose => exact ⟨offset, le_refl _, (Bool.and_eq_true_iff.1 hclose).1⟩
    split at h
    · next member next hnested =>
      obtain ⟨tail, htail, _⟩ := Option.map_eq_some_iff.1 h
      split at hnested
      · exact onward (nestedSyntax_within hnested).1.le htail
      · cases hnested
    · simp only at h
      split at h
      · next hrange =>
        obtain ⟨tail, htail, _⟩ := Option.map_eq_some_iff.1 h
        have hfollows : m.patternEnd offset + 1 < m.pattern.length := by
          simp [rangeFollows] at hrange
          exact hrange.1.2
        have hlast := m.lt_patternEnd hfollows
        exact onward (by omega) htail
      · obtain ⟨tail, htail, _⟩ := Option.map_eq_some_iff.1 h
        exact onward hend.le htail

/-- In ordinary text a `[` opens no bracket expression. -/
theorem bracket_ordinary (h : m.pattern.OrdinaryFrom false 0) {offset subjectAt : Nat}
    (hopen : m.pattern.active offset (chr '[') = true) :
    m.bracket (offset + 1) subjectAt = none := by
  rw [bracket_eq]
  cases hread : m.bracketSyntax (offset + 1) with
  | none => rfl
  | some read =>
    unfold bracketSyntax at hread
    obtain ⟨members, hmembers, _⟩ := Option.map_eq_some_iff.1 hread
    obtain ⟨close, hclose, hactive⟩ := bracketMembers_closes hmembers
    have hlt : offset < close := by
      split at hclose <;> omega
    rw [h.bracket offset close (Nat.zero_le _) hlt hopen] at hactive
    cases hactive

/-! ### The walk over ordinary text -/

theorem patternEnd_whole (hstart : m.patternStart = 0)
    (hbytes : m.characters.pattern.bytes = m.pattern.bytes) {offset : Nat}
    (hlt : offset < m.pattern.length) :
    m.patternEnd offset = m.characters.pattern.endAt offset := by
  have hlength : m.characters.pattern.bytes.length = m.pattern.length := by
    rw [hbytes]
    exact List.length_map _
  have hle := m.characters.pattern.add_width_le (by rw [hlength]; exact hlt)
  unfold patternEnd Nsh.Characters.endAt Nsh.Characters.endWithin
  rw [hstart, Nat.zero_add, Nat.zero_add, hlength, if_neg (by omega), if_pos (by omega),
    if_neg (by omega)]
  rfl

/-- The walk over ordinary text compares it with the subject, character by
    character. -/
theorem reachUncached_ordinary (h : m.pattern.OrdinaryFrom false 0) (hgoal : m.goal = .whole)
    (hcase : m.pattern.options.ignoreCase = false) (hstart : m.patternStart = 0)
    (hbytes : m.characters.pattern.bytes = m.pattern.bytes)
    (hlocale : m.characters.subject.locale = m.characters.pattern.locale) (fuel : Nat)
    {offset : Nat} (w : Walk) (hfuel : m.pattern.length - offset < fuel)
    (hpattern : offset ≤ m.pattern.length) (hsubject : offset ≤ m.subject.bytes.length)
    (htake : m.pattern.bytes.take offset = m.subject.bytes.take offset) :
    (reachUncached fuel m offset offset none w).1.isSome = true ↔
      m.subject.bytes = m.pattern.bytes := by
  have hlength : m.pattern.bytes.length = m.pattern.length := List.length_map _
  induction fuel generalizing offset with
  | zero => omega
  | succ fuel ih =>
    rw [reachUncached]
    split
    · next hend =>
      have hwhole : m.pattern.bytes.take offset = m.pattern.bytes :=
        List.take_of_length_le (by omega)
      unfold withAside ranOut
      rw [hgoal]
      simp only
      split
      · next hover =>
        rw [hover, List.take_length, ← hover, hwhole] at htake
        simp [htake]
      · next hover =>
        constructor
        · intro hsome
          simp at hsome
        · intro heq
          rw [heq] at hover
          omega
    next hend =>
    have hlt : offset < m.pattern.length := by omega
    have hnone : (if m.pattern.active offset (chr '[') = true then
        m.bracket (offset + 1) offset else none) = none := by
      split
      · next hopen => exact bracket_ordinary h hopen
      · rfl
    rw [h.extendedGroup offset, h.star offset (Nat.zero_le _), h.one offset (Nat.zero_le _), hnone]
    simp only [Bool.false_eq_true, if_false]
    split
    · next hover =>
      constructor
      · intro hsome
        cases hsome
      · intro heq
        rw [heq] at hover
        omega
    next hover =>
    have hinside : offset < m.subject.bytes.length := by omega
    have hpatternEnd := patternEnd_whole hstart hbytes hlt
    have hpatternLe := m.patternEnd_le hlt.le
    have hsubjectLt : offset < m.subject.endAt offset := m.characters.subject.lt_endAt hinside
    have hsubjectLe : m.subject.endAt offset ≤ m.subject.bytes.length :=
      m.characters.subject.endAt_le hinside.le
    have hsame : sameCharacter m.subject.locale m.subject.ignoreCase
        (m.pattern.bytes.extract offset (m.patternEnd offset))
        (m.subject.bytes.extract offset (m.subject.endAt offset)) =
        decide (m.pattern.bytes.extract offset (m.patternEnd offset) =
          m.subject.bytes.extract offset (m.subject.endAt offset)) := by
      have hfold : m.subject.ignoreCase = false := hcase
      unfold sameCharacter
      rw [hfold, Bool.false_and, Bool.or_false, beq_eq_decide]
    rw [hsame]
    split
    · next hequal =>
      have hequal := of_decide_eq_true hequal
      have hends : m.patternEnd offset = m.subject.endAt offset := by
        have hlengths := congrArg List.length hequal
        have hpatternLt := m.lt_patternEnd hlt
        simp only [List.extract_eq_take_drop, List.length_take, List.length_drop] at hlengths
        omega
      rw [hends]
      refine ih (by omega) (by omega) hsubjectLe ?_
      rw [hends, List.extract_eq_take_drop, List.extract_eq_take_drop] at hequal
      have hsplit : ∀ bytes : Bytes, bytes.take (m.subject.endAt offset) =
          bytes.take offset ++ (bytes.drop offset).take (m.subject.endAt offset - offset) := by
        intro bytes
        rw [← List.take_add, Nat.add_sub_cancel' hsubjectLt.le]
      rw [hsplit m.pattern.bytes, hsplit m.subject.bytes, htake, hequal]
    · next hdifferent =>
      constructor
      · intro hsome
        cases hsome
      · intro heq
        refine absurd ?_ hdifferent
        have hcharacters : m.characters.subject = m.characters.pattern := by
          have hsubjectBytes : m.characters.subject.bytes = m.characters.pattern.bytes :=
            heq.trans hbytes.symm
          cases hsubjectOf : m.characters.subject
          cases hpatternOf : m.characters.pattern
          rw [hsubjectOf, hpatternOf] at hlocale hsubjectBytes
          simp only at hlocale hsubjectBytes
          rw [hlocale, hsubjectBytes]
        have hends : m.subject.endAt offset = m.patternEnd offset := by
          rw [hpatternEnd, ← hcharacters]
          rfl
        rw [decide_eq_true_iff, hends, heq]

end Matcher

/-- **Ordinary text matches only itself.** -/
theorem Pattern.matches_of_not_hasMeta (locale : Locale) {p : Pattern}
    (hslash : ∀ mark ∈ p.marks, mark.byte ≠ chr '/') (hcase : p.options.ignoreCase = false)
    (hmeta : p.hasMeta = false) (subject : Bytes) :
    p.matches locale subject = true ↔ subject = p.bytes := by
  have hordinary : p.OrdinaryFrom false 0 := ordinary_of_hasMetaFrom hslash List.drop_zero hmeta
  let m := (p.trial locale subject).matcher .whole
  have hwalk := Matcher.reachUncached_ordinary (m := m) hordinary rfl hcase rfl rfl rfl
    (p.length + 1) (Walk.spend ⟨Memo.empty, p.budget extendedMatchBudget, []⟩) (by
      show p.length - 0 < p.length + 1
      omega) (Nat.zero_le _) (Nat.zero_le _) rfl
  have hlive : (p.budget extendedMatchBudget).exhausted = false := by
    unfold Pattern.budget
    split <;> rfl
  rw [← show m.subject.bytes = subject from rfl, ← show m.pattern.bytes = p.bytes from rfl, ← hwalk]
  unfold Pattern.matches Trial.matchesFrom Trial.ask Matcher.reachFrom Matcher.reachFromWith
  simp only [Pattern.trial, Memo.empty, hlive]
  rfl

theorem Pattern.matches_unclosed :
    (Pattern.unquoted (text "a[b") ⟨true, false⟩).matches Locale.c (text "a[b") = true :=
  (matches_of_not_hasMeta Locale.c (by decide) rfl (by decide) (text "a[b")).2 (by decide)

end Nsh.Patterns
