import Nsh.Patterns.Reading

/-!
# What a pattern spans

A list of items relates a subject offset to every offset at which it can run out:
the offsets of the items are composed, and a group composes the union of its
alternatives with itself, or complements it.  `Matcher.Reaches` is that relation for
the pattern as the walk reads it, at any offset of the pattern and of the subject.
-/

namespace Nsh.Patterns

/-! ### The relation of a list of items -/

/-- What a group of this kind makes of the union `R` of its alternatives;
    `candidates` are the offsets a complement may choose from. -/
def GroupSpans (kind : UInt8) (candidates : Nat → List Nat) (R : Nat → Nat → Prop) (i j : Nat) :
    Prop :=
  if kind = chr '!' then j ∈ candidates i ∧ ¬ R i j
  else if kind = chr '?' then R i j ∨ i = j
  else if kind = chr '@' then R i j
  else if kind = chr '*' then Relation.ReflTransGen R i j
  else Relation.TransGen R i j

mutual

/-- Where one item entered at `i` can leave the subject. -/
def Item.Spans (s : Subject) : Item → Nat → Nat → Prop
  | .star, i, j => j ∈ s.offsets i
  | .one, i, j => i ≠ s.bytes.length ∧ j = s.endAt i
  | .bracket expression, i, j => ∃ width ∈ expression.widths s i, j = i + width
  | .literal character, i, j =>
    i ≠ s.bytes.length ∧
      sameCharacter s.locale s.ignoreCase character (s.bytes.extract i (s.endAt i)) = true ∧
      j = s.endAt i
  | .group kind alternatives, i, j =>
    GroupSpans kind s.offsets (fun i j => AlternativesSpan s alternatives i j) i j

def ItemsSpan (s : Subject) : List Item → Nat → Nat → Prop
  | [], i, j => i = j
  | item :: items, i, j => ∃ k, item.Spans s i k ∧ ItemsSpan s items k j

def AlternativesSpan (s : Subject) : List (List Item) → Nat → Nat → Prop
  | [], _, _ => False
  | items :: alternatives, i, j => ItemsSpan s items i j ∨ AlternativesSpan s alternatives i j

end

theorem itemsSpan_nil (s : Subject) (i j : Nat) : ItemsSpan s [] i j ↔ i = j := by
  rw [ItemsSpan]

theorem itemsSpan_cons (s : Subject) (item : Item) (items : List Item) (i j : Nat) :
    ItemsSpan s (item :: items) i j ↔ ∃ k, item.Spans s i k ∧ ItemsSpan s items k j := by
  rw [ItemsSpan]

theorem alternativesSpan_iff (s : Subject) (alternatives : List (List Item)) (i j : Nat) :
    AlternativesSpan s alternatives i j ↔ ∃ items ∈ alternatives, ItemsSpan s items i j := by
  induction alternatives with
  | nil => simp [AlternativesSpan]
  | cons items alternatives ih => simp [AlternativesSpan, ih]

/-! ### The offsets of a walk -/

namespace Subject

variable {s : Subject} {i j : Nat}

theorem endAt_le (h : i ≤ s.bytes.length) : s.endAt i ≤ s.bytes.length := s.characters.endAt_le h

theorem lt_endAt (h : i < s.bytes.length) : i < s.endAt i := s.characters.lt_endAt h

theorem offsetsFrom_succ {fuel : Nat} (hle : i ≤ s.bytes.length)
    (h : s.bytes.length - i ≤ fuel) : s.offsetsFrom (fuel + 1) i = s.offsetsFrom fuel i := by
  induction fuel generalizing i with
  | zero =>
    have hend : i = s.bytes.length := by omega
    rw [offsetsFrom, offsetsFrom, if_pos hend]
  | succ fuel ih =>
    by_cases hend : i = s.bytes.length
    · have hshort (fuel : Nat) : s.offsetsFrom (fuel + 1) i = [i] := if_pos hend
      rw [hshort, hshort]
    · have hlong (fuel : Nat) :
          s.offsetsFrom (fuel + 1) i = i :: s.offsetsFrom fuel (s.endAt i) := if_neg hend
      have := lt_endAt (s := s) (i := i) (by omega)
      rw [hlong, hlong, ih (endAt_le hle) (by omega)]

theorem offsetsFrom_eq (fuel : Nat) (hle : i ≤ s.bytes.length)
    (h : s.bytes.length - i ≤ fuel) : s.offsetsFrom fuel i = s.offsets i := by
  obtain ⟨more, rfl⟩ := Nat.exists_eq_add_of_le h
  induction more with
  | zero => rfl
  | succ more ih => rw [← ih (by omega), ← Nat.add_assoc, offsetsFrom_succ hle (by omega)]

theorem offsets_end : s.offsets s.bytes.length = [s.bytes.length] := by
  rw [offsets, Nat.sub_self, offsetsFrom]

theorem offsets_cons (h : i < s.bytes.length) : s.offsets i = i :: s.offsets (s.endAt i) := by
  have hnext := lt_endAt h
  rw [← offsetsFrom_eq (s.bytes.length - i + 1) (le_of_lt h) (by omega), offsetsFrom,
    if_neg (Nat.ne_of_lt h), offsetsFrom_eq _ (endAt_le (le_of_lt h)) (by omega)]

/-- Going over the offsets of the subject from the last to the first. -/
theorem offsets_induction {motive : (i : Nat) → i ≤ s.bytes.length → Prop}
    (hend : motive s.bytes.length (le_refl _))
    (hstep : ∀ i (hlt : i < s.bytes.length),
      motive (s.endAt i) (endAt_le (le_of_lt hlt)) → motive i (le_of_lt hlt))
    (i : Nat) (hle : i ≤ s.bytes.length) : motive i hle := by
  obtain ⟨left, hleft⟩ : ∃ left, s.bytes.length - i ≤ left := ⟨_, le_refl _⟩
  induction left generalizing i with
  | zero =>
    obtain rfl : i = s.bytes.length := by omega
    exact hend
  | succ left ih =>
    by_cases heq : i = s.bytes.length
    · subst heq; exact hend
    · have hlt : i < s.bytes.length := by omega
      have := lt_endAt hlt
      exact hstep i hlt (ih _ _ (by omega))

theorem offsets_bounds (hle : i ≤ s.bytes.length) (h : j ∈ s.offsets i) :
    i ≤ j ∧ j ≤ s.bytes.length := by
  induction i, hle using offsets_induction with
  | hend =>
    rw [offsets_end, List.mem_singleton] at h
    rw [h]
    exact ⟨le_refl _, le_refl _⟩
  | hstep i hlt ih =>
    rw [offsets_cons hlt, List.mem_cons] at h
    rcases h with rfl | h
    · exact ⟨le_refl _, le_of_lt hlt⟩
    · exact ⟨le_trans (le_of_lt (lt_endAt hlt)) (ih h).1, (ih h).2⟩

theorem length_mem_offsets (hle : i ≤ s.bytes.length) : s.bytes.length ∈ s.offsets i := by
  induction i, hle using offsets_induction with
  | hend => simp [offsets_end]
  | hstep i hlt ih =>
    rw [offsets_cons hlt]
    exact List.mem_cons_of_mem i ih

end Subject

/-! ### The widths of a bracket expression -/

@[simp] theorem mem_addWidth {found : List Nat} {width w : Nat} :
    w ∈ addWidth found width ↔ w ∈ found ∨ w = width := by
  unfold addWidth
  split
  · next h =>
    have hmem : width ∈ found := by simpa using h
    constructor
    · exact Or.inl
    · rintro (h | rfl)
      · exact h
      · exact hmem
  · simp

theorem mem_foldl_addWidth {widths found : List Nat} {w : Nat} :
    w ∈ widths.foldl addWidth found ↔ w ∈ found ∨ w ∈ widths := by
  induction widths generalizing found with
  | nil => simp
  | cons width widths ih => simp [ih, or_assoc]

theorem mem_addMembers {s : Subject} {offset : Nat} {members : List BracketMember}
    {found : List Nat} {w : Nat} :
    w ∈ addMembers s offset members found ↔
      w ∈ found ∨ ∃ member ∈ members, w ∈ member.widths s offset := by
  induction members generalizing found with
  | nil => simp [addMembers]
  | cons member members ih => simp [addMembers_cons, ih, mem_foldl_addWidth, or_assoc]

namespace Subject

variable {s : Subject} {i : Nat}

theorem widthAt_eq_some {width : Nat} :
    s.widthAt i = some width ↔ i < s.bytes.length ∧ width = s.endAt i - i := by
  unfold widthAt
  split
  · next h => simp [h, eq_comm]
  · next h => simp [h]

theorem add_widthAt_le {width : Nat} (h : s.widthAt i = some width) :
    i + width ≤ s.bytes.length := by
  obtain ⟨hlt, rfl⟩ := widthAt_eq_some.mp h
  have := endAt_le (le_of_lt hlt)
  have := lt_endAt hlt
  omega

theorem mem_classWidths {name : Bytes} {w : Nat} :
    w ∈ s.classWidths name i ↔ s.widthAt i = some w ∧
      s.locale.wideClassMatches name (s.bytes.extract i (i + w)) = some true := by
  unfold classWidths
  cases s.widthAt i with
  | none => simp
  | some width =>
    simp only [Option.some.injEq]
    split
    · next h =>
      constructor
      · intro hmem
        obtain rfl := List.mem_singleton.mp hmem
        exact ⟨rfl, h⟩
      · rintro ⟨rfl, -⟩
        exact List.mem_singleton_self _
    · next h =>
      constructor
      · intro hmem
        cases hmem
      · rintro ⟨rfl, hmatch⟩
        exact absurd hmatch h

theorem mem_collatingWidths {delimiter : UInt8} {body : Bytes} {w : Nat} :
    w ∈ s.collatingWidths delimiter body i ↔ (s.widthAt i = some w ∨ w = body.length) ∧
      w ≠ 0 ∧ i + w ≤ s.bytes.length ∧
      s.locale.collatingBracketMatches (collatingExpression delimiter body)
        (s.bytes.extract i (i + w)) = true := by
  -- folding in the widths that pass a test is adding those of them that pass it
  have fold : ∀ (asked found : List Nat) (p : Nat → Prop) [DecidablePred p],
      w ∈ asked.foldl
        (fun widths width => if p width then addWidth widths width else widths) found ↔
        w ∈ found ∨ (w ∈ asked ∧ p w) := by
    intro asked found p _
    induction asked generalizing found with
    | nil => simp
    | cons width asked ih =>
      rw [List.foldl_cons, ih]
      split
      · next h =>
        rw [mem_addWidth, List.mem_cons]
        constructor
        · rintro ((hfound | rfl) | hrest)
          · exact Or.inl hfound
          · exact Or.inr ⟨Or.inl rfl, h⟩
          · exact Or.inr ⟨Or.inr hrest.1, hrest.2⟩
        · rintro (hfound | ⟨rfl | hrest, hp⟩)
          · exact Or.inl (Or.inl hfound)
          · exact Or.inl (Or.inr rfl)
          · exact Or.inr ⟨hrest, hp⟩
      · next h =>
        rw [List.mem_cons]
        constructor
        · rintro (hfound | hrest)
          · exact Or.inl hfound
          · exact Or.inr ⟨Or.inr hrest.1, hrest.2⟩
        · rintro (hfound | ⟨rfl | hrest, hp⟩)
          · exact Or.inl hfound
          · exact absurd hp h
          · exact Or.inr ⟨hrest, hp⟩
  rw [collatingWidths, fold]
  simp only [List.not_mem_nil, false_or, List.mem_append, Option.mem_toList, List.mem_singleton]

theorem widthAt_of_rangeMatches {first last : Bytes} (h : s.rangeMatches first last i = true) :
    s.widthAt i = some 1 := by
  unfold rangeMatches at h
  split at h
  · assumption
  · cases h

theorem widthAt_of_memberMatches {member : Bytes} (h : s.memberMatches member i = true) :
    ∃ width, s.widthAt i = some width := by
  unfold memberMatches at h
  split at h
  · next width hwidth => exact ⟨width, hwidth⟩
  · cases h

end Subject

theorem BracketMember.add_width_le {s : Subject} {i w : Nat} {member : BracketMember}
    (h : w ∈ member.widths s i) : i + w ≤ s.bytes.length := by
  cases member with
  | named name => exact Subject.add_widthAt_le (Subject.mem_classWidths.mp h).1
  | collating delimiter body => exact (Subject.mem_collatingWidths.mp h).2.2.1
  | range first last =>
    rw [widths] at h
    split at h
    · next hmatch =>
      obtain rfl := List.mem_singleton.mp h
      exact Subject.add_widthAt_le (Subject.widthAt_of_rangeMatches hmatch)
    · cases h
  | character bytes =>
    rw [widths] at h
    split at h
    · next hmatch =>
      obtain ⟨width, hwidth⟩ := Subject.widthAt_of_memberMatches hmatch
      rw [hwidth] at h
      obtain rfl := List.mem_singleton.mp h
      exact Subject.add_widthAt_le hwidth
    · cases h

theorem Subject.mem_keptWidths {s : Subject} {inverted : Bool} {i w : Nat} {matched : List Nat} :
    w ∈ s.keptWidths inverted i matched ↔
      if inverted then s.widthAt i = some w ∧ w ∉ matched else w ∈ matched := by
  unfold keptWidths
  cases inverted with
  | false => simp
  | true => simp [Option.filter_eq_some_iff]

theorem Bracket.add_width_le {b : Bracket} {s : Subject} {i w : Nat} (h : w ∈ b.widths s i) :
    i + w ≤ s.bytes.length := by
  rw [widths, Subject.mem_keptWidths] at h
  split at h
  · exact Subject.add_widthAt_le h.1
  · rcases mem_addMembers.mp h with h | ⟨member, -, hw⟩
    · cases h
    · exact member.add_width_le hw

/-! ### A pattern stays inside the subject -/

theorem reflTransGen_bounds {R : Nat → Nat → Prop} {length : Nat}
    (hR : ∀ i j, i ≤ length → R i j → i ≤ j ∧ j ≤ length) {i j : Nat} (hi : i ≤ length)
    (h : Relation.ReflTransGen R i j) : i ≤ j ∧ j ≤ length := by
  induction h with
  | refl => exact ⟨le_refl i, hi⟩
  | tail _ hstep ih =>
    have := hR _ _ ih.2 hstep
    exact ⟨le_trans ih.1 this.1, this.2⟩

theorem groupSpans_bounds {kind : UInt8} {s : Subject} {R : Nat → Nat → Prop}
    (hR : ∀ i j, i ≤ s.bytes.length → R i j → i ≤ j ∧ j ≤ s.bytes.length) {i j : Nat}
    (hi : i ≤ s.bytes.length) (h : GroupSpans kind s.offsets R i j) :
    i ≤ j ∧ j ≤ s.bytes.length := by
  have hstar (h : Relation.ReflTransGen R i j) := reflTransGen_bounds hR hi h
  unfold GroupSpans at h
  split at h
  · exact Subject.offsets_bounds hi h.1
  split at h
  · rcases h with h | rfl
    · exact hR i j hi h
    · exact ⟨le_refl i, hi⟩
  split at h
  · exact hR i j hi h
  split at h
  · exact hstar h
  · exact hstar h.to_reflTransGen

mutual

theorem Item.spans_bounds (s : Subject) (item : Item) (i j : Nat) (hi : i ≤ s.bytes.length)
    (h : item.Spans s i j) : i ≤ j ∧ j ≤ s.bytes.length := by
  match item with
  | .star => exact Subject.offsets_bounds hi h
  | .one =>
    rw [Item.Spans] at h
    have hlt : i < s.bytes.length := by omega
    rw [h.2]
    exact ⟨le_of_lt (Subject.lt_endAt hlt), Subject.endAt_le hi⟩
  | .bracket expression =>
    rw [Item.Spans] at h
    obtain ⟨w, hw, rfl⟩ := h
    exact ⟨Nat.le_add_right i w, expression.add_width_le hw⟩
  | .literal character =>
    rw [Item.Spans] at h
    have hlt : i < s.bytes.length := by omega
    rw [h.2.2]
    exact ⟨le_of_lt (Subject.lt_endAt hlt), Subject.endAt_le hi⟩
  | .group kind alternatives =>
    rw [Item.Spans] at h
    exact groupSpans_bounds (alternativesSpan_bounds s alternatives) hi h

theorem itemsSpan_bounds (s : Subject) (items : List Item) (i j : Nat) (hi : i ≤ s.bytes.length)
    (h : ItemsSpan s items i j) : i ≤ j ∧ j ≤ s.bytes.length := by
  match items with
  | [] =>
    obtain rfl := (itemsSpan_nil s i j).mp h
    exact ⟨le_refl i, hi⟩
  | item :: items =>
    obtain ⟨k, hitem, hitems⟩ := (itemsSpan_cons s item items i j).mp h
    have hk := item.spans_bounds s i k hi hitem
    have hj := itemsSpan_bounds s items k j hk.2 hitems
    exact ⟨le_trans hk.1 hj.1, hj.2⟩

theorem alternativesSpan_bounds (s : Subject) (alternatives : List (List Item)) (i j : Nat)
    (hi : i ≤ s.bytes.length) (h : AlternativesSpan s alternatives i j) :
    i ≤ j ∧ j ≤ s.bytes.length := by
  match alternatives with
  | [] => rw [AlternativesSpan] at h; exact h.elim
  | items :: alternatives =>
    rw [AlternativesSpan] at h
    rcases h with h | h
    · exact itemsSpan_bounds s items i j hi h
    · exact alternativesSpan_bounds s alternatives i j hi h

end

/-! ### What the walk is about -/

namespace Matcher

/-- Where the pattern read from `offset` on can run out, entered at `i`. -/
def Reaches (m : Matcher) (offset i j : Nat) : Prop :=
  ItemsSpan m.subject (m.items true offset) i j

/-- Where one alternative of the group, entered at `i`, can run out. -/
def GroupReaches (m : Matcher) (group : ExtendedGroup) (i j : Nat) : Prop :=
  ∃ range ∈ group.alternatives, (m.alternative range).Reaches 0 i j

variable {m : Matcher} {offset i j : Nat}

theorem Reaches.bounds (h : m.Reaches offset i j) (hi : i ≤ m.subject.bytes.length) :
    i ≤ j ∧ j ≤ m.subject.bytes.length := itemsSpan_bounds _ _ i j hi h

theorem GroupReaches.bounds {group : ExtendedGroup} (h : m.GroupReaches group i j)
    (hi : i ≤ m.subject.bytes.length) : i ≤ j ∧ j ≤ m.subject.bytes.length := by
  obtain ⟨range, -, h⟩ := h
  exact h.bounds hi

theorem reaches_end (h : offset = m.pattern.length) : m.Reaches offset i j ↔ i = j := by
  rw [Reaches, items_end true (ge_of_eq h), itemsSpan_nil]

theorem reaches_group {group : ExtendedGroup} (h : m.pattern.extendedGroup offset = some group) :
    m.Reaches offset i j ↔
      ∃ k, GroupSpans group.kind m.subject.offsets (m.GroupReaches group) i k ∧
        m.Reaches group.next k j := by
  have halternatives : (fun i j => AlternativesSpan m.subject
      (group.alternatives.map fun range => (m.alternative range).items true 0) i j) =
      m.GroupReaches group := by
    funext i j
    rw [eq_iff_iff, alternativesSpan_iff, GroupReaches]
    constructor
    · rintro ⟨items, hmem, hspan⟩
      obtain ⟨range, hrange, rfl⟩ := List.mem_map.mp hmem
      exact ⟨range, hrange, hspan⟩
    · rintro ⟨range, hrange, hspan⟩
      exact ⟨_, List.mem_map_of_mem hrange, hspan⟩
  rw [Reaches, items_group h, itemsSpan_cons]
  simp only [Item.Spans, halternatives]
  rfl

theorem reaches_star (hgroup : m.pattern.extendedGroup offset = none)
    (h : m.pattern.active offset (chr '*') = true) :
    m.Reaches offset i j ↔
      ∃ k ∈ m.subject.offsets i, m.Reaches (m.pattern.starRunEnd offset) k j := by
  rw [Reaches, items_star hgroup h, itemsSpan_cons]
  simp only [Item.Spans]
  rfl

theorem reaches_one (hgroup : m.pattern.extendedGroup offset = none)
    (hstar : m.pattern.active offset (chr '*') = false)
    (h : m.pattern.active offset (chr '?') = true) :
    m.Reaches offset i j ↔
      i ≠ m.subject.bytes.length ∧ m.Reaches (offset + 1) (m.subject.endAt i) j := by
  rw [Reaches, items_one hgroup hstar h, itemsSpan_cons]
  simp only [Item.Spans]
  constructor
  · rintro ⟨k, ⟨hne, rfl⟩, hrest⟩
    exact ⟨hne, hrest⟩
  · rintro ⟨hne, hrest⟩
    exact ⟨_, ⟨hne, rfl⟩, hrest⟩

theorem reaches_bracket (hgroup : m.pattern.extendedGroup offset = none)
    (hstar : m.pattern.active offset (chr '*') = false)
    (hone : m.pattern.active offset (chr '?') = false) {expression : Bracket} {next : Nat}
    (h : m.bracketAt offset = some (expression, next)) :
    m.Reaches offset i j ↔
      ∃ width ∈ expression.widths m.subject i, m.Reaches next (i + width) j := by
  rw [Reaches, items_bracket hgroup hstar hone h, itemsSpan_cons]
  simp only [Item.Spans]
  constructor
  · rintro ⟨k, ⟨width, hwidth, rfl⟩, hrest⟩
    exact ⟨width, hwidth, hrest⟩
  · rintro ⟨width, hwidth, hrest⟩
    exact ⟨_, ⟨width, hwidth, rfl⟩, hrest⟩

theorem reaches_literal (hlt : offset < m.pattern.length)
    (hgroup : m.pattern.extendedGroup offset = none)
    (hstar : m.pattern.active offset (chr '*') = false)
    (hone : m.pattern.active offset (chr '?') = false) (h : m.bracketAt offset = none) :
    m.Reaches offset i j ↔ i ≠ m.subject.bytes.length ∧
      sameCharacter m.subject.locale m.subject.ignoreCase
        (m.pattern.bytes.extract offset (m.patternEnd offset))
        (m.subject.bytes.extract i (m.subject.endAt i)) = true ∧
      m.Reaches (m.patternEnd offset) (m.subject.endAt i) j := by
  rw [Reaches, items_literal hlt hgroup hstar hone h, itemsSpan_cons]
  simp only [Item.Spans]
  constructor
  · rintro ⟨k, ⟨hne, hsame, rfl⟩, hrest⟩
    exact ⟨hne, hsame, hrest⟩
  · rintro ⟨hne, hsame, hrest⟩
    exact ⟨_, ⟨hne, hsame, rfl⟩, hrest⟩

end Matcher

end Nsh.Patterns
