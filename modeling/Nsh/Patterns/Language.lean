import Nsh.Lib.Stretch
import Nsh.Patterns.Spans

/-!
# The language of a pattern

In a single-byte locale a pattern is a regular expression with complement over bytes.
Its language is given item by item; what a bracket expression stands for is an
argument, so that readings that differ there are one definition.  `itemsSpan_iff`
says that the stretches of a subject the items span are those that spell a string of
their language.
-/

namespace Nsh.Patterns

open Computability

/-! ### Bracket expressions -/

/-- Whether the member holds this byte. -/
def BracketMember.holds (locale : Locale) (ignoreCase : Bool) (byte : UInt8) : BracketMember → Bool
  | .named name => locale.wideClassMatches name [byte] == some true
  | .collating delimiter body =>
    locale.collatingBracketMatches (collatingExpression delimiter body) [byte]
  | .range [low] [high] => rangeHolds ignoreCase low high byte
  | .range _ _ => false
  | .character bytes => sameCharacter locale ignoreCase bytes [byte]

/-- Whether the list holds this byte, an inverted one the bytes its members do not. -/
def Bracket.holds (b : Bracket) (locale : Locale) (ignoreCase : Bool) (byte : UInt8) : Bool :=
  b.inverted != b.members.any (·.holds locale ignoreCase byte)

/-- Exactly one byte of the list. -/
def Bracket.byteLanguage (locale : Locale) (ignoreCase : Bool) (b : Bracket) : Language UInt8 :=
  {word | ∃ byte, word = [byte] ∧ b.holds locale ignoreCase byte = true}

/-- A word as long as the body of a collating member which the locale takes for it. -/
def BracketMember.Element (locale : Locale) (member : BracketMember) (word : Bytes) : Prop :=
  ∃ delimiter body, member = .collating delimiter body ∧ word ≠ [] ∧ word.length = body.length ∧
    locale.collatingBracketMatches (collatingExpression delimiter body) word = true

/-- The elements of the members of a list that is not inverted. -/
def Bracket.elementLanguage (locale : Locale) (b : Bracket) : Language UInt8 :=
  {word | b.inverted = false ∧ ∃ member ∈ b.members, member.Element locale word}

/-- What a bracket expression consumes. -/
def Bracket.language (locale : Locale) (ignoreCase : Bool) (b : Bracket) : Language UInt8 :=
  b.byteLanguage locale ignoreCase + b.elementLanguage locale

/-! ### Items -/

section

variable (locale : Locale) (ignoreCase : Bool) (brackets : Bracket → Language UInt8)

/-- A group of this kind, `l` being the union of its alternatives. -/
def groupLanguage (kind : UInt8) (l : Language UInt8) : Language UInt8 :=
  if kind = chr '!' then lᶜ
  else if kind = chr '?' then l + 1
  else if kind = chr '@' then l
  else if kind = chr '*' then l∗
  else l * l∗

mutual

def Item.language : Item → Language UInt8
  | .star => ⊤
  | .one => {word | ∃ byte, word = [byte]}
  | .bracket expression => brackets expression
  | .literal character =>
    {word | ∃ byte, word = [byte] ∧ sameCharacter locale ignoreCase character [byte] = true}
  | .group kind alternatives => groupLanguage kind (alternativesLanguage alternatives)

def itemsLanguage : List Item → Language UInt8
  | [] => 1
  | item :: items => item.language * itemsLanguage items

def alternativesLanguage : List (List Item) → Language UInt8
  | [] => 0
  | items :: alternatives => itemsLanguage items + alternativesLanguage alternatives

end

end

/-! ### One byte at a time -/

namespace Subject

variable {s : Subject} {i j : Nat}

theorem endAt_eq (h : s.locale.SingleByte) (hi : i < s.bytes.length) : s.endAt i = i + 1 :=
  Characters.endAt_eq h hi

theorem widthAt_eq (h : s.locale.SingleByte) {width : Nat} :
    s.widthAt i = some width ↔ i < s.bytes.length ∧ width = 1 := by
  rw [widthAt_eq_some]
  constructor
  · rintro ⟨hi, rfl⟩
    rw [endAt_eq h hi]
    exact ⟨hi, by omega⟩
  · rintro ⟨hi, rfl⟩
    rw [endAt_eq h hi]
    exact ⟨hi, by omega⟩

theorem mem_offsets_iff (h : s.locale.SingleByte) (hi : i ≤ s.bytes.length) :
    j ∈ s.offsets i ↔ i ≤ j ∧ j ≤ s.bytes.length := by
  constructor
  · exact offsets_bounds hi
  · rintro ⟨hij, hj⟩
    induction i, hi using offsets_induction with
    | hend =>
      obtain rfl : j = s.bytes.length := by omega
      simp [offsets_end]
    | hstep i hlt ih =>
      rw [offsets_cons hlt, List.mem_cons]
      rw [endAt_eq h hlt] at ih ⊢
      rcases Nat.eq_or_lt_of_le hij with rfl | hlt
      · exact Or.inl rfl
      · exact Or.inr (ih hlt)

end Subject

theorem extract_one {word : Bytes} {i : Nat} (h : i < word.length) :
    word.extract i (i + 1) = [word[i]] := by
  simp [List.extract_eq_take_drop, List.take_one, h]

/-- A stretch of one byte. -/
theorem extract_eq_singleton {word : Bytes} {i w : Nat} (h : i + w ≤ word.length) {c : UInt8} :
    word.extract i (i + w) = [c] ↔ w = 1 ∧ word[i]? = some c := by
  constructor
  · intro heq
    have hlength := length_extract (i := i) h
    rw [heq] at hlength
    obtain rfl : w = 1 := by simp at hlength; omega
    have hlt : i < word.length := by omega
    rw [extract_one hlt] at heq
    rw [List.getElem?_eq_getElem hlt]
    exact ⟨rfl, by simpa using heq⟩
  · rintro ⟨rfl, hget⟩
    have hlt : i < word.length := by omega
    rw [List.getElem?_eq_getElem hlt] at hget
    rw [extract_one hlt, Option.some.inj hget]

/-- The member holds the byte that is the stretch of this width. -/
def BracketMember.HoldsStretch (s : Subject) (member : BracketMember) (i w : Nat) : Prop :=
  ∃ c, s.bytes.extract i (i + w) = [c] ∧ member.holds s.locale s.ignoreCase c = true

theorem BracketMember.holdsStretch_iff {s : Subject} {member : BracketMember} {i w : Nat} :
    (i + w ≤ s.bytes.length ∧ member.HoldsStretch s i w) ↔
      w = 1 ∧ ∃ c, s.bytes[i]? = some c ∧ member.holds s.locale s.ignoreCase c = true := by
  constructor
  · rintro ⟨hle, c, hc, hholds⟩
    obtain ⟨rfl, hget⟩ := (extract_eq_singleton hle).mp hc
    exact ⟨rfl, c, hget, hholds⟩
  · rintro ⟨rfl, c, hget, hholds⟩
    have hle : i + 1 ≤ s.bytes.length := (List.getElem?_eq_some_iff.mp hget).1
    exact ⟨hle, c, (extract_eq_singleton hle).mpr ⟨rfl, hget⟩, hholds⟩

/-- A member matches the widths of the stretches that are a byte it holds or one of its
    elements. -/
theorem BracketMember.mem_widths {s : Subject} (h : s.locale.SingleByte) {i w : Nat}
    {member : BracketMember} :
    w ∈ member.widths s i ↔ i + w ≤ s.bytes.length ∧
      (member.HoldsStretch s i w ∨ member.Element s.locale (s.bytes.extract i (i + w))) := by
  have plain (hnot : ∀ delimiter body, member ≠ .collating delimiter body) :
      (i + w ≤ s.bytes.length ∧
        (member.HoldsStretch s i w ∨ member.Element s.locale (s.bytes.extract i (i + w)))) ↔
      w = 1 ∧ ∃ c, s.bytes[i]? = some c ∧ member.holds s.locale s.ignoreCase c = true := by
    have hno : ¬ member.Element s.locale (s.bytes.extract i (i + w)) := by
      rintro ⟨delimiter, body, hmember, -⟩
      exact hnot delimiter body hmember
    rw [or_iff_left hno, holdsStretch_iff]
  cases member with
  | named name =>
    rw [plain (by simp), widths, Subject.mem_classWidths, Subject.widthAt_eq h]
    constructor
    · rintro ⟨⟨hi, rfl⟩, hclass⟩
      rw [extract_one hi] at hclass
      exact ⟨rfl, s.bytes[i], List.getElem?_eq_getElem hi, by simp [holds, hclass]⟩
    · rintro ⟨rfl, c, hget, hholds⟩
      obtain ⟨hi, rfl⟩ := List.getElem?_eq_some_iff.mp hget
      rw [extract_one hi]
      exact ⟨⟨hi, rfl⟩, by simpa [holds] using hholds⟩
  | collating delimiter body =>
    rw [widths, Subject.mem_collatingWidths, Subject.widthAt_eq h]
    constructor
    · rintro ⟨hw, hne, hle, hmatch⟩
      have hlength := length_extract (i := i) hle
      refine ⟨hle, ?_⟩
      rcases hw with ⟨hi, rfl⟩ | rfl
      · rw [extract_one hi] at hmatch
        exact Or.inl ⟨s.bytes[i], extract_one hi, hmatch⟩
      · refine Or.inr ⟨delimiter, body, rfl, ?_, by omega, hmatch⟩
        intro hnil
        rw [hnil, List.length_nil] at hlength
        omega
    · rintro ⟨hle, ⟨c, hc, hholds⟩ | ⟨_, _, hmember, hne, hlength, hmatch⟩⟩
      · obtain ⟨rfl, -⟩ := (extract_eq_singleton hle).mp hc
        rw [hc]
        exact ⟨Or.inl ⟨hle, rfl⟩, Nat.one_ne_zero, hle, hholds⟩
      · cases hmember
        rw [length_extract hle] at hlength
        refine ⟨Or.inr (by omega), ?_, hle, hmatch⟩
        rintro rfl
        exact hne (extract_self s.bytes i)
  | range first last =>
    rw [plain (by simp), widths]
    constructor
    · intro hw
      split at hw
      · next hmatch =>
        obtain rfl := List.mem_singleton.mp hw
        refine ⟨rfl, ?_⟩
        unfold Subject.rangeMatches at hmatch
        split at hmatch
        · next low high c _ hget => exact ⟨c, hget, by simpa [holds] using hmatch⟩
        · cases hmatch
      · cases hw
    · rintro ⟨rfl, c, hget, hholds⟩
      have hwidth : s.widthAt i = some 1 :=
        (Subject.widthAt_eq h).mpr ⟨(List.getElem?_eq_some_iff.mp hget).1, rfl⟩
      have hmatch : s.rangeMatches first last i = true := by
        unfold holds at hholds
        split at hholds
        · next heq => cases heq
        · next heq => cases heq
        · next low high heq =>
          cases heq
          simp [Subject.rangeMatches, hwidth, hget, hholds]
        · cases hholds
        · next heq => cases heq
      simp [hmatch]
  | character bytes =>
    rw [plain (by simp), widths]
    constructor
    · intro hw
      split at hw
      · next hmatch =>
        obtain ⟨width, hwidth⟩ := Subject.widthAt_of_memberMatches hmatch
        obtain ⟨hi, rfl⟩ := (Subject.widthAt_eq h).mp hwidth
        rw [hwidth] at hw
        rw [Subject.memberMatches, hwidth] at hmatch
        simp only [extract_one hi] at hmatch
        exact ⟨List.mem_singleton.mp hw, s.bytes[i], List.getElem?_eq_getElem hi, hmatch⟩
      · cases hw
    · rintro ⟨rfl, c, hget, hholds⟩
      obtain ⟨hi, rfl⟩ := List.getElem?_eq_some_iff.mp hget
      have hwidth : s.widthAt i = some 1 := (Subject.widthAt_eq h).mpr ⟨hi, rfl⟩
      have hmatch : s.memberMatches bytes i = true := by
        rw [Subject.memberMatches, hwidth]
        simp only [extract_one hi]
        exact hholds
      simp [hmatch, hwidth]

theorem BracketMember.Element.holds (ignoreCase : Bool) {locale : Locale} {member : BracketMember}
    {c : UInt8} (h : member.Element locale [c]) : member.holds locale ignoreCase c = true := by
  obtain ⟨delimiter, body, rfl, -, -, hmatch⟩ := h
  exact hmatch

theorem Bracket.mem_language {locale : Locale} {ignoreCase : Bool} {b : Bracket} {word : Bytes} :
    word ∈ b.language locale ignoreCase ↔
      (∃ c, word = [c] ∧ b.holds locale ignoreCase c = true) ∨
        (b.inverted = false ∧ ∃ member ∈ b.members, member.Element locale word) := Iff.rfl

theorem mem_addMembers_nil {s : Subject} (h : s.locale.SingleByte) {members : List BracketMember}
    {i w : Nat} : w ∈ addMembers s i members [] ↔
      i + w ≤ s.bytes.length ∧ ∃ member ∈ members,
        member.HoldsStretch s i w ∨ member.Element s.locale (s.bytes.extract i (i + w)) := by
  rw [mem_addMembers]
  simp only [List.not_mem_nil, false_or, BracketMember.mem_widths h]
  constructor
  · rintro ⟨member, hmember, hle, hw⟩
    exact ⟨hle, member, hmember, hw⟩
  · rintro ⟨hle, member, hmember, hw⟩
    exact ⟨member, hmember, hle, hw⟩

theorem Bracket.mem_widths {s : Subject} (h : s.locale.SingleByte) {b : Bracket} {i w : Nat} :
    w ∈ b.widths s i ↔ i + w ≤ s.bytes.length ∧
      s.bytes.extract i (i + w) ∈ b.language s.locale s.ignoreCase := by
  rw [widths, Subject.mem_keptWidths, mem_language]
  cases hinverted : b.inverted with
  | false =>
    simp only [Bool.false_eq_true, if_false, true_and, mem_addMembers_nil h, holds, hinverted]
    apply and_congr_right
    intro _
    constructor
    · rintro ⟨member, hmember, ⟨c, hc, hholds⟩ | helement⟩
      · refine Or.inl ⟨c, hc, ?_⟩
        simpa using ⟨member, hmember, hholds⟩
      · exact Or.inr ⟨member, hmember, helement⟩
    · rintro (⟨c, hc, hholds⟩ | ⟨member, hmember, helement⟩)
      · obtain ⟨member, hmember, hholds⟩ : ∃ member ∈ b.members,
            member.holds s.locale s.ignoreCase c = true := by simpa using hholds
        exact ⟨member, hmember, Or.inl ⟨c, hc, hholds⟩⟩
      · exact ⟨member, hmember, Or.inr helement⟩
  | true =>
    simp only [if_true, Bool.true_eq_false, false_and, or_false, Subject.widthAt_eq h,
      mem_addMembers_nil h, holds, hinverted]
    constructor
    · rintro ⟨⟨hi, rfl⟩, hnot⟩
      refine ⟨hi, s.bytes[i], extract_one hi, ?_⟩
      have hnone : ∀ member ∈ b.members, member.holds s.locale s.ignoreCase s.bytes[i] = false := by
        intro member hmember
        by_contra hholds
        exact hnot ⟨hi, member, hmember, Or.inl ⟨_, extract_one hi, by simpa using hholds⟩⟩
      simpa using hnone
    · rintro ⟨hle, c, hc, hholds⟩
      have hnone : ∀ member ∈ b.members, member.holds s.locale s.ignoreCase c = false := by
        simpa using hholds
      obtain ⟨rfl, hget⟩ := (extract_eq_singleton hle).mp hc
      refine ⟨⟨hle, rfl⟩, ?_⟩
      rintro ⟨-, member, hmember, ⟨c', hc', hholds'⟩ | helement⟩
      · rw [hc] at hc'
        cases hc'
        rw [hnone member hmember] at hholds'
        cases hholds'
      · rw [hc] at helement
        have := helement.holds s.ignoreCase
        rw [hnone member hmember] at this
        cases this

/-! ### The stretches the items span -/

theorem Bracket.spells_language {s : Subject} (h : s.locale.SingleByte) {b : Bracket} {i j : Nat} :
    (∃ w ∈ b.widths s i, j = i + w) ↔
      Spells s.bytes (b.language s.locale s.ignoreCase) i j := by
  unfold Spells
  constructor
  · rintro ⟨w, hw, rfl⟩
    obtain ⟨hle, hmem⟩ := (b.mem_widths h).mp hw
    exact ⟨Nat.le_add_right i w, hle, hmem⟩
  · rintro ⟨hij, hj, hmem⟩
    obtain ⟨w, rfl⟩ := Nat.exists_eq_add_of_le hij
    exact ⟨w, (b.mem_widths h).mpr ⟨hj, hmem⟩, rfl⟩

theorem spells_byte {word : Bytes} {P : UInt8 → Prop} {i j : Nat} :
    Spells word {w | ∃ c, w = [c] ∧ P c} i j ↔ j = i + 1 ∧ ∃ c, word[i]? = some c ∧ P c := by
  constructor
  · rintro ⟨hij, hj, c, hc, hP⟩
    obtain ⟨w, rfl⟩ := Nat.exists_eq_add_of_le hij
    obtain ⟨rfl, hget⟩ := (extract_eq_singleton hj).mp hc
    exact ⟨rfl, c, hget, hP⟩
  · rintro ⟨rfl, c, hget, hP⟩
    have hj : i + 1 ≤ word.length := (List.getElem?_eq_some_iff.mp hget).1
    exact ⟨Nat.le_add_right i 1, hj, c, (extract_eq_singleton hj).mpr ⟨rfl, hget⟩, hP⟩

theorem reflTransGen_imp {R R' : Nat → Nat → Prop} {bound : Nat}
    (hbounds : ∀ i j, i ≤ bound → R i j → i ≤ j ∧ j ≤ bound)
    (himp : ∀ i j, i ≤ bound → R i j → R' i j) {i j : Nat} (hi : i ≤ bound)
    (h : Relation.ReflTransGen R i j) : Relation.ReflTransGen R' i j := by
  induction h with
  | refl => exact Relation.ReflTransGen.refl
  | tail hfirst hstep ih =>
    exact ih.tail (himp _ _ (reflTransGen_bounds hbounds hi hfirst).2 hstep)

theorem groupSpans_iff {s : Subject} (h : s.locale.SingleByte) {kind : UInt8}
    {R : Nat → Nat → Prop} {l : Language UInt8}
    (hR : ∀ i j, i ≤ s.bytes.length → (R i j ↔ Spells s.bytes l i j)) {i j : Nat}
    (hi : i ≤ s.bytes.length) :
    GroupSpans kind s.offsets R i j ↔ Spells s.bytes (groupLanguage kind l) i j := by
  have hbounds : ∀ i j, i ≤ s.bytes.length → R i j → i ≤ j ∧ j ≤ s.bytes.length := by
    intro i j hi hij
    have := (hR i j hi).mp hij
    exact ⟨this.1, this.2.1⟩
  unfold GroupSpans groupLanguage
  split
  · rw [Subject.mem_offsets_iff h hi, hR i j hi]
    unfold Spells
    constructor
    · rintro ⟨⟨hij, hj⟩, hnot⟩
      exact ⟨hij, hj, fun hmem => hnot ⟨hij, hj, hmem⟩⟩
    · rintro ⟨hij, hj, hnot⟩
      exact ⟨⟨hij, hj⟩, fun hspells => hnot hspells.2.2⟩
  split
  · rw [spells_add, spells_one hi, hR i j hi]
  split
  · exact hR i j hi
  have hstar (j : Nat) :
      Relation.ReflTransGen R i j ↔ Relation.ReflTransGen (Spells s.bytes l) i j := by
    constructor
    · exact reflTransGen_imp hbounds (fun i j hi => (hR i j hi).mp) hi
    · exact reflTransGen_imp (fun _ _ _ hij => ⟨hij.1, hij.2.1⟩) (fun i j hi => (hR i j hi).mpr) hi
  split
  · rw [spells_kstar hi, hstar j]
  · rw [spells_mul_kstar, Relation.TransGen.tail'_iff, Relation.TransGen.tail'_iff]
    constructor
    · rintro ⟨k, hfirst, hlast⟩
      exact ⟨k, (hstar k).mp hfirst,
        (hR k j (reflTransGen_bounds hbounds hi hfirst).2).mp hlast⟩
    · rintro ⟨k, hfirst, hlast⟩
      have hfirst := (hstar k).mpr hfirst
      exact ⟨k, hfirst, (hR k j (reflTransGen_bounds hbounds hi hfirst).2).mpr hlast⟩

mutual

theorem Item.spans_iff {s : Subject} (h : s.locale.SingleByte) (item : Item) (i j : Nat)
    (hi : i ≤ s.bytes.length) :
    item.Spans s i j ↔ Spells s.bytes
      (item.language s.locale s.ignoreCase (Bracket.language s.locale s.ignoreCase)) i j := by
  match item with
  | .star =>
    rw [Item.Spans, Item.language, Subject.mem_offsets_iff h hi]
    unfold Spells
    constructor
    · rintro ⟨hij, hj⟩
      exact ⟨hij, hj, trivial⟩
    · rintro ⟨hij, hj, -⟩
      exact ⟨hij, hj⟩
  | .one =>
    have hone : (Item.language s.locale s.ignoreCase
        (Bracket.language s.locale s.ignoreCase) .one) =
        {w | ∃ c, w = [c] ∧ True} := by
      rw [Item.language]
      simp only [and_true]
      rfl
    rw [Item.Spans, hone, spells_byte]
    constructor
    · rintro ⟨hne, rfl⟩
      have hlt : i < s.bytes.length := by omega
      exact ⟨Subject.endAt_eq h hlt, s.bytes[i], List.getElem?_eq_getElem hlt, trivial⟩
    · rintro ⟨rfl, c, hget, -⟩
      obtain ⟨hlt, -⟩ := List.getElem?_eq_some_iff.mp hget
      exact ⟨Nat.ne_of_lt hlt, (Subject.endAt_eq h hlt).symm⟩
  | .bracket expression =>
    rw [Item.Spans, Item.language]
    exact expression.spells_language h
  | .literal character =>
    rw [Item.Spans, Item.language, spells_byte]
    constructor
    · rintro ⟨hne, hsame, rfl⟩
      have hlt : i < s.bytes.length := by omega
      rw [Subject.endAt_eq h hlt, extract_one hlt] at hsame
      exact ⟨Subject.endAt_eq h hlt, s.bytes[i], List.getElem?_eq_getElem hlt, hsame⟩
    · rintro ⟨rfl, c, hget, hsame⟩
      obtain ⟨hlt, rfl⟩ := List.getElem?_eq_some_iff.mp hget
      rw [Subject.endAt_eq h hlt, extract_one hlt]
      exact ⟨Nat.ne_of_lt hlt, hsame, rfl⟩
  | .group kind alternatives =>
    rw [Item.Spans, Item.language]
    exact groupSpans_iff h (alternativesSpan_spells h alternatives) hi

/-- **The stretches the items span** are those that spell a string of their language. -/
theorem itemsSpan_iff {s : Subject} (h : s.locale.SingleByte) (items : List Item) (i j : Nat)
    (hi : i ≤ s.bytes.length) :
    ItemsSpan s items i j ↔ Spells s.bytes
      (itemsLanguage s.locale s.ignoreCase (Bracket.language s.locale s.ignoreCase) items) i j := by
  match items with
  | [] => rw [itemsSpan_nil, itemsLanguage, spells_one hi]
  | item :: items =>
    rw [itemsSpan_cons, itemsLanguage, spells_mul]
    constructor
    · rintro ⟨k, hitem, hitems⟩
      have hk := (item.spans_bounds s i k hi hitem).2
      exact ⟨k, (Item.spans_iff h item i k hi).mp hitem, (itemsSpan_iff h items k j hk).mp hitems⟩
    · rintro ⟨k, hitem, hitems⟩
      exact ⟨k, (Item.spans_iff h item i k hi).mpr hitem,
        (itemsSpan_iff h items k j hitem.2.1).mpr hitems⟩

theorem alternativesSpan_spells {s : Subject} (h : s.locale.SingleByte)
    (alternatives : List (List Item)) (i j : Nat) (hi : i ≤ s.bytes.length) :
    AlternativesSpan s alternatives i j ↔ Spells s.bytes
      (alternativesLanguage s.locale s.ignoreCase (Bracket.language s.locale s.ignoreCase)
        alternatives) i j := by
  match alternatives with
  | [] =>
    rw [AlternativesSpan, alternativesLanguage]
    exact (iff_false_intro spells_zero).symm
  | items :: alternatives =>
    rw [AlternativesSpan, alternativesLanguage, spells_add, itemsSpan_iff h items i j hi,
      alternativesSpan_spells h alternatives i j hi]

end

end Nsh.Patterns
