import Nsh.Words.Decoder
import Mathlib.Data.List.Chain

/-!
# Canonical words

Two programs are one tree when their words are: runs of equal inertness are merged, an
empty run stands only for the quotes that wrote nothing, and the spelling is the parts
flattened.  The decoder builds such words and no others, and slicing one into its units
keeps it so.
-/

namespace Nsh.Words

open Nsh

variable {Node : Type}

/-! ### What a canonical word is -/

/-- Neighbours that are not two runs of the same inertness. -/
def Apart : WordPart Node → WordPart Node → Prop
  | .text _ quoted, .text _ quoted' => quoted ≠ quoted'
  | _, _ => True

mutual

inductive WordPart.Canonical : WordPart Node → Prop
  | text {bytes : Bytes} {quoted : Bool} (h : bytes ≠ [] ∨ quoted = true) :
      WordPart.Canonical (.text bytes quoted)
  | value (name : Bytes) (operation : ParameterOperation) (colon indirect quoted : Bool) :
      WordPart.Canonical (.parameter name operation colon indirect none quoted)
  | operand (name : Bytes) (operation : ParameterOperation) (colon indirect quoted : Bool)
      {operand : ParsedWord Node} (h : operand.Canonical) :
      WordPart.Canonical (.parameter name operation colon indirect (some operand) quoted)
  | command (command : Option Node) (quoted : Bool) : WordPart.Canonical (.command command quoted)
  | arithmetic {expression : ParsedWord Node} (h : expression.Canonical) (quoted : Bool) :
      WordPart.Canonical (.arithmetic expression quoted)

inductive ParsedWord.Canonical : ParsedWord Node → Prop
  | mk {parts : List (WordPart Node)} {spelling : Bytes} (hparts : ∀ part ∈ parts, part.Canonical)
      (hapart : parts.IsChain Apart) (hspelling : spelling = appendParts parts) :
      ParsedWord.Canonical (.mk parts spelling)

end

/-- The parts a canonical word is made of. -/
structure CanonicalParts (parts : List (WordPart Node)) : Prop where
  each : ∀ part ∈ parts, part.Canonical
  apart : parts.IsChain Apart

theorem CanonicalParts.nil : CanonicalParts ([] : List (WordPart Node)) :=
  ⟨fun _ h => absurd h List.not_mem_nil, List.IsChain.nil⟩

theorem CanonicalParts.tail {part : WordPart Node} {parts : List (WordPart Node)}
    (h : CanonicalParts (part :: parts)) : CanonicalParts parts :=
  ⟨fun other hmem => h.each other (List.mem_cons_of_mem _ hmem), h.apart.tail⟩

theorem CanonicalParts.concat {parts : List (WordPart Node)} {part : WordPart Node}
    (h : CanonicalParts parts) (hpart : part.Canonical)
    (hlast : ∀ last ∈ parts.getLast?, Apart last part) : CanonicalParts (parts ++ [part]) := by
  refine ⟨fun other hmem => ?_, ?_⟩
  · rcases List.mem_append.mp hmem with hmem | hmem
    · exact h.each other hmem
    · rwa [List.mem_singleton.mp hmem]
  · rw [List.isChain_append]
    refine ⟨h.apart, List.isChain_singleton _, fun last hl next hn => ?_⟩
    obtain rfl : part = next := by simpa using hn
    exact hlast last hl

theorem isEmptyRun_of_canonical {part : WordPart Node} (h : part.Canonical) :
    part.isEmptyRun = false := by
  cases h with
  | text h =>
    rcases h with h | h
    · simp [WordPart.isEmptyRun, h]
    · simp [WordPart.isEmptyRun, h]
  | value => rfl
  | operand => rfl
  | command => rfl
  | arithmetic => rfl

/-- Canonical parts are all kept. -/
theorem CanonicalParts.fromParts_eq {parts : List (WordPart Node)} (h : CanonicalParts parts) :
    ParsedWord.fromParts parts = .mk parts (appendParts parts) := by
  have hkept : parts.filter (fun part => !part.isEmptyRun) = parts := by
    rw [List.filter_eq_self]
    intro part hmem
    rw [isEmptyRun_of_canonical (h.each part hmem)]
    rfl
  rw [ParsedWord.fromParts, hkept]

theorem CanonicalParts.fromParts {parts : List (WordPart Node)} (h : CanonicalParts parts) :
    (ParsedWord.fromParts parts).Canonical := by
  rw [h.fromParts_eq]
  exact .mk h.each h.apart rfl

/-! ### Runs are merged -/

theorem apart_text_congr (last : WordPart Node) (bytes bytes' : Bytes) (quoted : Bool) :
    Apart last (.text bytes quoted) ↔ Apart last (.text bytes' quoted) := by
  cases last with
  | text run runQuoted => exact Iff.rfl
  | _ => exact Iff.rfl

theorem pushText_same (parts : List (WordPart Node)) (run bytes : Bytes) (quoted : Bool) :
    pushText (parts ++ [.text run quoted]) bytes quoted =
      parts ++ [.text (run ++ bytes) quoted] :=
  absorb_some (if_pos rfl)

theorem pushText_apart {parts : List (WordPart Node)} {bytes : Bytes} {quoted : Bool}
    (h : ∀ last ∈ parts.getLast?, Apart last (.text bytes quoted)) :
    pushText parts bytes quoted = parts ++ [.text bytes quoted] := by
  refine absorb_none fun last hlast => ?_
  have hapart := h last hlast
  cases last with
  | text run runQuoted => exact if_neg hapart
  | _ => rfl

/-- What is written joins the run before it or starts a run of its own. -/
theorem CanonicalParts.pushText {parts : List (WordPart Node)} (h : CanonicalParts parts)
    {bytes : Bytes} {quoted : Bool} (hwritten : bytes ≠ [] ∨ quoted = true) :
    CanonicalParts (pushText parts bytes quoted) := by
  by_cases hlast : ∀ last ∈ parts.getLast?, Apart last (.text bytes quoted)
  · rw [pushText_apart hlast]
    exact h.concat (.text hwritten) hlast
  · push Not at hlast
    obtain ⟨last, hmem, hjoin⟩ := hlast
    have hparts := List.dropLast_append_getLast? last hmem
    cases last with
    | text run runQuoted =>
      obtain rfl : runQuoted = quoted := by simpa [Apart] using hjoin
      rw [← hparts] at h ⊢
      rw [pushText_same]
      have happend := List.isChain_append.mp h.apart
      refine CanonicalParts.concat ⟨fun part hmem => ?_, happend.1⟩ (.text ?_) ?_
      · exact h.each part (List.mem_append_left _ hmem)
      · rcases hwritten with hwritten | hwritten
        · exact Or.inl (List.append_ne_nil_of_right_ne_nil run hwritten)
        · exact Or.inr hwritten
      · intro before hbefore
        exact (apart_text_congr before run _ runQuoted).mp
          (happend.2.2 before hbefore _ (by simp))
    | parameter name operation colon indirect operand quoted => exact absurd trivial hjoin
    | command command quoted => exact absurd trivial hjoin
    | arithmetic expression quoted => exact absurd trivial hjoin

namespace Building

variable {b : Building Node}

theorem text_canonical (h : CanonicalParts b.parts) {bytes : Bytes} {quoted : Bool}
    (hwritten : bytes ≠ [] ∨ quoted = true) : CanonicalParts (b.text bytes quoted).parts :=
  h.pushText hwritten

theorem part_canonical (h : CanonicalParts b.parts) {part : WordPart Node}
    (hpart : part.Canonical) (hapart : ∀ last, Apart last part) :
    CanonicalParts (b.part part).parts :=
  h.concat hpart fun last _ => hapart last

theorem quoteClose_canonical (h : CanonicalParts b.parts) :
    CanonicalParts b.quoteClose.parts := by
  unfold quoteClose
  split
  · exact h.pushText (Or.inr rfl)
  · exact h

end Building

/-- One activation, from canonical parts on. -/
theorem wordUntil_canonical (fuel : ℕ) : ∀ (b : Building Node) (deepest : ℕ)
    (tokens : List (WordToken Node)) (decoded : Decoded Node), CanonicalParts b.parts →
    wordUntil fuel b deepest tokens = some decoded → decoded.word.Canonical := by
  induction fuel with
  | zero =>
    intro b deepest tokens decoded hb h
    cases tokens with
    | nil =>
      obtain rfl := Option.some.inj h
      exact hb.fromParts
    | cons token rest => cases h
  | succ fuel ih =>
    intro b deepest tokens decoded hb h
    cases tokens with
    | nil =>
      obtain rfl := Option.some.inj h
      exact hb.fromParts
    | cons token rest =>
      have hone : ∀ byte : UInt8, [byte] ≠ ([] : Bytes) := fun byte => List.cons_ne_nil byte []
      cases token with
      | literal byte => exact ih _ _ rest decoded (b.text_canonical hb (Or.inl (hone byte))) h
      | inert byte => exact ih _ _ rest decoded (b.text_canonical hb (Or.inr rfl)) h
      | character bytes complete inert =>
        exact ih _ _ rest decoded (b.text_canonical hb (Or.inl complete)) h
      | quoteOpen => exact ih b.quoteOpen _ rest decoded hb h
      | quoteClose => exact ih _ _ rest decoded (b.quoteClose_canonical hb) h
      | command command =>
        exact ih _ _ rest decoded
          (b.part_canonical hb (.command command b.quoted) fun last => by cases last <;> trivial) h
      | parameterStart name operation colon indirect =>
        by_cases hvalue : operation = .value
        · simp only [wordUntil, if_pos hvalue] at h
          exact ih _ _ rest decoded
            (b.part_canonical hb (.value name operation colon indirect b.quoted)
              fun last => by cases last <;> trivial) h
        · simp only [wordUntil, if_neg hvalue] at h
          obtain ⟨inner, hinner, hrest⟩ := Option.bind_eq_some_iff.mp h
          have hoperand := ih {} 0 rest inner CanonicalParts.nil hinner
          exact ih _ _ inner.rest decoded
            (b.part_canonical hb (.operand name operation colon indirect b.quoted hoperand)
              fun last => by cases last <;> trivial) hrest
      | arithmeticStart =>
        obtain ⟨inner, hinner, hrest⟩ := Option.bind_eq_some_iff.mp h
        have hexpression := ih {} 0 rest inner CanonicalParts.nil hinner
        exact ih _ _ inner.rest decoded
          (b.part_canonical hb (.arithmetic hexpression b.quoted)
            fun last => by cases last <;> trivial) hrest
      | parameterEnd =>
        obtain rfl := Option.some.inj h
        exact hb.fromParts
      | arithmeticEnd =>
        obtain rfl := Option.some.inj h
        exact hb.fromParts

/-- The decoder answers every run of events, with a canonical word. -/
theorem decode_canonical (tokens : List (WordToken Node)) :
    ∃ word, ParsedWord.fromTokens tokens = some word ∧ word.Canonical := by
  obtain ⟨decoded, hdecoded⟩ := decode_returns tokens
  refine ⟨decoded.word, by rw [ParsedWord.fromTokens, hdecoded, Option.map_some], ?_⟩
  exact wordUntil_canonical _ _ _ _ _ CanonicalParts.nil hdecoded

/-! ### Units -/

/-- One sliceable top-level unit of a word. -/
inductive WordUnit (Node : Type)
  | literal (byte : UInt8) (quoted : Bool)
  | part (part : WordPart Node)

def WordPart.units : WordPart Node → List (WordUnit Node)
  | .text bytes quoted =>
    if bytes.isEmpty then [.part (.text bytes quoted)] else bytes.map (.literal · quoted)
  | part => [.part part]

/-- `ParsedWord::units`. -/
def ParsedWord.units (word : ParsedWord Node) : List (WordUnit Node) :=
  word.parts.flatMap WordPart.units

def pushUnit (parts : List (WordPart Node)) : WordUnit Node → List (WordPart Node)
  | .literal byte quoted => pushText parts [byte] quoted
  | .part (.text bytes quoted) => pushText parts bytes quoted
  | .part part => parts ++ [part]

/-- `ParsedWord::from_units`. -/
def ParsedWord.fromUnits (units : List (WordUnit Node)) : ParsedWord Node :=
  .fromParts (units.foldl pushUnit [])

theorem units_text {bytes : Bytes} (h : bytes ≠ []) (quoted : Bool) :
    (WordPart.text bytes quoted : WordPart Node).units = bytes.map (.literal · quoted) := by
  simp [WordPart.units, h]

theorem foldl_literals (bytes : Bytes) (quoted : Bool) : ∀ (parts : List (WordPart Node))
    (run : Bytes),
    (bytes.map fun byte => WordUnit.literal byte quoted).foldl pushUnit
        (parts ++ [.text run quoted]) = parts ++ [.text (run ++ bytes) quoted] := by
  induction bytes with
  | nil =>
    intro parts run
    simp
  | cons byte bytes ih =>
    intro parts run
    rw [List.map_cons, List.foldl_cons, pushUnit, pushText_same, ih, List.append_assoc,
      List.singleton_append]

/-- A part's units, written behind what it stands apart from, are the part again. -/
theorem foldl_units_part {part : WordPart Node} {parts : List (WordPart Node)}
    (hlast : ∀ last ∈ parts.getLast?, Apart last part) :
    part.units.foldl pushUnit parts = parts ++ [part] := by
  cases part with
  | text bytes quoted =>
    cases bytes with
    | nil =>
      have hunits : (WordPart.text [] quoted : WordPart Node).units = [.part (.text [] quoted)] :=
        rfl
      rw [hunits, List.foldl_cons, List.foldl_nil, pushUnit, pushText_apart hlast]
    | cons byte bytes =>
      have hfirst : ∀ last ∈ parts.getLast?, Apart last (.text [byte] quoted) :=
        fun last hmem => (apart_text_congr last _ _ quoted).mp (hlast last hmem)
      rw [units_text (List.cons_ne_nil byte bytes), List.map_cons, List.foldl_cons, pushUnit,
        pushText_apart hfirst, foldl_literals, List.singleton_append]
  | parameter name operation colon indirect operand quoted => rfl
  | command command quoted => rfl
  | arithmetic expression quoted => rfl

theorem foldl_units (parts : List (WordPart Node)) : ∀ built : List (WordPart Node),
    (built ++ parts).IsChain Apart →
    (parts.flatMap WordPart.units).foldl pushUnit built = built ++ parts := by
  induction parts with
  | nil =>
    intro built _
    simp
  | cons part parts ih =>
    intro built h
    have hlast : ∀ last ∈ built.getLast?, Apart last part := fun last hmem =>
      (List.isChain_append.mp h).2.2 last hmem part rfl
    rw [List.append_cons] at h ⊢
    rw [List.flatMap_cons, List.foldl_append, foldl_units_part hlast, ih _ h]

/-- Canonical parts come back from their units. -/
theorem CanonicalParts.fromUnits {parts : List (WordPart Node)} (h : CanonicalParts parts) :
    ParsedWord.fromUnits (parts.flatMap WordPart.units) = .mk parts (appendParts parts) := by
  rw [ParsedWord.fromUnits, foldl_units parts [] h.apart, List.nil_append, h.fromParts_eq]

/-! ### Slices -/

/-- Canonical parts cut at a unit: what stands on either side is canonical, and what
    stood apart from the whole stands apart from its front. -/
theorem CanonicalParts.cut {parts : List (WordPart Node)} : CanonicalParts parts → ∀ k,
    ∃ front back, CanonicalParts front ∧ CanonicalParts back ∧
      front.flatMap WordPart.units = (parts.flatMap WordPart.units).take k ∧
      back.flatMap WordPart.units = (parts.flatMap WordPart.units).drop k ∧
      ∀ before, (before :: parts).IsChain Apart → (before :: front).IsChain Apart := by
  induction parts with
  | nil =>
    intro h k
    exact ⟨[], [], h, h, by simp, by simp, fun before hbefore => hbefore⟩
  | cons part parts ih =>
    intro h k
    rcases Nat.eq_zero_or_pos k with rfl | hpos
    · exact ⟨[], part :: parts, CanonicalParts.nil, h, rfl, rfl,
        fun before _ => List.isChain_singleton before⟩
    rw [List.flatMap_cons]
    rcases Nat.lt_or_ge k part.units.length with hinside | hpast
    · -- Only a run of text has a unit to be cut in front of.
      cases part with
      | text bytes quoted =>
        have hne : bytes ≠ [] := by
          rintro rfl
          simp [WordPart.units] at hinside
          omega
        rw [units_text hne] at hinside ⊢
        rw [List.length_map] at hinside
        have htake : bytes.take k ≠ [] := by
          rw [Ne, List.take_eq_nil_iff]
          rintro (hzero | hnil)
          · omega
          · exact hne hnil
        have hdrop : bytes.drop k ≠ [] := by
          rw [Ne, List.drop_eq_nil_iff]
          omega
        have hapart := List.isChain_cons.mp h.apart
        refine ⟨[.text (bytes.take k) quoted], .text (bytes.drop k) quoted :: parts, ?_, ?_, ?_,
          ?_, ?_⟩
        · exact CanonicalParts.nil.concat (.text (Or.inl htake)) fun last hlast => by cases hlast
        · refine ⟨fun other hmem => ?_, List.isChain_cons.mpr ⟨fun next hnext => ?_, hapart.2⟩⟩
          · rcases List.mem_cons.mp hmem with rfl | hmem
            · exact .text (Or.inl hdrop)
            · exact h.each other (List.mem_cons_of_mem _ hmem)
          · have := hapart.1 next hnext
            cases next with
            | text run runQuoted => exact this
            | _ => trivial
        · rw [List.flatMap_cons, List.flatMap_nil, List.append_nil, units_text htake,
            List.take_append_of_le_length (by simpa using hinside.le), List.map_take]
        · rw [List.flatMap_cons, units_text hdrop,
            List.drop_append_of_le_length (by simpa using hinside.le), List.map_drop]
        · intro before hbefore
          have := (List.isChain_cons.mp hbefore).1 _ rfl
          exact List.isChain_cons.mpr
            ⟨fun next hnext => by
              obtain rfl : WordPart.text (bytes.take k) quoted = next := by simpa using hnext
              exact (apart_text_congr before _ _ quoted).mp this, List.isChain_singleton _⟩
      | parameter name operation colon indirect operand quoted =>
        simp [WordPart.units] at hinside
        omega
      | command command quoted =>
        simp [WordPart.units] at hinside
        omega
      | arithmetic expression quoted =>
        simp [WordPart.units] at hinside
        omega
    · obtain ⟨front, back, hfront, hback, htake, hdrop, hbefore⟩ :=
        ih h.tail (k - part.units.length)
      have hchain := hbefore part h.apart
      refine ⟨part :: front, back, ⟨fun other hmem => ?_, hchain⟩, hback, ?_, ?_, ?_⟩
      · rcases List.mem_cons.mp hmem with rfl | hmem
        · exact h.each other List.mem_cons_self
        · exact hfront.each other hmem
      · rw [List.flatMap_cons, htake, List.take_append, List.take_of_length_le hpast]
      · rw [hdrop, List.drop_append, List.drop_of_length_le hpast, List.nil_append]
      · intro before hall
        rw [List.isChain_cons_cons] at hall ⊢
        exact ⟨hall.1, hchain⟩

/-- A run of units that some canonical parts spread out to makes a canonical word of
    exactly those units. -/
theorem CanonicalParts.fromUnits_canonical {parts : List (WordPart Node)}
    (h : CanonicalParts parts) {units : List (WordUnit Node)}
    (hunits : parts.flatMap WordPart.units = units) :
    (ParsedWord.fromUnits units).Canonical ∧ (ParsedWord.fromUnits units).units = units := by
  rw [← hunits, h.fromUnits]
  exact ⟨.mk h.each h.apart rfl, rfl⟩

/-- **Words are canonical, and stay so when they are sliced.**  Every run of events is
    decoded to a canonical word; a canonical word is its units put together again, and
    either side of a cut is a canonical word of exactly the units on that side. -/
theorem fromTokens_canonical (tokens : List (WordToken Node)) (word : ParsedWord Node)
    (h : word.Canonical) (k : ℕ) :
    (∃ decoded, ParsedWord.fromTokens tokens = some decoded ∧ decoded.Canonical) ∧
    ParsedWord.fromUnits word.units = word ∧
    ((ParsedWord.fromUnits (word.units.take k)).Canonical ∧
      (ParsedWord.fromUnits (word.units.take k)).units = word.units.take k) ∧
    (ParsedWord.fromUnits (word.units.drop k)).Canonical ∧
      (ParsedWord.fromUnits (word.units.drop k)).units = word.units.drop k := by
  cases h with
  | @mk parts spelling hparts hapart hspelling =>
    have hcanonical : CanonicalParts parts := ⟨hparts, hapart⟩
    obtain ⟨front, back, hfront, hback, htake, hdrop, -⟩ := hcanonical.cut k
    refine ⟨decode_canonical tokens, ?_, hfront.fromUnits_canonical htake,
      hback.fromUnits_canonical hdrop⟩
    rw [hspelling]
    exact hcanonical.fromUnits

/-- `a''b` is three parts, its empty quotes the second of them: cut behind the `a`, they
    stay with the `b`. -/
theorem fromTokens_canonical_quotes :
    (ParsedWord.fromUnits ([.part (.text [] true), .literal (chr 'b') false] :
        List (WordUnit Unit))).Canonical ∧
      (ParsedWord.fromUnits ([.part (.text [] true), .literal (chr 'b') false] :
        List (WordUnit Unit))).units = [.part (.text [] true), .literal (chr 'b') false] := by
  have hword : (ParsedWord.mk [.text (text "a") false, .text [] true, .text (text "b") false]
      (text "ab") : ParsedWord Unit).Canonical := by
    refine .mk ?_ ?_ rfl
    · intro part hmem
      simp only [List.mem_cons, List.not_mem_nil, or_false] at hmem
      rcases hmem with rfl | rfl | rfl
      · exact .text (Or.inl (by decide))
      · exact .text (Or.inr rfl)
      · exact .text (Or.inl (by decide))
    · simp [Apart]
  exact (fromTokens_canonical [.literal (chr 'a'), .quoteOpen, .quoteClose, .literal (chr 'b')]
    _ hword 1).2.2.2

end Nsh.Words
