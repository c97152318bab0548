import Nsh.Quoting.Lexer

/-!
# The bytes of a word and what quotes them

A word of bytes, characters and quotes is a string of bytes, each quoted or not.  The
decoder keeps the string: what the events spell is what the parts of the word spell.
-/

namespace Nsh.Quoting

open Nsh.Words

variable {N : Type}

/-- A byte and whether it is quoted. -/
abbrev Mark := UInt8 × Bool

/-- An event that is a byte, a character or a quote. -/
def isFlat : WordToken N → Bool
  | .literal _ | .inert _ | .character _ _ _ | .quoteOpen | .quoteClose => true
  | _ => false

/-- The marks of some events, inside this many quotes. -/
def marks : Nat → List (WordToken N) → List Mark
  | _, [] => []
  | depth, token :: rest =>
    match token with
    | .literal byte => (byte, decide (0 < depth)) :: marks depth rest
    | .inert byte => (byte, true) :: marks depth rest
    | .character bytes _ inert =>
      bytes.map (fun byte => (byte, inert || decide (0 < depth))) ++ marks depth rest
    | .quoteOpen => marks (depth + 1) rest
    | .quoteClose => marks (depth - 1) rest
    | _ => marks depth rest

def partMarks : WordPart N → List Mark
  | .text bytes quoted => bytes.map fun byte => (byte, quoted)
  | _ => []

def wordMarks (word : ParsedWord N) : List Mark := word.parts.flatMap partMarks

/-- A part that is a run of bytes. -/
def isText : WordPart N → Bool
  | .text _ _ => true
  | _ => false

theorem pushText_marks (parts : List (WordPart N)) (bytes : Bytes) (quoted : Bool) :
    (pushText parts bytes quoted).flatMap partMarks =
      parts.flatMap partMarks ++ bytes.map fun byte => (byte, quoted) := by
  refine flatMap_absorb partMarks rfl fun last grown hgrown => ?_
  cases last with
  | text run runQuoted =>
    obtain ⟨rfl, hgrown⟩ := Option.ite_none_right_eq_some.mp hgrown
    cases hgrown
    exact List.map_append
  | _ => cases hgrown

theorem pushText_isText {parts : List (WordPart N)} (h : ∀ part ∈ parts, isText part = true)
    (bytes : Bytes) (quoted : Bool) :
    ∀ part ∈ pushText parts bytes quoted, isText part = true := by
  refine forall_mem_absorb h rfl fun last grown hgrown _ => ?_
  cases last with
  | text run runQuoted =>
    obtain ⟨_, hgrown⟩ := Option.ite_none_right_eq_some.mp hgrown
    cases hgrown
    rfl
  | _ => cases hgrown

/-- A word is a string of marks once the empty runs that nothing quotes are gone. -/
theorem fromParts_marks (parts : List (WordPart N)) :
    wordMarks (.fromParts parts) = parts.flatMap partMarks := by
  change (parts.filter fun part => !part.isEmptyRun).flatMap partMarks = _
  induction parts with
  | nil => rfl
  | cons part parts ih =>
    by_cases hempty : part.isEmptyRun = true
    · rw [List.filter_cons_of_neg (by simp [hempty]), ih, List.flatMap_cons]
      cases part with
      | text bytes quoted =>
        have hbytes : bytes = [] := by
          rw [WordPart.isEmptyRun, Bool.and_eq_true] at hempty
          exact List.isEmpty_iff.mp hempty.1
        rw [hbytes]
        rfl
      | parameter name operation colon indirect operand quoted => cases hempty
      | command command quoted => cases hempty
      | arithmetic expression quoted => cases hempty
    · rw [List.filter_cons_of_pos (by simp [hempty]), List.flatMap_cons, List.flatMap_cons, ih]

theorem fromParts_isText {parts : List (WordPart N)} (h : ∀ part ∈ parts, isText part = true) :
    ∀ part ∈ (ParsedWord.fromParts parts).parts, isText part = true :=
  fun part hpart => h part (List.mem_filter.mp hpart).1

/-- **The decoder keeps the marks** of a word without expansions. -/
theorem wordUntil_marks (tokens : List (WordToken N)) (hflat : ∀ token ∈ tokens, isFlat token) :
    ∀ (fuel : Nat) (b : Building N) (deepest : Nat), tokens.length ≤ fuel →
      (∀ part ∈ b.parts, isText part = true) →
      ∃ word, wordUntil fuel b deepest tokens = some ⟨word, [], deepest⟩ ∧
        wordMarks word = b.parts.flatMap partMarks ++ marks b.depth tokens ∧
        ∀ part ∈ word.parts, isText part = true := by
  induction tokens with
  | nil =>
    intro fuel b deepest _ htext
    refine ⟨.fromParts b.parts, ?_, ?_, fromParts_isText htext⟩
    · cases fuel <;> rfl
    · rw [fromParts_marks, marks, List.append_nil]
  | cons token tokens ih =>
    intro fuel b deepest hfuel htext
    have hrest := ih fun token hmem => hflat token (List.mem_cons_of_mem _ hmem)
    have htoken := hflat token List.mem_cons_self
    cases fuel with
    | zero => exact absurd hfuel (by simp)
    | succ fuel =>
      have hless : tokens.length ≤ fuel := by simpa using hfuel
      have hpushed : ∀ (bytes : Bytes) (quoted : Bool), ∃ word,
          wordUntil fuel (b.text bytes quoted) deepest tokens = some ⟨word, [], deepest⟩ ∧
            wordMarks word = b.parts.flatMap partMarks ++
              ((bytes.map fun byte => (byte, quoted)) ++ marks b.depth tokens) ∧
            ∀ part ∈ word.parts, isText part = true := by
        intro bytes quoted
        obtain ⟨word, hword, hmarks, hparts⟩ := hrest fuel (b.text bytes quoted) deepest hless
          (pushText_isText htext bytes quoted)
        refine ⟨word, hword, ?_, hparts⟩
        rw [hmarks, Building.text, pushText_marks, List.append_assoc]
      cases token with
      | literal byte => exact hpushed [byte] b.quoted
      | inert byte => exact hpushed [byte] true
      | character bytes complete inert => exact hpushed bytes (inert || b.quoted)
      | quoteOpen => exact hrest fuel b.quoteOpen deepest hless htext
      | quoteClose =>
        obtain ⟨word, hword, hmarks, hparts⟩ := hrest fuel b.quoteClose deepest hless (by
          unfold Building.quoteClose
          dsimp only
          split_ifs
          · exact pushText_isText htext [] true
          · exact htext)
        refine ⟨word, hword, ?_, hparts⟩
        rw [hmarks]
        have hquoted : b.quoteClose.parts.flatMap partMarks = b.parts.flatMap partMarks ∧
            b.quoteClose.depth = b.depth - 1 := by
          unfold Building.quoteClose
          dsimp only
          split_ifs
          · refine ⟨?_, rfl⟩
            rw [Building.text, pushText_marks, List.map_nil, List.append_nil]
          · exact ⟨rfl, rfl⟩
        rw [hquoted.1, hquoted.2]
        rfl
      | parameterStart name operation colon indirect => cases htoken
      | parameterEnd => cases htoken
      | command command => cases htoken
      | arithmeticStart => cases htoken
      | arithmeticEnd => cases htoken

theorem decode_marks {tokens : List (WordToken N)} (hflat : ∀ token ∈ tokens, isFlat token) :
    ∃ word, decode tokens = some ⟨word, [], 0⟩ ∧ wordMarks word = marks 0 tokens ∧
      ∀ part ∈ word.parts, isText part = true :=
  wordUntil_marks tokens hflat tokens.length {} 0 le_rfl (fun part hpart => by cases hpart)

end Nsh.Quoting
