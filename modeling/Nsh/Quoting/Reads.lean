import Nsh.Quoting.Marks
import Mathlib.Data.List.TakeWhile

/-!
# What the lexer makes of a piece of text

`Reads` says of a piece of text in a context that the lexer turns it into these marks and
goes on behind it in a context of its own.  Pieces that follow one another compose, so a
quoting is read piece by piece.
-/

namespace Nsh.Quoting

open Nsh.Parser (SyntaxClass SyntaxContext classify controlBytes separators)
open Nsh.Words

/-- How many quotes a context is inside. -/
def Context.depth : Context → Nat
  | .base => 0
  | _ => 1

def Context.quoted (context : Context) : Bool := decide (0 < context.depth)

variable (N : Type) (s : Surroundings)

/-- In the context `before` the lexer reads `piece` as the marks `written`, and goes on at
`tail` in the context `after`. -/
def Reads (before after : Context) (piece tail : Bytes) (written : List Mark) : Prop :=
  ∃ (cost : Nat) (tokens : List (WordToken N)), cost ≤ piece.length ∧
    (∀ token ∈ tokens, isFlat token = true ∧ isNull token = false) ∧
    (∀ more, marks before.depth (tokens ++ more) = written ++ marks after.depth more) ∧
    ∀ (fuel : Nat) (output : List (WordToken N)), (∀ token ∈ output, isNull token = false) →
      lexWord s (fuel + cost) before output (piece ++ tail) =
        lexWord s fuel after (output ++ tokens) tail

variable {N} {s}

theorem Reads.refl (context : Context) (tail : Bytes) :
    Reads N s context context [] tail [] := by
  refine ⟨0, [], le_rfl, ?_, fun more => rfl, ?_⟩
  · intro token hmem
    cases hmem
  · intro fuel output _
    rw [List.nil_append, List.append_nil, Nat.add_zero]

theorem Reads.trans {before between after : Context} {first second tail : Bytes}
    {written more : List Mark} (hfirst : Reads N s before between first (second ++ tail) written)
    (hsecond : Reads N s between after second tail more) :
    Reads N s before after (first ++ second) tail (written ++ more) := by
  obtain ⟨cost₁, tokens₁, hcost₁, hflat₁, hmarks₁, hlex₁⟩ := hfirst
  obtain ⟨cost₂, tokens₂, hcost₂, hflat₂, hmarks₂, hlex₂⟩ := hsecond
  refine ⟨cost₂ + cost₁, tokens₁ ++ tokens₂, ?_, ?_, ?_, ?_⟩
  · rw [List.length_append]
    omega
  · intro token hmem
    rcases List.mem_append.mp hmem with hmem | hmem
    · exact hflat₁ token hmem
    · exact hflat₂ token hmem
  · intro rest
    rw [List.append_assoc, hmarks₁, hmarks₂, List.append_assoc]
  · intro fuel output hnull
    have hnull' : ∀ token ∈ output ++ tokens₁, isNull token = false := by
      intro token hmem
      rcases List.mem_append.mp hmem with hmem | hmem
      · exact hnull token hmem
      · exact (hflat₁ token hmem).2
    rw [← Nat.add_assoc, List.append_assoc, hlex₁ _ _ hnull, hlex₂ _ _ hnull',
      List.append_assoc]

/-- One step of the lexer. -/
theorem Reads.of_step {before after : Context} {piece tail : Bytes} {written : List Mark}
    (tokens : List (WordToken N)) (hpiece : piece ≠ [])
    (hflat : ∀ token ∈ tokens, isFlat token = true ∧ isNull token = false)
    (hmarks : ∀ more, marks before.depth (tokens ++ more) = written ++ marks after.depth more)
    (hlex : ∀ (fuel : Nat) (output : List (WordToken N)),
      (∀ token ∈ output, isNull token = false) →
      lexWord s (fuel + 1) before output (piece ++ tail) =
        lexWord s fuel after (output ++ tokens) tail) :
    Reads N s before after piece tail written :=
  ⟨1, tokens, List.length_pos_iff.mpr hpiece, hflat, hmarks, hlex⟩

/-! ### Bytes of data -/

theorem characterWidth_ascii {byte : UInt8} (h : isAscii byte = true) (rest : Bytes) :
    characterWidth s (byte :: rest) = none := by
  rw [characterWidth]
  exact if_pos h

/-- What a byte that the context keeps as it stands becomes. -/
def keeps (context : Context) (byte : UInt8) : Bool :=
  match context.classOf byte with
  | .word => decide (context ≠ .base) || decide (byte ≠ chr '[' ∧ byte ≠ chr ']')
  | .newline => decide (context ≠ .base)
  | .control => decide (context ≠ .dollarSingleQuoted ∨ byte ≠ chr '\\')
  | .endVariable => true
  | _ => false

/-- A byte above ASCII is no byte of ASCII. -/
theorem ne_of_high {byte other : UInt8} (h : isAscii byte = false) (hother : isAscii other = true) :
    byte ≠ other := by
  rintro rfl
  rw [h] at hother
  cases hother

theorem not_mem_of_high {byte : UInt8} {bytes : Bytes} (h : isAscii byte = false)
    (hbytes : bytes.all isAscii = true) : byte ∉ bytes :=
  fun hmem => ne_of_high h (List.all_eq_true.mp hbytes byte hmem) rfl

/-- A byte above ASCII is data in every context, and opens nothing. -/
theorem keeps_of_high (context : Context) {byte : UInt8} (h : isAscii byte = false) :
    keeps context byte = true ∧ byte ≠ 0 ∧ byte ∉ chr '<' :: chr '>' :: groupBytes := by
  have hnewline : byte ≠ 0x0a := ne_of_high h rfl
  have hslash : byte ≠ chr '\\' := ne_of_high h rfl
  have hsingle : byte ≠ 0x27 := ne_of_high h rfl
  have hdouble : byte ≠ chr '"' := ne_of_high h rfl
  have hback : byte ≠ 0x60 := ne_of_high h rfl
  have hdollar : byte ≠ chr '$' := ne_of_high h rfl
  have hbrace : byte ≠ 0x7d := ne_of_high h rfl
  have hseparators : byte ∉ separators := not_mem_of_high h rfl
  have hcontrol : byte ∉ controlBytes := not_mem_of_high h rfl
  have hword : context.classOf byte = .word := by
    cases context with
    | base =>
      rw [Context.classOf, Context.syntaxContext, classify, if_neg hnewline, if_neg hslash,
        if_neg hsingle, if_neg hdouble, if_neg hback,
        if_neg hdollar, if_neg hbrace, if_neg hseparators]
    | doubleQuoted =>
      rw [Context.classOf, Context.syntaxContext, classify, if_neg hnewline, if_neg hslash,
        if_neg hdouble, if_neg hback, if_neg hdollar,
        if_neg hbrace, if_neg hcontrol]
    | singleQuoted =>
      rw [Context.classOf, Context.syntaxContext, classify, if_neg hnewline, if_neg hsingle,
        if_neg (not_or.mpr ⟨hcontrol, hslash⟩)]
    | dollarSingleQuoted =>
      rw [Context.classOf, Context.syntaxContext, classify, if_neg hnewline, if_neg hsingle,
        if_neg (not_or.mpr ⟨hcontrol, hslash⟩)]
  have hopen : byte ≠ chr '[' := ne_of_high h rfl
  have hclose : byte ≠ chr ']' := ne_of_high h rfl
  refine ⟨?_, ne_of_high h rfl, not_mem_of_high h rfl⟩
  rw [keeps, hword]
  simp [hopen, hclose]

theorem nextUnit_of_ne {context : Context} {byte : UInt8} (h : byte ≠ chr '\\') (rest : Bytes) :
    nextUnit context (byte :: rest) = byte :: rest := by
  have hskip : skipContinuations (byte :: rest) = byte :: rest := by
    cases rest with
    | nil => rfl
    | cons next rest =>
      rw [skipContinuations]
      exact if_neg fun hboth => h hboth.1
  cases context with
  | base => exact hskip
  | doubleQuoted => exact hskip
  | singleQuoted => rfl
  | dollarSingleQuoted => rfl

theorem nextUnit_of_keeps {context : Context} {byte : UInt8} (h : keeps context byte = true)
    (rest : Bytes) : nextUnit context (byte :: rest) = byte :: rest := by
  by_cases hbyte : byte = chr '\\'
  · subst hbyte
    cases context with
    | base => exact absurd h (by decide)
    | doubleQuoted => exact absurd h (by decide)
    | singleQuoted => rfl
    | dollarSingleQuoted => rfl
  · exact nextUnit_of_ne hbyte rest

/-- A byte that belongs to no character of several bytes and that the context keeps. -/
theorem reads_kept {context : Context} {byte : UInt8} {tail : Bytes} (hbyte : byte ≠ 0)
    (hkeeps : keeps context byte = true) (hwidth : characterWidth s (byte :: tail) = none)
    (hgroup : context = .base → opensGroup s byte tail = false) :
    Reads N s context context [byte] tail [(byte, context.quoted)] := by
  have hunit := nextUnit_of_keeps hkeeps tail
  have hopens : ¬(context = .base ∧ opensGroup s byte tail = true) := by
    rintro ⟨hbase, hopen⟩
    rw [hgroup hbase] at hopen
    cases hopen
  have hliteral : ∀ token ∈ [(.literal byte : WordToken N)],
      isFlat token = true ∧ isNull token = false := by
    intro token hmem
    rw [List.mem_singleton.mp hmem]
    exact ⟨rfl, by simpa [isNull] using hbyte⟩
  unfold keeps at hkeeps
  cases hclass : context.classOf byte with
  | word =>
    refine Reads.of_step [.literal byte] (by simp) hliteral (fun more => rfl) ?_
    intro fuel output _
    rw [hclass] at hkeeps
    have hbracket : ¬(context = .base ∧ s.bash = true ∧ s.subscripts = true ∧
        (byte = chr '[' ∨ byte = chr ']')) := by
      rintro ⟨hbase, _, _, hbracket⟩
      rcases hbracket with rfl | rfl <;> simp [hbase] at hkeeps
    rw [lexWord, List.singleton_append, hunit]
    simp only [if_neg hopens, hwidth, hclass, if_neg hbracket]
  | newline =>
    refine Reads.of_step [.literal byte] (by simp) hliteral (fun more => rfl) ?_
    intro fuel output _
    rw [hclass] at hkeeps
    have hbase : context ≠ .base := by simpa using hkeeps
    rw [lexWord, List.singleton_append, hunit]
    simp only [if_neg hopens, hwidth, hclass, if_neg hbase]
  | endVariable =>
    refine Reads.of_step [.literal byte] (by simp) hliteral (fun more => rfl) ?_
    intro fuel output _
    rw [lexWord, List.singleton_append, hunit]
    simp only [if_neg hopens, hwidth, hclass]
  | control =>
    have hquoted : context.quoted = true := by
      cases context with
      | base =>
        rw [Context.classOf, Context.syntaxContext, classify] at hclass
        split_ifs at hclass
      | doubleQuoted => rfl
      | singleQuoted => rfl
      | dollarSingleQuoted => rfl
    refine Reads.of_step [.inert byte] (by simp) ?_ ?_ ?_
    · intro token hmem
      rw [List.mem_singleton.mp hmem]
      exact ⟨rfl, by simpa [isNull] using hbyte⟩
    · intro more
      rw [hquoted]
      rfl
    · intro fuel output _
      rw [hclass] at hkeeps
      have hescape : ¬(context = .dollarSingleQuoted ∧ byte = chr '\\') := by
        rintro ⟨hdollar, hslash⟩
        simp [hdollar, hslash] at hkeeps
      rw [lexWord, List.singleton_append, hunit]
      simp only [if_neg hopens, hwidth, hclass, if_neg hescape]
  | backslash => rw [hclass] at hkeeps; cases hkeeps
  | singleQuote => rw [hclass] at hkeeps; cases hkeeps
  | doubleQuote => rw [hclass] at hkeeps; cases hkeeps
  | endQuote => rw [hclass] at hkeeps; cases hkeeps
  | backquote => rw [hclass] at hkeeps; cases hkeeps
  | «variable» => rw [hclass] at hkeeps; cases hkeeps
  | wordSeparator => rw [hclass] at hkeeps; cases hkeeps
  | endOfInput => rw [hclass] at hkeeps; cases hkeeps

/-! ### Quotes -/

/-- A byte that opens no group, whatever stands behind it. -/
theorem opensGroup_eq_false {byte : UInt8} (h : byte ∉ chr '<' :: chr '>' :: groupBytes)
    (rest : Bytes) : opensGroup s byte rest = false := by
  rw [List.mem_cons, List.mem_cons, not_or, not_or] at h
  obtain ⟨hless, hgreater, hgroup⟩ := h
  rw [opensGroup, beq_eq_false_iff_ne.mpr hless, beq_eq_false_iff_ne.mpr hgreater,
    decide_eq_false hgroup]
  simp

/-- The lexer at an apostrophe or a double quote outside quotes. -/
theorem lexWord_opening {byte : UInt8} {after : Context}
    (h : byte = 0x27 ∧ after = .singleQuoted ∨ byte = chr '"' ∧ after = .doubleQuoted)
    (fuel : Nat) (output : List (WordToken N)) (tail : Bytes) :
    lexWord s (fuel + 1) .base output (byte :: tail) =
      lexWord s fuel after (output ++ [.quoteOpen]) tail := by
  rcases h with ⟨rfl, rfl⟩ | ⟨rfl, rfl⟩
  · have hopens : opensGroup s 0x27 tail = false := opensGroup_eq_false (by decide) tail
    have hwidth : characterWidth s (0x27 :: tail) = none := characterWidth_ascii (by decide) tail
    rw [lexWord, nextUnit_of_ne (by decide)]
    simp only [hopens, hwidth]
    rfl
  · have hopens : opensGroup s (chr '"') tail = false := opensGroup_eq_false (by decide) tail
    have hwidth : characterWidth s (chr '"' :: tail) = none :=
      characterWidth_ascii (by decide) tail
    rw [lexWord, nextUnit_of_ne (by decide)]
    simp only [hopens, hwidth]
    rfl

/-- The lexer at a dollar in front of an apostrophe. -/
theorem lexWord_dollar_opening (fuel : Nat) (output : List (WordToken N)) (tail : Bytes) :
    lexWord s (fuel + 1) .base output (chr '$' :: 0x27 :: tail) =
      lexWord s fuel .dollarSingleQuoted (output ++ [.quoteOpen]) tail := by
  have hopens : opensGroup s (chr '$') (0x27 :: tail) = false :=
    opensGroup_eq_false (by decide) _
  have hwidth : characterWidth s (chr '$' :: 0x27 :: tail) = none :=
    characterWidth_ascii (by decide) _
  have hnext : nextUnit .base (0x27 :: tail) = 0x27 :: tail := nextUnit_of_ne (by decide) tail
  change skipContinuations (0x27 :: tail) = 0x27 :: tail at hnext
  rw [lexWord, nextUnit_of_ne (by decide)]
  simp only [hopens, hwidth, hnext]
  rfl

/-- The byte that closes the quotes of a context. -/
def Context.closing : Context → UInt8
  | .doubleQuoted => chr '"'
  | _ => 0x27

theorem takeWhile_not_null {output : List (WordToken N)}
    (h : ∀ token ∈ output, isNull token = false) :
    (output.takeWhile fun token => !isNull token) = output := by
  rw [List.takeWhile_eq_self_iff]
  intro token hmem
  rw [h token hmem]
  rfl

/-- The lexer at the quote that closes. -/
theorem lexWord_closing {context : Context} (h : context ≠ .base) (fuel : Nat)
    {output : List (WordToken N)} (hnull : ∀ token ∈ output, isNull token = false)
    (tail : Bytes) :
    lexWord s (fuel + 1) context output (context.closing :: tail) =
      lexWord s fuel .base (output ++ [.quoteClose]) tail := by
  have hclose : closeQuote context output = output ++ [.quoteClose] := by
    rw [closeQuote]
    split_ifs
    · rw [takeWhile_not_null hnull]
    · rfl
  have hascii : isAscii context.closing = true := by cases context <;> rfl
  have hclass : context.classOf context.closing = .endQuote := by
    cases context with
    | base => exact absurd rfl h
    | doubleQuoted => decide
    | singleQuoted => decide
    | dollarSingleQuoted => decide
  have hslash : context.closing ≠ chr '\\' := by cases context <;> decide
  rw [lexWord, nextUnit_of_ne hslash]
  simp only [h, false_and, if_false, characterWidth_ascii hascii, hclass, hclose]

theorem quoteOpen_flat : ∀ token ∈ [(.quoteOpen : WordToken N)],
    isFlat token = true ∧ isNull token = false := by
  intro token hmem
  rw [List.mem_singleton.mp hmem]
  exact ⟨rfl, rfl⟩

theorem reads_opening {byte : UInt8} {after : Context} {tail : Bytes}
    (h : byte = 0x27 ∧ after = .singleQuoted ∨ byte = chr '"' ∧ after = .doubleQuoted) :
    Reads N s .base after [byte] tail [] := by
  refine Reads.of_step [.quoteOpen] (by simp) quoteOpen_flat ?_ ?_
  · intro more
    rcases h with ⟨_, rfl⟩ | ⟨_, rfl⟩ <;> rfl
  · intro fuel output _
    exact lexWord_opening h fuel output tail

theorem reads_dollar_opening (tail : Bytes) :
    Reads N s .base .dollarSingleQuoted [chr '$', 0x27] tail [] := by
  refine Reads.of_step [.quoteOpen] (by simp) quoteOpen_flat (fun more => rfl) ?_
  intro fuel output _
  exact lexWord_dollar_opening fuel output tail

theorem reads_closing {context : Context} (h : context ≠ .base) (tail : Bytes) :
    Reads N s context .base [context.closing] tail [] := by
  refine Reads.of_step [.quoteClose] (by simp) ?_ ?_ ?_
  · intro token hmem
    rw [List.mem_singleton.mp hmem]
    exact ⟨rfl, rfl⟩
  · intro more
    cases context with
    | base => exact absurd rfl h
    | doubleQuoted => rfl
    | singleQuoted => rfl
    | dollarSingleQuoted => rfl
  · intro fuel output hnull
    exact lexWord_closing h fuel hnull tail

/-- A backslash that quotes the byte behind it. -/
theorem reads_backslash {context : Context} {byte : UInt8} {tail : Bytes} (hbyte : byte ≠ 0)
    (hascii : isAscii byte = true)
    (h : context = .base ∧ byte ≠ 0x0a ∨
      context = .doubleQuoted ∧ byte ∈ [chr '\\', 0x60, chr '$', chr '"']) :
    Reads N s context context [chr '\\', byte] tail [(byte, true)] := by
  refine Reads.of_step [.inert byte] (by simp) ?_ (fun more => rfl) ?_
  · intro token hmem
    rw [List.mem_singleton.mp hmem]
    exact ⟨rfl, by simpa [isNull] using hbyte⟩
  · intro fuel output _
    have hnewline : byte ≠ 0x0a := by
      rcases h with ⟨_, hne⟩ | ⟨_, hmem⟩
      · exact hne
      · rintro rfl
        exact absurd hmem (by decide)
    have hunit : nextUnit context (chr '\\' :: byte :: tail) = chr '\\' :: byte :: tail := by
      rcases h with ⟨rfl, _⟩ | ⟨rfl, _⟩
      all_goals
        rw [nextUnit, skipContinuations]
        exact if_neg fun hboth => hnewline hboth.2
    have hclass : context.classOf (chr '\\') = .backslash := by
      rcases h with ⟨rfl, _⟩ | ⟨rfl, _⟩ <;> decide
    have hkept : ¬(context = .doubleQuoted ∧ byte ∉ [chr '\\', 0x60, chr '$', chr '"']) := by
      rintro ⟨hdouble, hmem⟩
      rcases h with ⟨hbase, _⟩ | ⟨_, hin⟩
      · rw [hbase] at hdouble
        cases hdouble
      · exact hmem hin
    have hread : readBackslash (N := N) s context (byte :: tail) = ([.inert byte], tail) := by
      rw [readBackslash]
      simp only [if_neg hkept, characterWidth_ascii hascii, List.nil_append]
    have hopens : opensGroup s (chr '\\') (byte :: tail) = false :=
      opensGroup_eq_false (by decide) _
    have hwidth : characterWidth s (chr '\\' :: byte :: tail) = none :=
      characterWidth_ascii (by decide) _
    change lexWord s (fuel + 1) context output (chr '\\' :: byte :: tail) = _
    rw [lexWord, hunit]
    simp only [hopens, Bool.false_eq_true, and_false, if_false, hwidth, hclass, hread]

/-- A backslash inside `$'…'` that is decoded to one byte. -/
theorem reads_escape {byte : UInt8} {rest tail : Bytes} (hbyte : byte ≠ 0)
    (h : parseDollarSingleQuoteEscape s (rest ++ tail) = ⟨[byte], rest.length⟩) :
    Reads N s .dollarSingleQuoted .dollarSingleQuoted (chr '\\' :: rest) tail
      [(byte, true)] := by
  refine Reads.of_step [.literal byte] (by simp) ?_ (fun more => rfl) ?_
  · intro token hmem
    rw [List.mem_singleton.mp hmem]
    exact ⟨rfl, by simpa [isNull] using hbyte⟩
  · intro fuel output _
    have hdrop : (rest ++ tail).drop rest.length = tail := List.drop_left' rfl
    have hclass : Context.classOf .dollarSingleQuoted (chr '\\') = .control := by decide
    have hwidth : characterWidth s (chr '\\' :: (rest ++ tail)) = none :=
      characterWidth_ascii (by decide) _
    rw [List.cons_append, lexWord, nextUnit]
    simp only [hwidth, hclass, h, hdrop]
    rfl

/-! ### Characters of several bytes -/

/-- A character of several bytes in front of the text. -/
theorem reads_character {context : Context} {piece tail : Bytes}
    (hwidth : characterWidth s (piece ++ tail) = some piece.length)
    (hhigh : ∀ byte ∈ piece, isAscii byte = false)
    (hblank : context = .base → s.isBlank piece = false) :
    Reads N s context context piece tail (piece.map fun byte => (byte, context.quoted)) := by
  cases piece with
  | nil =>
    exfalso
    cases tail with
    | nil => cases hwidth
    | cons byte rest =>
      rw [List.nil_append, characterWidth] at hwidth
      split_ifs at hwidth
      have hone := (Option.filter_eq_some_iff.mp hwidth).2
      simp at hone
  | cons byte rest =>
    have hhead := hhigh byte List.mem_cons_self
    refine Reads.of_step [.character (byte :: rest) (by simp) false] (by simp) ?_ ?_ ?_
    · intro token hmem
      rw [List.mem_singleton.mp hmem]
      exact ⟨rfl, rfl⟩
    · intro more
      cases context <;> rfl
    · intro fuel output _
      have hslash : byte ≠ chr '\\' := by
        rintro rfl
        cases hhead
      obtain ⟨_, _, hgroup⟩ := keeps_of_high context hhead
      have hopens := opensGroup_eq_false (s := s) hgroup (rest ++ tail)
      have htake : (byte :: (rest ++ tail)).take (byte :: rest).length = byte :: rest :=
        @List.take_left' _ (byte :: rest) tail _ rfl
      have hdrop : (byte :: (rest ++ tail)).drop (byte :: rest).length = tail :=
        @List.drop_left' _ (byte :: rest) tail _ rfl
      have hblank' : ¬(context = .base ∧ s.isBlank (byte :: rest) = true) := by
        rintro ⟨hbase, hyes⟩
        rw [hblank hbase] at hyes
        cases hyes
      rw [List.cons_append] at hwidth ⊢
      rw [lexWord, nextUnit_of_ne hslash]
      simp only [hopens, Bool.false_eq_true, and_false, if_false, hwidth, htake, hdrop,
        if_neg hblank']
      rfl

/-! ### Text between quotes -/

/-- What a locale promises when a byte of ASCII is always a character of its own. -/
structure Transparent (locale : Locale) : Prop where
  /-- A character of several bytes holds no byte of ASCII. -/
  high : ∀ bytes width, locale.multibyteLen bytes = some width → 1 < width →
    ∀ byte ∈ bytes.take width, isAscii byte = false
  /-- The bytes behind the next byte of ASCII say nothing about the character in front. -/
  front : ∀ byte rest, isAscii byte = false →
    locale.multibyteLen (byte :: rest) =
      locale.multibyteLen ((byte :: rest).takeWhile fun byte => !isAscii byte)

variable (N) (s)

/-- A text in front of `tail` that is read in one context: bytes above ASCII, which the
locale may take for characters, and pieces that begin in ASCII. -/
inductive Body (context : Context) (tail : Bytes) : Bytes → List Mark → Prop
  | nil : Body context tail [] []
  | high (byte : UInt8) {rest : Bytes} {written : List Mark} :
      isAscii byte = false →
      (context = .base → ∀ width, characterWidth s (byte :: (rest ++ tail)) = some width →
        s.isBlank ((byte :: (rest ++ tail)).take width) = false) →
      Body context tail rest written →
      Body context tail (byte :: rest) ((byte, context.quoted) :: written)
  | piece (byte : UInt8) (more : Bytes) {rest : Bytes} {own written : List Mark} :
      isAscii byte = true →
      Reads N s context context (byte :: more) (rest ++ tail) own →
      Body context tail rest written →
      Body context tail (byte :: more ++ rest) (own ++ written)

variable {N} {s}

/-- A piece that is read as one byte. -/
theorem Body.one {context : Context} {tail : Bytes} (byte : UInt8) (more : Bytes) {rest : Bytes}
    {mark : Mark} {written : List Mark} (hascii : isAscii byte = true)
    (hpiece : Reads N s context context (byte :: more) (rest ++ tail) [mark])
    (h : Body N s context tail rest written) :
    Body N s context tail (byte :: more ++ rest) (mark :: written) :=
  Body.piece byte more hascii hpiece h

/-- The bytes above ASCII in front of a text are kept. -/
theorem Body.behind_high {context : Context} {tail front : Bytes}
    (hhigh : ∀ byte ∈ front, isAscii byte = false) {behind : Bytes} {written : List Mark}
    (h : Body N s context tail (front ++ behind) written) :
    ∃ more, written = front.map (fun byte => (byte, context.quoted)) ++ more ∧
      Body N s context tail behind more := by
  induction front generalizing written with
  | nil => exact ⟨written, rfl, h⟩
  | cons byte front ih =>
    have hbyte := hhigh byte List.mem_cons_self
    generalize htext : byte :: front ++ behind = body at h
    cases h with
    | nil => cases htext
    | @high first rest written _ _ hrest =>
      rw [List.cons_append] at htext
      obtain ⟨rfl, rfl⟩ := List.cons.inj htext
      obtain ⟨more, hmore, hbehind⟩ := ih (fun b hb => hhigh b (List.mem_cons_of_mem _ hb)) hrest
      exact ⟨more, by rw [hmore]; rfl, hbehind⟩
    | @piece first more rest own written hascii _ _ =>
      rw [List.cons_append, List.cons_append] at htext
      rw [(List.cons.inj htext).1, hascii] at hbyte
      cases hbyte

/-- A run of bytes with a property ends in front of a byte without it. -/
theorem length_le_of_take {α : Type} {p : α → Prop} {front back : List α} {count : Nat}
    (hcount : count ≤ (front ++ back).length) (htake : ∀ a ∈ (front ++ back).take count, p a)
    (hback : ∀ a ∈ back.head?, ¬p a) : count ≤ front.length := by
  by_contra hlong
  cases back with
  | nil =>
    rw [List.append_nil] at hcount
    exact hlong hcount
  | cons a back =>
    refine hback a rfl (htake a ?_)
    rw [List.take_append, List.mem_append]
    right
    obtain ⟨extra, hextra⟩ : ∃ extra, count - front.length = extra + 1 := ⟨count - front.length - 1,
      by omega⟩
    rw [hextra, List.take_succ_cons]
    exact List.mem_cons_self

theorem characterWidth_some {bytes : Bytes} {width : Nat}
    (h : characterWidth s bytes = some width) :
    s.locale.multibyteLen bytes = some width ∧ 1 < width ∧ width ≤ bytes.length := by
  cases bytes with
  | nil => cases h
  | cons byte rest =>
    rw [characterWidth] at h
    split_ifs at h
    have hfound := Option.filter_eq_some_iff.mp h
    exact ⟨hfound.1, by simpa using hfound.2, s.locale.multibyteLen_le _ _ hfound.1⟩

/-- **The lexer reads a body** as its marks, where what stands behind begins in ASCII. -/
theorem Body.reads (hlocale : Transparent s.locale) {context : Context} {tail : Bytes}
    (htail : ∀ byte ∈ tail.head?, isAscii byte = true) {body : Bytes} {written : List Mark}
    (hbody : Body N s context tail body written) :
    Reads N s context context body tail written := by
  induction hlength : body.length using Nat.strong_induction_on generalizing body written with
  | _ length ih =>
    subst hlength
    have hcases := hbody
    cases hcases with
    | nil => exact Reads.refl context tail
    | @piece byte more rest own written _ hpiece hrest =>
      refine Reads.trans hpiece (ih rest.length ?_ hrest rfl)
      rw [List.length_append, List.length_cons]
      omega
    | @high byte rest written hbyte hblank hrest =>
      cases hwidth : characterWidth s (byte :: (rest ++ tail)) with
      | none =>
        obtain ⟨hkeeps, hnull, hgroup⟩ := keeps_of_high context hbyte
        have hone : Reads N s context context [byte] (rest ++ tail)
            [(byte, context.quoted)] :=
          reads_kept hnull hkeeps hwidth fun _ => opensGroup_eq_false hgroup _
        exact Reads.trans hone (ih rest.length (by simp) hrest rfl)
      | some width =>
        obtain ⟨hlen, hone, hle⟩ := characterWidth_some hwidth
        have hhigh := hlocale.high _ _ hlen hone
        have hle : width ≤ (byte :: rest ++ tail).length := hle
        have hinside : width ≤ (byte :: rest).length := by
          refine length_le_of_take (p := fun b => isAscii b = false) hle hhigh ?_
          intro b hb hfalse
          rw [htail b hb] at hfalse
          cases hfalse
        -- The character lies inside the body, so the body goes on behind it.
        have htake : (byte :: (rest ++ tail)).take width = (byte :: rest).take width :=
          List.take_append_of_le_length hinside
        have hfront : ∀ b ∈ (byte :: rest).take width, isAscii b = false := by
          rw [← htake]
          exact hhigh
        have hsplit : (byte :: rest).take width ++ (byte :: rest).drop width = byte :: rest :=
          List.take_append_drop width (byte :: rest)
        have htaken : ((byte :: rest).take width).length = width := by
          rw [List.length_take]
          exact Nat.min_eq_left hinside
        obtain ⟨more, hmore, hbehind⟩ := Body.behind_high hfront (hsplit.symm ▸ hbody)
        have hless : ((byte :: rest).drop width).length < (byte :: rest).length := by
          rw [List.length_drop]
          omega
        have hboth : Reads N s context context
            ((byte :: rest).take width ++ (byte :: rest).drop width) tail
            (((byte :: rest).take width).map (fun byte => (byte, context.quoted)) ++ more) := by
          refine Reads.trans (reads_character ?_ hfront ?_) (ih _ hless hbehind rfl)
          · rw [← List.append_assoc, hsplit, htaken]
            exact hwidth
          · intro hbase
            rw [← htake]
            exact hblank hbase width hwidth
        rw [hsplit] at hboth
        rw [hmore]
        exact hboth

end Nsh.Quoting
