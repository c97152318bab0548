import Nsh.Quoting.Bodies

/-!
# What is quoted is read back

Every spelling the shell prints is one word when it is read again, of the bytes of the
value, and no byte of it that stands outside quotes means anything there.
-/

namespace Nsh.Quoting

open Nsh.Parser (SyntaxClass SyntaxContext classify controlBytes separators)
open Nsh.Words

variable {N : Type} {s : Surroundings}

/-! ### Outside quotes -/

/-- A value written with a backslash in front of some of its bytes. -/
def bareFrom (escapes : Option UInt8 → UInt8 → Bool) : Option UInt8 → Bytes → Bytes
  | _, [] => []
  | before, byte :: rest =>
    (if escapes before byte then [chr '\\', byte] else [byte]) ++
      bareFrom escapes (some byte) rest

/-- The marks of a value written so. -/
def bareMarks (escapes : Option UInt8 → UInt8 → Bool) : Option UInt8 → Bytes → List Mark
  | _, [] => []
  | before, byte :: rest => (byte, escapes before byte) :: bareMarks escapes (some byte) rest

theorem bareMarks_bytes (escapes : Option UInt8 → UInt8 → Bool) (before : Option UInt8)
    (value : Bytes) : (bareMarks escapes before value).map Prod.fst = value := by
  induction value generalizing before with
  | nil => rfl
  | cons byte value ih => rw [bareMarks, List.map_cons, ih]

/-- `requote` escapes these bytes. -/
def requoted (before : Option UInt8) (byte : UInt8) : Bool :=
  decide (byte ∈ needsBackslash ∨ isSyntaxHere before byte = true)

theorem requoteFrom_eq (before : Option UInt8) (value : Bytes) :
    requoteFrom before value = bareFrom requoted before value := by
  induction value generalizing before with
  | nil => rfl
  | cons byte value ih =>
    rw [requoteFrom, bareFrom, requoted, ih]
    by_cases h : byte ∈ needsBackslash ∨ isSyntaxHere before byte = true
    · rw [if_pos h, if_pos (by simpa using h)]
      rfl
    · rw [if_neg h, if_neg (by simpa using h)]
      rfl

theorem bareFrom_never (before : Option UInt8) (value : Bytes) :
    bareFrom (fun _ _ => false) before value = value := by
  induction value generalizing before with
  | nil => rfl
  | cons byte value ih =>
    rw [bareFrom, ih]
    rfl

/-- No byte outside quotes is syntax where it stands. -/
def Safe : Option UInt8 → List Mark → Prop
  | _, [] => True
  | before, (byte, quoted) :: rest =>
    (quoted = true ∨ byte ∉ metacharacters ∧ isSyntaxHere before byte = false) ∧
      Safe (some byte) rest

theorem safe_quotedMarks (before : Option UInt8) (value : Bytes) :
    Safe before (quotedMarks value) := by
  induction value generalizing before with
  | nil => trivial
  | cons byte value ih => exact ⟨.inl rfl, ih (some byte)⟩

/-- Every byte a value holds is escaped or means nothing where it stands. -/
def Escaped (escapes : Option UInt8 → UInt8 → Bool) : Option UInt8 → Bytes → Prop
  | _, [] => True
  | before, byte :: rest =>
    (escapes before byte = true → isAscii byte = true) ∧
      (escapes before byte = false → byte ∉ metacharacters ∧ isSyntaxHere before byte = false) ∧
        Escaped escapes (some byte) rest

theorem Escaped.safe {escapes : Option UInt8 → UInt8 → Bool} {before : Option UInt8}
    {value : Bytes} (h : Escaped escapes before value) :
    Safe before (bareMarks escapes before value) := by
  induction value generalizing before with
  | nil => trivial
  | cons byte value ih =>
    refine ⟨?_, ih h.2.2⟩
    cases hescapes : escapes before byte with
    | true => exact .inl rfl
    | false => exact .inr (h.2.1 hescapes)

theorem isAscii_of_needsBackslash {byte : UInt8} (h : byte ∈ needsBackslash) :
    isAscii byte = true := by
  have hall : needsBackslash.all isAscii = true := rfl
  exact List.all_eq_true.mp hall byte h

/-- A list of bytes inside another, compared byte by byte. -/
theorem mem_of_all {first second : Bytes} (h : (first.all fun byte => second.contains byte) = true)
    {byte : UInt8} (hmem : byte ∈ first) : byte ∈ second :=
  List.contains_iff_mem.mp (List.all_eq_true.mp h byte hmem)

theorem metacharacters_subset {byte : UInt8} (h : byte ∈ metacharacters) :
    byte ∈ needsBackslash :=
  mem_of_all (rfl : (metacharacters.all fun byte => needsBackslash.contains byte) = true) h

theorem isAscii_of_isSyntaxHere {before : Option UInt8} {byte : UInt8}
    (h : isSyntaxHere before byte = true) : isAscii byte = true := by
  unfold isSyntaxHere at h
  split_ifs at h with hhash htilde
  · rw [hhash]
    decide
  · rw [htilde]
    decide

theorem requoted_escaped (before : Option UInt8) (value : Bytes) :
    Escaped requoted before value := by
  induction value generalizing before with
  | nil => trivial
  | cons byte value ih =>
    refine ⟨?_, ?_, ih (some byte)⟩
    · intro h
      rcases of_decide_eq_true h with hmem | hsyntax
      · exact isAscii_of_needsBackslash hmem
      · exact isAscii_of_isSyntaxHere hsyntax
    · intro h
      have hneither := of_decide_eq_false h
      rw [not_or] at hneither
      refine ⟨?_, by simpa using hneither.2⟩
      intro hmem
      exact hneither.1 (metacharacters_subset hmem)

theorem never_escaped {before : Option UInt8} {value : Bytes}
    (h : metacharacterFrom before value = false) : Escaped (fun _ _ => false) before value := by
  induction value generalizing before with
  | nil => trivial
  | cons byte value ih =>
    rw [metacharacterFrom, Bool.or_eq_false_iff, Bool.or_eq_false_iff] at h
    refine ⟨?_, fun _ => ⟨of_decide_eq_false h.1.1, h.1.2⟩, ih h.2⟩
    intro hfalse
    cases hfalse

/-- Where a word ends: at the end of the text, a blank, a newline, or an operator that is
not the head of a redirection. -/
def Delimited (tail : Bytes) : Prop :=
  ∀ byte ∈ tail.head?, byte ∈ [chr ' ', chr '\t', chr '\n', chr ';', chr '&', chr '|', chr ')']

theorem Delimited.isAscii {tail : Bytes} (h : Delimited tail) :
    ∀ byte ∈ tail.head?, isAscii byte = true := by
  have hall : [chr ' ', chr '\t', chr '\n', chr ';', chr '&', chr '|', chr ')'].all
      Quoting.isAscii = true := rfl
  intro byte hmem
  exact List.all_eq_true.mp hall byte (h byte hmem)

/-- No character of several bytes that a value holds separates fields. -/
def NoBlank (s : Surroundings) (value : Bytes) : Prop :=
  ∀ rest, rest <:+ value → ∀ width, s.locale.multibyteLen rest = some width → 1 < width →
    s.isBlank (rest.take width) = false

theorem NoBlank.tail {byte : UInt8} {value : Bytes} (h : NoBlank s (byte :: value)) :
    NoBlank s value :=
  fun rest hrest => h rest (hrest.trans (List.suffix_cons byte value))

theorem keeps_base {byte : UInt8} (h : byte ∉ metacharacters) : keeps .base byte = true := by
  have hne : ∀ other ∈ metacharacters, byte ≠ other := by
    rintro other hmem rfl
    exact h hmem
  have hseparators : byte ∉ separators := by
    have hall : (separators.all fun byte => metacharacters.contains byte) = true := rfl
    intro hmem
    exact h (mem_of_all hall hmem)
  have hopen : byte ≠ chr '[' := hne _ (by decide)
  have hclose : byte ≠ chr ']' := hne _ (by decide)
  rw [keeps, Context.classOf, Context.syntaxContext, classify, if_neg (hne 0x0a (by decide)),
    if_neg (hne (chr '\\') (by decide)),
    if_neg (hne 0x27 (by decide)), if_neg (hne (chr '"') (by decide)),
    if_neg (hne 0x60 (by decide)), if_neg (hne (chr '$') (by decide)),
    if_neg (hne 0x7d (by decide)), if_neg hseparators]
  simp [hopen, hclose]

/-- A group of an extended pattern needs a parenthesis. -/
theorem opensGroup_of_next {byte : UInt8} {rest : Bytes}
    (h : (skipContinuations rest).head? ≠ some (chr '(')) : opensGroup s byte rest = false := by
  have hnext : ((skipContinuations rest).head? == some (chr '(')) = false :=
    beq_eq_false_iff_ne.mpr h
  rw [opensGroup, hnext, Bool.and_false]

theorem head_skipContinuations {byte : UInt8} (h : byte ≠ chr '\\') (rest : Bytes) :
    (skipContinuations (byte :: rest)).head? = some byte := by
  have hunit : nextUnit .base (byte :: rest) = byte :: rest := nextUnit_of_ne h rest
  change skipContinuations (byte :: rest) = byte :: rest at hunit
  rw [hunit]
  rfl

theorem bareFrom_next {escapes : Option UInt8 → UInt8 → Bool} {before : Option UInt8}
    {value tail : Bytes} (htail : Delimited tail) (hnewline : 0x0a ∉ value)
    (h : Escaped escapes before value) :
    (skipContinuations (bareFrom escapes before value ++ tail)).head? ≠ some (chr '(') := by
  cases value with
  | nil =>
    cases tail with
    | nil =>
      rw [bareFrom, List.nil_append, skipContinuations]
      decide
    | cons byte tail =>
      have hbyte : byte ≠ chr '\\' ∧ byte ≠ chr '(' := by
        have hin := htail byte rfl
        constructor
        · rintro rfl
          exact absurd hin (by decide)
        · rintro rfl
          exact absurd hin (by decide)
      rw [bareFrom, List.nil_append, head_skipContinuations hbyte.1]
      exact fun heq => hbyte.2 (Option.some.inj heq)
  | cons byte value =>
    rw [bareFrom]
    cases hescapes : escapes before byte with
    | true =>
      have hbyte : byte ≠ 0x0a := by
        rintro rfl
        exact hnewline List.mem_cons_self
      rw [if_pos rfl, List.append_assoc, List.cons_append, List.cons_append, skipContinuations,
        if_neg fun hboth => hbyte hboth.2]
      intro heq
      exact absurd (Option.some.inj heq) (by decide)
    | false =>
      have hbyte := (h.2.1 hescapes).1
      have hslash : byte ≠ chr '\\' := by
        rintro rfl
        exact hbyte (by decide)
      rw [if_neg Bool.false_ne_true, List.append_assoc, List.cons_append,
        head_skipContinuations hslash]
      intro heq
      rw [Option.some.inj heq] at hbyte
      exact hbyte (by decide)

/-- A spelling outside quotes begins with the same bytes above ASCII as the value. -/
theorem takeWhile_bareFrom {escapes : Option UInt8 → UInt8 → Bool} {before : Option UInt8}
    {value tail : Bytes} (htail : Delimited tail) (h : Escaped escapes before value) :
    (bareFrom escapes before value ++ tail).takeWhile (fun byte => !isAscii byte) =
      value.takeWhile fun byte => !isAscii byte := by
  induction value generalizing before with
  | nil =>
    cases tail with
    | nil => rfl
    | cons byte tail =>
      rw [bareFrom, List.nil_append, List.takeWhile_cons_of_neg, List.takeWhile_nil]
      rw [htail.isAscii byte rfl]
      decide
  | cons byte value ih =>
    rw [bareFrom]
    cases hescapes : escapes before byte with
    | true =>
      have hascii := h.1 hescapes
      rw [if_pos rfl, List.append_assoc, List.cons_append, List.takeWhile_cons_of_neg (by decide),
        List.takeWhile_cons_of_neg (by rw [hascii]; decide)]
    | false =>
      rw [if_neg Bool.false_ne_true, List.append_assoc, List.cons_append, List.nil_append]
      by_cases hascii : isAscii byte = true
      · rw [List.takeWhile_cons_of_neg (by rw [hascii]; decide),
          List.takeWhile_cons_of_neg (by rw [hascii]; decide)]
      · rw [Bool.not_eq_true] at hascii
        rw [List.takeWhile_cons_of_pos (by rw [hascii]; rfl),
          List.takeWhile_cons_of_pos (by rw [hascii]; rfl), ih h.2.2]

/-- A character outside quotes is the one the value holds there. -/
theorem character_unchanged {locale : Locale} (hlocale : Transparent locale) {byte : UInt8}
    (hbyte : isAscii byte = false) {first second : Bytes}
    (hsame : first.takeWhile (fun byte => !isAscii byte) =
      second.takeWhile fun byte => !isAscii byte) {width : Nat}
    (h : locale.multibyteLen (byte :: first) = some width) :
    locale.multibyteLen (byte :: second) = some width ∧
      (byte :: first).take width = (byte :: second).take width := by
  have hhead : ∀ rest : Bytes, (byte :: rest).takeWhile (fun byte => !isAscii byte) =
      byte :: rest.takeWhile fun byte => !isAscii byte := by
    intro rest
    rw [List.takeWhile_cons_of_pos (by rw [hbyte]; rfl)]
  have hrun := hlocale.front byte first hbyte
  rw [h, hhead, hsame] at hrun
  have hle := locale.multibyteLen_le _ _ hrun.symm
  have htake : ∀ rest : Bytes, (rest.takeWhile fun byte => !isAscii byte) =
      (second.takeWhile fun byte => !isAscii byte) →
      (byte :: rest).take width =
        (byte :: second.takeWhile fun byte => !isAscii byte).take width := by
    intro rest heq
    conv => lhs; rw [← List.takeWhile_append_dropWhile (p := fun byte => !isAscii byte) (l := rest)]
    rw [heq, ← List.cons_append]
    exact List.take_append_of_le_length hle
  refine ⟨?_, by rw [htake first hsame, htake second rfl]⟩
  rw [hlocale.front byte second hbyte, hhead]
  exact hrun.symm

/-- **What stands outside quotes is read as the value.** -/
theorem bareFrom_body (hlocale : Transparent s.locale) {tail : Bytes} (htail : Delimited tail)
    {escapes : Option UInt8 → UInt8 → Bool} {before : Option UInt8} {value : Bytes}
    (hnull : 0 ∉ value) (hnewline : 0x0a ∉ value) (hblank : NoBlank s value)
    (h : Escaped escapes before value) :
    Body N s .base tail (bareFrom escapes before value) (bareMarks escapes before value) := by
  induction value generalizing before with
  | nil => exact Body.nil
  | cons byte value ih =>
    have hnewline' : 0x0a ∉ value := fun hmem => hnewline (List.mem_cons_of_mem _ hmem)
    have hrest := ih (fun hmem => hnull (List.mem_cons_of_mem _ hmem)) hnewline' hblank.tail h.2.2
    have hbyte : byte ≠ 0 := by
      rintro rfl
      exact hnull List.mem_cons_self
    rw [bareFrom, bareMarks]
    cases hescapes : escapes before byte with
    | true =>
      have hne : byte ≠ 0x0a := by
        rintro rfl
        exact hnewline List.mem_cons_self
      rw [if_pos rfl]
      exact Body.one (chr '\\') [byte] (by decide)
        (reads_backslash hbyte (h.1 hescapes) (.inl ⟨rfl, hne⟩)) hrest
    | false =>
      rw [if_neg Bool.false_ne_true]
      by_cases hascii : isAscii byte = true
      · refine Body.kept hbyte hascii (keeps_base (h.2.1 hescapes).1) (fun _ => ?_) hrest
        exact opensGroup_of_next (bareFrom_next htail hnewline' h.2.2)
      · rw [Bool.not_eq_true] at hascii
        refine Body.high byte hascii (fun _ width hwidth => ?_) hrest
        obtain ⟨hlen, hone, _⟩ := characterWidth_some hwidth
        obtain ⟨hvalue, htake⟩ := character_unchanged hlocale hascii
          (takeWhile_bareFrom htail h.2.2) hlen
        change s.isBlank ((byte :: (bareFrom escapes (some byte) value ++ tail)).take width) = false
        rw [htake]
        exact hblank (byte :: value) List.suffix_rfl width hvalue hone

/-! ### Whole spellings -/

theorem needsAnsiCFrom_newline {locale : Locale} (hlocale : Transparent locale) {value : Bytes}
    (skip : Nat) (hskip : ∀ byte ∈ value.take skip, isAscii byte = false)
    (h : needsAnsiCFrom locale skip value = false) : 0x0a ∉ value := by
  induction value generalizing skip with
  | nil => exact List.not_mem_nil
  | cons byte value ih =>
    have hzero : ∀ b ∈ value.take 0, isAscii b = false := by
      intro b hmem
      cases hmem
    rw [List.mem_cons, not_or]
    cases skip with
    | succ skip =>
      rw [needsAnsiCFrom] at h
      have hskipped : ∀ b ∈ byte :: value.take skip, isAscii b = false := hskip
      refine ⟨?_, ih skip (fun b hmem => hskipped b (List.mem_cons_of_mem _ hmem)) h⟩
      rintro rfl
      have hnewline := hskipped 0x0a List.mem_cons_self
      cases hnewline
    | zero =>
      rw [needsAnsiCFrom] at h
      split_ifs at h with hcontrol hascii
      · refine ⟨?_, ih 0 hzero h⟩
        rintro rfl
        exact hcontrol (.inl (by decide))
      · refine ⟨?_, ?_⟩
        · rintro rfl
          exact hascii (by decide)
        · cases hwidth : printableCharacterWidth locale (byte :: value) with
          | none =>
            rw [hwidth] at h
            cases h
          | some width =>
            rw [hwidth] at h
            refine ih (width - 1) ?_ h
            obtain ⟨hlen, hpos⟩ := printableCharacterWidth_some hwidth
            obtain ⟨more, rfl⟩ : ∃ more, width = more + 1 := ⟨width - 1, by omega⟩
            intro b hmem
            cases more with
            | zero => cases hmem
            | succ more =>
              refine hlocale.high _ _ hlen (by omega) b ?_
              rw [List.take_succ_cons]
              exact List.mem_cons_of_mem _ hmem

/-- A body between the quotes of its context. -/
theorem reads_enclosed (hlocale : Transparent s.locale) {context : Context}
    (hcontext : context ≠ .base) {opening body rest : Bytes} {written : List Mark}
    (hopen : ∀ tail, Reads N s .base context opening tail [])
    (hbody : Body N s context ([context.closing] ++ rest) body written) :
    Reads N s .base .base (opening ++ (body ++ [context.closing])) rest written := by
  have hclose := reads_closing (N := N) (s := s) hcontext rest
  have hascii : ∀ byte ∈ ([context.closing] ++ rest).head?, isAscii byte = true := by
    intro byte hmem
    rw [← Option.some.inj hmem]
    cases context <;> rfl
  have hinside := Reads.trans (hbody.reads hlocale hascii) hclose
  have hwhole := Reads.trans (hopen _) hinside
  rw [List.append_nil, List.nil_append] at hwhole
  exact hwhole

theorem ansiCQuote_reads (hlocale : Transparent s.locale) {value : Bytes} (hnull : 0 ∉ value)
    (rest : Bytes) :
    Reads N s .base .base (ansiCQuote s.locale value) rest (quotedMarks value) := by
  refine reads_enclosed hlocale (show Context.dollarSingleQuoted ≠ .base by decide)
    reads_dollar_opening
    (ansiCBody_body hlocale _ hnull 0 ?_)
  intro byte hmem
  cases hmem

theorem declarationQuote_reads (hlocale : Transparent s.locale) {value : Bytes}
    (hnull : 0 ∉ value) (rest : Bytes) :
    Reads N s .base .base (declarationQuote s.locale value) rest (quotedMarks value) := by
  rw [declarationQuote]
  split_ifs
  · exact ansiCQuote_reads hlocale hnull rest
  · exact reads_enclosed hlocale (show Context.doubleQuoted ≠ .base by decide)
      (fun tail => reads_opening (.inr ⟨rfl, rfl⟩)) (declarationByte_body _ hnull)

theorem bashQuote_reads (hlocale : Transparent s.locale) {value : Bytes} (hnull : 0 ∉ value)
    (rest : Bytes) :
    Reads N s .base .base (bashQuote value) rest (quotedMarks value) := by
  have hwhole : Reads N s .base .base ([0x27] ++ (value.flatMap bashByte ++ [0x27])) rest
      (quotedMarks value) :=
    reads_enclosed hlocale (show Context.singleQuoted ≠ .base by decide)
      (fun tail => reads_opening (.inl ⟨rfl, rfl⟩)) (bashByte_body _ hnull)
  rw [bashQuote]
  split_ifs with hempty hone
  · subst hempty
    exact hwhole
  · subst hone
    exact reads_backslash (by decide) (by decide) (.inl ⟨rfl, by decide⟩)
  · exact hwhole

theorem readableQuote_reads (hlocale : Transparent s.locale) {value : Bytes} (hnull : 0 ∉ value)
    (rest : Bytes) :
    Reads N s .base .base (readableQuote s.locale value) rest (quotedMarks value) := by
  rw [readableQuote]
  split_ifs
  · exact ansiCQuote_reads hlocale hnull rest
  · exact bashQuote_reads hlocale hnull rest

/-- A run of bytes that quotes keep. -/
theorem Body.quotedRun {context : Context} (hcontext : context ≠ .base) (tail : Bytes)
    {run : Bytes} (hnull : 0 ∉ run) (hkeeps : ∀ byte ∈ run, keeps context byte = true) :
    Body N s context tail run (quotedMarks run) := by
  induction run with
  | nil => exact Body.nil
  | cons byte run ih =>
    refine Body.quotedByte hcontext ?_ (hkeeps byte List.mem_cons_self)
      (ih (fun hmem => hnull (List.mem_cons_of_mem _ hmem))
        fun b hmem => hkeeps b (List.mem_cons_of_mem _ hmem))
    rintro rfl
    exact hnull List.mem_cons_self

/-- Text without apostrophes, the apostrophes behind it, and what is left. -/
theorem behind_apostrophes {value : Bytes}
    (h : (value.dropWhile (· != 0x27)).takeWhile (· == 0x27) = []) :
    value.dropWhile (· != 0x27) = [] := by
  cases hbehind : value.dropWhile (· != 0x27) with
  | nil => rfl
  | cons byte rest =>
    have hhead := List.head?_dropWhile_not (· != 0x27) value
    rw [hbehind] at h hhead
    simp only [List.head?_cons, bne, Bool.not_eq_false', beq_iff_eq] at hhead
    rw [hhead] at h
    simp at h

theorem shellQuote_reads (hlocale : Transparent s.locale) {value : Bytes} (hnull : 0 ∉ value)
    (rest : Bytes) :
    Reads N s .base .base (shellQuote value) rest (quotedMarks value) := by
  induction value using shellQuote.induct with
  | _ value ih =>
    generalize hplain : value.takeWhile (· != 0x27) = plain
    generalize hquotes : (value.dropWhile (· != 0x27)).takeWhile (· == 0x27) = quotes at ih
    generalize hbehind : (value.dropWhile (· != 0x27)).dropWhile (· == 0x27) = behind at ih
    have hvalue : value = plain ++ (quotes ++ behind) := by
      rw [← hplain, ← hquotes, ← hbehind, List.takeWhile_append_dropWhile,
        List.takeWhile_append_dropWhile]
    have hplainNull : 0 ∉ plain := by
      intro hmem
      rw [hvalue] at hnull
      exact hnull (List.mem_append_left _ hmem)
    have hquotesNull : 0 ∉ quotes := by
      intro hmem
      rw [hvalue] at hnull
      exact hnull (List.mem_append_right _ (List.mem_append_left _ hmem))
    have hbehindNull : 0 ∉ behind := by
      intro hmem
      rw [hvalue] at hnull
      exact hnull (List.mem_append_right _ (List.mem_append_right _ hmem))
    -- The three parts: `'plain'`, `"quotes"` and the rest, quoted in its turn.
    have hfirst : ∀ tail, Reads N s .base .base ([0x27] ++ (plain ++ [0x27])) tail
        (quotedMarks plain) := by
      intro tail
      refine reads_enclosed hlocale (show Context.singleQuoted ≠ .base by decide)
        (fun tail => reads_opening (.inl ⟨rfl, rfl⟩))
        (Body.quotedRun (by decide) _ hplainNull ?_)
      intro byte hmem
      rw [← hplain] at hmem
      exact keeps_singleQuoted (by simpa using List.mem_takeWhile_imp hmem)
    have hsecond : ∀ tail, Reads N s .base .base ([chr '"'] ++ (quotes ++ [chr '"'])) tail
        (quotedMarks quotes) := by
      intro tail
      refine reads_enclosed hlocale (show Context.doubleQuoted ≠ .base by decide)
        (fun tail => reads_opening (.inr ⟨rfl, rfl⟩))
        (Body.quotedRun (by decide) _ hquotesNull ?_)
      intro byte hmem
      rw [← hquotes] at hmem
      have hbyte : byte = 0x27 := by simpa using List.mem_takeWhile_imp hmem
      rw [hbyte]
      decide
    by_cases hnone : quotes = []
    · have hrest : behind = [] := by
        rw [← hbehind, behind_apostrophes (hquotes.trans hnone)]
        rfl
      rw [hnone, hrest, List.append_nil, List.append_nil] at hvalue
      have hspelled : shellQuote value = [0x27] ++ (plain ++ [0x27]) := by
        rw [shellQuote, hplain, hquotes, dif_pos hnone, List.append_nil]
        rfl
      rw [hspelled, hvalue]
      exact hfirst rest
    · have hthird : Reads N s .base .base (if behind = [] then [] else shellQuote behind) rest
          (quotedMarks behind) := by
        split_ifs with hempty
        · rw [hempty]
          exact Reads.refl .base rest
        · exact ih hnone hbehindNull
      have hspelled : shellQuote value = ([0x27] ++ (plain ++ [0x27])) ++
          (([chr '"'] ++ (quotes ++ [chr '"'])) ++
            if behind = [] then [] else shellQuote behind) := by
        rw [shellQuote, hplain, hquotes, hbehind, dif_neg hnone]
        rfl
      have hmarks : quotedMarks value =
          quotedMarks plain ++ (quotedMarks quotes ++ quotedMarks behind) := by
        rw [hvalue, quotedMarks, List.map_append, List.map_append]
        rfl
      rw [hspelled, hmarks]
      exact Reads.trans (hfirst _) (Reads.trans (hsecond _) hthird)

/-- A value outside quotes, escaped where it must be. -/
theorem bareFrom_reads (hlocale : Transparent s.locale) {rest : Bytes} (hrest : Delimited rest)
    {escapes : Option UInt8 → UInt8 → Bool} {value : Bytes} (hnull : 0 ∉ value)
    (hnewline : 0x0a ∉ value) (hblank : NoBlank s value) (h : Escaped escapes none value) :
    Reads N s .base .base (bareFrom escapes none value) rest (bareMarks escapes none value) :=
  (bareFrom_body hlocale hrest hnull hnewline hblank h).reads hlocale hrest.isAscii

theorem newline_of_metacharacterFrom {before : Option UInt8} {value : Bytes}
    (h : metacharacterFrom before value = false) : 0x0a ∉ value := by
  induction value generalizing before with
  | nil => exact List.not_mem_nil
  | cons byte value ih =>
    rw [metacharacterFrom, Bool.or_eq_false_iff, Bool.or_eq_false_iff] at h
    rw [List.mem_cons, not_or]
    refine ⟨?_, ih h.2⟩
    rintro rfl
    exact absurd h.1.1 (by decide)

/-! ### The quoters -/

/-- The spellings the shell prints a value in. -/
inductive Quoter where
  | requote
  | readable
  | declaration
  | ansiC
  | bash
  | shell
  | listed
  | trace
deriving DecidableEq, Repr

def Quoter.quote (locale : Locale) : Quoter → Bytes → Bytes
  | .requote => Quoting.requote locale
  | .readable => readableQuote locale
  | .declaration => declarationQuote locale
  | .ansiC => ansiCQuote locale
  | .bash => bashQuote
  | .shell => shellQuote
  | .listed => listedQuote locale
  | .trace => traceQuote locale

/-- The spellings that may leave a character outside quotes. -/
def Quoter.bare : Quoter → Bool
  | .requote | .listed | .trace => true
  | _ => false

/-- A spelling is read as marks of the value's bytes, safe where they are not quoted. -/
theorem quote_reads (hlocale : Transparent s.locale) (quoter : Quoter) {value rest : Bytes}
    (hrest : Delimited rest) (hnull : 0 ∉ value)
    (hblank : quoter.bare = true → NoBlank s value) :
    ∃ marked, Reads N s .base .base (quoter.quote s.locale value) rest marked ∧
      marked.map Prod.fst = value ∧ Safe none marked := by
  have hquoted : ∀ {spelled : Bytes},
      Reads N s .base .base spelled rest (quotedMarks value) →
      ∃ marked, Reads N s .base .base spelled rest marked ∧ marked.map Prod.fst = value ∧
        Safe none marked := by
    intro spelled hreads
    refine ⟨quotedMarks value, hreads, ?_, safe_quotedMarks none value⟩
    rw [quotedMarks, List.map_map]
    exact List.map_id value
  have hplain : quoter.bare = true → containsShellMetacharacter value = false →
      ∃ marked, Reads N s .base .base value rest marked ∧ marked.map Prod.fst = value ∧
        Safe none marked := by
    intro hbare hmeta
    have hescaped := never_escaped hmeta
    have hreads := bareFrom_reads (N := N) hlocale hrest hnull
      (newline_of_metacharacterFrom hmeta) (hblank hbare) hescaped
    rw [bareFrom_never] at hreads
    exact ⟨_, hreads, bareMarks_bytes _ none value, hescaped.safe⟩
  cases quoter with
  | requote =>
    change ∃ marked, Reads N s .base .base (Quoting.requote s.locale value) rest marked ∧ _
    rw [Quoting.requote]
    split_ifs with hempty hansi
    · subst hempty
      exact hquoted (bashQuote_reads hlocale hnull rest)
    · exact hquoted (ansiCQuote_reads hlocale hnull rest)
    · have hescaped := requoted_escaped none value
      have hzero : ∀ byte ∈ value.take 0, isAscii byte = false := by
        intro byte hmem
        cases hmem
      rw [requoteFrom_eq]
      rw [Bool.not_eq_true] at hansi
      exact ⟨_, bareFrom_reads hlocale hrest hnull (needsAnsiCFrom_newline hlocale 0 hzero hansi)
        (hblank rfl) hescaped, bareMarks_bytes _ none value, hescaped.safe⟩
  | readable => exact hquoted (readableQuote_reads hlocale hnull rest)
  | declaration => exact hquoted (declarationQuote_reads hlocale hnull rest)
  | ansiC => exact hquoted (ansiCQuote_reads hlocale hnull rest)
  | bash => exact hquoted (bashQuote_reads hlocale hnull rest)
  | shell => exact hquoted (shellQuote_reads hlocale hnull rest)
  | listed =>
    change ∃ marked, Reads N s .base .base (listedQuote s.locale value) rest marked ∧ _
    rw [listedQuote]
    split_ifs with hneither
    · exact hplain rfl hneither.1
    · exact hquoted (readableQuote_reads hlocale hnull rest)
  | trace =>
    change ∃ marked, Reads N s .base .base (traceQuote s.locale value) rest marked ∧ _
    rw [traceQuote]
    split_ifs with hempty hmeta hansi
    · subst hempty
      exact hquoted (bashQuote_reads hlocale hnull rest)
    · exact hquoted (bashQuote_reads hlocale hnull rest)
    · exact hquoted (ansiCQuote_reads hlocale hnull rest)
    · exact hplain rfl (by simpa using hmeta)

/-! ### The word -/

theorem lexWord_delimited {rest : Bytes} (h : Delimited rest) (fuel : Nat)
    (output : List (WordToken N)) :
    lexWord s (fuel + 1) .base output rest = some (output, rest) := by
  cases rest with
  | nil => rfl
  | cons byte rest =>
    have hbyte := h byte rfl
    have hfacts : byte ≠ chr '\\' ∧ byte ∉ chr '<' :: chr '>' :: groupBytes ∧
        (Context.classOf .base byte = .newline ∨ Context.classOf .base byte = .wordSeparator) := by
      have hall : ([chr ' ', chr '\t', chr '\n', chr ';', chr '&', chr '|', chr ')'].all
          fun byte => byte != chr '\\' && !(chr '<' :: chr '>' :: groupBytes).contains byte &&
            (Context.classOf .base byte == .newline ||
              Context.classOf .base byte == .wordSeparator)) = true := rfl
      have hat := List.all_eq_true.mp hall byte hbyte
      rw [Bool.and_eq_true, Bool.and_eq_true, bne_iff_ne, Bool.not_eq_true',
        Bool.or_eq_true, beq_iff_eq, beq_iff_eq] at hat
      refine ⟨hat.1.1, fun hmem => ?_, hat.2⟩
      rw [List.contains_iff_mem.mpr hmem] at hat
      cases hat.1.2
    obtain ⟨hslash, hgroup, hclass⟩ := hfacts
    have hopens := opensGroup_eq_false (s := s) hgroup rest
    rw [lexWord, nextUnit_of_ne hslash]
    simp only [hopens, characterWidth_ascii (h.isAscii byte rfl)]
    rcases hclass with hclass | hclass
    · rw [hclass]
      rfl
    · rw [hclass]
      rfl

/-- A text that is read as marks is the word of these marks. -/
theorem readWord_of_reads {spelled rest : Bytes} {written : List Mark} (hrest : Delimited rest)
    (h : Reads N s .base .base spelled rest written) :
    ∃ word, readWord (N := N) s (spelled ++ rest) = some (word, rest) ∧
      wordMarks word = written ∧ ∀ part ∈ word.parts, isText part = true := by
  obtain ⟨cost, tokens, hcost, hflat, hmarks, hlex⟩ := h
  obtain ⟨fuel, hfuel⟩ : ∃ fuel, (spelled ++ rest).length + 1 = fuel + 1 + cost := by
    refine ⟨(spelled ++ rest).length - cost, ?_⟩
    rw [List.length_append]
    omega
  have hread : lexWord s ((spelled ++ rest).length + 1) .base [] (spelled ++ rest) =
      some (tokens, rest) := by
    rw [hfuel, hlex (fuel + 1) [] (by simp), List.nil_append]
    exact lexWord_delimited hrest fuel tokens
  have hend : ¬((rest.head? = some (chr '<') ∨ rest.head? = some (chr '>')) ∧
      mayBePrefix s tokens = true) := by
    rintro ⟨hhead, _⟩
    rcases hhead with hhead | hhead
    · exact absurd (hrest _ hhead) (by decide)
    · exact absurd (hrest _ hhead) (by decide)
  obtain ⟨word, hdecode, hword, htext⟩ := decode_marks fun token hmem => (hflat token hmem).1
  refine ⟨word, ?_, ?_, htext⟩
  · rw [readWord, hread]
    simp only [Option.bind_eq_bind, Option.bind_some, if_neg hend, hdecode]
  · have hwritten := hmarks []
    rw [List.append_nil] at hwritten
    rw [hword]
    simpa [marks, Context.depth] using hwritten

/-- A byte that may stand in front of a value: of a name, or the sign that assigns. -/
def isOrdinary (byte : UInt8) : Bool :=
  isAsciiAlphabetic byte || isAsciiDigit byte || byte == chr '_' || byte == chr '='

theorem isAscii_of_isOrdinary {byte : UInt8} (h : isOrdinary byte = true) :
    isAscii byte = true := by
  by_contra hascii
  rw [Bool.not_eq_true] at hascii
  have hhigh : 0x80 ≤ byte := by simpa [isAscii] using hascii
  simp only [isOrdinary, isAsciiAlphabetic, isAsciiDigit, Bool.or_eq_true, Bool.and_eq_true,
    decide_eq_true_eq, beq_iff_eq] at h
  rcases h with ((hletter | hdigit) | hbar) | hsign
  · rcases hletter with hupper | hlower
    · exact absurd (UInt8.le_trans hhigh hupper.2) (by decide)
    · exact absurd (UInt8.le_trans hhigh hlower.2) (by decide)
  · exact absurd (UInt8.le_trans hhigh hdigit.2) (by decide)
  · rw [hbar] at hhigh
    exact absurd hhigh (by decide)
  · rw [hsign] at hhigh
    exact absurd hhigh (by decide)

theorem ordinary_reads {front : Bytes} (h : ∀ byte ∈ front, isOrdinary byte = true)
    (tail : Bytes) :
    Reads N s .base .base front tail (front.map fun byte => (byte, false)) := by
  induction front with
  | nil => exact Reads.refl .base tail
  | cons byte front ih =>
    have hbyte := h byte List.mem_cons_self
    have hfacts : byte ≠ 0 ∧ isAscii byte = true ∧ keeps .base byte = true ∧
        byte ∉ chr '<' :: chr '>' :: groupBytes := by
      have hmeta : (metacharacters.all fun other => !isOrdinary other) = true := rfl
      have hgroup : ((chr '<' :: chr '>' :: groupBytes).all fun other => !isOrdinary other) =
          true := rfl
      refine ⟨?_, isAscii_of_isOrdinary hbyte, keeps_base fun hmem => ?_, fun hmem => ?_⟩
      · rintro rfl
        exact absurd hbyte (by decide)
      · have hno := List.all_eq_true.mp hmeta byte hmem
        rw [hbyte] at hno
        cases hno
      · have hno := List.all_eq_true.mp hgroup byte hmem
        rw [hbyte] at hno
        cases hno
    obtain ⟨hne, hascii, hkeeps, hgroup⟩ := hfacts
    have hone := reads_kept (N := N) hne hkeeps (characterWidth_ascii hascii (front ++ tail))
      fun _ => opensGroup_eq_false (s := s) hgroup _
    exact Reads.trans hone (ih fun b hmem => h b (List.mem_cons_of_mem _ hmem))

/-- The word of a pair of quotes with nothing inside. -/
theorem readWord_empty {spelled rest : Bytes} (hrest : Delimited rest)
    (h : spelled = [0x27, 0x27] ∨ spelled = [chr '"', chr '"'] ∨
      spelled = [chr '$', 0x27, 0x27]) :
    ∃ word, readWord (N := N) s (spelled ++ rest) = some (word, rest) ∧ word.parts ≠ [] ∧
      wordMarks word = [] ∧ ∀ part ∈ word.parts, isText part = true := by
  have hread : lexWord (N := N) s ((spelled ++ rest).length + 1) .base [] (spelled ++ rest) =
      some ([.quoteOpen, .quoteClose], rest) := by
    have hnull : ∀ token ∈ [] ++ [(.quoteOpen : WordToken N)], isNull token = false :=
      fun token hmem => (quoteOpen_flat token hmem).2
    rcases h with rfl | rfl | rfl
    · exact (lexWord_opening (.inl ⟨rfl, rfl⟩) _ _ _).trans
        ((lexWord_closing (show Context.singleQuoted ≠ .base by decide) _ hnull _).trans
          (lexWord_delimited hrest _ _))
    · exact (lexWord_opening (.inr ⟨rfl, rfl⟩) _ _ _).trans
        ((lexWord_closing (show Context.doubleQuoted ≠ .base by decide) _ hnull _).trans
          (lexWord_delimited hrest _ _))
    · exact (lexWord_dollar_opening _ _ _).trans
        ((lexWord_closing (show Context.dollarSingleQuoted ≠ .base by decide) _ hnull _).trans
          (lexWord_delimited hrest _ _))
  have hend : ¬((rest.head? = some (chr '<') ∨ rest.head? = some (chr '>')) ∧
      mayBePrefix (N := N) s [.quoteOpen, .quoteClose] = true) := by
    rintro ⟨_, hdigits⟩
    have hno : mayBePrefix (N := N) s [.quoteOpen, .quoteClose] = false := by
      simp [mayBePrefix]
    rw [hno] at hdigits
    cases hdigits
  refine ⟨.fromParts [.text [] true], ?_, ?_, rfl, ?_⟩
  · rw [readWord, hread]
    simp only [Option.bind_eq_bind, Option.bind_some, if_neg hend]
    rfl
  · intro hnone
    cases hnone
  · exact fromParts_isText (by simp [isText])

theorem quote_nil (locale : Locale) {quoter : Quoter} (h : quoter ≠ .listed) :
    quoter.quote locale [] = [0x27, 0x27] ∨ quoter.quote locale [] = [chr '"', chr '"'] ∨
      quoter.quote locale [] = [chr '$', 0x27, 0x27] := by
  cases quoter with
  | requote => exact .inl rfl
  | readable => exact .inl rfl
  | declaration => exact .inr (.inl rfl)
  | ansiC => exact .inr (.inr rfl)
  | bash => exact .inl rfl
  | shell =>
    refine .inl ?_
    change shellQuote [] = _
    rw [shellQuote]
    rfl
  | listed => exact absurd rfl h
  | trace => exact .inl rfl

/-- **A quoted value is read back as one word of the same bytes**: behind a name and in
front of any delimiter, whatever the value holds, in each spelling the shell prints.  The
word holds no expansion, and what stands in it outside quotes is nothing but data. -/
theorem readWord_quote (hlocale : Transparent s.locale) (quoter : Quoter)
    {front value rest : Bytes} (hfront : ∀ byte ∈ front, isOrdinary byte = true)
    (hnull : 0 ∉ value) (hblank : quoter.bare = true → NoBlank s value)
    (hlisted : quoter = .listed → front ++ value ≠ []) (hrest : Delimited rest) :
    ∃ word marked,
      readWord (N := N) s (front ++ (quoter.quote s.locale value ++ rest)) =
          some (word, rest) ∧
        word.parts ≠ [] ∧ (∀ part ∈ word.parts, isText part = true) ∧
          wordMarks word = front.map (fun byte => (byte, false)) ++ marked ∧
            marked.map Prod.fst = value ∧ Safe none marked := by
  by_cases hempty : front ++ value = []
  · obtain ⟨rfl, rfl⟩ := List.append_eq_nil_iff.mp hempty
    obtain ⟨word, hread, hparts, hmarks, htext⟩ := readWord_empty (N := N) (s := s) hrest
      (quote_nil s.locale fun hquoter => hlisted hquoter rfl)
    exact ⟨word, [], hread, hparts, htext, hmarks, rfl, trivial⟩
  · obtain ⟨marked, hquote, hbytes, hsafe⟩ := quote_reads (N := N) hlocale quoter hrest hnull
      hblank
    have hreads := Reads.trans (ordinary_reads hfront _) hquote
    obtain ⟨word, hread, hmarks, htext⟩ := readWord_of_reads hrest hreads
    rw [List.append_assoc] at hread
    refine ⟨word, marked, hread, ?_, htext, hmarks, hbytes, hsafe⟩
    -- A word of no parts has no marks.
    intro hnone
    have hwritten : wordMarks word = [] := by rw [wordMarks, hnone]; rfl
    rw [hmarks, List.append_eq_nil_iff, List.map_eq_nil_iff] at hwritten
    rw [← hbytes, hwritten.1, hwritten.2] at hempty
    exact hempty rfl

theorem c_transparent : Transparent Locale.c where
  high := by
    intro bytes width h hone
    cases bytes with
    | nil => cases h
    | cons byte rest =>
      change (if byte = 0 then some 0 else (asciiDecode byte).map fun _ => 1) = some width at h
      split_ifs at h
      · cases h
        exact absurd hone (by decide)
      · obtain ⟨wide, -, hwidth⟩ := Option.map_eq_some_iff.mp h
        rw [← hwidth] at hone
        exact absurd hone (by decide)
  front := by
    intro byte rest hhigh
    rw [List.takeWhile_cons_of_pos (by rw [hhigh]; rfl)]
    rfl

/-- The shell of the C locale, with Bash's extensions. -/
def cSurroundings : Surroundings where
  locale := Locale.c
  isBlank _ := false
  characterEncoding _ := .unrepresentable
  bash := true
  extGlob := true
  subscripts := true

/-- An assignment whose value looks like a pattern, a command and two home directories. -/
theorem readWord_quote_tilde :
    ∃ word marked,
      readWord (N := Unit) cSurroundings
          (text "x=" ++ (Quoter.requote.quote cSurroundings.locale (text "~+(a) $(b):~#") ++
            text "; c")) = some (word, text "; c") ∧
        word.parts ≠ [] ∧ (∀ part ∈ word.parts, isText part = true) ∧
          wordMarks word = (text "x=").map (fun byte => (byte, false)) ++ marked ∧
            marked.map Prod.fst = text "~+(a) $(b):~#" ∧ Safe none marked := by
  refine readWord_quote c_transparent .requote ?_ ?_ ?_ ?_ ?_
  · exact List.all_eq_true.mp rfl
  · intro hmem
    cases List.contains_iff_mem.mpr hmem
  · intro _ rest _ width hlen hone
    rfl
  · intro hlisted
    cases hlisted
  · intro byte hmem
    rw [← Option.some.inj hmem]
    decide

end Nsh.Quoting
