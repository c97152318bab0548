import Nsh.Quoting.Reads

/-!
# What the quoters write is read as the value

One body for each spelling: the run between single quotes, the escaped run between double
quotes, the body of `$'…'`, and the run that no quotes surround.
-/

namespace Nsh.Quoting

open Nsh.Parser (SyntaxClass SyntaxContext classify controlBytes separators)
open Nsh.Words

variable {N : Type} {s : Surroundings}

/-- The marks of a value that is quoted throughout. -/
def quotedMarks (value : Bytes) : List Mark := value.map fun byte => (byte, true)

/-! ### Single and double quotes -/

theorem keeps_singleQuoted {byte : UInt8} (h : byte ≠ 0x27) : keeps .singleQuoted byte = true := by
  rw [keeps, Context.classOf, Context.syntaxContext, classify, if_neg h]
  by_cases hnewline : byte = 0x0a
  · rw [if_pos hnewline]
    rfl
  · rw [if_neg hnewline]
    by_cases hcontrol : byte ∈ controlBytes ∨ byte = chr '\\'
    · rw [if_pos hcontrol]
      simp
    · rw [if_neg hcontrol]
      rfl

theorem keeps_doubleQuoted {byte : UInt8} (h : byte ∉ [chr '\\', 0x60, chr '$', chr '"']) :
    keeps .doubleQuoted byte = true := by
  simp only [List.mem_cons, List.not_mem_nil, or_false, not_or] at h
  obtain ⟨hslash, hback, hdollar, hdouble⟩ := h
  rw [keeps, Context.classOf, Context.syntaxContext, classify, if_neg hslash, if_neg hdouble,
    if_neg hback, if_neg hdollar]
  by_cases hnewline : byte = 0x0a
  · rw [if_pos hnewline]
    rfl
  · rw [if_neg hnewline]
    by_cases hbrace : byte = 0x7d
    · rw [if_pos hbrace]
    · rw [if_neg hbrace]
      by_cases hcontrol : byte ∈ controlBytes
      · rw [if_pos hcontrol]
        rfl
      · rw [if_neg hcontrol]
        rfl

/-- A kept byte of ASCII in front of a body. -/
theorem Body.kept {context : Context} {tail rest : Bytes} {written : List Mark} {byte : UInt8}
    (hbyte : byte ≠ 0) (hascii : isAscii byte = true) (hkeeps : keeps context byte = true)
    (hgroup : context = .base → opensGroup s byte (rest ++ tail) = false)
    (h : Body N s context tail rest written) :
    Body N s context tail (byte :: rest) ((byte, context.quoted) :: written) :=
  Body.piece byte [] hascii (reads_kept hbyte hkeeps (characterWidth_ascii hascii _) hgroup) h

/-- A byte inside quotes that the context keeps, of ASCII or not. -/
theorem Body.quotedByte {context : Context} (hcontext : context ≠ .base) {tail rest : Bytes}
    {written : List Mark} {byte : UInt8} (hbyte : byte ≠ 0) (hkeeps : keeps context byte = true)
    (h : Body N s context tail rest written) :
    Body N s context tail (byte :: rest) ((byte, true) :: written) := by
  have hquoted : context.quoted = true := by
    cases context with
    | base => exact absurd rfl hcontext
    | doubleQuoted => rfl
    | singleQuoted => rfl
    | dollarSingleQuoted => rfl
  rw [← hquoted]
  by_cases hascii : isAscii byte = true
  · exact Body.kept hbyte hascii hkeeps (fun hbase => absurd hbase hcontext) h
  · rw [Bool.not_eq_true] at hascii
    exact Body.high byte hascii (fun hbase => absurd hbase hcontext) h

theorem bashByte_body (tail : Bytes) {value : Bytes} (hnull : 0 ∉ value) :
    Body N s .singleQuoted tail (value.flatMap bashByte) (quotedMarks value) := by
  induction value with
  | nil => exact Body.nil
  | cons byte value ih =>
    have hrest := ih fun hmem => hnull (List.mem_cons_of_mem _ hmem)
    have hbyte : byte ≠ 0 := by
      rintro rfl
      exact hnull List.mem_cons_self
    rw [List.flatMap_cons, bashByte]
    split_ifs with hquote
    · subst hquote
      refine Body.one 0x27 [chr '\\', 0x27, 0x27] (by decide) ?_ hrest
      -- Out of the quotes, the apostrophe behind a backslash, and back in.
      have hout := reads_closing (N := N) (s := s) (show Context.singleQuoted ≠ .base by decide)
        ([chr '\\', 0x27, 0x27] ++ (value.flatMap bashByte ++ tail))
      have hslash : Reads N s .base .base [chr '\\', 0x27]
          ([0x27] ++ (value.flatMap bashByte ++ tail)) [(0x27, true)] :=
        reads_backslash (by decide) (by decide) (.inl ⟨rfl, by decide⟩)
      have hin : Reads N s .base .singleQuoted [0x27] (value.flatMap bashByte ++ tail) [] :=
        reads_opening (.inl ⟨rfl, rfl⟩)
      have hback := Reads.trans hslash hin
      exact Reads.trans hout hback
    · exact Body.quotedByte (by decide) hbyte (keeps_singleQuoted hquote) hrest

theorem declarationByte_body (tail : Bytes) {value : Bytes} (hnull : 0 ∉ value) :
    Body N s .doubleQuoted tail (value.flatMap declarationByte) (quotedMarks value) := by
  induction value with
  | nil => exact Body.nil
  | cons byte value ih =>
    have hrest := ih fun hmem => hnull (List.mem_cons_of_mem _ hmem)
    have hbyte : byte ≠ 0 := by
      rintro rfl
      exact hnull List.mem_cons_self
    rw [List.flatMap_cons, declarationByte]
    split_ifs with hspecial
    · have hmem : byte ∈ [chr '\\', 0x60, chr '$', chr '"'] := by
        rcases hspecial with rfl | rfl | rfl | rfl <;> decide
      have hascii : isAscii byte = true := by
        rcases hspecial with rfl | rfl | rfl | rfl <;> decide
      exact Body.one (chr '\\') [byte] (by decide)
        (reads_backslash hbyte hascii (.inr ⟨rfl, hmem⟩)) hrest
    · have hmem : byte ∉ [chr '\\', 0x60, chr '$', chr '"'] := by
        intro hmem
        simp only [List.mem_cons, List.not_mem_nil, or_false] at hmem
        rcases hmem with rfl | rfl | rfl | rfl
        · exact hspecial (.inr (.inl rfl))
        · exact hspecial (.inr (.inr (.inr rfl)))
        · exact hspecial (.inr (.inr (.inl rfl)))
        · exact hspecial (.inl rfl)
      exact Body.quotedByte (by decide) hbyte (keeps_doubleQuoted hmem) hrest

/-! ### `$'…'` -/

theorem keeps_dollarSingleQuoted {byte : UInt8} (h : shortEscape byte = none) :
    keeps .dollarSingleQuoted byte = true := by
  have hslash : byte ≠ chr '\\' := by
    rintro rfl
    exact absurd h (by decide)
  have hquote : byte ≠ 0x27 := by
    rintro rfl
    exact absurd h (by decide)
  rw [keeps, Context.classOf, Context.syntaxContext, classify, if_neg hquote]
  by_cases hnewline : byte = 0x0a
  · rw [if_pos hnewline]
    rfl
  · rw [if_neg hnewline]
    by_cases hcontrol : byte ∈ controlBytes ∨ byte = chr '\\'
    · rw [if_pos hcontrol]
      simpa using hslash
    · rw [if_neg hcontrol]
      rfl

/-- The letter of a short escape is read back as the byte. -/
theorem parse_shortEscape {byte letter : UInt8} (h : shortEscape byte = some letter)
    (tail : Bytes) : parseDollarSingleQuoteEscape s (letter :: tail) = ⟨[byte], 1⟩ := by
  unfold shortEscape at h
  split_ifs at h with h1 h2 h3 h4 h5 h6 h7 h8 h9 h10
  all_goals
    cases h
    subst byte
    rfl

theorem octal_digits (byte : UInt8) :
    isOctalDigit (octalByte (byte.toNat / 64)) = true ∧
      isOctalDigit (octalByte (byte.toNat / 8 % 8)) = true ∧
      isOctalDigit (octalByte (byte.toNat % 8)) = true ∧
      UInt8.ofNat ((((octalByte (byte.toNat / 64)).toNat - 48) * 8 +
        ((octalByte (byte.toNat / 8 % 8)).toNat - 48)) * 8 +
          ((octalByte (byte.toNat % 8)).toNat - 48)) = byte := by
  have hdigit : ∀ digit : Fin 8, isOctalDigit (octalByte digit) = true ∧
      (octalByte digit).toNat - 48 = digit := by decide
  have hlt := byte.toNat_lt
  obtain ⟨hfirst, hone⟩ := hdigit ⟨byte.toNat / 64, by omega⟩
  obtain ⟨hsecond, htwo⟩ := hdigit ⟨byte.toNat / 8 % 8, by omega⟩
  obtain ⟨hthird, hthree⟩ := hdigit ⟨byte.toNat % 8, by omega⟩
  refine ⟨hfirst, hsecond, hthird, ?_⟩
  have hvalue : (byte.toNat / 64 * 8 + byte.toNat / 8 % 8) * 8 + byte.toNat % 8 = byte.toNat := by
    omega
  dsimp only at hone htwo hthree
  rw [hone, htwo, hthree, hvalue, UInt8.ofNat_toNat]

theorem octalDigit_cases {byte : UInt8} (h : isOctalDigit byte = true) :
    byte ∈ [0x30, 0x31, 0x32, 0x33, 0x34, 0x35, 0x36, (0x37 : UInt8)] := by
  rw [isOctalDigit, Bool.and_eq_true, decide_eq_true_eq, decide_eq_true_eq,
    UInt8.le_iff_toNat_le, UInt8.le_iff_toNat_le] at h
  have hlow : 48 ≤ byte.toNat := h.1
  have hhigh : byte.toNat ≤ 55 := h.2
  simp only [List.mem_cons, List.not_mem_nil, or_false, ← UInt8.toNat_inj, UInt8.reduceToNat]
  omega

/-- A digit is none of the letters that begin another escape. -/
theorem parseEscape_octal {digit : UInt8} (h : isOctalDigit digit = true) (rest : Bytes) :
    parseEscape s true (digit :: rest) =
      ⟨[UInt8.ofNat (octalValue 3 0 (digit :: rest)).1], (octalValue 3 0 (digit :: rest)).2⟩ := by
  have hcases := octalDigit_cases h
  simp only [List.mem_cons, List.not_mem_nil, or_false] at hcases
  rcases hcases with rfl | rfl | rfl | rfl | rfl | rfl | rfl | rfl <;> rfl

/-- Three octal digits are read back as the byte. -/
theorem parse_octalEscape (byte : UInt8) (tail : Bytes) :
    parseDollarSingleQuoteEscape s ((octalEscape byte).tail ++ tail) = ⟨[byte], 3⟩ := by
  obtain ⟨hfirst, hsecond, hthird, hvalue⟩ := octal_digits byte
  generalize hone : octalByte (byte.toNat / 64) = one at hfirst hvalue
  generalize htwo : octalByte (byte.toNat / 8 % 8) = two at hsecond hvalue
  generalize hthree : octalByte (byte.toNat % 8) = three at hthird hvalue
  have hne : ∀ {digit : UInt8}, isOctalDigit digit = true → digit ≠ 0x27 ∧ digit ≠ chr 'c' := by
    intro digit hdigit
    have hcases := octalDigit_cases hdigit
    simp only [List.mem_cons, List.not_mem_nil, or_false] at hcases
    rcases hcases with rfl | rfl | rfl | rfl | rfl | rfl | rfl | rfl <;> decide
  have hwindow : ∃ more, escapeWindow 9 (one :: two :: three :: tail) =
      one :: two :: three :: more := by
    refine ⟨escapeWindow 6 tail, ?_⟩
    rw [escapeWindow, if_neg (hne hfirst).1, escapeWindow, if_neg (hne hsecond).1, escapeWindow,
      if_neg (hne hthird).1]
  obtain ⟨more, hmore⟩ := hwindow
  have hdigits : octalValue 3 0 (one :: two :: three :: more) =
      ((one.toNat - 48) * 64 + (two.toNat - 48) * 8 + (three.toNat - 48), 3) := by
    simp only [octalValue, hfirst, hsecond, hthird, if_true]
    congr 1
    omega
  have htail : (octalEscape byte).tail ++ tail = one :: two :: three :: tail := by
    rw [octalEscape, hone, htwo, hthree]
    rfl
  rw [htail, parseDollarSingleQuoteEscape, hmore]
  have hc : ¬((one :: two :: three :: more).head? = some (chr 'c')) := by
    intro h
    exact (hne hfirst).2 (Option.some.inj h)
  simp only [if_neg hc]
  rw [parseEscape_octal hfirst, hdigits, ← hvalue]
  congr 3
  omega

theorem printableCharacterWidth_some {locale : Locale} {bytes : Bytes} {width : Nat}
    (h : printableCharacterWidth locale bytes = some width) :
    locale.multibyteLen bytes = some width ∧ 0 < width := by
  rw [printableCharacterWidth, Option.bind_eq_bind, Option.bind_eq_some_iff] at h
  obtain ⟨found, hfound, hrest⟩ := h
  rw [Option.bind_eq_bind, Option.bind_eq_some_iff] at hrest
  obtain ⟨printable, _, hprintable⟩ := hrest
  cases printable with
  | false => cases hprintable
  | true =>
    cases hprintable
    have hlen := Option.filter_eq_some_iff.mp hfound
    exact ⟨hlen.1, by simpa using hlen.2⟩

/-- **The body of `$'…'` is read as the value**, past the bytes of a character whose head
stands in front. -/
theorem ansiCBody_body (hlocale : Transparent s.locale) (tail : Bytes) {value : Bytes}
    (hnull : 0 ∉ value) (skip : Nat) (hskip : ∀ byte ∈ value.take skip, isAscii byte = false) :
    Body N s .dollarSingleQuoted tail (ansiCBody s.locale skip value) (quotedMarks value) := by
  induction value generalizing skip with
  | nil =>
    cases skip <;> exact Body.nil
  | cons byte value ih =>
    have ih := ih fun hmem => hnull (List.mem_cons_of_mem _ hmem)
    have hzero : ∀ b ∈ value.take 0, isAscii b = false := by
      intro b hmem
      cases hmem
    have hbyte : byte ≠ 0 := by
      rintro rfl
      exact hnull List.mem_cons_self
    have hnobase : Context.dollarSingleQuoted ≠ .base := by decide
    cases skip with
    | succ skip =>
      rw [ansiCBody]
      have hhigh : isAscii byte = false := by
        apply hskip
        rw [List.take_succ_cons]
        exact List.mem_cons_self
      refine Body.high byte hhigh (fun hbase => absurd hbase hnobase) (ih skip ?_)
      intro b hmem
      apply hskip
      rw [List.take_succ_cons]
      exact List.mem_cons_of_mem _ hmem
    | zero =>
      rw [ansiCBody]
      cases hshort : shortEscape byte with
      | some letter =>
        refine Body.one (chr '\\') [letter] (by decide) ?_ (ih 0 hzero)
        exact reads_escape hbyte (parse_shortEscape hshort _)
      | none =>
        have hkeeps := keeps_dollarSingleQuoted hshort
        dsimp only
        split_ifs with hplain hascii
        · exact Body.quotedByte hnobase hbyte hkeeps (ih 0 hzero)
        · refine Body.one (chr '\\') (octalEscape byte).tail (by decide) ?_ (ih 0 hzero)
          exact reads_escape hbyte (parse_octalEscape byte _)
        · rw [Bool.not_eq_true] at hascii
          cases hwidth : printableCharacterWidth s.locale (byte :: value) with
          | none =>
            refine Body.one (chr '\\') (octalEscape byte).tail (by decide) ?_ (ih 0 hzero)
            exact reads_escape hbyte (parse_octalEscape byte _)
          | some width =>
            refine Body.high byte hascii (fun hbase => absurd hbase hnobase) (ih (width - 1) ?_)
            obtain ⟨hlen, hpos⟩ := printableCharacterWidth_some hwidth
            intro b hmem
            by_cases hone : 1 < width
            · refine hlocale.high _ _ hlen hone b ?_
              obtain ⟨more, rfl⟩ : ∃ more, width = more + 1 := ⟨width - 1, by omega⟩
              rw [List.take_succ_cons]
              exact List.mem_cons_of_mem _ hmem
            · have hwidth : width - 1 = 0 := by omega
              rw [hwidth] at hmem
              cases hmem

end Nsh.Quoting
