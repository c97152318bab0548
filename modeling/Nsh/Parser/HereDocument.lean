import Nsh.Lib.Lines
import Nsh.Parser.Syntax
import Nsh.Parser.Words

/-!
# Quoted here-documents

The body of a here-document whose delimiter was quoted is read byte for byte.  At every
line start the delimiter is matched by reading ahead; what was read of a line that is not
the delimiter is given back, its first byte by hand and the rest as a pushed string.  The
delimiter has no newline, so a line is matched whole or not at all.
-/

namespace Nsh.Parser

open Nsh.Input

namespace HereDocument

abbrev newline : UInt8 := 0x0a

abbrev tab : UInt8 := 0x09

/-! ### The reader -/

/-- What changes of the lexer while it reads a quoted body. -/
structure WordLexer where
  input : InputUnit
  output : List WordToken
  frame : InputFrame
deriving DecidableEq, Repr

def bytesOf : InputUnit → Bytes
  | .byte byte => [byte]
  | .endOfInput => []

def WordLexer.read (lexer : WordLexer) : WordLexer :=
  { lexer with
    input := (readInputUnit lexer.frame).1
    frame := (readInputUnit lexer.frame).2 }

def WordLexer.pushLiteral (lexer : WordLexer) (byte : UInt8) : WordLexer :=
  { lexer with output := lexer.output ++ [.literal byte] }

/-- The leading tabs of a line. -/
def readTabs : Nat → WordLexer → Option WordLexer
  | 0, _ => none
  | fuel + 1, lexer =>
    if lexer.input = .byte tab then readTabs fuel lexer.read else some lexer

/-- The loop that matches the delimiter: what it consumed, whether the body goes on, and
    the lexer it leaves. -/
def matchMark : Bytes → WordLexer → Bytes × Bool × WordLexer
  | [], lexer => (bytesOf lexer.input, false, lexer)
  | byte :: mark, lexer =>
    if lexer.input = .byte byte then
      let (consumed, more, after) := matchMark mark lexer.read
      (bytesOf lexer.input ++ consumed, more, after)
    else (bytesOf lexer.input, true, lexer)

def giveBack (consumed : Bytes) (lexer : WordLexer) : WordLexer :=
  match consumed with
  | [] => lexer
  | first :: rest =>
    { lexer with
      input := .byte first
      frame := if rest = [] then lexer.frame else pushStringInput rest lexer.frame }

/-- `finish_word_if_delimited`, behind the tabs. -/
def finishLineIfDelimited (mark : Bytes) (lexer : WordLexer) : WordLexer :=
  let (consumed, more, after) := matchMark mark lexer
  if more = false ∧ (after.input = .byte newline ∨ after.input = .endOfInput) then
    { after with input := .endOfInput }
  else giveBack consumed after

def finishWordIfDelimited (fuel : Nat) (here : DelimitedDocument) (lexer : WordLexer) :
    Option WordLexer :=
  (if here.stripTabs then readTabs fuel lexer else some lexer).map
    (finishLineIfDelimited here.delimiter)

/-- `read_word_token` in the quoted context of a here-document.  Every byte is pushed as a
    literal one, a quote and a control byte with it since there is a delimiter. -/
def readWordToken (here : DelimitedDocument) : Nat → Bool → WordLexer → Option WordLexer
  | 0, _, _ => none
  | fuel + 1, lineStart, lexer => do
    let lexer ← if lineStart then finishWordIfDelimited (fuel + 1) here lexer else some lexer
    match lexer.input with
    | .endOfInput => some lexer
    | .byte byte =>
      match classify .singleQuoted (.byte byte) with
      | .newline => readWordToken here fuel true (lexer.pushLiteral byte).read
      | .word | .control | .endQuote =>
        readWordToken here fuel false (lexer.pushLiteral byte).read
      | .endOfInput => some lexer
      | _ => none

/-- A body that does not end in a newline is given one. -/
def closeBody (word : ParsedWord) : ParsedWord :=
  if !word.isEmpty && word.spelling.getLast? ≠ some newline then word.pushLiteralByte newline
  else word

/-- One round of `parse_here_documents`. -/
def parseHereDocument (fuel : Nat) (here : DelimitedDocument) (frame : InputFrame) :
    Option (ParsedWord × InputFrame) := do
  let lexer ← readWordToken here fuel true (WordLexer.mk .endOfInput [] frame).read
  some (closeBody (.fromTokens lexer.output), lexer.frame)

/-- `parse_here_documents`, of documents whose delimiters were all quoted. -/
def parseHereDocuments (fuel : Nat) :
    List DelimitedDocument → InputFrame → Option (List ParsedWord × InputFrame)
  | [], frame => some ([], frame)
  | here :: pending, frame => do
    let (body, frame) ← parseHereDocument fuel here frame
    let (bodies, frame) ← parseHereDocuments fuel pending frame
    some (body :: bodies, frame)

/-! ### The document in a text -/

/-- Some bytes with a newline behind them, unless there are none or they end in one. -/
def closed (bytes : Bytes) : Bytes :=
  if bytes ≠ [] ∧ bytes.getLast? ≠ some newline then bytes ++ [newline] else bytes

end HereDocument

namespace DelimitedDocument

open HereDocument

def strip (here : DelimitedDocument) (line : Bytes) : Bytes :=
  if here.stripTabs then line.dropWhile (· = tab) else line

/-- The lines before the delimiter, without their tabs where those are stripped. -/
def lines (here : DelimitedDocument) (text : Bytes) : Bytes :=
  documentOf newline here.strip here.delimiter text

def rest (here : DelimitedDocument) (text : Bytes) : Bytes :=
  leftOver newline here.strip here.delimiter text

/-- The lines before the delimiter as they are; all of them closed where no line is the
    delimiter. -/
def body (here : DelimitedDocument) (text : Bytes) : Bytes :=
  if Marked newline here.strip here.delimiter text then here.lines text
  else closed (here.lines text)

end DelimitedDocument

namespace HereDocument

/-- The bodies of some documents, each read from what the one before it left. -/
def documents : List DelimitedDocument → Bytes → List Bytes × Bytes
  | [], text => ([], text)
  | here :: pending, text =>
    (here.body text :: (documents pending (here.rest text)).1,
      (documents pending (here.rest text)).2)

/-- The lexer holds the first unit of a text, and its frame hands over the rest. -/
structure At (lexer : WordLexer) (text : Bytes) : Prop where
  input : lexer.input = .first text
  reads : Reads lexer.frame text.tail

section

variable {lexer : WordLexer} {mark line rest text : Bytes} {byte : UInt8} {fuel : Nat}

theorem At.read (h : At lexer (byte :: text)) : At lexer.read text :=
  ⟨h.reads.readInputUnit.1, h.reads.readInputUnit.2⟩

theorem At.bytesOf (h : At lexer text) : HereDocument.bytesOf lexer.input = text.take 1 := by
  rw [h.input]
  cases text <;> rfl

theorem At.input_byte (h : At lexer text) :
    lexer.input = .byte byte ↔ ∃ rest, text = byte :: rest := by
  rw [h.input]
  cases text with
  | nil => simp [InputUnit.first]
  | cons first rest => simp [InputUnit.first]

theorem readTabs_at (h : At lexer text) (hfuel : text.length < fuel) :
    ∃ lexer', readTabs fuel lexer = some lexer' ∧ At lexer' (text.dropWhile (· = tab)) ∧
      lexer'.output = lexer.output := by
  induction text generalizing lexer fuel with
  | nil =>
    obtain ⟨fuel, rfl⟩ := Nat.exists_eq_add_one.mpr hfuel
    have hinput : lexer.input ≠ .byte tab := by rw [h.input]; exact nofun
    rw [readTabs, if_neg hinput]
    exact ⟨lexer, rfl, h, rfl⟩
  | cons first rest ih =>
    obtain ⟨fuel, rfl⟩ := Nat.exists_eq_add_one.mpr (Nat.zero_lt_of_lt hfuel)
    rw [readTabs]
    by_cases htab : first = tab
    · have hinput : lexer.input = .byte tab := by rw [h.input, htab]; rfl
      rw [if_pos hinput, List.dropWhile_cons_of_pos (by simpa using htab)]
      exact ih h.read (by simpa using hfuel)
    · have hinput : lexer.input ≠ .byte tab := by
        rw [h.input]
        simpa [InputUnit.first] using htab
      rw [if_neg hinput, List.dropWhile_cons_of_neg (by simpa using htab)]
      exact ⟨lexer, rfl, h, rfl⟩

/-- The match stops behind some bytes of the text: it has consumed these and the one it
    stopped at, and the mark matched if and only if these are the mark. -/
theorem matchMark_at (mark : Bytes) (h : At lexer text) :
    ∃ given remaining, text = given ++ remaining ∧
      (matchMark mark lexer).1 = given ++ remaining.take 1 ∧
      At (matchMark mark lexer).2.2 remaining ∧
      (matchMark mark lexer).2.2.output = lexer.output ∧
      ((matchMark mark lexer).2.1 = false → given = mark) ∧
      ((matchMark mark lexer).2.1 = true → ¬ mark <+: text) := by
  induction mark generalizing lexer text with
  | nil => exact ⟨[], text, rfl, h.bytesOf, h, rfl, fun _ => rfl, nofun⟩
  | cons byte mark ih =>
    rw [matchMark]
    by_cases hinput : lexer.input = .byte byte
    · obtain ⟨text, rfl⟩ := h.input_byte.mp hinput
      obtain ⟨given, remaining, rfl, hconsumed, hat, houtput, hmatched, hmissed⟩ := ih h.read
      rw [if_pos hinput]
      refine ⟨byte :: given, remaining, rfl, ?_, hat, houtput, ?_, ?_⟩
      · show HereDocument.bytesOf lexer.input ++ _ = _
        rw [hconsumed, hinput]
        rfl
      · intro hmore
        rw [hmatched hmore]
      · intro hmore hmark
        exact hmissed hmore (List.cons_prefix_cons.mp hmark).2
    · rw [if_neg hinput]
      refine ⟨[], text, rfl, h.bytesOf, h, rfl, nofun, ?_⟩
      rintro - ⟨rest, rfl⟩
      exact hinput (h.input_byte.mpr ⟨mark ++ rest, rfl⟩)

/-- What has been consumed is read again. -/
theorem giveBack_at {given remaining : Bytes} (h : At lexer remaining) :
    At (giveBack (given ++ remaining.take 1) lexer) (given ++ remaining) := by
  have htail : remaining.take 1 ++ remaining.tail = remaining := by
    cases remaining <;> rfl
  cases hconsumed : given ++ remaining.take 1 with
  | nil =>
    obtain ⟨rfl, hnil⟩ := List.append_eq_nil_iff.mp hconsumed
    exact h
  | cons first rest =>
    have htext : given ++ remaining = first :: (rest ++ remaining.tail) := by
      rw [← List.cons_append, ← hconsumed, List.append_assoc, htail]
    rw [htext]
    refine ⟨rfl, ?_⟩
    show Reads (if rest = [] then lexer.frame else pushStringInput rest lexer.frame) _
    by_cases hrest : rest = []
    · rw [if_pos hrest, hrest]
      exact h.reads
    · rw [if_neg hrest]
      exact h.reads.pushStringInput rest

theorem giveBack_output (consumed : Bytes) (lexer : WordLexer) :
    (giveBack consumed lexer).output = lexer.output := by
  cases consumed <;> rfl

theorem finishLineIfDelimited_output (mark : Bytes) (h : At lexer text) :
    (finishLineIfDelimited mark lexer).output = lexer.output := by
  obtain ⟨given, remaining, -, -, -, houtput, -, -⟩ := matchMark_at mark h
  unfold finishLineIfDelimited
  dsimp only
  split
  · exact houtput
  · rw [giveBack_output, houtput]

/-- A line is the delimiter, and the input ends there with what is behind it left to read;
    or it comes through unchanged. -/
theorem finishLineIfDelimited_at (hmark : newline ∉ mark) (hline : newline ∉ line)
    (hrest : rest = [] ∨ ∃ next, rest = newline :: next) (h : At lexer (line ++ rest)) :
    if line = mark then
      (finishLineIfDelimited mark lexer).input = .endOfInput ∧
        Reads (finishLineIfDelimited mark lexer).frame rest.tail
    else At (finishLineIfDelimited mark lexer) (line ++ rest) := by
  obtain ⟨given, remaining, htext, hconsumed, hat, -, hmatched, hmissed⟩ := matchMark_at mark h
  unfold finishLineIfDelimited
  dsimp only
  by_cases hends : (matchMark mark lexer).2.1 = false ∧
      ((matchMark mark lexer).2.2.input = .byte newline ∨
        (matchMark mark lexer).2.2.input = .endOfInput)
  · rw [if_pos hends]
    obtain rfl := hmatched hends.1
    have hremaining : remaining = [] ∨ ∃ next, remaining = newline :: next := by
      rcases hends.2 with hnewline | hend
      · exact .inr (hat.input_byte.mp hnewline)
      · rw [hat.input] at hend
        cases remaining with
        | nil => exact .inl rfl
        | cons first rest => cases hend
    obtain ⟨rfl, rfl⟩ := line_eq_of_append hline hmark hrest hremaining htext
    rw [if_pos rfl]
    exact ⟨rfl, hat.reads⟩
  · rw [if_neg hends, hconsumed]
    have hne : line ≠ mark := by
      rintro rfl
      have hmore : (matchMark line lexer).2.1 = false := by
        cases hmore : (matchMark line lexer).2.1 with
        | false => rfl
        | true => exact absurd (List.prefix_append line rest) (hmissed hmore)
      refine hends ⟨hmore, ?_⟩
      obtain rfl := hmatched hmore
      obtain rfl := List.append_cancel_left htext
      rw [hat.input]
      rcases hrest with rfl | ⟨next, rfl⟩
      · exact .inr rfl
      · exact .inl rfl
    rw [if_neg hne, htext]
    exact giveBack_at hat

end

/-! ### A whole body -/

section

variable {here : DelimitedDocument} {lexer : WordLexer} {line rest text : Bytes} {byte : UInt8}
  {fuel : Nat} {frame : InputFrame}

theorem strip_append (hrest : rest = [] ∨ ∃ next, rest = newline :: next) :
    here.strip (line ++ rest) = here.strip line ++ rest := by
  unfold DelimitedDocument.strip
  split
  · induction line with
    | nil =>
      rcases hrest with rfl | ⟨next, rfl⟩
      · rfl
      · rfl
    | cons first line ih =>
      by_cases htab : first = tab
      · rw [List.cons_append, List.dropWhile_cons_of_pos (by simpa using htab), ih,
          List.dropWhile_cons_of_pos (by simpa using htab)]
      · rw [List.cons_append, List.dropWhile_cons_of_neg (by simpa using htab),
          List.dropWhile_cons_of_neg (by simpa using htab), List.cons_append]
  · rfl

theorem strip_subset (here : DelimitedDocument) (line : Bytes) : here.strip line ⊆ line := by
  unfold DelimitedDocument.strip
  split
  · exact (List.dropWhile_sublist _).subset
  · exact List.Subset.refl line

theorem length_strip (here : DelimitedDocument) (line : Bytes) :
    (here.strip line).length ≤ line.length := by
  unfold DelimitedDocument.strip
  split
  · exact (List.dropWhile_sublist _).length_le
  · exact Nat.le_refl _

/-- The start of a line: it is the delimiter, or the lexer stands in front of it without
    its tabs. -/
theorem finishWordIfDelimited_at (hmark : newline ∉ here.delimiter) (hline : newline ∉ line)
    (hrest : rest = [] ∨ ∃ next, rest = newline :: next) (h : At lexer (line ++ rest))
    (hfuel : (line ++ rest).length < fuel) :
    ∃ lexer', finishWordIfDelimited fuel here lexer = some lexer' ∧
      lexer'.output = lexer.output ∧
      if here.strip line = here.delimiter then
        lexer'.input = .endOfInput ∧ Reads lexer'.frame rest.tail
      else At lexer' (here.strip line ++ rest) := by
  have htabs : ∃ lexer', (if here.stripTabs then readTabs fuel lexer else some lexer) =
      some lexer' ∧ At lexer' (here.strip (line ++ rest)) ∧ lexer'.output = lexer.output := by
    unfold DelimitedDocument.strip
    split
    · exact readTabs_at h hfuel
    · exact ⟨lexer, rfl, h, rfl⟩
  obtain ⟨start, hstart, hat, houtput⟩ := htabs
  rw [strip_append hrest] at hat
  have hstrip : newline ∉ here.strip line := fun hmem => hline (strip_subset here line hmem)
  refine ⟨finishLineIfDelimited here.delimiter start, ?_, ?_, ?_⟩
  · rw [finishWordIfDelimited, hstart]
    rfl
  · rw [finishLineIfDelimited_output here.delimiter hat, houtput]
  · exact finishLineIfDelimited_at hmark hstrip hrest hat

theorem At.readPushed (h : At lexer (byte :: text)) : At (lexer.pushLiteral byte).read text :=
  have hpushed : At (lexer.pushLiteral byte) (byte :: text) := ⟨h.input, h.reads⟩
  hpushed.read

theorem readWordToken_unit (here : DelimitedDocument) (fuel : Nat) (lexer : WordLexer) :
    readWordToken here (fuel + 1) false lexer =
      match lexer.input with
      | .endOfInput => some lexer
      | .byte byte =>
        match classify .singleQuoted (.byte byte) with
        | .newline => readWordToken here fuel true (lexer.pushLiteral byte).read
        | .word | .control | .endQuote =>
          readWordToken here fuel false (lexer.pushLiteral byte).read
        | .endOfInput => some lexer
        | _ => none := rfl

theorem readWordToken_start {lexer' : WordLexer}
    (h : finishWordIfDelimited (fuel + 1) here lexer = some lexer') :
    readWordToken here (fuel + 1) true lexer = readWordToken here (fuel + 1) false lexer' := by
  rw [readWordToken, if_pos rfl, h]
  rfl

theorem readWordToken_end (h : lexer.input = .endOfInput) :
    readWordToken here (fuel + 1) false lexer = some lexer := by
  rw [readWordToken_unit, h]

theorem readWordToken_newline (h : At lexer (newline :: text)) :
    readWordToken here (fuel + 1) false lexer =
      readWordToken here fuel true (lexer.pushLiteral newline).read := by
  have hinput : lexer.input = .byte newline := h.input
  rw [readWordToken_unit, hinput]
  rfl

/-- Inside a line a byte is pushed and the next one read. -/
theorem readWordToken_byte (hbyte : byte ≠ newline) (h : At lexer (byte :: text)) :
    readWordToken here (fuel + 1) false lexer =
      readWordToken here fuel false (lexer.pushLiteral byte).read := by
  have hclass : classify .singleQuoted (.byte byte) = .endQuote ∨
      classify .singleQuoted (.byte byte) = .control ∨
      classify .singleQuoted (.byte byte) = .word := by
    rw [classify, if_neg hbyte]
    split
    · exact .inl rfl
    · split
      · exact .inr (.inl rfl)
      · exact .inr (.inr rfl)
  have hinput : lexer.input = .byte byte := h.input
  rw [readWordToken_unit, hinput]
  dsimp only
  rcases hclass with hclass | hclass | hclass
  · rw [hclass]
  · rw [hclass]
  · rw [hclass]

/-- Inside a line everything up to its end is pushed. -/
theorem readWordToken_line (here : DelimitedDocument) (fuel : Nat) (hline : newline ∉ line)
    (h : At lexer (line ++ rest)) :
    ∃ lexer', readWordToken here (fuel + line.length) false lexer =
        readWordToken here fuel false lexer' ∧
      At lexer' rest ∧ lexer'.output = lexer.output ++ line.map .literal := by
  induction line generalizing lexer with
  | nil => exact ⟨lexer, rfl, h, (List.append_nil _).symm⟩
  | cons byte line ih =>
    obtain ⟨hbyte, hmem⟩ := not_or.mp (mt List.mem_cons.mpr hline)
    obtain ⟨lexer', hread, hat, houtput⟩ := ih hmem h.readPushed
    refine ⟨lexer', ?_, hat, ?_⟩
    · rw [← hread, List.length_cons, ← Nat.add_assoc]
      exact readWordToken_byte (Ne.symm hbyte) h
    · rw [houtput]
      simp [WordLexer.pushLiteral, WordLexer.read]

/-- A line that is not the delimiter, from its start to its end. -/
theorem readWordToken_shape (hline : newline ∉ line) (h : At lexer (here.strip line ++ rest))
    (hfuel : (line ++ rest).length < fuel + 1) :
    ∃ lexer' spare, readWordToken here (fuel + 1) false lexer =
        readWordToken here (spare + 1) false lexer' ∧ rest.length ≤ spare ∧
      At lexer' rest ∧ lexer'.output = lexer.output ++ (here.strip line).map .literal := by
  have hstrip : newline ∉ here.strip line := fun hmem => hline (strip_subset here line hmem)
  have hlength := length_strip here line
  rw [List.length_append] at hfuel
  obtain ⟨spare, hspare⟩ := Nat.exists_eq_add_of_le
    (show (here.strip line).length ≤ fuel by omega)
  obtain ⟨lexer', hread, hat, houtput⟩ :=
    readWordToken_line here (spare + 1) hstrip h
  refine ⟨lexer', spare, ?_, by omega, hat, houtput⟩
  rw [← hread, show fuel + 1 = spare + 1 + (here.strip line).length by omega]

/-- **A body is read line by line** up to the delimiter or the end of the input. -/
theorem readWordToken_at (hmark : newline ∉ here.delimiter) (h : At lexer text)
    (hfuel : text.length < fuel) :
    ∃ lexer', readWordToken here fuel true lexer = some lexer' ∧
      lexer'.output = lexer.output ++ (here.lines text).map .literal ∧
      Reads lexer'.frame (here.rest text) := by
  unfold DelimitedDocument.lines DelimitedDocument.rest
  induction text using line_induction newline generalizing lexer fuel with
  | last line hline =>
    obtain ⟨fuel, rfl⟩ := Nat.exists_eq_add_one.mpr (Nat.zero_lt_of_lt hfuel)
    rw [← List.append_nil line] at h hfuel
    obtain ⟨start, hstart, houtput, hat⟩ :=
      finishWordIfDelimited_at hmark hline (.inl rfl) h hfuel
    rw [readWordToken_start hstart, ← houtput]
    by_cases hends : here.strip line = here.delimiter
    · rw [if_pos hends] at hat
      obtain ⟨hlines, hleft⟩ := documentOf_mark hline hends (.inl rfl)
      rw [List.append_nil] at hlines hleft
      rw [hlines, hleft, List.map_nil, List.append_nil]
      exact ⟨start, readWordToken_end hat.1, rfl, hat.2⟩
    · rw [if_neg hends] at hat
      obtain ⟨lexer', spare, hread, -, hend, hpushed⟩ := readWordToken_shape hline hat hfuel
      obtain ⟨hlines, hleft⟩ := documentOf_last hline hends
      rw [hlines, hleft, hread]
      exact ⟨lexer', readWordToken_end hend.input, hpushed, hend.reads⟩
  | step line text hline ih =>
    obtain ⟨fuel, rfl⟩ := Nat.exists_eq_add_one.mpr (Nat.zero_lt_of_lt hfuel)
    obtain ⟨start, hstart, houtput, hat⟩ :=
      finishWordIfDelimited_at hmark hline (.inr ⟨text, rfl⟩) h hfuel
    rw [readWordToken_start hstart, ← houtput]
    by_cases hends : here.strip line = here.delimiter
    · rw [if_pos hends] at hat
      obtain ⟨hlines, hleft⟩ := documentOf_mark hline hends (.inr ⟨text, rfl⟩)
      rw [hlines, hleft, List.map_nil, List.append_nil]
      exact ⟨start, readWordToken_end hat.1, rfl, hat.2⟩
    · rw [if_neg hends] at hat
      obtain ⟨lexer', spare, hread, hspare, hend, hpushed⟩ := readWordToken_shape hline hat hfuel
      obtain ⟨final, hfinal, houtput, hreads⟩ := ih hend.readPushed hspare
      obtain ⟨hlines, hleft⟩ := documentOf_cons text hline hends
      rw [hlines, hleft, hread, readWordToken_newline hend, hfinal]
      refine ⟨final, rfl, ?_, hreads⟩
      rw [houtput]
      simp [WordLexer.pushLiteral, WordLexer.read, hpushed]

theorem closeBody_plain (bytes : Bytes) : closeBody (.plain bytes) = .plain (closed bytes) := by
  unfold closeBody closed
  rw [plain_isEmpty, plain_pushLiteralByte]
  by_cases hempty : bytes = []
  · rw [if_neg (by simp [hempty]), if_neg (by simp [hempty])]
  · by_cases hlast : bytes.getLast? = some newline
    · rw [if_neg (by simp [ParsedWord.plain, hlast]), if_neg (by simp [hlast])]
    · rw [if_pos (by simp [ParsedWord.plain, hempty, hlast]), if_pos ⟨hempty, hlast⟩]

/-- A body that ended at its delimiter is closed already. -/
theorem closed_lines (here : DelimitedDocument) (text : Bytes) :
    closed (here.lines text) = here.body text := by
  unfold DelimitedDocument.body
  by_cases hmarked : Marked newline here.strip here.delimiter text
  · rw [if_pos hmarked]
    exact if_neg fun hopen => hopen.2 (documentOf_getLast hmarked hopen.1)
  · rw [if_neg hmarked]

/-- One document is the plain word of its lines, and reading resumes behind its
    delimiter. -/
theorem parseHereDocument_reads (here : DelimitedDocument) (hmark : newline ∉ here.delimiter)
    (h : Reads frame text) (hfuel : text.length < fuel) :
    ∃ frame', parseHereDocument fuel here frame = some (.plain (here.body text), frame') ∧
      Reads frame' (here.rest text) := by
  have hat : At (WordLexer.mk .endOfInput [] frame).read text :=
    ⟨h.readInputUnit.1, h.readInputUnit.2⟩
  obtain ⟨lexer, hread, houtput, hreads⟩ := readWordToken_at hmark hat hfuel
  refine ⟨lexer.frame, ?_, hreads⟩
  have hliteral : lexer.output = (here.lines text).map .literal := houtput
  rw [parseHereDocument, hread, Option.bind_eq_bind, Option.bind_some, hliteral,
    fromTokens_literal, closeBody_plain, closed_lines]

/-- **Quoted here-documents are read byte for byte**: the body of each is the plain word of
    the lines before its delimiter, and reading resumes right behind that. -/
theorem parseHereDocuments_reads {pending : List DelimitedDocument}
    (hmarks : ∀ here ∈ pending, newline ∉ here.delimiter) (h : Reads frame text)
    (hfuel : text.length < fuel) :
    ∃ frame', parseHereDocuments fuel pending frame =
        some ((documents pending text).1.map .plain, frame') ∧
      Reads frame' (documents pending text).2 := by
  induction pending generalizing frame text with
  | nil => exact ⟨frame, rfl, h⟩
  | cons here pending ih =>
    obtain ⟨hmark, hmarks⟩ := List.forall_mem_cons.mp hmarks
    obtain ⟨after, hbody, hafter⟩ := parseHereDocument_reads here hmark h hfuel
    have hsuffix : here.rest text <:+ text := leftOver_suffix text
    have hlength := hsuffix.length_le
    obtain ⟨final, hbodies, hfinal⟩ := ih hmarks hafter (by omega)
    refine ⟨final, ?_, hfinal⟩
    rw [parseHereDocuments, hbody, Option.bind_eq_bind, Option.bind_some]
    dsimp only
    rw [hbodies]
    rfl

end

/-- Lines that share their beginning with the delimiter come through. -/
theorem parseHereDocuments_reads_beginnings :
    ∃ frame', parseHereDocuments 64 [⟨text "EOF", true⟩, ⟨text "EOF", false⟩]
        (setInputString (text "EO\n\tEOFx\n\tEOF\n\tEOF\nE'O\nEOF\nls\n")) =
        some ([.plain (text "EO\nEOFx\n"), .plain (text "\tEOF\nE'O\n")], frame') ∧
      Reads frame' (text "ls\n") := by
  have hdocuments : documents [⟨text "EOF", true⟩, ⟨text "EOF", false⟩]
      (text "EO\n\tEOFx\n\tEOF\n\tEOF\nE'O\nEOF\nls\n") =
      ([text "EO\nEOFx\n", text "\tEOF\nE'O\n"], text "ls\n") := by decide +kernel
  have hmarks : ∀ here ∈ [DelimitedDocument.mk (text "EOF") true, ⟨text "EOF", false⟩],
      newline ∉ here.delimiter := by decide
  have hreads := parseHereDocuments_reads hmarks
    (reads_setInputString (text "EO\n\tEOFx\n\tEOF\n\tEOF\nE'O\nEOF\nls\n"))
    (show _ < 64 by decide)
  rw [hdocuments] at hreads
  exact hreads

/-- A last line of tabs without a newline is not given one where tabs are stripped. -/
theorem not_parseHereDocument_newline :
    ¬ ∀ (here : DelimitedDocument) (frame : InputFrame) (text : Bytes) (fuel : Nat),
      newline ∉ here.delimiter → Reads frame text → text.length < fuel →
      ∃ frame', parseHereDocument fuel here frame =
          some (.plain (if Marked newline here.strip here.delimiter text then here.lines text
            else if text ≠ [] ∧ text.getLast? ≠ some newline then here.lines text ++ [newline]
            else here.lines text), frame') ∧
        Reads frame' (here.rest text) := by
  intro h
  obtain ⟨frame', hread, -⟩ := h ⟨text "E", true⟩ (setInputString [tab]) [tab] 2 (by decide)
    (reads_setInputString [tab]) (by decide)
  have hempty : (parseHereDocument 2 ⟨text "E", true⟩ (setInputString [tab])).map
      (fun read => read.1.spelling) = some [] := by decide +kernel
  rw [hread] at hempty
  exact absurd (Option.some.inj hempty) (by dsimp only [ParsedWord.plain]; decide +kernel)

end HereDocument

end Nsh.Parser
