import Nsh.Parser.Tokens

/-!
# What a token is read from

A reader that awaits a text finds its first token behind the blanks in front of it, and
awaits what is behind the token.  A word of ordinary bytes is read whole, up to the byte
that delimits it.
-/

namespace Nsh.Parser

open Nsh.Input

/-- A byte that belongs to a word and means nothing in it. -/
def Ordinary (byte : UInt8) : Prop :=
  classify .base (.byte byte) = .word ∨ classify .base (.byte byte) = .endVariable

instance (byte : UInt8) : Decidable (Ordinary byte) :=
  inferInstanceAs (Decidable (_ ∨ _))

theorem Ordinary.ne {a b : UInt8} (ha : Ordinary a) (hb : ¬ Ordinary b) : a ≠ b :=
  fun h => hb (h ▸ ha)

/-- A word of ordinary bytes that no comment begins with. -/
structure PlainWord (word : Bytes) : Prop where
  nonempty : word ≠ []
  ordinary : ∀ byte ∈ word, Ordinary byte
  comment : word.head? ≠ some (chr '#')

theorem plainWord_iff {word : Bytes} : PlainWord word ↔
    word ≠ [] ∧ (∀ byte ∈ word, Ordinary byte) ∧ word.head? ≠ some (chr '#') :=
  ⟨fun h => ⟨h.nonempty, h.ordinary, h.comment⟩, fun h => ⟨h.1, h.2.1, h.2.2⟩⟩

instance (word : Bytes) : Decidable (PlainWord word) :=
  have : Decidable (∀ byte ∈ word, Ordinary byte) := List.decidableBAll _ _
  decidable_of_iff _ plainWord_iff.symm

def Blank (byte : UInt8) : Prop := byte = chr ' ' ∨ byte = 0x09

instance (byte : UInt8) : Decidable (Blank byte) := inferInstanceAs (Decidable (_ ∨ _))

/-- What may stand directly behind a word. -/
def Delimited (text : Bytes) : Prop :=
  ∀ byte ∈ text.head?, byte ∈ Nsh.text " \t\n&;|)"

instance (text : Bytes) : Decidable (Delimited text) :=
  inferInstanceAs (Decidable (∀ byte ∈ text.head?, _))

variable {σ Node : Type}

/-- The reader stands in front of a text, with no token pushed back and no here-document
    pending. -/
structure Awaits (st : ParserState σ) (text : Bytes) : Prop where
  ready : Ready st.frame text
  pushedBack : st.tokenPushedBack = false
  pending : st.pendingHereDocuments = []

def ParserState.read (st : ParserState σ) : ParserState σ :=
  { st with frame := (readInputUnit st.frame).2 }

def ParserState.unread (st : ParserState σ) : ParserState σ :=
  { st with frame := unreadInputUnit st.frame }

section

variable {s : Surroundings σ Node} {st : ParserState σ} {text rest word : Bytes} {byte : UInt8}
  {fuel : Nat} {context : TokenContext} {output : List WordToken}

theorem Awaits.read (h : Awaits st (byte :: text)) : Awaits st.read text :=
  ⟨h.ready.readInputUnit.2, h.pushedBack, h.pending⟩

theorem Awaits.unread (h : Awaits st text) : Awaits st.read.unread text :=
  ⟨h.ready.unread, h.pushedBack, h.pending⟩

theorem Awaits.nextUnit (h : Awaits st text) (hcontinued : text.head? ≠ some (chr '\\')) :
    readUnitSkippingLineContinuations (fuel + 1) st = .ok (.first text, st.read) := by
  have hunit : readUnit st = .ok (.first text, st.read) := by
    rw [readUnit, h.ready.reads.readInputUnit.1]
    rfl
  have hnot : InputUnit.first text ≠ .byte (chr '\\') := by
    cases text with
    | nil => exact nofun
    | cons byte text => simpa [InputUnit.first] using hcontinued
  rw [readUnitSkippingLineContinuations, Failing.bind_ok hunit, if_neg hnot]
  rfl

theorem Awaits.peekUnit (h : Awaits st text) (hcontinued : text.head? ≠ some (chr '\\')) :
    peekUnit (fuel + 1) st = .ok (.first text, st.read.unread) := by
  rw [Parser.peekUnit, Failing.bind_ok (h.nextUnit hcontinued)]
  rfl

/-! ### Words -/

theorem head_append (hword : ∀ byte ∈ word, Ordinary byte) (hrest : Delimited rest)
    (hbyte : ¬ Ordinary byte) (hdelimiter : byte ∉ Nsh.text " \t\n&;|)") :
    (word ++ rest).head? ≠ some byte := by
  cases word with
  | nil =>
    intro hhead
    exact hdelimiter (hrest byte hhead)
  | cons first word =>
    intro hhead
    obtain rfl : first = byte := Option.some.inj hhead
    exact hbyte (hword first (List.mem_cons_self ..))

theorem not_continued (hword : ∀ byte ∈ word, Ordinary byte) (hrest : Delimited rest) :
    (word ++ rest).head? ≠ some (chr '\\') :=
  head_append hword hrest (by decide) (by decide)

/-- Where a group may open there is a look at the next byte, which opens none. -/
theorem lookAhead_ordinary (fuel : Nat) (h : Awaits st (word ++ rest))
    (hword : ∀ byte ∈ word, Ordinary byte) (hrest : Delimited rest) (input : InputUnit) :
    ∃ next st', lookAhead s (fuel + 1) input st = .ok (next, st') ∧ next ≠ .byte (chr '(') ∧
      Awaits st' (word ++ rest) := by
  unfold lookAhead
  split
  · refine ⟨_, _, h.peekUnit (not_continued hword hrest), ?_, h.unread⟩
    have hparen : (word ++ rest).head? ≠ some (chr '(') :=
      head_append hword hrest (by decide) (by decide)
    intro hfirst
    cases htext : word ++ rest with
    | nil =>
      rw [htext] at hfirst
      cases hfirst
    | cons first text =>
      rw [htext] at hfirst hparen
      exact hparen (congrArg some (InputUnit.byte.inj hfirst))
  · exact ⟨_, _, rfl, nofun, h⟩

theorem not_mayOpenGroup (hrest : Delimited rest) : mayOpenGroup s (.first rest) = false := by
  cases rest with
  | nil => simp [mayOpenGroup, InputUnit.first]
  | cons byte rest =>
    have hbyte : byte ∈ Nsh.text " \t\n&;|)" := hrest byte rfl
    have hnone : ∀ byte ∈ Nsh.text " \t\n&;|)",
        byte ≠ chr '<' ∧ byte ≠ chr '>' ∧ byte ∉ Nsh.text "?*+@!" := by decide +kernel
    obtain ⟨hless, hmore, hgroup⟩ := hnone byte hbyte
    simp [mayOpenGroup, InputUnit.first, hless, hmore]
    intro _ _ other hother heq
    exact hgroup (heq ▸ hother)

theorem finishWordToken_delimited (h : Awaits st rest) (hrest : Delimited rest) :
    finishWordToken s output (.first rest) st.read = .ok (⟨.word, false⟩,
      { st.read.unread with
        lastToken := .word
        lastTokenQuoted := false
        word := .fromTokens output }) := by
  have hnot : ¬ ((InputUnit.first rest = .byte (chr '<') ||
      InputUnit.first rest = .byte (chr '>')) && mayBePrefix s output) = true := by
    cases rest with
    | nil => simp [InputUnit.first]
    | cons byte rest =>
      have hnone : ∀ byte ∈ Nsh.text " \t\n&;|)", byte ≠ chr '<' ∧ byte ≠ chr '>' := by
        decide +kernel
      obtain ⟨hless, hmore⟩ := hnone byte (hrest byte rfl)
      simp [InputUnit.first, hless, hmore]
  rw [finishWordToken, if_neg hnot]
  rfl

theorem readWordToken_succ (subscripts : Bool) (fuel : Nat) (output : List WordToken)
    (input : InputUnit) :
    readWordToken s subscripts (fuel + 1) output input = (do
      let next ← lookAhead s (fuel + 1) input
      if next = .byte (chr '(') then s.special output input
      else
        match classify .base input, input with
        | .word, .byte byte =>
          if subscripts && s.parseDialect = .bash && (byte = chr '[' || byte = chr ']') then
            s.special output input
          else do
            let input ← readUnitSkippingLineContinuations (fuel + 1)
            readWordToken s subscripts fuel (output ++ [.literal byte]) input
        | .endVariable, .byte byte => do
          let input ← readUnitSkippingLineContinuations (fuel + 1)
          readWordToken s subscripts fuel (output ++ [.literal byte]) input
        | .newline, _ | .endOfInput, _ | .wordSeparator, _ => finishWordToken s output input
        | _, _ => s.special output input) := rfl

/-- A byte that delimits a word ends it. -/
theorem readWordToken_delimited {subscripts : Bool} (h : Awaits st rest)
    (hrest : Delimited rest) :
    readWordToken s subscripts (fuel + 1) output (.first rest) st.read = .ok (⟨.word, false⟩,
      { st.read.unread with
        lastToken := .word
        lastTokenQuoted := false
        word := .fromTokens output }) := by
  have hnext : lookAhead s (fuel + 1) (.first rest) st.read = .ok (.endOfInput, st.read) := by
    rw [lookAhead, not_mayOpenGroup hrest]
    rfl
  have hgroup : InputUnit.endOfInput ≠ .byte (chr '(') := nofun
  rw [readWordToken_succ, Failing.bind_ok hnext, if_neg hgroup,
    ← finishWordToken_delimited h hrest]
  have hclass : classify .base (.first rest) = .newline ∨
      classify .base (.first rest) = .endOfInput ∨
      classify .base (.first rest) = .wordSeparator := by
    cases rest with
    | nil => exact .inr (.inl rfl)
    | cons byte rest =>
      have hseparator : ∀ byte ∈ Nsh.text " \t\n&;|)", classify .base (.byte byte) = .newline ∨
          classify .base (.byte byte) = .endOfInput ∨
          classify .base (.byte byte) = .wordSeparator := by
        decide +kernel
      exact hseparator byte (hrest byte rfl)
  rcases hclass with hclass | hclass | hclass
  · rw [hclass]
  · rw [hclass]
  · rw [hclass]

/-- An ordinary byte is pushed and the next one read. -/
theorem readWordToken_ordinary {subscripts : Bool} (fuel : Nat) (output : List WordToken)
    (hbyte : Ordinary byte) (hword : ∀ byte ∈ word, Ordinary byte) (hrest : Delimited rest)
    (hsubscripts : subscripts = true → byte ≠ chr '[' ∧ byte ≠ chr ']')
    (h : Awaits st (byte :: (word ++ rest))) :
    ∃ st', readWordToken s subscripts (fuel + 1) output (.byte byte) st.read =
        readWordToken s subscripts fuel (output ++ [.literal byte]) (.first (word ++ rest))
          st'.read ∧
      Awaits st' (word ++ rest) := by
  obtain ⟨next, st', hnext, hparen, hst'⟩ :=
    lookAhead_ordinary fuel h.read hword hrest (.byte byte)
  refine ⟨st', ?_, hst'⟩
  have hread : readUnitSkippingLineContinuations (fuel + 1) st' =
      .ok (.first (word ++ rest), st'.read) :=
    hst'.nextUnit (not_continued hword hrest)
  rw [readWordToken_succ, Failing.bind_ok hnext, if_neg hparen]
  rcases hbyte with hclass | hclass
  · have hplain : ¬ (subscripts && s.parseDialect = .bash &&
        (byte = chr '[' || byte = chr ']')) = true := by
      cases hsub : subscripts with
      | false => simp
      | true =>
        obtain ⟨hopen, hclose⟩ := hsubscripts hsub
        simp [hopen, hclose]
    rw [hclass]
    dsimp only
    rw [if_neg hplain, Failing.bind_ok hread]
  · rw [hclass]
    dsimp only
    rw [Failing.bind_ok hread]

/-- The reader has read a token and awaits what is behind it. -/
structure Took (st : ParserState σ) (kind : TokenKind) (rest : Bytes) : Prop where
  awaits : Awaits st rest
  lastToken : st.lastToken = kind
  lastTokenQuoted : st.lastTokenQuoted = false

theorem readWordToken_word {subscripts : Bool} (output : List WordToken)
    (hword : ∀ byte ∈ word, Ordinary byte) (hrest : Delimited rest)
    (hsubscripts : subscripts = true → ∀ byte ∈ word, byte ≠ chr '[' ∧ byte ≠ chr ']')
    (h : Awaits st (word ++ rest)) (hfuel : word.length < fuel) :
    ∃ st', readWordToken s subscripts fuel output (.first (word ++ rest)) st.read =
        .ok (⟨.word, false⟩, st') ∧
      Took st' .word rest ∧ st'.word = .fromTokens (output ++ word.map .literal) := by
  induction word generalizing st output fuel with
  | nil =>
    obtain ⟨fuel, rfl⟩ := Nat.exists_eq_add_one.mpr hfuel
    refine ⟨_, readWordToken_delimited h hrest, ⟨?_, rfl, rfl⟩, ?_⟩
    · exact ⟨h.unread.ready, h.pushedBack, h.pending⟩
    · rw [List.map_nil, List.append_nil]
  | cons byte word ih =>
    obtain ⟨fuel, rfl⟩ := Nat.exists_eq_add_one.mpr (Nat.zero_lt_of_lt hfuel)
    obtain ⟨hbyte, hword⟩ := List.forall_mem_cons.mp hword
    obtain ⟨st', hstep, hst'⟩ := readWordToken_ordinary (s := s) fuel output
      hbyte hword hrest (fun hsub => hsubscripts hsub byte (List.mem_cons_self ..)) h
    obtain ⟨final, hrun, htook, hfinal⟩ := ih (output ++ [.literal byte]) hword
      (fun hsub byte hmem => hsubscripts hsub byte (List.mem_cons_of_mem _ hmem)) hst'
      (by simpa using hfuel)
    refine ⟨final, ?_, htook, ?_⟩
    · rw [← hrun, ← hstep]
      rfl
    · rw [hfinal, List.map_cons, List.append_assoc, List.singleton_append]

/-! ### Tokens -/

variable (s) in
/-- From a text the reader finds a token of this kind first, and is left in such a state. -/
def Finds (context : TokenContext) (text : Bytes) (kind : TokenKind)
    (P : ParserState σ → Prop) : Prop :=
  ∀ (st : ParserState σ) (fuel : Nat), Awaits st text → text.length < fuel →
    ∃ st', findToken s context fuel st = .ok (⟨kind, false⟩, st') ∧ P st'

variable {kind : TokenKind} {P : ParserState σ → Prop}

theorem findToken_blank (hblank : Blank byte) (h : Awaits st (byte :: text)) :
    findToken s context (fuel + 1) st = findToken s context fuel st.read := by
  have hcontinued : (byte :: text).head? ≠ some (chr '\\') := by
    rcases hblank with rfl | rfl
    · simp [chr]
    · simp [chr]
  rw [findToken, Failing.bind_ok (h.nextUnit hcontinued), InputUnit.first]
  dsimp only
  rw [if_pos (show byte = chr ' ' ∨ byte = 0x09 from hblank)]

/-- **A word of ordinary bytes is found whole.** -/
theorem finds_word (hword : PlainWord word) (hrest : Delimited rest)
    (hsubscripts : context.assignmentPosition = true →
      ∀ byte ∈ word, byte ≠ chr '[' ∧ byte ≠ chr ']') :
    Finds s context (word ++ rest) .word
      fun st' => Took st' .word rest ∧ st'.word = .plain word := by
  intro st fuel hst hfuel
  obtain ⟨fuel, rfl⟩ := Nat.exists_eq_add_one.mpr (Nat.zero_lt_of_lt hfuel)
  obtain ⟨st', hread, htook, hst'⟩ := readWordToken_word (s := s) [] hword.ordinary
    hrest hsubscripts hst
    (show word.length < fuel + 1 by rw [List.length_append] at hfuel; omega)
  refine ⟨st', ?_, htook, hst'.trans (fromTokens_literal word)⟩
  have hcontinued : (word ++ rest).head? ≠ some (chr '\\') :=
    not_continued hword.ordinary hrest
  rw [findToken, Failing.bind_ok (hst.nextUnit hcontinued)]
  cases hcons : word with
  | nil => exact absurd hcons hword.nonempty
  | cons first tail =>
    have hfirst : Ordinary first := hword.ordinary first (hcons ▸ List.mem_cons_self ..)
    have hcomment : first ≠ chr '#' := by
      have := hword.comment
      rw [hcons] at this
      exact fun h => this (congrArg some h)
    have hblank : ¬ (first = chr ' ' ∨ first = 0x09) :=
      not_or.mpr ⟨hfirst.ne (by decide), hfirst.ne (by decide)⟩
    have hoperator : shortOperator first = none := by
      have hnot : ∀ byte, ¬ Ordinary byte → first ≠ byte := fun byte h => hfirst.ne h
      rw [shortOperator, if_neg (hnot _ (by decide)), if_neg (hnot _ (by decide)),
        if_neg (hnot _ (by decide)), if_neg (hnot _ (by decide)),
        if_neg (hnot _ (by decide))]
    rw [hcons] at hread
    rw [List.cons_append, InputUnit.first] at hread ⊢
    dsimp only
    rw [if_neg hblank, if_neg hcomment, if_neg (hfirst.ne (by decide)), hoperator]
    dsimp only
    rw [Failing.bind_ok hread]
    rfl

theorem finds_rightParen :
    Finds s context (chr ')' :: rest) .rightParen (Took · .rightParen rest) := by
  intro st fuel hst hfuel
  obtain ⟨fuel, rfl⟩ := Nat.exists_eq_add_one.mpr (Nat.zero_lt_of_lt hfuel)
  refine ⟨{ st.read with lastToken := .rightParen, lastTokenQuoted := false }, ?_,
    ⟨hst.read.ready, hst.pushedBack, hst.pending⟩, rfl, rfl⟩
  rw [findToken, Failing.bind_ok (hst.nextUnit (by simp [chr])), InputUnit.first]
  rfl

/-- An operator of one byte, where the byte behind it does not go on with it. -/
theorem finds_short (hshort : shortOperator byte = some kind) (hbackground : byte ≠ chr '&')
    (hlong : longOperator byte (.first rest) = none) (hcontinued : rest.head? ≠ some (chr '\\')) :
    Finds s context (byte :: rest) kind (Took · kind rest) := by
  intro st fuel hst hfuel
  obtain ⟨fuel, rfl⟩ := Nat.exists_eq_add_one.mpr (Nat.zero_lt_of_lt hfuel)
  have hbyte : byte ∈ Nsh.text "|;()" := by
    unfold shortOperator at hshort
    split at hshort
    · contradiction
    · split at hshort
      · simp [*, Nsh.text]
      · split at hshort
        · simp [*, Nsh.text]
        · split at hshort
          · simp [*, Nsh.text]
          · split at hshort
            · simp [*, Nsh.text]
            · cases hshort
  have hplain : ∀ byte ∈ Nsh.text "|;()", byte ≠ chr '\\' ∧
      ¬ (byte = chr ' ' ∨ byte = 0x09) ∧ byte ≠ chr '#' ∧ byte ≠ 0x0a := by decide +kernel
  obtain ⟨hslash, hblank, hcomment, hnewline⟩ := hplain byte hbyte
  have hfirst : (byte :: rest).head? ≠ some (chr '\\') := fun h => hslash (Option.some.inj h)
  rw [findToken, Failing.bind_ok (hst.nextUnit hfirst), InputUnit.first]
  dsimp only
  rw [if_neg hblank, if_neg hcomment, if_neg hnewline, hshort]
  dsimp only
  split
  · exact ⟨_, rfl, ⟨hst.read.ready, hst.pushedBack, hst.pending⟩, rfl, rfl⟩
  · rw [readOperator, Failing.bind_ok (hst.read.nextUnit hcontinued), hlong]
    dsimp only
    rw [if_neg (fun h => hbackground h.1)]
    exact ⟨_, rfl, ⟨hst.read.unread.ready, hst.pushedBack, hst.pending⟩, rfl, rfl⟩

/-- `;;` and `;&`. -/
theorem finds_terminator {second : UInt8}
    (hsecond : longOperator (chr ';') (.byte second) = some kind) :
    Finds s context (chr ';' :: second :: rest) kind (Took · kind rest) := by
  intro st fuel hst hfuel
  obtain ⟨fuel, rfl⟩ := Nat.exists_eq_add_one.mpr (Nat.zero_lt_of_lt hfuel)
  have hslash : second ≠ chr '\\' := by
    rintro rfl
    exact absurd hsecond (by simp [longOperator, chr])
  have hsecondFirst : (second :: rest).head? ≠ some (chr '\\') :=
    fun h => hslash (Option.some.inj h)
  refine ⟨{ st.read.read with lastToken := kind, lastTokenQuoted := false }, ?_,
    ⟨hst.read.read.ready, hst.pushedBack, hst.pending⟩, rfl, rfl⟩
  rw [findToken, Failing.bind_ok (hst.nextUnit (by simp [chr])), InputUnit.first]
  show readOperator s (fuel + 1) (chr ';') .semicolon st.read = _
  rw [readOperator, Failing.bind_ok (hst.read.nextUnit hsecondFirst), InputUnit.first, hsecond]
  rfl

theorem findToken_newline (context : TokenContext) (fuel : Nat) (h : Awaits st (0x0a :: text)) :
    ∃ st', findToken s context (fuel + 1) st = .ok (⟨.newline, false⟩, st') ∧
      Awaits st' text := by
  refine ⟨{ st.read with lastToken := .newline, lastTokenQuoted := false }, ?_,
    h.read.ready, h.pushedBack, h.pending⟩
  rw [findToken, Failing.bind_ok (h.nextUnit (by simp [chr])), InputUnit.first]
  rfl

/-! ### What the grammar is told -/

/-- What may stand in front of a token: blanks, and newlines where they are skipped. -/
def Leads (context : TokenContext) (lead : Bytes) : Prop :=
  ∀ byte ∈ lead, Blank byte ∨ (context.skipNewlines = true ∧ byte = 0x0a)

instance (context : TokenContext) (lead : Bytes) : Decidable (Leads context lead) :=
  inferInstanceAs (Decidable (∀ byte ∈ lead, _))

theorem skipNewlines_lead {lead : Bytes} {fuel' : Nat} (hfinds : Finds s context text kind P)
    (hkind : kind ≠ .newline) (hlead : Leads context lead) (h : Awaits st (lead ++ text))
    (hfuel : (lead ++ text).length < fuel) (hfuel' : (lead ++ text).length < fuel') :
    ∃ token st₁ st₂, findToken s context fuel st = .ok (token, st₁) ∧
      skipNewlines s context fuel' token st₁ = .ok (⟨kind, false⟩, st₂) ∧ P st₂ := by
  induction lead generalizing st fuel fuel' with
  | nil =>
    obtain ⟨st', hfind, hP⟩ := hfinds st fuel h hfuel
    obtain ⟨fuel', rfl⟩ := Nat.exists_eq_add_one.mpr (Nat.zero_lt_of_lt hfuel')
    refine ⟨_, st', st', hfind, ?_, hP⟩
    rw [skipNewlines, if_neg (fun hnewline => hkind hnewline.2)]
    rfl
  | cons byte lead ih =>
    obtain ⟨hbyte, hleads⟩ := List.forall_mem_cons.mp hlead
    obtain ⟨fuel, rfl⟩ := Nat.exists_eq_add_one.mpr (Nat.zero_lt_of_lt hfuel)
    obtain ⟨fuel', rfl⟩ := Nat.exists_eq_add_one.mpr (Nat.zero_lt_of_lt hfuel')
    rw [List.cons_append, List.length_cons] at hfuel hfuel'
    rcases hbyte with hblank | ⟨hskip, rfl⟩
    · rw [findToken_blank hblank h]
      exact ih hleads h.read (by omega) (by omega)
    · obtain ⟨st', hnewline, hst'⟩ := findToken_newline (s := s) context fuel h
      obtain ⟨token, st₁, st₂, hfind, hrest, hP⟩ :=
        ih hleads hst' (show (lead ++ text).length < fuel' + 1 by omega)
          (show (lead ++ text).length < fuel' by omega)
      refine ⟨_, st', st₂, hnewline, ?_, hP⟩
      have hdocuments : parseHereDocuments s st' = .ok ((), st') := if_pos hst'.pending
      have hnext : readNextToken s context (fuel' + 1) st' = .ok (token, st₁) := by
        rw [readNextToken, if_neg (by simp [hst'.pushedBack]), hfind]
      rw [skipNewlines, if_pos ⟨hskip, rfl⟩, Failing.bind_ok hdocuments, Failing.bind_ok hnext,
        hrest]

theorem readToken_lead {lead : Bytes} (hfinds : Finds s context text kind P)
    (hkind : kind ≠ .newline) (hlead : Leads context lead) (h : Awaits st (lead ++ text))
    (hfuel : (lead ++ text).length < fuel) :
    ∃ st', readToken s context fuel st = recognize s context ⟨kind, false⟩ st' ∧ P st' := by
  obtain ⟨token, st₁, st₂, hfind, hskip, hP⟩ :=
    skipNewlines_lead hfinds hkind hlead h hfuel hfuel
  refine ⟨st₂, ?_, hP⟩
  have hnext : readNextToken s context fuel st = .ok (token, st₁) := by
    rw [readNextToken, if_neg (by simp [h.pushedBack]), hfind]
  rw [readToken, Failing.bind_ok hnext, Failing.bind_ok hskip]

/-- **An operator is told as it is.** -/
theorem readToken_operator {lead : Bytes} (hfinds : Finds s context text kind (Took · kind rest))
    (hkind : kind ≠ .newline ∧ kind ≠ .word) (hlead : Leads context lead)
    (h : Awaits st (lead ++ text)) (hfuel : (lead ++ text).length < fuel) :
    ∃ st', readToken s context fuel st = .ok (⟨kind, false⟩, st') ∧ Took st' kind rest := by
  obtain ⟨st', hread, htook⟩ := readToken_lead hfinds hkind.1 hlead h hfuel
  refine ⟨st', ?_, htook⟩
  rw [hread, recognize, if_pos (.inl hkind.2)]

/-- What a word is told to be. -/
def kindOf (s : Surroundings σ Node) (context : TokenContext) (word : Bytes) : TokenKind :=
  if context.reservedWords then (reservedWord word s.dialect).getD .word else .word

/-- **A word is told by its kind**, and stays the word that was read. -/
theorem readToken_word {lead : Bytes} (hword : PlainWord word) (hrest : Delimited rest)
    (hsubscripts : context.assignmentPosition = true →
      ∀ byte ∈ word, byte ≠ chr '[' ∧ byte ≠ chr ']')
    (haliases : context.aliases = true → kindOf s context word ≠ .word)
    (hlead : Leads context lead) (h : Awaits st (lead ++ (word ++ rest)))
    (hfuel : (lead ++ (word ++ rest)).length < fuel) :
    ∃ st', readToken s context fuel st = .ok (⟨kindOf s context word, false⟩, st') ∧
      Took st' (kindOf s context word) rest ∧ st'.word = .plain word := by
  obtain ⟨st', hread, htook, hst'⟩ := readToken_lead
    (finds_word (s := s) hword hrest hsubscripts) nofun hlead h hfuel
  have hspelling : st'.word.spelling = word := congrArg ParsedWord.spelling hst'
  rw [hread, recognize, if_neg (by simp), hspelling]
  unfold kindOf at haliases ⊢
  by_cases hreserved : context.reservedWords = true
  · simp only [if_pos hreserved] at haliases ⊢
    cases hkind : reservedWord word s.dialect with
    | none =>
      have hplain : ¬ context.aliases = true := fun halias => haliases halias (by rw [hkind]; rfl)
      dsimp only
      rw [if_neg hplain]
      exact ⟨st', rfl, htook, hst'⟩
    | some kind =>
      exact ⟨_, rfl, ⟨⟨htook.awaits.ready, htook.awaits.pushedBack, htook.awaits.pending⟩, rfl,
        htook.lastTokenQuoted⟩, hst'⟩
  · simp only [if_neg hreserved] at haliases ⊢
    have hplain : ¬ context.aliases = true := fun halias => haliases halias rfl
    rw [if_neg hplain]
    exact ⟨st', rfl, htook, hst'⟩

/-- A token that was pushed back is told again. -/
theorem readToken_pushedBack (context : TokenContext)
    (hkind : kind ≠ .newline ∧ kind ≠ .word) (h : Took st kind rest) (hfuel : 0 < fuel) :
    ∃ st', readToken s context fuel { st with tokenPushedBack := true } =
        .ok (⟨kind, false⟩, st') ∧ Took st' kind rest := by
  obtain ⟨fuel, rfl⟩ := Nat.exists_eq_add_one.mpr hfuel
  have hnext : readNextToken s context (fuel + 1) { st with tokenPushedBack := true } =
      .ok (⟨kind, false⟩, { st with tokenPushedBack := false }) := by
    rw [readNextToken, if_pos rfl, ← h.lastToken, ← h.lastTokenQuoted]
  have hskip : skipNewlines s context (fuel + 1) ⟨kind, false⟩
      { st with tokenPushedBack := false } =
      .ok (⟨kind, false⟩, { st with tokenPushedBack := false }) := by
    rw [skipNewlines, if_neg (fun hnewline => hkind.1 hnewline.2)]
    rfl
  refine ⟨{ st with tokenPushedBack := false }, ?_, ?_⟩
  · rw [readToken, Failing.bind_ok hnext, Failing.bind_ok hskip, recognize, if_pos (.inl hkind.2)]
  · exact ⟨⟨h.awaits.ready, rfl, h.awaits.pending⟩, h.lastToken, h.lastTokenQuoted⟩

end

end Nsh.Parser
