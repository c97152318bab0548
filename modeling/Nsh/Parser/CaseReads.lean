import Nsh.Parser.Case

/-!
# Patterns of case commands

A clause list is accepted, with exactly the words of its patterns, unless a clause begins
without a parenthesis and its first pattern is `time`, or `select` where that is reserved.
The first pattern is turned back into a word by its kind alone; behind a `(` or a `|` every
word is a pattern.
-/

namespace Nsh.Parser

open Nsh.Input

variable {σ Node : Type} {s : Surroundings σ Node} {st : ParserState σ} {rest tail : Bytes}
  {fuel : Nat}

/-! ### Reserved words and patterns -/

theorem lookup_mem {table : List (Bytes × TokenKind)} {word : Bytes} {kind : TokenKind}
    (h : table.lookup word = some kind) : (word, kind) ∈ table := by
  induction table with
  | nil => cases h
  | cons entry table ih =>
    obtain ⟨key, value⟩ := entry
    rw [List.lookup_cons] at h
    split at h
    · next hkey =>
      obtain rfl : word = key := by simpa using hkey
      obtain rfl : value = kind := Option.some.inj h
      exact List.mem_cons_self ..
    · exact List.mem_cons_of_mem _ (ih h)

theorem reservedWord_mem {word : Bytes} {dialect : Dialect} {kind : TokenKind}
    (h : reservedWord word dialect = some kind) :
    (word, kind) ∈ reservedWords ∧ (kind ≠ .selectWord ∨ dialect = .bash) := by
  rw [reservedWord, Option.filter_eq_some_iff] at h
  exact ⟨lookup_mem h.1, by simpa using h.2⟩

/-- The reserved words that are no patterns. -/
theorem reservedWords_not_pattern : ∀ entry ∈ reservedWords, entry.2.canBeCasePattern = false →
    entry = (text "time", .timeWord) ∨ entry = (text "select", .selectWord) := by
  decide +kernel

theorem reservedWords_kind : ∀ entry ∈ reservedWords, entry.2 ≠ .leftParen ∧ entry.2 ≠ .word ∧
    entry.2 ≠ .newline ∧ (entry.2 = .esacWord → entry.1 = text "esac") := by
  decide +kernel

theorem kindOf_reserved (word : Bytes) :
    kindOf s .reservedWordsAfterNewlines word = (reservedWord word s.dialect).getD .word := rfl

/-- A first pattern without a parenthesis is told apart from `esac` and from a parenthesis. -/
theorem kindOf_first (word : Bytes) (hesac : word ≠ text "esac") :
    kindOf s .reservedWordsAfterNewlines word ≠ .esacWord ∧
      kindOf s .reservedWordsAfterNewlines word ≠ .leftParen := by
  rw [kindOf_reserved]
  cases hkind : reservedWord word s.dialect with
  | none => exact ⟨nofun, nofun⟩
  | some kind =>
    obtain ⟨hparen, -, -, hends⟩ := reservedWords_kind _ (reservedWord_mem hkind).1
    exact ⟨fun h => hesac (hends h), hparen⟩

/-- **What the second list leaves out**: `time`, and `select` where it is reserved. -/
theorem kindOf_canBeCasePattern (word : Bytes) :
    (kindOf s .reservedWordsAfterNewlines word).canBeCasePattern = false ↔
      word = text "time" ∨ (s.dialect = .bash ∧ word = text "select") := by
  rw [kindOf_reserved]
  constructor
  · intro hnot
    cases hkind : reservedWord word s.dialect with
    | none =>
      rw [hkind] at hnot
      cases hnot
    | some kind =>
      rw [hkind] at hnot
      obtain ⟨hmem, hselect⟩ := reservedWord_mem hkind
      rcases reservedWords_not_pattern _ hmem hnot with heq | heq
      · exact .inl (congrArg Prod.fst heq)
      · obtain ⟨rfl, rfl⟩ := Prod.mk.inj heq
        exact .inr ⟨hselect.resolve_left (not_not_intro rfl), rfl⟩
  · rintro (rfl | ⟨hbash, rfl⟩)
    · cases s.dialect <;> decide +kernel
    · rw [hbash]
      decide +kernel

/-! ### Blanks and delimiters -/

theorem delimited_cons {byte : UInt8} (h : byte ∈ text " \t\n&;|)") : Delimited (byte :: rest) := by
  intro first hfirst
  obtain rfl : byte = first := Option.some.inj hfirst
  exact h

theorem delimited_blanks {blanks : Bytes} (hblanks : Leads .plain blanks) (h : Delimited rest) :
    Delimited (blanks ++ rest) := by
  cases blanks with
  | nil => exact h
  | cons byte blanks =>
    refine delimited_cons ?_
    rcases hblanks byte (List.mem_cons_self ..) with (rfl | rfl) | hnewline
    · decide
    · decide
    · exact absurd hnewline.1 (by decide)

theorem delimited_others (others : List PatternText) :
    Delimited (othersText others ++ (chr ')' :: rest)) := by
  cases others with
  | nil => exact delimited_cons (by decide)
  | cons pattern others => exact delimited_cons (by decide)

theorem delimited_alternatives (clause : ClauseText Node) (rest : Bytes) :
    Delimited (clause.alternatives rest) :=
  delimited_blanks clause.first.behind_blank (delimited_others clause.others)

theorem Took.takeWord {kind : TokenKind} (h : Took st kind rest) :
    Took { st with word := ⟨[], []⟩ } kind rest :=
  ⟨⟨h.awaits.ready, h.awaits.pushedBack, h.awaits.pending⟩, h.lastToken, h.lastTokenQuoted⟩

/-- A pattern does not go on with a `|` or a `(` in front of it. -/
theorem pattern_head (pattern : PatternText) (rest : Bytes) {byte : UInt8}
    (hbyte : ¬ Ordinary byte) (hblank : ¬ Blank byte) :
    (pattern.before ++ (pattern.word ++ rest)).head? ≠ some byte := by
  intro hhead
  cases hbefore : pattern.before with
  | nil =>
    rw [hbefore] at hhead
    cases hword : pattern.word with
    | nil => exact pattern.plain.nonempty hword
    | cons first word =>
      rw [hword] at hhead
      obtain rfl : first = byte := Option.some.inj hhead
      exact hbyte (pattern.plain.ordinary first (hword ▸ List.mem_cons_self ..))
  | cons first before =>
    rw [hbefore] at hhead
    obtain rfl : first = byte := Option.some.inj hhead
    rcases pattern.before_blank first (hbefore ▸ List.mem_cons_self ..) with h | h
    · exact hblank h
    · exact absurd h.1 (by decide)

theorem first_ne {text : Bytes} {byte : UInt8} (h : text.head? ≠ some byte) :
    InputUnit.first text ≠ .byte byte := by
  cases text with
  | nil => exact nofun
  | cons first text => simpa [InputUnit.first] using h

/-! ### The patterns of a clause -/

theorem othersText_cons (pattern : PatternText) (others : List PatternText) (rest : Bytes) :
    othersText (pattern :: others) ++ rest =
      chr '|' :: (pattern.before ++ (pattern.word ++
        (pattern.behind ++ (othersText others ++ rest)))) := by
  simp [othersText, PatternText.text, List.append_assoc]

/-- A `|` or a `(` with something else behind it stands alone. -/
theorem longOperator_none {byte : UInt8} {next : InputUnit} (hbyte : byte ∈ text "|(")
    (hnext : next ≠ .byte byte) : longOperator byte next = none := by
  have hother : ∀ byte ∈ text "|(", byte ≠ chr '&' ∧ byte ≠ chr ';' := by decide +kernel
  obtain ⟨hand, hsemicolon⟩ := hother byte hbyte
  rw [longOperator, if_neg (fun h => hand h.1), if_neg (fun h => hnext (by rw [h.2, h.1])),
    if_neg (fun h => hsemicolon h.1), if_neg (fun h => hsemicolon h.1),
    if_neg (fun h => hnext (by rw [h.2, h.1]))]

theorem readToken_pipe (pattern : PatternText) {blanks : Bytes} (hblanks : Leads .plain blanks)
    (h : Awaits st (blanks ++ (chr '|' :: (pattern.before ++ (pattern.word ++ rest)))))
    (hfuel : (blanks ++ (chr '|' :: (pattern.before ++ (pattern.word ++ rest)))).length < fuel) :
    ∃ st', readToken s .plain fuel st = .ok (⟨.pipe, false⟩, st') ∧
      Took st' .pipe (pattern.before ++ (pattern.word ++ rest)) := by
  have hbar : InputUnit.first (pattern.before ++ (pattern.word ++ rest)) ≠ .byte (chr '|') :=
    first_ne (pattern_head pattern rest (by decide) (by decide))
  have hcontinued : (pattern.before ++ (pattern.word ++ rest)).head? ≠ some (chr '\\') :=
    pattern_head pattern rest (by decide) (by decide)
  exact readToken_operator (finds_short (by decide) (by decide)
    (longOperator_none (by decide) hbar) hcontinued) ⟨nofun, nofun⟩ hblanks h hfuel

theorem readToken_rightParen {blanks : Bytes} (hblanks : Leads .plain blanks)
    (h : Awaits st (blanks ++ (chr ')' :: rest)))
    (hfuel : (blanks ++ (chr ')' :: rest)).length < fuel) :
    ∃ st', readToken s .plain fuel st = .ok (⟨.rightParen, false⟩, st') ∧
      Took st' .rightParen rest :=
  readToken_operator finds_rightParen ⟨nofun, nofun⟩ hblanks h hfuel

/-- Where reserved words are not recognised every word is one. -/
theorem readToken_plain {blanks word : Bytes} (hblanks : Leads .plain blanks)
    (hword : PlainWord word) (hrest : Delimited rest) (h : Awaits st (blanks ++ (word ++ rest)))
    (hfuel : (blanks ++ (word ++ rest)).length < fuel) :
    ∃ st', readToken s .plain fuel st = .ok (⟨.word, false⟩, st') ∧ Took st' .word rest ∧
      st'.word = .plain word :=
  readToken_word hword hrest nofun nofun hblanks h hfuel

/-- **The loop over the patterns** reads the alternatives behind the first one. -/
theorem casePatterns_reads {kind : TokenKind} {word blanks : Bytes} (others : List PatternText)
    (patterns : List ParsedWord) (hkind : kind.canBeCasePattern = true)
    (hblanks : Leads .plain blanks)
    (h : Took st kind (blanks ++ (othersText others ++ (chr ')' :: rest))))
    (hword : st.word = .plain word)
    (hfuel : (blanks ++ (othersText others ++ (chr ')' :: rest))).length < fuel) :
    ∃ st', casePatterns s fuel patterns st =
        .ok (patterns ++ .plain word :: others.map fun pattern => .plain pattern.word, st') ∧
      Took st' .rightParen rest := by
  induction others generalizing st kind word blanks patterns fuel with
  | nil =>
    obtain ⟨fuel, rfl⟩ := Nat.exists_eq_add_one.mpr (Nat.zero_lt_of_lt hfuel)
    obtain ⟨st', hread, htook⟩ := readToken_rightParen (s := s) hblanks h.takeWord.awaits hfuel
    refine ⟨st', ?_, htook⟩
    have hlast : lastToken st = .ok (kind, st) := by rw [lastToken, h.lastToken]
    have htake : takeWord st = .ok (.plain word, { st with word := ⟨[], []⟩ }) := by
      rw [takeWord, hword]
    rw [casePatterns, Failing.bind_ok hlast, if_neg (by simp [hkind]), Failing.bind_ok htake,
      Failing.bind_ok hread, if_pos nofun]
    rfl
  | cons pattern others ih =>
    obtain ⟨fuel, rfl⟩ := Nat.exists_eq_add_one.mpr (Nat.zero_lt_of_lt hfuel)
    rw [othersText_cons] at h hfuel
    obtain ⟨st₁, hpipe, htook⟩ := readToken_pipe (s := s) pattern hblanks h.takeWord.awaits hfuel
    have hlength : (pattern.before ++ (pattern.word ++ (pattern.behind ++
        (othersText others ++ (chr ')' :: rest))))).length < fuel := by
      rw [List.length_append, List.length_cons] at hfuel
      omega
    have hdelimited : Delimited (pattern.behind ++ (othersText others ++ (chr ')' :: rest))) :=
      delimited_blanks pattern.behind_blank (delimited_others others)
    obtain ⟨st₂, hread, htook₂, hword₂⟩ := readToken_plain (s := s) pattern.before_blank
      pattern.plain hdelimited htook.awaits (Nat.lt_succ_of_lt hlength)
    have hbehind : (pattern.behind ++ (othersText others ++ (chr ')' :: rest))).length < fuel := by
      simp only [List.length_append] at hlength ⊢
      omega
    obtain ⟨st', hrun, hfinal⟩ := ih (patterns ++ [.plain word]) rfl pattern.behind_blank htook₂
      hword₂ hbehind
    refine ⟨st', ?_, hfinal⟩
    have hlast : lastToken st = .ok (kind, st) := by rw [lastToken, h.lastToken]
    have htake : takeWord st = .ok (.plain word, { st with word := ⟨[], []⟩ }) := by
      rw [takeWord, hword]
    rw [casePatterns, Failing.bind_ok hlast, if_neg (by simp [hkind]), Failing.bind_ok htake,
      Failing.bind_ok hpipe, if_neg (fun hne => hne rfl), Failing.bind_ok hread, hrun,
      List.append_assoc, List.singleton_append, List.map_cons]

/-- A token that is no pattern is refused. -/
theorem casePatterns_refused {kind : TokenKind} (patterns : List ParsedWord)
    (hkind : kind.canBeCasePattern = false) (h : st.lastToken = kind) (hfuel : 0 < fuel) :
    casePatterns s fuel patterns st = .error (.expected (some .word) kind) := by
  obtain ⟨fuel, rfl⟩ := Nat.exists_eq_add_one.mpr hfuel
  have hlast : lastToken st = .ok (kind, st) := by rw [lastToken, h]
  rw [casePatterns, Failing.bind_ok hlast, if_pos (by simp [hkind]), expectedTokenError, h]

/-! ### A clause -/

/-- The first token of a clause, and the first pattern behind a parenthesis. -/
theorem readToken_clause (clause : ClauseText Node) (ending : Ending)
    (h : Awaits st (clause.text ending rest)) (hfuel : (clause.text ending rest).length < fuel) :
    ∃ token st₁ st₂ kind,
      readToken s .reservedWordsAfterNewlines fuel st = .ok (token, st₁) ∧
      token.kind ≠ .esacWord ∧ skipParenthesis s fuel st₁ = .ok ((), st₂) ∧
      Took st₂ kind (clause.alternatives (clause.body ++ (ending.text ++ rest))) ∧
      st₂.word = .plain clause.first.word ∧
      (kind.canBeCasePattern = false ↔ clause.Refused s.dialect) := by
  have hdelimited := delimited_alternatives clause (clause.body ++ (ending.text ++ rest))
  cases hparen : clause.parenthesis with
  | true =>
    have htext : clause.text ending rest = clause.lead ++ (chr '(' :: (clause.first.before ++
        (clause.first.word ++ clause.alternatives (clause.body ++ (ending.text ++ rest))))) := by
      rw [ClauseText.text, hparen]
      rfl
    rw [htext] at h hfuel
    generalize clause.alternatives (clause.body ++ (ending.text ++ rest)) = behind
      at h hfuel hdelimited ⊢
    have hopen : InputUnit.first (clause.first.before ++ (clause.first.word ++ behind)) ≠
        .byte (chr '(') :=
      first_ne (pattern_head clause.first behind (by decide) (by decide))
    have hcontinued : (clause.first.before ++ (clause.first.word ++ behind)).head? ≠
        some (chr '\\') :=
      pattern_head clause.first behind (by decide) (by decide)
    have hshort : shortOperator (chr '(') = some .leftParen := by decide
    obtain ⟨st₁, hread₁, htook₁⟩ := readToken_operator (s := s)
      (finds_short hshort (by decide) (longOperator_none (by decide) hopen)
        hcontinued) ⟨nofun, nofun⟩ clause.lead_leads h hfuel
    have hfirst : (clause.first.before ++ (clause.first.word ++ behind)).length < fuel := by
      simp only [List.length_append, List.length_cons] at hfuel ⊢
      omega
    obtain ⟨st₂, hread₂, htook₂, hword⟩ := readToken_plain (s := s) clause.first.before_blank
      clause.first.plain hdelimited htook₁.awaits hfirst
    refine ⟨_, st₁, st₂, .word, hread₁, nofun, ?_, htook₂, hword, nofun, ?_⟩
    · have hlast : lastToken st₁ = .ok (.leftParen, st₁) := by rw [lastToken, htook₁.lastToken]
      rw [skipParenthesis, Failing.bind_ok hlast, if_pos rfl, Failing.bind_ok hread₂]
      rfl
    · intro hrefused
      exact absurd (hparen.symm.trans hrefused.1) nofun
  | false =>
    have htext : clause.text ending rest = (clause.lead ++ clause.first.before) ++
        (clause.first.word ++ clause.alternatives (clause.body ++ (ending.text ++ rest))) := by
      rw [ClauseText.text, hparen, if_neg Bool.false_ne_true, List.nil_append, List.append_assoc]
    rw [htext] at h hfuel
    have hlead : Leads .reservedWordsAfterNewlines (clause.lead ++ clause.first.before) := by
      intro byte hbyte
      rcases List.mem_append.mp hbyte with hlead | hbefore
      · exact clause.lead_leads byte hlead
      · exact .inl ((clause.first.before_blank byte hbefore).resolve_right
          fun hnewline => absurd hnewline.1 (by decide))
    have hplain : ∀ P : Prop, TokenContext.reservedWordsAfterNewlines.assignmentPosition = true →
        P := nofun
    have halias : ∀ P : Prop, TokenContext.reservedWordsAfterNewlines.aliases = true → P := nofun
    obtain ⟨st₁, hread₁, htook₁, hword⟩ := readToken_word (s := s) clause.first.plain hdelimited
      (hplain _) (halias _) hlead h hfuel
    obtain ⟨hesac, hleft⟩ := kindOf_first (s := s) clause.first.word (clause.not_esac hparen)
    refine ⟨_, st₁, st₁, _, hread₁, hesac, ?_, htook₁, hword, ?_⟩
    · have hlast : lastToken st₁ =
          .ok (kindOf s .reservedWordsAfterNewlines clause.first.word, st₁) := by
        rw [lastToken, htook₁.lastToken]
      rw [skipParenthesis, Failing.bind_ok hlast, if_neg hleft]
      rfl
    · rw [kindOf_canBeCasePattern]
      exact ⟨fun h => ⟨hparen, h⟩, fun h => h.2⟩

theorem caseClause_reads (clause : ClauseText Node) (ending : Ending)
    (hbody : IsBody s clause.body ending clause.tree) (hadmits : ending.Admits rest)
    (h : Awaits st (clause.text ending rest)) (hfuel : (clause.text ending rest).length < fuel) :
    ∃ token st₁, readToken s .reservedWordsAfterNewlines fuel st = .ok (token, st₁) ∧
      token.kind ≠ .esacWord ∧
      (clause.Refused s.dialect → ∃ e, caseClause s fuel st₁ = .error e) ∧
      (¬ clause.Refused s.dialect →
        ∃ st₂, caseClause s fuel st₁ = .ok ((clause.caseClause ending, ending.kind), st₂) ∧
          Awaits st₂ rest) := by
  obtain ⟨token, st₁, st₂, kind, hread, hesac, hskip, htook, hword, hrefused⟩ :=
    readToken_clause (s := s) clause ending h hfuel
  refine ⟨token, st₁, hread, hesac, ?_, ?_⟩
  · intro h
    have hpatterns : casePatterns s fuel [] st₂ = .error (.expected (some .word) kind) :=
      casePatterns_refused [] (hrefused.mpr h) htook.lastToken (Nat.zero_lt_of_lt hfuel)
    refine ⟨.expected (some .word) kind, ?_⟩
    rw [caseClause, Failing.bind_ok hskip, Failing.bind_error hpatterns]
  · intro h
    have hkind : kind.canBeCasePattern = true := by
      cases hkind : kind.canBeCasePattern with
      | true => rfl
      | false => exact absurd (hrefused.mp hkind) h
    have hlength : (clause.alternatives (clause.body ++ (ending.text ++ rest))).length < fuel := by
      rw [ClauseText.text] at hfuel
      simp only [List.length_append] at hfuel ⊢
      omega
    obtain ⟨st₃, hpatterns, htook₃⟩ := casePatterns_reads (s := s) clause.others [] hkind
      clause.first.behind_blank htook hword hlength
    have hbehind : (clause.body ++ (ending.text ++ rest)).length < fuel := by
      rw [ClauseText.alternatives] at hlength
      simp only [List.length_append, List.length_cons] at hlength ⊢
      omega
    obtain ⟨st₄, st₅, hlist, hend, hst₅⟩ := hbody st₃ rest fuel hadmits htook₃.awaits hbehind
    refine ⟨st₅, ?_, hst₅⟩
    have hlast : lastToken st₃ = .ok (.rightParen, st₃) := by rw [lastToken, htook₃.lastToken]
    rw [caseClause, Failing.bind_ok hskip, Failing.bind_ok hpatterns, Failing.bind_ok hlast,
      if_neg (fun hne => hne rfl), Failing.bind_ok hlist, Failing.bind_ok hend]
    cases ending <;> rfl

/-! ### The clauses -/

theorem finds_ending (ending : Ending) (hadmits : ending.Admits rest) {lead : Bytes}
    {context : TokenContext} (hcontext : context.reservedWords = true)
    (hlead : Leads context lead) (h : Awaits st (lead ++ (ending.text ++ rest)))
    (hfuel : (lead ++ (ending.text ++ rest)).length < fuel) :
    ∃ st', readToken s context fuel st = .ok (⟨ending.kind, false⟩, st') ∧
      Took st' ending.kind rest := by
  cases ending with
  | endCase =>
    have hlong : longOperator (chr ';') (.byte (chr ';')) = some .endCase := by decide
    exact readToken_operator (finds_terminator hlong) ⟨nofun, nofun⟩ hlead h hfuel
  | fallThrough =>
    have hlong : longOperator (chr ';') (.byte (chr '&')) = some .fallThrough := by decide
    exact readToken_operator (finds_terminator hlong) ⟨nofun, nofun⟩ hlead h hfuel
  | esac =>
    have hkind : kindOf s context (text "esac") = .esacWord := by
      rw [kindOf, if_pos hcontext]
      cases s.dialect <;> decide +kernel
    have hplain : PlainWord (text "esac") := by decide +kernel
    have hsubscripts : ∀ byte ∈ text "esac", byte ≠ chr '[' ∧ byte ≠ chr ']' := by decide +kernel
    have halias : kindOf s context (text "esac") ≠ .word := by rw [hkind]; exact nofun
    obtain ⟨st', hread, htook, -⟩ := readToken_word (s := s) hplain hadmits
      (fun _ => hsubscripts) (fun _ => halias) hlead h hfuel
    rw [hkind] at hread htook
    exact ⟨st', hread, htook⟩

/-- A body of blanks and newlines is one that `list` reads, as nothing. -/
theorem isBody_blank (body : Bytes) (ending : Ending)
    (hbody : Leads .commandStartAfterNewlines body) : IsBody s body ending none := by
  intro st rest fuel hadmits h hfuel
  obtain ⟨st₁, hread, htook⟩ := finds_ending (s := s) ending hadmits rfl hbody h hfuel
  have hkind : ending.kind ≠ .newline ∧ ending.kind ≠ .word := by
    cases ending <;> exact ⟨nofun, nofun⟩
  obtain ⟨st₂, hagain, hst₂⟩ := readToken_pushedBack (s := s) .reservedWordsAfterNewlines hkind
    htook (Nat.zero_lt_of_lt hfuel)
  refine ⟨{ st₁ with tokenPushedBack := true }, st₂, ?_, hagain, hst₂.awaits⟩
  rw [list, Failing.bind_ok hread]
  cases ending <;> rfl

theorem text_length_pos (clause : ClauseText Node) (ending : Ending) (rest : Bytes) :
    rest.length < (clause.text ending rest).length := by
  rw [ClauseText.text, ClauseText.alternatives]
  simp only [List.length_append, List.length_cons]
  omega

/-- What may stand behind the end of a list of clauses may stand behind its terminators. -/
theorem admits_terminator (fallthrough : Bool) (rest : Bytes) :
    (terminator fallthrough).Admits rest := by
  cases fallthrough <;> trivial

/-- **The loop over the clauses** fails at the first clause that is refused, and reads all of
    them where there is none. -/
theorem caseClauses_reads (clauses : Clauses Node) (cases : List (CaseClause Node))
    (hbodies : clauses.Bodies s) (hrest : Delimited rest) (h : Awaits st (clauses.text rest))
    (hfuel : (clauses.text rest).length < fuel) :
    ((∃ clause ∈ clauses.all, clause.Refused s.dialect) →
        ∃ e, caseClauses s fuel cases st = .error e) ∧
      ((∀ clause ∈ clauses.all, ¬ clause.Refused s.dialect) →
        ∃ st', caseClauses s fuel cases st = .ok (cases ++ clauses.trees, st') ∧
          Awaits st' rest) := by
  induction clauses generalizing st fuel cases with
  | esac lead hlead =>
    obtain ⟨fuel, rfl⟩ := Nat.exists_eq_add_one.mpr (Nat.zero_lt_of_lt hfuel)
    obtain ⟨st', hread, htook⟩ := finds_ending (s := s) .esac hrest rfl hlead h hfuel
    refine ⟨?_, fun _ => ⟨st', ?_, htook.awaits⟩⟩
    · rintro ⟨clause, hclause, -⟩
      cases hclause
    · have hesac : Ending.esac.kind = .esacWord := rfl
      rw [caseClauses, Failing.bind_ok hread, if_pos hesac, Clauses.trees, List.append_nil]
      rfl
  | last clause =>
    obtain ⟨fuel, rfl⟩ := Nat.exists_eq_add_one.mpr (Nat.zero_lt_of_lt hfuel)
    obtain ⟨token, st₁, hread, hesac, hrefused, haccepted⟩ :=
      caseClause_reads (s := s) clause .esac hbodies hrest h hfuel
    constructor
    · rintro ⟨refused, hmem, href⟩
      obtain rfl : refused = clause := List.mem_singleton.mp hmem
      obtain ⟨e, herror⟩ := hrefused href
      refine ⟨e, ?_⟩
      rw [caseClauses, Failing.bind_ok hread, if_neg hesac, Failing.bind_error herror]
    · intro hnone
      obtain ⟨st₂, hclause, hst₂⟩ := haccepted (hnone clause (List.mem_singleton.mpr rfl))
      refine ⟨st₂, ?_, hst₂⟩
      rw [caseClauses, Failing.bind_ok hread, if_neg hesac, Failing.bind_ok hclause]
      rfl
  | cons clause fallthrough clauses ih =>
    obtain ⟨fuel, rfl⟩ := Nat.exists_eq_add_one.mpr (Nat.zero_lt_of_lt hfuel)
    obtain ⟨token, st₁, hread, hesac, hrefused, haccepted⟩ :=
      caseClause_reads (s := s) clause (terminator fallthrough) hbodies.1
        (admits_terminator fallthrough _) h hfuel
    by_cases href : clause.Refused s.dialect
    · obtain ⟨e, herror⟩ := hrefused href
      refine ⟨fun _ => ⟨e, ?_⟩, fun hnone => ?_⟩
      · rw [caseClauses, Failing.bind_ok hread, if_neg hesac, Failing.bind_error herror]
      · exact absurd href (hnone clause (List.mem_cons_self ..))
    · obtain ⟨st₂, hclause, hst₂⟩ := haccepted href
      have hlength := text_length_pos clause (terminator fallthrough) (clauses.text rest)
      have hshort : (clauses.text rest).length < fuel := by
        rw [Clauses.text] at hfuel
        omega
      obtain ⟨herrors, hreads⟩ :=
        ih (cases ++ [clause.caseClause (terminator fallthrough)]) hbodies.2 hst₂ hshort
      have hstep : caseClauses s (fuel + 1) cases st =
          caseClauses s fuel (cases ++ [clause.caseClause (terminator fallthrough)]) st₂ := by
        rw [caseClauses, Failing.bind_ok hread, if_neg hesac, Failing.bind_ok hclause]
        cases fallthrough <;> rfl
      rw [hstep]
      constructor
      · rintro ⟨refused, hmem, hbad⟩
        rcases List.mem_cons.mp hmem with rfl | hmem
        · exact absurd hbad href
        · exact herrors ⟨refused, hmem, hbad⟩
      · intro hnone
        obtain ⟨st', hrun, hst'⟩ := hreads fun clause hmem =>
          hnone clause (List.mem_cons_of_mem _ hmem)
        refine ⟨st', ?_, hst'⟩
        rw [hrun, Clauses.trees, List.append_assoc, List.singleton_append]

/-- A word of ordinary bytes behind some blanks is the subject of a case command. -/
theorem isSubject_plain {blanks word : Bytes} (hblanks : Leads .plain blanks)
    (hword : PlainWord word) : IsSubject s (blanks ++ word) (.plain word) := by
  intro st rest fuel hrest h hfuel
  rw [List.append_assoc] at h hfuel
  obtain ⟨st', hread, htook, hst'⟩ := readToken_plain (s := s) hblanks hword hrest h hfuel
  exact ⟨false, st', hread, htook.awaits, hst'⟩

/-- **Any word may be a pattern of a case command**, except that the first pattern of a
    clause without a parenthesis may not be `time`, nor `select` where that is reserved: the
    command is accepted, with exactly the words of its patterns, if and only if there is no
    such clause. -/
theorem caseCommand_accepts_iff (c : CaseText Node) {word : ParsedWord}
    (hsubject : IsSubject s c.subject word) (hbodies : c.clauses.Bodies s)
    (hrest : Delimited rest) (h : Awaits st (c.text rest)) (hfuel : (c.text rest).length < fuel) :
    (∃ st', caseCommand s fuel st = .ok (⟨word, c.clauses.trees⟩, st') ∧ Awaits st' rest) ↔
      ∀ clause ∈ c.clauses.all, ¬ clause.Refused s.dialect := by
  have hbetween : Delimited (c.between ++ (text "in" ++ c.clauses.text rest)) := by
    cases hcons : c.between with
    | nil => exact absurd hcons c.between_nonempty
    | cons byte between =>
      refine delimited_cons ?_
      rcases c.between_leads byte (hcons ▸ List.mem_cons_self ..) with (rfl | rfl) | ⟨-, rfl⟩
      · decide
      · decide
      · decide
  obtain ⟨quoted, st₁, hread₁, hst₁, hword⟩ := hsubject st _ fuel hbetween h hfuel
  have hin : PlainWord (text "in") := by decide +kernel
  have hkind : kindOf s .commandStartAfterNewlines (text "in") = .inWord := by
    cases hdialect : s.dialect <;> rw [kindOf, hdialect] <;> decide +kernel
  have hsubscripts : ∀ byte ∈ text "in", byte ≠ chr '[' ∧ byte ≠ chr ']' := by decide +kernel
  have halias : kindOf s .commandStartAfterNewlines (text "in") ≠ .word := by
    rw [hkind]
    exact nofun
  have htaken : Awaits { st₁ with word := ⟨[], []⟩ }
      (c.between ++ (text "in" ++ c.clauses.text rest)) :=
    ⟨hst₁.ready, hst₁.pushedBack, hst₁.pending⟩
  have hlength : (c.between ++ (text "in" ++ c.clauses.text rest)).length < fuel := by
    rw [CaseText.text, List.length_append] at hfuel
    omega
  obtain ⟨st₂, hread₂, htook₂, -⟩ := readToken_word (s := s) hin (c.delimited rest)
    (fun _ => hsubscripts) (fun _ => halias) c.between_leads htaken hlength
  rw [hkind] at hread₂
  have hclauses : (c.clauses.text rest).length < fuel := by
    simp only [List.length_append] at hlength
    omega
  obtain ⟨herror, hreads⟩ := caseClauses_reads c.clauses [] hbodies hrest htook₂.awaits hclauses
  have htake : takeWord st₁ = .ok (word, { st₁ with word := ⟨[], []⟩ }) := by
    rw [takeWord, hword]
  have hcommand : caseCommand s fuel st =
      (caseClauses s fuel [] >>= fun clauses => pure ⟨word, clauses⟩) st₂ := by
    rw [caseCommand, Failing.bind_ok hread₁, if_neg (fun hne => hne rfl), Failing.bind_ok htake,
      Failing.bind_ok hread₂, if_neg (fun hne => hne rfl)]
  rw [hcommand]
  constructor
  · rintro ⟨st', hrun, -⟩ clause hmem hrefused
    obtain ⟨e, hfails⟩ := herror ⟨clause, hmem, hrefused⟩
    rw [Failing.bind_error hfails] at hrun
    cases hrun
  · intro hnone
    obtain ⟨st', hrun, hst'⟩ := hreads hnone
    refine ⟨st', ?_, hst'⟩
    rw [Failing.bind_ok hrun]
    rfl

/-- Surroundings in which nothing but words of ordinary bytes can be read. -/
def bareSurroundings (dialect : Dialect) : Surroundings Unit Unit :=
  { dialect
    parseDialect := dialect
    extGlob := true
    special := fun _ _ => throw .stalled
    redirection := fun _ _ => throw .stalled
    outputRedirection := throw .stalled
    hereDocuments := throw .stalled
    expandAlias := fun _ => throw .stalled
    commands := throw .stalled }

/-- The parser in front of a text, behind the word `case`. -/
def startState (text : Bytes) : ParserState Unit :=
  { frame := setInputString text
    tokenPushedBack := false
    lastToken := .caseWord
    lastTokenQuoted := false
    word := ⟨[], []⟩
    pendingHereDocuments := []
    shell := () }

theorem awaits_startState (text : Bytes) : Awaits (startState text) text :=
  ⟨⟨reads_setInputString text, rfl⟩, rfl, rfl⟩

def bareWord (word : Bytes) (plain : PlainWord word) : PatternText :=
  ⟨[], word, [], nofun, plain, nofun⟩

/-- ` x in esac*|}) ;; (select|time) ;& in)` and `esac`. -/
def sampleCase : CaseText Unit :=
  { subject := text " x"
    between := text " "
    clauses :=
      .cons ⟨text " ", false, bareWord (text "esac*") (by decide +kernel),
          [bareWord (text "\x7d") (by decide +kernel)], text " ", none, by decide +kernel,
          by decide +kernel⟩
        false
        (.cons ⟨text " ", true, bareWord (text "select") (by decide +kernel),
            [bareWord (text "time") (by decide +kernel)], text " ", none, by decide +kernel,
            by decide +kernel⟩
          true
          (.last ⟨text "\n", false, bareWord (text "in") (by decide +kernel), [], text " ",
            none, by decide +kernel, by decide +kernel⟩))
    between_leads := by decide +kernel
    between_nonempty := by decide +kernel
    delimited := fun rest => by
      intro byte hbyte
      obtain rfl : chr ' ' = byte := Option.some.inj hbyte
      decide +kernel }

/-- Both reserved words are patterns behind a parenthesis and behind a `|`. -/
theorem caseCommand_accepts_iff_sample :
    ∃ st', caseCommand (bareSurroundings .bash) 64
        (startState (text " x in esac*|\x7d) ;; (select|time) ;&\nin) esac\n")) =
        .ok (⟨.plain (text "x"),
          [⟨[.plain (text "esac*"), .plain (text "\x7d")], none, false⟩,
            ⟨[.plain (text "select"), .plain (text "time")], none, true⟩,
            ⟨[.plain (text "in")], none, false⟩]⟩, st') ∧
      Awaits st' (text "\n") := by
  have hblank : ∀ ending, IsBody (bareSurroundings .bash) (text " ") ending none :=
    fun ending => isBody_blank (text " ") ending (by decide +kernel)
  have hbodies : sampleCase.clauses.Bodies (bareSurroundings .bash) :=
    ⟨hblank _, hblank _, hblank _⟩
  have hsubject : IsSubject (bareSurroundings .bash) (text " " ++ text "x") (.plain (text "x")) :=
    isSubject_plain (by decide +kernel) (by decide +kernel)
  exact (caseCommand_accepts_iff sampleCase hsubject hbodies (by decide +kernel)
    (awaits_startState _) (by decide +kernel)).mpr (by decide +kernel)

/-- `case time in time) esac`. -/
def timeCase : CaseText Unit :=
  { subject := text " time"
    between := text " "
    clauses := .last ⟨text " ", false, bareWord (text "time") (by decide +kernel), [], text " ",
      none, by decide +kernel, by decide +kernel⟩
    between_leads := by decide +kernel
    between_nonempty := by decide +kernel
    delimited := fun rest => by
      intro byte hbyte
      obtain rfl : chr ' ' = byte := Option.some.inj hbyte
      decide +kernel }

/-- `time` is reserved in a pattern. -/
theorem not_caseCommand_accepts :
    ¬ ∀ (s : Surroundings Unit Unit) (c : CaseText Unit) (word : ParsedWord)
      (st : ParserState Unit) (rest : Bytes) (fuel : Nat),
      IsSubject s c.subject word → c.clauses.Bodies s → Delimited rest → Awaits st (c.text rest) →
      (c.text rest).length < fuel →
      ∃ st', caseCommand s fuel st = .ok (⟨word, c.clauses.trees⟩, st') ∧ Awaits st' rest := by
  intro h
  have hsubject : IsSubject (bareSurroundings .posix) (text " " ++ text "time")
      (.plain (text "time")) := isSubject_plain (by decide +kernel) (by decide +kernel)
  obtain ⟨st', hrun, -⟩ := h (bareSurroundings .posix) timeCase (.plain (text "time"))
    (startState (text " time in time) esac")) [] 64 hsubject
    (isBody_blank (text " ") .esac (by decide +kernel)) (by decide +kernel) (awaits_startState _)
    (by decide +kernel)
  have hfails : (caseCommand (bareSurroundings .posix) 64
      (startState (text " time in time) esac"))).isOk = false := by decide +kernel
  rw [hrun] at hfails
  cases hfails

end Nsh.Parser
