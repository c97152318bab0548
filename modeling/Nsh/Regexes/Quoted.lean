import Nsh.Regexes.Depth

/-!
# Quoted operands

An operand that is quoted throughout compiles to its characters in a row, and searching
for it is looking for its text.  The characters are those of UTF-8, whatever the locale,
and each takes a level of depth and at most one step at every start.
-/

namespace Nsh.Regexes

open Nsh.Patterns (Subject sameCharacter)
open Nsh.Regexes.Parser (sequenceOf)

/-- Every byte is quoted; there are no bytes where the list does not reach. -/
def AllQuoted (quoted : List Bool) : Prop := ∀ offset : Nat, quoted[offset]?.getD true = true

/-- The literal characters from an offset on. -/
def literals (bytes : Bytes) : Nat → Nat → List Bytes
  | 0, _ => []
  | fuel + 1, offset =>
    if bytes.length ≤ offset then []
    else bytes.extract offset (literalEnd bytes offset) ::
      literals bytes fuel (literalEnd bytes offset)

/-- The literal characters of an operand, each an expression. -/
def literalParts (bytes : Bytes) : List Expr :=
  (literals bytes (bytes.length + 1) 0).map Expr.literal

/-! ### Compiling -/

namespace Parser

variable {p : Parser}

theorem active_eq_false (h : AllQuoted p.quoted) (offset : Nat) (byte : UInt8) :
    p.active offset byte = false := by
  rw [active, h offset, Bool.not_true, Bool.and_false]

theorem here_eq_false (h : AllQuoted p.quoted) (byte : UInt8) : p.here byte = false :=
  active_eq_false h p.pos byte

theorem pieceWith_quoted {inside : Parser → Read Expr} (h : AllQuoted p.quoted) :
    pieceWith inside p = .ok (.literal (p.bytes.extract p.pos (literalEnd p.bytes p.pos)),
      { p with pos := literalEnd p.bytes p.pos }) := by
  have hatom : atomWith inside p = .ok (.literal (p.bytes.extract p.pos (literalEnd p.bytes p.pos)),
      { p with pos := literalEnd p.bytes p.pos }) := by
    simp [atomWith, here_eq_false h]
  rw [pieceWith, hatom]
  have hnext : AllQuoted ({ p with pos := literalEnd p.bytes p.pos } : Parser).quoted := h
  simp [quantified, quantifier, here_eq_false hnext]

theorem piecesWith_quoted {inside : Parser → Read Expr} (h : AllQuoted p.quoted) (fuel : Nat)
    (hpos : p.pos ≤ p.bytes.length) (hfuel : p.bytes.length - p.pos < fuel) :
    piecesWith inside fuel p =
      .ok ((literals p.bytes fuel p.pos).map Expr.literal, { p with pos := p.bytes.length }) := by
  induction fuel generalizing p with
  | zero => omega
  | succ fuel ih =>
    rw [piecesWith, here_eq_false h, here_eq_false h, Bool.or_false, Bool.or_false, literals]
    by_cases hend : p.bytes.length ≤ p.pos
    · have heq : p.pos = p.bytes.length := by omega
      rw [if_pos (decide_eq_true hend), if_pos hend, ← heq]
      rfl
    · rw [if_neg (by rwa [decide_eq_true_eq]), if_neg hend, pieceWith_quoted h]
      obtain ⟨hlt, hle⟩ := literalEnd_bounds (Nat.not_le.mp hend)
      have hrest := @ih { p with pos := literalEnd p.bytes p.pos } h hle (by
        show p.bytes.length - literalEnd p.bytes p.pos < fuel
        omega)
      simp only [hrest, List.map_cons]

theorem alternation_quoted (room : Nat) (h : AllQuoted p.quoted) (hpos : p.pos = 0) :
    alternation room p =
      .ok (sequenceOf (literalParts p.bytes), { p with pos := p.bytes.length }) := by
  have hany : ∀ inside, alternationWith inside p =
      .ok (sequenceOf (literalParts p.bytes), { p with pos := p.bytes.length }) := by
    intro inside
    have hpieces := @piecesWith_quoted p inside h (p.bytes.length + 1) (by omega) (by omega)
    have hnext : AllQuoted ({ p with pos := p.bytes.length } : Parser).quoted := h
    rw [hpos] at hpieces
    simp [alternationWith, branchesWith, sequenceWith, hpieces, here_eq_false hnext, alternationOf,
      literalParts]
  cases room with
  | zero => exact hany _
  | succ room => exact hany _

end Parser

theorem compile_quoted (operand : Bytes) {quoted : List Bool} (h : AllQuoted quoted)
    (ignoreCase : Bool) :
    compile operand quoted ignoreCase =
      .ok ⟨sequenceOf (literalParts operand), 0, ignoreCase⟩ := by
  rw [compile, Parser.alternation_quoted maxGroupDepth (p := ⟨operand, quoted, 0, 0, 0⟩) h rfl]
  simp

/-! ### The text of the characters -/

theorem literals_flatten (bytes : Bytes) (fuel offset : Nat) (hoffset : offset ≤ bytes.length)
    (hfuel : bytes.length - offset < fuel) :
    (literals bytes fuel offset).flatten = bytes.drop offset := by
  induction fuel generalizing offset with
  | zero => omega
  | succ fuel ih =>
    rw [literals]
    by_cases hend : bytes.length ≤ offset
    · rw [if_pos hend, List.flatten_nil, List.drop_eq_nil_of_le hend]
    · obtain ⟨hlt, hle⟩ := literalEnd_bounds (Nat.not_le.mp hend)
      rw [if_neg hend, List.flatten_cons, ih _ hle (by omega), List.extract_eq_take_drop]
      have hsplit : bytes.drop (literalEnd bytes offset) =
          (bytes.drop offset).drop (literalEnd bytes offset - offset) := by
        rw [List.drop_drop]
        congr 1
        omega
      rw [hsplit, List.take_append_drop]

theorem literals_length (bytes : Bytes) (fuel offset : Nat) :
    (literals bytes fuel offset).length ≤ bytes.length - offset := by
  induction fuel generalizing offset with
  | zero => exact Nat.zero_le _
  | succ fuel ih =>
    rw [literals]
    by_cases hend : bytes.length ≤ offset
    · rw [if_pos hend]
      exact Nat.zero_le _
    · have hbounds := literalEnd_bounds (Nat.not_le.mp hend)
      have hrest := ih (literalEnd bytes offset)
      rw [if_neg hend, List.length_cons]
      omega

variable {s : Subject} {i j : Nat}

theorem sequenceOf_spans (parts : List Expr) :
    (sequenceOf parts).Spans s i j ↔ sequenceSpans s parts i j := by
  rcases parts with _ | ⟨part, _ | ⟨second, parts⟩⟩
  · exact Iff.rfl
  · show part.Spans s i j ↔ ∃ k, part.Spans s i k ∧ k = j
    simp
  · exact Iff.rfl

/-- With case kept, the characters in a row span where their text stands. -/
theorem literals_spans (hcase : s.ignoreCase = false) (characters : List Bytes)
    (hi : i ≤ s.bytes.length) :
    sequenceSpans s (characters.map Expr.literal) i j ↔
      j = i + characters.flatten.length ∧ characters.flatten <+: s.bytes.drop i := by
  induction characters generalizing i with
  | nil =>
    show i = j ↔ _
    simp [eq_comm]
  | cons character characters ih =>
    show (∃ k, _ ∧ _) ↔ _
    have hliteral : ∀ k, (Expr.literal character).Spans s i k ↔
        k = i + character.length ∧ character <+: s.bytes.drop i := by
      intro k
      show literalAt s character i = true ∧ k = i + character.length ↔ _
      rw [and_comm, literalAt, sameCharacter, hcase, Bool.false_and, Bool.or_false,
        Bool.and_eq_true, decide_eq_true_eq, beq_iff_eq, List.extract_eq_take_drop,
        Nat.add_sub_cancel_left, List.prefix_iff_eq_take]
      constructor
      · rintro ⟨hk, -, htake⟩
        exact ⟨hk, htake.symm⟩
      · rintro ⟨hk, htake⟩
        refine ⟨hk, ?_, htake.symm⟩
        have hlength := congrArg List.length htake
        rw [List.length_take, List.length_drop] at hlength
        omega
    constructor
    · rintro ⟨k, hk, hrest⟩
      obtain ⟨rfl, hprefix⟩ := (hliteral k).mp hk
      obtain ⟨tail, htail⟩ := hprefix
      have hlength := congrArg List.length htail
      rw [List.length_append, List.length_drop] at hlength
      obtain ⟨rfl, hmore⟩ := (ih (by omega)).mp hrest
      have hdrop : s.bytes.drop (i + character.length) = tail := by
        rw [← List.drop_drop, ← htail, List.drop_left]
      rw [hdrop] at hmore
      rw [List.flatten_cons, List.length_append, ← htail, List.prefix_append_right_inj]
      exact ⟨by omega, hmore⟩
    · rintro ⟨rfl, hprefix⟩
      rw [List.flatten_cons] at hprefix
      have hfirst : character <+: s.bytes.drop i := (List.prefix_append _ _).trans hprefix
      obtain ⟨tail, htail⟩ := hfirst
      have hlength := congrArg List.length htail
      rw [List.length_append, List.length_drop] at hlength
      have hdrop : s.bytes.drop (i + character.length) = tail := by
        rw [← List.drop_drop, ← htail, List.drop_left]
      rw [← htail, List.prefix_append_right_inj, ← hdrop] at hprefix
      refine ⟨i + character.length, (hliteral _).mpr ⟨rfl, tail, htail⟩, ?_⟩
      rw [ih (by omega)]
      refine ⟨?_, hprefix⟩
      rw [List.flatten_cons, List.length_append, Nat.add_assoc]

/-! ### The cost of a search -/

theorem literals_growth (n : Nat) (characters : List Bytes) :
    (sequenceOf (characters.map Expr.literal)).growth n ≤ characters.length + 1 := by
  have hsum : ∀ characters : List Bytes,
      growthSum n (characters.map Expr.literal) = characters.length := by
    intro characters
    induction characters with
    | nil => rfl
    | cons character characters ih =>
      show 1 + growthSum n (characters.map Expr.literal) = characters.length + 1
      rw [ih, Nat.add_comm]
  rcases characters with _ | ⟨character, _ | ⟨second, characters⟩⟩
  · exact le_refl 1
  · exact Nat.one_le_ofNat
  · show growthSum n ((character :: second :: characters).map Expr.literal) + 1 ≤ _
    rw [hsum]

theorem matchSequence_steps (fuel : Nat) (characters : List Bytes) {next : Continue}
    (hn : ∀ depth st j, (next depth st j).2.steps = st.steps) (pos depth : Nat) (st : State) :
    (matchSequence (matchesExpr s fuel) (characters.map Expr.literal) pos next depth st).2.steps ≤
      st.steps + characters.length := by
  induction characters generalizing pos depth st with
  | nil => exact le_of_eq (hn depth st pos)
  | cons character characters ih =>
    have hstop : st.charge.refuse.steps ≤ st.steps + (characters.length + 1) := by
      show st.steps + 1 ≤ _
      omega
    rw [List.map_cons, matchSequence, List.length_cons]
    cases fuel with
    | zero => exact hstop
    | succ fuel =>
      rw [matchesExpr_succ]
      split
      · exact hstop
      · rw [explore]
        split
        · have htail := ih (pos + character.length) (depth + 1) st.charge
          have hcharge : st.charge.steps = st.steps + 1 := rfl
          rw [handOn]
          omega
        · show st.steps + 1 ≤ _
          omega

theorem literals_steps (fuel : Nat) (characters : List Bytes) {next : Continue}
    (hn : ∀ depth st j, (next depth st j).2.steps = st.steps) (pos depth : Nat) (st : State) :
    (matchesExpr s fuel (sequenceOf (characters.map Expr.literal)) pos next depth st).2.steps ≤
      st.steps + (characters.length + 1) := by
  rcases characters with _ | ⟨character, _ | ⟨second, characters⟩⟩
  · cases fuel with
    | zero => exact le_refl _
    | succ fuel =>
      show (matchesExpr s (fuel + 1) .empty pos next depth st).2.steps ≤ _
      rw [matchesExpr_succ]
      split
      · exact le_refl _
      · exact le_of_eq (hn _ _ _)
  · have hone := matchSequence_steps (s := s) fuel [character] hn pos depth st
    have heq : matchSequence (matchesExpr s fuel) ([character].map Expr.literal) pos next depth st =
        matchesExpr s fuel (.literal character) pos next depth st := rfl
    rw [heq] at hone
    exact le_trans hone (Nat.le_succ _)
  · cases fuel with
    | zero =>
      show st.steps + 1 ≤ _
      omega
    | succ fuel =>
      have hmany := matchSequence_steps (s := s) fuel (character :: second :: characters) hn pos
        (depth + 1) st.charge
      have hcharge : st.charge.steps = st.steps + 1 := rfl
      show (matchesExpr s (fuel + 1) (.sequence _) pos next depth st).2.steps ≤ _
      rw [matchesExpr_succ]
      split
      · show st.steps + 1 ≤ _
        omega
      · show (matchSequence (matchesExpr s fuel)
          ((character :: second :: characters).map Expr.literal) pos next (depth + 1)
          st.charge).2.steps ≤ _
        omega

theorem keepLongest_steps (start depth : Nat) (st : State) (j : Nat) :
    (keepLongest start depth st j).2.steps = st.steps := by
  show State.steps (if _ then _ else _) = _
  split
  · rfl
  · rfl

namespace Regex

variable {regex : Regex}

/-- A search takes so many times what an attempt takes at most. -/
theorem searchFrom_steps {cost : Nat}
    (hcost : ∀ start steps refused, (regex.matchAt s start steps refused).steps ≤ steps + cost)
    (fuel start steps : Nat) (refused : Bool) :
    (regex.searchFrom s fuel start steps refused).steps ≤ steps + (fuel + 1) * cost := by
  induction fuel generalizing start steps refused with
  | zero =>
    rw [Nat.zero_add, Nat.one_mul]
    exact hcost start steps refused
  | succ fuel ih =>
    have hfirst := hcost start steps refused
    have hrest := ih (s.endAt start) (regex.matchAt s start steps refused).steps
      (regex.matchAt s start steps refused).refused
    have hmul : (fuel + 1 + 1) * cost = (fuel + 1) * cost + cost := Nat.succ_mul _ _
    rw [searchFrom]
    split
    · omega
    · omega

/-- **A quoted operand is found where its text first stands.** -/
theorem search_quoted (operand : Bytes) {quoted : List Bool} (hquoted : AllQuoted quoted)
    (locale : Locale) (bytes : Bytes) (hdepth : operand.length < maxDepth)
    (hsteps : (bytes.length + 1) * (operand.length + 1) ≤ stepBudget) :
    ∃ regex, compile operand quoted false = .ok regex ∧
      regex.search locale bytes =
        ((Characters.mk locale bytes).boundaries.find? fun i =>
          operand.isPrefixOf (bytes.drop i)).map fun i => [some (i, i + operand.length)] := by
  have hcompile := compile_quoted operand hquoted false
  refine ⟨_, hcompile, ?_⟩
  generalize hregex : (⟨sequenceOf (literalParts operand), 0, false⟩ : Regex) = regex at hcompile
  have hroot : regex.root = sequenceOf (literalParts operand) := by rw [← hregex]
  have hlength := literals_length operand (operand.length + 1) 0
  have hflatten : (literals operand (operand.length + 1) 0).flatten = operand := by
    rw [literals_flatten operand _ 0 (Nat.zero_le _) (by omega), List.drop_zero]
  have hspans : ∀ i j, i ∈ (Characters.mk locale bytes).boundaries →
      (regex.root.Spans (regex.subject locale bytes) i j ↔
        j = i + operand.length ∧ operand <+: bytes.drop i) := by
    intro i j hi
    have hle : i ≤ (regex.subject locale bytes).bytes.length :=
      (Characters.mk locale bytes).le_of_mem_boundaries hi
    have hcase : (regex.subject locale bytes).ignoreCase = false := by
      rw [← hregex]
      rfl
    rw [hroot, sequenceOf_spans, literalParts, literals_spans hcase _ hle, hflatten]
    exact Iff.rfl
  have hfree : (regex.run locale bytes).refused = false := by
    have hcalm : Calm (regex.attempt 0 false) (regex.run locale bytes) := by
      apply searchFrom_calm (compile_solid hcompile) _ bytes.length (Nat.zero_le _)
      have hgrowth := literals_growth bytes.length (literals operand (operand.length + 1) 0)
      rw [hroot]
      show (sequenceOf ((literals operand (operand.length + 1) 0).map Expr.literal)).growth
        bytes.length ≤ maxDepth
      omega
    apply hcalm.refused _ rfl
    have hcost : ∀ start steps refused,
        (regex.matchAt (regex.subject locale bytes) start steps refused).steps ≤
          steps + (operand.length + 1) := by
      intro start steps refused
      have hattempt := literals_steps (s := regex.subject locale bytes) maxDepth
        (literals operand (operand.length + 1) 0) (keepLongest_steps start) start 0
        (regex.attempt steps refused)
      rw [matchAt, hroot]
      have hfirst : (regex.attempt steps refused).steps = steps := rfl
      have hparts : literalParts operand =
        (literals operand (operand.length + 1) 0).map Expr.literal := rfl
      rw [hparts]
      omega
    have htotal := searchFrom_steps hcost bytes.length 0 0 false
    rw [Nat.zero_add] at htotal
    exact le_trans htotal hsteps
  have houtcome := run_outcome (compile_solid hcompile) locale bytes
  have hsized : Sized regex.groupCount (regex.run locale bytes) := searchFrom_sized bytes.length
  rw [search]
  cases hfind : (Characters.mk locale bytes).boundaries.find? fun i =>
      operand.isPrefixOf (bytes.drop i) with
  | none =>
    rw [List.find?_eq_none] at hfind
    cases hlongest : (regex.run locale bytes).longest with
    | none => rfl
    | some captures =>
      obtain ⟨i, hi, hmatch, -⟩ := houtcome.sound captures hlongest
      have hprefix := ((hspans i _ hi).mp hmatch.spans).2
      exact absurd (List.isPrefixOf_iff_prefix.mpr hprefix) (hfind i hi)
  | some i =>
    obtain ⟨hholds, before, behind, hsplit, hbefore⟩ := List.find?_eq_some_iff_append.mp hfind
    have hi : i ∈ (Characters.mk locale bytes).boundaries := List.mem_of_find?_eq_some hfind
    have hprefix := List.isPrefixOf_iff_prefix.mp hholds
    have hspan := (hspans i _ hi).mpr ⟨rfl, hprefix⟩
    cases hlongest : (regex.run locale bytes).longest with
    | none => exact absurd hspan (houtcome.complete hlongest hfree i hi _)
    | some captures =>
      obtain ⟨k, hk, hmatch, hleast⟩ := houtcome.sound captures hlongest
      obtain ⟨hend, hthere⟩ := (hspans k _ hk).mp hmatch.spans
      have hki : k ≤ i := (hleast hfree).1 i hi _ hspan
      have hrise := (Characters.mk locale bytes).boundaries_pairwise
      have heq : k = i := by
        have hk : k ∈ (Characters.mk locale bytes).boundaries := hk
        rw [hsplit] at hk hrise
        rcases List.mem_append.mp hk with hk | hk
        · have hno := hbefore k hk
          rw [Bool.not_eq_true', Bool.eq_false_iff] at hno
          exact absurd (List.isPrefixOf_iff_prefix.mpr hthere) hno
        · rcases List.mem_cons.mp hk with rfl | hk
          · rfl
          · have hlt := (List.pairwise_cons.mp (List.pairwise_append.mp hrise).2.1).1 k hk
            omega
      subst heq
      have hone : captures.length = 1 := by
        have hcount : regex.groupCount = 0 := by rw [← hregex]
        have hlen := hsized.2 captures hlongest
        rwa [hcount] at hlen
      have hwhole := hmatch.whole
      obtain ⟨only, rfl⟩ := List.length_eq_one_iff.mp hone
      rw [hend] at hwhole
      exact congrArg some (congrArg (· :: []) (Option.some.inj hwhole))

theorem search_quoted_star :
    ∃ regex, compile (text "a*") [true, true] false = .ok regex ∧
      regex.search Locale.c (text "aa*b") = some [some (1, 3)] :=
  search_quoted (text "a*") (show AllQuoted [true, true] by
    intro offset
    rcases offset with _ | _ | offset
    · rfl
    · rfl
    · rfl) Locale.c (text "aa*b") (by decide) (by decide)

end Regex

end Nsh.Regexes
