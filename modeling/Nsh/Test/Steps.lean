import Nsh.Test.Parser

/-!
# The parser, step by step

What the parser does depends on the words from its cursor on.  `lexed` is the token they
begin with; `Answers` says that an operation comes to a truth value, or to the error of
an illegal integer, with the cursor so many words on.
-/

namespace Nsh.Test

open Nsh

/-! ### Tokens -/

/-- Whether the word in front of these is taken for an operand though it is a unary
    operator. -/
def operandBefore (bash : Bool) : List Bytes → Bool
  | [] => true
  | [_] => false
  | word :: _ :: _ => (operator bash word).any fun op => op.kind == .binary

/-- The token some words begin with, and the operator it was read from. -/
def lexed (bash : Bool) : List Bytes → Token × Option Operator
  | [] => (.endOfWords, none)
  | word :: rest =>
    match operator bash word with
    | none => (.operand, none)
    | some candidate =>
      if (candidate.kind == .unary && operandBefore bash rest) ||
          (candidate.token == .leftParen && rest.isEmpty) then (.operand, none)
      else (candidate.token, some candidate)

theorem word_of_drop {p : TestParser} {n : ℕ} {words : List Bytes} (h : p.words.drop n = words)
    (k : ℕ) : p.word (n + k) = words[k]? := by
  rw [TestParser.word, ← h, List.getElem?_drop]

theorem isOperand_eq {p : TestParser} {n : ℕ} {word : Bytes} {rest : List Bytes}
    (h : p.words.drop n = word :: rest) : p.isOperand n = operandBefore p.bash rest := by
  rw [TestParser.isOperand, TestParser.operatorAt, word_of_drop h 1, word_of_drop h 2]
  rcases rest with _ | ⟨second, _ | ⟨third, rest⟩⟩
  · rfl
  · rfl
  · rfl

theorem TestParser.lex_eq {p : TestParser} {n : ℕ} {words : List Bytes}
    (h : p.words.drop n = words) :
    p.lex n = ((lexed p.bash words).1, { p with lastOperator := (lexed p.bash words).2 }) := by
  have hword := word_of_drop h 0
  have hnext := word_of_drop h 1
  rw [Nat.add_zero] at hword
  rw [TestParser.lex, hword, hnext]
  cases words with
  | nil => rfl
  | cons word rest =>
    rw [isOperand_eq h]
    have hempty : ((word :: rest)[1]?).isNone = rest.isEmpty := by
      cases rest with
      | nil => rfl
      | cons second rest => rfl
    rw [hempty, lexed, List.getElem?_cons_zero]
    simp only
    cases operator p.bash word with
    | none => rfl
    | some candidate =>
      simp only
      split
      · rfl
      · rfl

theorem lex_eq {p : TestParser} {n : ℕ} {words : List Bytes} (h : p.words.drop n = words) :
    lex n p = .done (lexed p.bash words).1 { p with lastOperator := (lexed p.bash words).2 } := by
  rw [lex, TestParser.lex_eq h]

theorem advance_eq (count : ℕ) (p : TestParser) :
    advance count p = .done () { p with pos := p.pos + count } := rfl

theorem operator_mem {bash : Bool} {word : Bytes} {op : Operator}
    (h : operator bash word = some op) : op ∈ bashOperators ++ operators := by
  unfold operator at h
  split at h
  · next found hfound =>
    obtain rfl := Option.some.inj h
    cases bash with
    | false => cases hfound
    | true =>
      rw [if_pos rfl] at hfound
      exact List.mem_append_left _ (List.mem_of_find?_eq_some hfound)
  · exact List.mem_append_right _ (List.mem_of_find?_eq_some h)

theorem operator_text {bash : Bool} {word : Bytes} {op : Operator}
    (h : operator bash word = some op) : op.text = word := by
  unfold operator at h
  split at h
  · next found hfound =>
    obtain rfl := Option.some.inj h
    cases bash with
    | false => cases hfound
    | true =>
      rw [if_pos rfl] at hfound
      simpa using List.find?_some hfound
  · simpa using List.find?_some h

/-- What the parser asks of a token it has not met as an operator of its own. -/
theorem token_of_kind : ∀ op ∈ bashOperators ++ operators, op.kind = .unary ∨ op.kind = .binary →
    op.token ≠ .endOfWords ∧ op.token ≠ .leftParen ∧ op.token ≠ .not := by
  decide

theorem endOfWords_no_operator : ∀ op ∈ bashOperators ++ operators, op.token ≠ .endOfWords := by
  decide

theorem text_ne_nil : ∀ op ∈ bashOperators ++ operators, op.text.isEmpty = false := by
  decide

theorem operator_bang (bash : Bool) :
    operator bash (text "!") = some ⟨text "!", .not, .booleanUnary⟩ := by
  cases bash <;> decide

theorem operator_and (bash : Bool) :
    operator bash (text "-a") = some ⟨text "-a", .and, .booleanBinary⟩ := by
  cases bash <;> decide

theorem operator_or (bash : Bool) :
    operator bash (text "-o") = some ⟨text "-o", .or, .booleanBinary⟩ := by
  cases bash <;> decide

theorem operator_open (bash : Bool) :
    operator bash (text "(") = some ⟨text "(", .leftParen, .parenthesis⟩ := by
  cases bash <;> decide

theorem operator_close (bash : Bool) :
    operator bash (text ")") = some ⟨text ")", .rightParen, .parenthesis⟩ := by
  cases bash <;> decide

theorem lexed_nil (bash : Bool) : lexed bash [] = (.endOfWords, none) := rfl

theorem lexed_operand {bash : Bool} {word : Bytes} (h : operator bash word = none)
    (rest : List Bytes) : lexed bash (word :: rest) = (.operand, none) := by
  rw [lexed, h]

theorem lexed_bang (bash : Bool) (rest : List Bytes) :
    lexed bash (text "!" :: rest) = (.not, some ⟨text "!", .not, .booleanUnary⟩) := by
  rw [lexed, operator_bang]
  rfl

theorem lexed_and (bash : Bool) (rest : List Bytes) :
    lexed bash (text "-a" :: rest) = (.and, some ⟨text "-a", .and, .booleanBinary⟩) := by
  rw [lexed, operator_and]
  rfl

theorem lexed_or (bash : Bool) (rest : List Bytes) :
    lexed bash (text "-o" :: rest) = (.or, some ⟨text "-o", .or, .booleanBinary⟩) := by
  rw [lexed, operator_or]
  rfl

theorem lexed_open (bash : Bool) {rest : List Bytes} (h : rest ≠ []) :
    lexed bash (text "(" :: rest) = (.leftParen, some ⟨text "(", .leftParen, .parenthesis⟩) := by
  rw [lexed, operator_open]
  cases rest with
  | nil => exact absurd rfl h
  | cons word rest => rfl

theorem lexed_close (bash : Bool) (rest : List Bytes) :
    lexed bash (text ")" :: rest) = (.rightParen, some ⟨text ")", .rightParen, .parenthesis⟩) := by
  rw [lexed, operator_close]
  rfl

/-- A unary operator in front of what is no operator is one. -/
theorem lexed_unary {bash : Bool} {word operand : Bytes} {op : Operator}
    (h : operator bash word = some op) (rest : List Bytes)
    (hoperand : rest = [] ∨ operator bash operand = none) :
    lexed bash (word :: operand :: rest) = (op.token, some op) := by
  have hbefore : operandBefore bash (operand :: rest) = false := by
    cases rest with
    | nil => rfl
    | cons next rest =>
      rcases hoperand with hnil | hnone
      · cases hnil
      · rw [operandBefore, hnone]
        rfl
  rw [lexed, h]
  simp [hbefore]

theorem lexed_binary {bash : Bool} {word : Bytes} {op : Operator}
    (h : operator bash word = some op) (hkind : op.kind = .binary) (rest : List Bytes) :
    lexed bash (word :: rest) = (op.token, some op) := by
  have htoken := (token_of_kind op (operator_mem h) (Or.inr hkind)).2.1
  rw [lexed, h]
  simp [hkind, htoken]

/-! ### Answers -/

/-- The operation comes to this value, `count` words on, whatever it read last. -/
def Answers (m : Parse Bool) (p : TestParser) (value : Except Bytes Bool) (count : ℕ) : Prop :=
  match value with
  | .ok b => ∃ last, m p = .done b { p with pos := p.pos + count, lastOperator := last }
  | .error word => ∃ q, m p = .failed (.illegalNumber word) q

/-- The parser stands in front of these words and has read the first of them. -/
structure Lexed (p : TestParser) (words : List Bytes) (token : Token) : Prop where
  stands : p.words.drop p.pos = words
  token_eq : token = (lexed p.bash words).1
  last_eq : p.lastOperator = (lexed p.bash words).2

theorem Lexed.word {p : TestParser} {words : List Bytes} {token : Token}
    (h : Lexed p words token) (k : ℕ) : p.word (p.pos + k) = words[k]? :=
  word_of_drop h.stands k

/-- A cursor moved on stands in front of what is left. -/
theorem drop_pos {p : TestParser} {front rest : List Bytes}
    (h : p.words.drop p.pos = front ++ rest) (last : Option Operator) :
    ({ p with pos := p.pos + front.length, lastOperator := last } : TestParser).words.drop
      (p.pos + front.length) = rest := by
  show p.words.drop (p.pos + front.length) = rest
  rw [← List.drop_drop, h, List.drop_left]

theorem Answers.done {p : TestParser} {m : Parse Bool} {b : Bool} {count : ℕ}
    {last : Option Operator}
    (h : m p = .done b { p with pos := p.pos + count, lastOperator := last }) :
    Answers m p (.ok b) count := ⟨last, h⟩

theorem Answers.map {m : Parse Bool} {p : TestParser} {value : Except Bytes Bool} {count : ℕ}
    (h : Answers m p value count) (f : Bool → Bool) :
    Answers (m >>= fun b => pure (f b)) p (value.map f) count := by
  cases value with
  | error word =>
    obtain ⟨q, hq⟩ := h
    exact ⟨q, Run.bind_failed hq _⟩
  | ok b =>
    obtain ⟨last, hlast⟩ := h
    exact ⟨last, by rw [Run.bind_done hlast]; rfl⟩

theorem answers_answer (value : Except Bytes Bool) (p : TestParser) :
    Answers (answer value) p value 0 := by
  cases value with
  | error word => exact ⟨p, rfl⟩
  | ok b => exact ⟨p.lastOperator, rfl⟩

/-! ### Primaries -/

section

variable {host : Host} {p : TestParser}

/-- What an answer is after the cursor was moved and other words were read. -/
theorem Answers.moved {m m' : Parse Bool} {value : Except Bytes Bool} {count moved : ℕ}
    {last : Option Operator}
    (hm : m p = m' { p with pos := p.pos + moved, lastOperator := last })
    (h : Answers m' { p with pos := p.pos + moved, lastOperator := last } value count) :
    Answers m p value (moved + count) := by
  cases value with
  | error word =>
    obtain ⟨q, hq⟩ := h
    exact ⟨q, by rw [hm, hq]⟩
  | ok b =>
    obtain ⟨last', hlast'⟩ := h
    exact ⟨last', by rw [hm, hlast', Nat.add_assoc]⟩

theorem plainPrimary_unary {token : Token} {op : Operator} (hlast : p.lastOperator = some op)
    (hkind : op.kind = .unary) {operand : Bytes} (hword : p.word (p.pos + 1) = some operand) :
    Answers (plainPrimary host token) p (unary host token operand) 1 := by
  have hrun : plainPrimary host token p =
      answer (unary host token operand)
        { p with pos := p.pos + 1, lastOperator := p.lastOperator } := by
    rw [plainPrimary, Run.bind_done (Run.get_apply p)]
    have hfilter : p.lastOperator.filter (fun op => op.kind == .unary) = some op := by
      rw [hlast, Option.filter_some, hkind]
      rfl
    simp only [hfilter]
    rw [Run.bind_done (advance_eq 1 p)]
    simp only [hword]
  exact Answers.moved hrun (answers_answer _ _)

/-- Two words on either side of a binary operator, whatever they spell. -/
theorem plainPrimary_binary {token : Token} {op : Operator} {left word right : Bytes}
    (rest : List Bytes) (hstands : p.words.drop p.pos = left :: word :: right :: rest)
    (hlast : p.lastOperator.filter (fun op => op.kind == .unary) = none)
    (h : operator p.bash word = some op) (hkind : op.kind = .binary) :
    Answers (plainPrimary host token) p (compare host op.token left right) 2 := by
  have hdrop : p.words.drop (p.pos + 1) = word :: right :: rest := by
    rw [← List.drop_drop, hstands]
    rfl
  have hlex := lex_eq hdrop
  rw [lexed_binary h hkind] at hlex
  have hleft := word_of_drop hstands 0
  have hright := word_of_drop hstands 2
  have hrun : plainPrimary host token p =
      answer (compare host op.token left right)
        { p with pos := p.pos + 2, lastOperator := some op } := by
    rw [plainPrimary, Run.bind_done (Run.get_apply p)]
    simp only [hlast]
    rw [Run.bind_done hlex, Run.bind_done (Run.get_apply _)]
    simp only [Option.filter_some, hkind, beq_self_eq_true, if_true, Option.isSome_some]
    have hlex' : lex (p.pos + 1) { p with lastOperator := some op } =
        .done op.token { p with lastOperator := some op } := by
      have := lex_eq (p := { p with lastOperator := some op }) hdrop
      rwa [lexed_binary h hkind] at this
    rw [binary, Run.bind_done (Run.get_apply _)]
    have hleft' : ({ p with lastOperator := some op } : TestParser).word p.pos = some left := hleft
    have hright' : ({ p with pos := p.pos + 1, lastOperator := some op } : TestParser).word
        (p.pos + 1 + 1) = some right := hright
    simp only [hleft']
    rw [Run.bind_done hlex', Run.bind_done (advance_eq 1 _), Run.bind_done (Run.get_apply _)]
    simp only
    rw [Run.bind_done (advance_eq 1 _)]
    simp only [hright']
  exact Answers.moved hrun (answers_answer _ _)

/-- A word with no binary operator behind it is tested for being empty. -/
theorem plainPrimary_word {token : Token} {word : Bytes} {rest : List Bytes}
    (hstands : p.words.drop p.pos = word :: rest)
    (hlast : p.lastOperator.filter (fun op => op.kind == .unary) = none)
    (hrest : (lexed p.bash rest).2.filter (fun op => op.kind == .binary) = none) :
    Answers (plainPrimary host token) p (.ok !word.isEmpty) 0 := by
  have hdrop : p.words.drop (p.pos + 1) = rest := by
    rw [← List.drop_drop, hstands]
    rfl
  refine @Answers.done _ _ _ _ (lexed p.bash rest).2 ?_
  have hword : ({ p with lastOperator := (lexed p.bash rest).2 } : TestParser).word p.pos =
      some word := word_of_drop hstands 0
  rw [plainPrimary, Run.bind_done (Run.get_apply p)]
  simp only [hlast]
  rw [Run.bind_done (lex_eq hdrop), Run.bind_done (Run.get_apply _)]
  simp only [hrest, Option.isSome_none, Bool.false_eq_true, if_false, hword, Option.any_some,
    Run.pure_apply, Nat.add_zero]

/-- A primary that opens no parenthesis. -/
theorem primary_plain {fuel : ℕ} {token : Token} (hend : token ≠ .endOfWords)
    (hopen : token ≠ .leftParen) : primary host (fuel + 1) token = plainPrimary host token := by
  rw [primary, if_neg hend, if_neg hopen]

/-! ### Negations and connectives -/

theorem notExpr_primary {fuel : ℕ} {token : Token} (h : token ≠ .not) :
    notExpr host (fuel + 1) token = primary host fuel token := by
  rw [notExpr, if_pos h]

/-- A `!` in front of words that are answered. -/
theorem notExpr_bang {fuel : ℕ} {words : List Bytes} (hne : words ≠ []) {token : Token}
    (h : Lexed p (text "!" :: words) token) {value : Except Bytes Bool} {count : ℕ}
    (hwords : ∀ (q : TestParser) (token : Token), q.words = p.words → q.bash = p.bash →
      Lexed q words token → Answers (notExpr host fuel token) q value count) :
    Answers (notExpr host (fuel + 1) token) p (value.map (!·)) (1 + count) := by
  have htoken : token = .not := by rw [h.token_eq, lexed_bang]
  have hdrop : p.words.drop (p.pos + 1) = words := by
    rw [← List.drop_drop, h.stands]
    rfl
  have hmore : (lexed p.bash words).1 ≠ .endOfWords := by
    cases words with
    | nil => exact absurd rfl hne
    | cons word rest =>
      rw [lexed]
      split
      · decide
      · next candidate hcandidate =>
        split
        · decide
        · exact endOfWords_no_operator candidate (operator_mem hcandidate)
  have hinner := hwords
    { p with pos := p.pos + 1, lastOperator := (lexed p.bash words).2 } (lexed p.bash words).1
    rfl rfl ⟨hdrop, rfl, rfl⟩
  refine Answers.moved ?_ (hinner.map (!·))
  rw [notExpr, if_neg (not_not.mpr htoken), Run.bind_done (Run.get_apply p),
    Run.bind_done (lex_eq hdrop), if_neg hmore, Run.bind_done (advance_eq 1 _)]

/-- The loops end where another token follows. -/
theorem continues_none {connective : Token} {word : Bytes} {rest : List Bytes}
    (hstands : p.words.drop p.pos = word :: rest) (h : (lexed p.bash rest).1 ≠ connective) :
    continues connective p = .done none { p with lastOperator := (lexed p.bash rest).2 } := by
  have hdrop : p.words.drop (p.pos + 1) = rest := by
    rw [← List.drop_drop, hstands]
    rfl
  have hword := word_of_drop hstands 0
  rw [Nat.add_zero] at hword
  rw [continues, Run.bind_done (Run.get_apply p), hword]
  simp only [List.getElem?_cons_zero, Option.isNone_some, Bool.false_eq_true, if_false]
  rw [Run.bind_done (lex_eq hdrop), if_pos h]
  rfl

/-- They go on behind their connective. -/
theorem continues_some {connective : Token} {word second : Bytes} {rest : List Bytes}
    (hstands : p.words.drop p.pos = word :: second :: rest)
    (h : (lexed p.bash (second :: rest)).1 = connective) :
    continues connective p = .done (some (lexed p.bash rest).1)
      { p with pos := p.pos + 2, lastOperator := (lexed p.bash rest).2 } := by
  have hdrop : p.words.drop (p.pos + 1) = second :: rest := by
    rw [← List.drop_drop, hstands]
    rfl
  have hdrop' : p.words.drop (p.pos + 2) = rest := by
    rw [← List.drop_drop, hstands]
    rfl
  have hword := word_of_drop hstands 0
  rw [Nat.add_zero] at hword
  rw [continues, Run.bind_done (Run.get_apply p), hword]
  simp only [List.getElem?_cons_zero, Option.isNone_some, Bool.false_eq_true, if_false]
  rw [Run.bind_done (lex_eq hdrop), if_neg (not_not.mpr h), Run.bind_done (advance_eq 2 _),
    Run.bind_done (Run.get_apply _)]
  have hlex := lex_eq
    (p := { p with pos := p.pos + 2, lastOperator := (lexed p.bash (second :: rest)).2 }) hdrop'
  rw [Run.bind_done hlex]
  rfl

/-- One turn of a loop, and the end of it. -/
theorem Answers.last {m : Parse Bool} {value : Except Bytes Bool} {connective : Token}
    {front rest : List Bytes} {word : Bytes}
    (hstands : p.words.drop p.pos = front ++ word :: rest)
    (h : Answers m p value front.length) (hrest : (lexed p.bash rest).1 ≠ connective)
    (f : Bool → Bool) (again : Bool → Token → Parse Bool) :
    Answers (m >>= fun b => continues connective >>= fun following =>
      match following with
      | none => pure (f b)
      | some token => again b token) p (value.map f) front.length := by
  cases value with
  | error word =>
    obtain ⟨q, hq⟩ := h
    exact ⟨q, Run.bind_failed hq _⟩
  | ok b =>
    obtain ⟨last, hlast⟩ := h
    have hend := continues_none
      (p := { p with pos := p.pos + front.length, lastOperator := last })
      (drop_pos hstands last) hrest
    refine ⟨(lexed p.bash rest).2, ?_⟩
    rw [Run.bind_done hlast, Run.bind_done hend]
    rfl

/-- One turn of a loop, and the turns behind its connective. -/
theorem Answers.again {m : Parse Bool} {value : Except Bytes Bool} {connective : Token}
    {front rest : List Bytes} {word second : Bytes}
    (hstands : p.words.drop p.pos = front ++ word :: second :: rest)
    (h : Answers m p value front.length) (hsecond : (lexed p.bash (second :: rest)).1 = connective)
    (f : Bool → Bool) (combine : Bool → Bool → Bool) (again : Bool → Token → Parse Bool)
    (value' : Except Bytes Bool) (count : ℕ)
    (hagain : ∀ b (q : TestParser) (token : Token), q.bash = p.bash → Lexed q rest token →
      Answers (again b token) q (value'.map (combine b)) count) :
    Answers (m >>= fun b => continues connective >>= fun following =>
      match following with
      | none => pure (f b)
      | some token => again b token) p (value.bind fun b => value'.map (combine b))
      (front.length + 2 + count) := by
  cases value with
  | error word =>
    obtain ⟨q, hq⟩ := h
    exact ⟨q, Run.bind_failed hq _⟩
  | ok b =>
    obtain ⟨last, hlast⟩ := h
    have hcontinues := continues_some
      (p := { p with pos := p.pos + front.length, lastOperator := last })
      (drop_pos hstands last) hsecond
    have hdrop : p.words.drop (p.pos + front.length + 2) = rest := by
      rw [← List.drop_drop, ← List.drop_drop, hstands, List.drop_left]
      rfl
    have hinner := hagain b
      { p with pos := p.pos + front.length + 2, lastOperator := (lexed p.bash rest).2 }
      (lexed p.bash rest).1 rfl ⟨hdrop, rfl, rfl⟩
    have hrun : (m >>= fun b => continues connective >>= fun following =>
        match following with
        | none => pure (f b)
        | some token => again b token) p = again b (lexed p.bash rest).1
          { p with pos := p.pos + (front.length + 2), lastOperator := (lexed p.bash rest).2 } := by
      rw [Run.bind_done hlast, Run.bind_done hcontinues, ← Nat.add_assoc]
    exact Answers.moved hrun (by rwa [← Nat.add_assoc])

end

end Nsh.Test
