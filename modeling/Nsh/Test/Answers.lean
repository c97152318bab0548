import Nsh.Test.Steps

/-!
# What `test` answers

Up to four words are tested by how many there are; more are read by the grammar.  In
both, the only error is an operand that is no integer.  A second `!` that `run` strips
is lost: before four words `! !` stands for one.
-/

namespace Nsh.Test

open Nsh

/-! ### Expressions -/

mutual

inductive Primary
  | word (word : Bytes)
  | unary (op operand : Bytes)
  | binary (left op right : Bytes)
  | paren (expression : Disjunction)

inductive Negation
  | primary (primary : Primary)
  | not (negated : Negation)

inductive Conjunction
  | last (negation : Negation)
  | and (negation : Negation) (rest : Conjunction)

/-- An expression: `!` binds tighter than `-a`, and `-a` than `-o`. -/
inductive Disjunction
  | last (conjunction : Conjunction)
  | or (conjunction : Conjunction) (rest : Disjunction)

end

/-! ### The words of an expression -/

mutual

def Primary.print : Primary → List Bytes
  | .word word => [word]
  | .unary op operand => [op, operand]
  | .binary left op right => [left, op, right]
  | .paren expression => text "(" :: (expression.print ++ [text ")"])

def Negation.print : Negation → List Bytes
  | .primary primary => primary.print
  | .not negated => text "!" :: negated.print

def Conjunction.print : Conjunction → List Bytes
  | .last negation => negation.print
  | .and negation rest => negation.print ++ text "-a" :: rest.print

def Disjunction.print : Disjunction → List Bytes
  | .last conjunction => conjunction.print
  | .or conjunction rest => conjunction.print ++ text "-o" :: rest.print

end

/-- The operator a word spells, of one kind. -/
def operatorOf (bash : Bool) (kind : OperatorKind) (word : Bytes) : Option Operator :=
  (operator bash word).filter fun op => op.kind == kind

mutual

/-- The operators are operators, and no operand spells one. -/
def Primary.Plain (bash : Bool) : Primary → Prop
  | .word word => operator bash word = none
  | .unary op operand => (operatorOf bash .unary op).isSome ∧ operator bash operand = none
  | .binary left op right => (operatorOf bash .binary op).isSome ∧
      operator bash left = none ∧ operator bash right = none
  | .paren expression => expression.Plain bash

def Negation.Plain (bash : Bool) : Negation → Prop
  | .primary primary => primary.Plain bash
  | .not negated => negated.Plain bash

def Conjunction.Plain (bash : Bool) : Conjunction → Prop
  | .last negation => negation.Plain bash
  | .and negation rest => negation.Plain bash ∧ rest.Plain bash

def Disjunction.Plain (bash : Bool) : Disjunction → Prop
  | .last conjunction => conjunction.Plain bash
  | .or conjunction rest => conjunction.Plain bash ∧ rest.Plain bash

end

/-! ### The truth value of an expression -/

/-- The answer of a unary primary. -/
def unaryValue (host : Host) (bash : Bool) (op operand : Bytes) : Except Bytes Bool :=
  match operatorOf bash .unary op with
  | some op => unary host op.token operand
  | none => .ok false

/-- The answer of a binary primary. -/
def binaryValue (host : Host) (bash : Bool) (left op right : Bytes) : Except Bytes Bool :=
  match operatorOf bash .binary op with
  | some op => compare host op.token left right
  | none => .ok false

mutual

/-- The truth value, or the first operand that is no integer. -/
def Primary.value (host : Host) (bash : Bool) : Primary → Except Bytes Bool
  | .word word => .ok !word.isEmpty
  | .unary op operand => unaryValue host bash op operand
  | .binary left op right => binaryValue host bash left op right
  | .paren expression => expression.value host bash

def Negation.value (host : Host) (bash : Bool) : Negation → Except Bytes Bool
  | .primary primary => primary.value host bash
  | .not negated => (negated.value host bash).map (!·)

def Conjunction.value (host : Host) (bash : Bool) : Conjunction → Except Bytes Bool
  | .last negation => negation.value host bash
  | .and negation rest =>
    (negation.value host bash).bind fun value => (rest.value host bash).map (value && ·)

def Disjunction.value (host : Host) (bash : Bool) : Disjunction → Except Bytes Bool
  | .last conjunction => conjunction.value host bash
  | .or conjunction rest =>
    (conjunction.value host bash).bind fun value => (rest.value host bash).map (value || ·)

end

/-- What `test` ends with, for a truth value or an operand that is no integer. -/
def shows : Except Bytes Bool → Outcome Unit Failure ℕ
  | .ok true => .done 0 ()
  | .ok false => .done 1 ()
  | .error word => .failed (.illegalNumber word) ()

/-! ### The rules by count -/

/-- What `test` is of up to four words: each rule rests on the test of fewer.  The last
    rule is about two `!` before two words. -/
inductive Counted (host : Host) (bash : Bool) : List Bytes → Except Bytes Bool → Prop
  | one (word : Bytes) : Counted host bash [word] (.ok !word.isEmpty)
  | notOne (word : Bytes) : Counted host bash [text "!", word] (.ok word.isEmpty)
  | unary {op operand : Bytes} (h : (operatorOf bash .unary op).isSome) :
      Counted host bash [op, operand] (unaryValue host bash op operand)
  | binary {left op right : Bytes} (h : (operatorOf bash .binary op).isSome) :
      Counted host bash [left, op, right] (binaryValue host bash left op right)
  | notTwo {first second : Bytes} {value : Except Bytes Bool}
      (hmiddle : operatorOf bash .binary first = none)
      (h : Counted host bash [first, second] value) :
      Counted host bash [text "!", first, second] (value.map (!·))
  | notThree {first second third : Bytes} {value : Except Bytes Bool}
      (honce : first ≠ text "!" ∨ (operatorOf bash .binary second).isSome)
      (h : Counted host bash [first, second, third] value) :
      Counted host bash [text "!", first, second, third] (value.map (!·))
  | notNotTwo {first second : Bytes} {value : Except Bytes Bool}
      (hmiddle : operatorOf bash .binary first = none)
      (h : Counted host bash [first, second] value) :
      Counted host bash [text "!", text "!", first, second] (value.map (!·))

section

variable {host : Host}

theorem operatorOf_eq_some {bash : Bool} {kind : OperatorKind} {word : Bytes} {op : Operator}
    (h : operatorOf bash kind word = some op) : operator bash word = some op ∧ op.kind = kind := by
  unfold operatorOf at h
  rw [Option.filter_eq_some_iff, beq_iff_eq] at h
  exact h

theorem print_ne_nil (negation : Negation) : negation.print ≠ [] := by
  cases negation with
  | primary primary =>
    cases primary with
    | word word => exact List.cons_ne_nil _ _
    | unary op operand => exact List.cons_ne_nil _ _
    | binary left op right => exact List.cons_ne_nil _ _
    | paren expression => exact List.cons_ne_nil _ _
  | not negated => exact List.cons_ne_nil _ _

theorem Conjunction.print_ne_nil (conjunction : Conjunction) : conjunction.print ≠ [] := by
  cases conjunction with
  | last negation => exact Test.print_ne_nil negation
  | and negation rest => exact List.append_ne_nil_of_left_ne_nil (Test.print_ne_nil negation) _

theorem Disjunction.print_ne_nil (expression : Disjunction) : expression.print ≠ [] := by
  cases expression with
  | last conjunction => exact conjunction.print_ne_nil
  | or conjunction rest => exact List.append_ne_nil_of_left_ne_nil conjunction.print_ne_nil _

/-! ### The parser reads an expression back -/

/-- What can stand behind a primary: nothing, or a connective or parenthesis. -/
def Closed (bash : Bool) (after : List Bytes) : Prop :=
  (lexed bash after).2.filter (fun op => op.kind == .binary) = none

theorem map_true_and (value : Except Bytes Bool) : value.map (true && ·) = value := by
  cases value with
  | error word => rfl
  | ok b => simp [Except.map]

theorem map_false_or (value : Except Bytes Bool) : value.map (false || ·) = value := by
  cases value with
  | error word => rfl
  | ok b => simp [Except.map]

theorem closing_text : ∀ op ∈ bashOperators ++ operators, op.token = .rightParen →
    op.kind = .parenthesis := by
  decide

/-- Nothing an expression begins with is taken for its end. -/
theorem primary_first {bash : Bool} {primary : Primary} (hplain : primary.Plain bash)
    (after : List Bytes) : (lexed bash (primary.print ++ after)).1 ≠ .rightParen := by
  cases primary with
  | word word =>
    have hlexed := lexed_operand hplain after
    exact fun h => by rw [Primary.print, List.singleton_append, hlexed] at h; cases h
  | unary op operand =>
    obtain ⟨found, hfound⟩ := Option.isSome_iff_exists.mp hplain.1
    obtain ⟨hop, hkind⟩ := operatorOf_eq_some hfound
    have hlexed := lexed_unary hop after (Or.inr hplain.2)
    intro h
    have htoken : found.token = .rightParen := by
      rw [← h]
      exact (congrArg Prod.fst hlexed).symm
    rw [closing_text found (operator_mem hop) htoken] at hkind
    cases hkind
  | binary left op right =>
    have hlexed := lexed_operand hplain.2.1 (op :: right :: after)
    intro h
    rw [show (Primary.binary left op right).print ++ after = left :: op :: right :: after from rfl,
      hlexed] at h
    cases h
  | paren expression =>
    intro h
    have hlexed := @lexed_open bash (expression.print ++ [text ")"] ++ after) (by simp)
    rw [show (Primary.paren expression).print ++ after =
      text "(" :: (expression.print ++ [text ")"] ++ after) from rfl, hlexed] at h
    cases h

theorem negation_first {bash : Bool} {negation : Negation} (hplain : negation.Plain bash)
    (after : List Bytes) : (lexed bash (negation.print ++ after)).1 ≠ .rightParen := by
  cases negation with
  | primary primary => exact primary_first hplain after
  | not negated =>
    intro h
    rw [show (Negation.not negated).print ++ after = text "!" :: (negated.print ++ after) from rfl,
      lexed_bang] at h
    cases h

theorem conjunction_first {bash : Bool} {conjunction : Conjunction}
    (hplain : conjunction.Plain bash) (after : List Bytes) :
    (lexed bash (conjunction.print ++ after)).1 ≠ .rightParen := by
  cases conjunction with
  | last negation => exact negation_first hplain after
  | and negation rest =>
    rw [Conjunction.print, List.append_assoc]
    exact negation_first hplain.1 _

theorem disjunction_first {bash : Bool} {expression : Disjunction}
    (hplain : expression.Plain bash) (after : List Bytes) :
    (lexed bash (expression.print ++ after)).1 ≠ .rightParen := by
  cases expression with
  | last conjunction => exact conjunction_first hplain after
  | or conjunction rest =>
    rw [Disjunction.print, List.append_assoc]
    exact conjunction_first hplain.1 _

/-- Split off the last word of what is printed. -/
theorem split_last {print : List Bytes} (hne : print ≠ []) :
    ∃ front word, print = front ++ [word] ∧ front.length = print.length - 1 :=
  ⟨print.dropLast, print.getLast hne, (List.dropLast_append_getLast hne).symm,
    List.length_dropLast⟩

mutual

theorem primary_print (bash : Bool) (primary : Primary) (hplain : primary.Plain bash) (fuel : ℕ)
    (hfuel : 4 * primary.print.length ≤ fuel + 3) (after : List Bytes) (hafter : Closed bash after)
    (p : TestParser) (hbash : p.bash = bash) (token : Token)
    (h : Lexed p (primary.print ++ after) token) :
    token ≠ .not ∧ Answers (Test.primary host fuel token) p (primary.value host bash)
      (primary.print.length - 1) := by
  subst hbash
  match primary with
  | .word word =>
    obtain ⟨fuel, rfl⟩ : ∃ n, fuel = n + 1 := ⟨fuel - 1, by simp [Primary.print] at hfuel; omega⟩
    have hword : operator p.bash word = none := hplain
    have hlexed : lexed p.bash (word :: after) = (.operand, none) := lexed_operand hword after
    have htoken : token = .operand := by rw [h.token_eq]; exact congrArg Prod.fst hlexed
    have hlast : p.lastOperator = none := by rw [h.last_eq]; exact congrArg Prod.snd hlexed
    subst htoken
    refine ⟨by decide, ?_⟩
    rw [primary_plain (by decide) (by decide)]
    exact plainPrimary_word h.stands (by rw [hlast]; rfl) hafter
  | .unary op operand =>
    obtain ⟨fuel, rfl⟩ : ∃ n, fuel = n + 1 := ⟨fuel - 1, by simp [Primary.print] at hfuel; omega⟩
    obtain ⟨found, hfound⟩ := Option.isSome_iff_exists.mp hplain.1
    obtain ⟨hop, hkind⟩ := operatorOf_eq_some hfound
    have hlexed := lexed_unary hop after (Or.inr hplain.2)
    have htoken : token = found.token := by rw [h.token_eq]; exact congrArg Prod.fst hlexed
    have hlast : p.lastOperator = some found := by rw [h.last_eq]; exact congrArg Prod.snd hlexed
    obtain ⟨hend, hopen, hnot⟩ := token_of_kind found (operator_mem hop) (Or.inl hkind)
    subst htoken
    refine ⟨hnot, ?_⟩
    have hvalue :
        (Primary.unary op operand).value host p.bash = unary host found.token operand := by
      rw [Primary.value, unaryValue, hfound]
    rw [primary_plain hend hopen, hvalue]
    exact plainPrimary_unary hlast hkind (h.word 1)
  | .binary left op right =>
    obtain ⟨fuel, rfl⟩ : ∃ n, fuel = n + 1 := ⟨fuel - 1, by simp [Primary.print] at hfuel; omega⟩
    obtain ⟨hsome, hleft, -⟩ := hplain
    obtain ⟨found, hfound⟩ := Option.isSome_iff_exists.mp hsome
    obtain ⟨hop, hkind⟩ := operatorOf_eq_some hfound
    have hlexed := lexed_operand hleft (op :: right :: after)
    have htoken : token = .operand := by rw [h.token_eq]; exact congrArg Prod.fst hlexed
    have hlast : p.lastOperator = none := by rw [h.last_eq]; exact congrArg Prod.snd hlexed
    subst htoken
    refine ⟨by decide, ?_⟩
    have hvalue : (Primary.binary left op right).value host p.bash =
        compare host found.token left right := by
      rw [Primary.value, binaryValue, hfound]
    rw [primary_plain (by decide) (by decide), hvalue]
    exact plainPrimary_binary after h.stands (by rw [hlast]; rfl) hop hkind
  | .paren expression =>
    obtain ⟨fuel, rfl⟩ : ∃ n, fuel = n + 1 := ⟨fuel - 1, by simp [Primary.print] at hfuel; omega⟩
    have hstands : p.words.drop p.pos =
        text "(" :: (expression.print ++ text ")" :: after) := by
      rw [h.stands, Primary.print, List.cons_append, List.append_assoc, List.singleton_append]
    have hlexed : lexed p.bash (text "(" :: (expression.print ++ text ")" :: after)) =
        (.leftParen, some ⟨text "(", .leftParen, .parenthesis⟩) :=
      lexed_open p.bash (List.append_ne_nil_of_left_ne_nil expression.print_ne_nil _)
    have htoken : token = .leftParen := by
      rw [h.token_eq, ← h.stands, hstands]
      exact congrArg Prod.fst hlexed
    subst htoken
    refine ⟨by decide, ?_⟩
    have hdrop : p.words.drop (p.pos + 1) = expression.print ++ text ")" :: after := by
      rw [← List.drop_drop, hstands]
      rfl
    have hlength : (Primary.paren expression).print.length = expression.print.length + 2 := by
      simp [Primary.print]
    have hnested := disjunction_first hplain (text ")" :: after)
    have hinner := disjunction_print p.bash expression hplain fuel (by omega)
      (text ")" :: after) (by rw [Closed, lexed_close]; rfl) (by rw [lexed_close]; decide)
      (by rw [lexed_close]; decide) false
      { p with
        pos := p.pos + 1
        lastOperator := (lexed p.bash (expression.print ++ text ")" :: after)).2 }
      rfl (lexed p.bash (expression.print ++ text ")" :: after)).1 ⟨hdrop, rfl, rfl⟩
    rw [map_false_or] at hinner
    have hpos : 0 < expression.print.length := List.length_pos_iff.mpr expression.print_ne_nil
    rw [Test.primary, if_neg (by decide), if_pos rfl]
    cases hvalue : expression.value host p.bash with
    | error word =>
      rw [hvalue] at hinner
      obtain ⟨q, hq⟩ := hinner
      rw [Primary.value, hvalue]
      refine ⟨q, ?_⟩
      rw [Run.bind_done (advance_eq 1 p), Run.bind_done (Run.get_apply _),
        Run.bind_done (lex_eq (p := { p with pos := p.pos + 1 }) hdrop), if_neg hnested,
        Run.bind_failed hq]
    | ok b =>
      rw [hvalue] at hinner
      obtain ⟨last, hlast⟩ := hinner
      rw [Primary.value, hvalue]
      have hclose : p.words.drop (p.pos + 1 + (expression.print.length - 1) + 1) =
          text ")" :: after := by
        have : p.pos + 1 + (expression.print.length - 1) + 1 =
            p.pos + 1 + expression.print.length := by omega
        rw [this, ← List.drop_drop, hdrop, List.drop_left]
      have hlex := lex_eq
        (p := { p with pos := p.pos + 1 + (expression.print.length - 1) + 1, lastOperator := last })
        hclose
      rw [lexed_close] at hlex
      refine ⟨some ⟨text ")", .rightParen, .parenthesis⟩, ?_⟩
      rw [Run.bind_done (advance_eq 1 p), Run.bind_done (Run.get_apply _),
        Run.bind_done (lex_eq (p := { p with pos := p.pos + 1 }) hdrop), if_neg hnested,
        Run.bind_done hlast, Run.bind_done (advance_eq 1 _), Run.bind_done (Run.get_apply _),
        Run.bind_done hlex, if_neg (by decide)]
      have hcount : p.pos + 1 + (expression.print.length - 1) + 1 =
          p.pos + ((Primary.paren expression).print.length - 1) := by omega
      rw [Run.pure_apply, hcount]

theorem negation_print (bash : Bool) (negation : Negation) (hplain : negation.Plain bash)
    (fuel : ℕ) (hfuel : 4 * negation.print.length ≤ fuel + 2) (after : List Bytes)
    (hafter : Closed bash after) (p : TestParser) (hbash : p.bash = bash) (token : Token)
    (h : Lexed p (negation.print ++ after) token) :
    Answers (notExpr host fuel token) p (negation.value host bash) (negation.print.length - 1) := by
  have hpos : 0 < negation.print.length := List.length_pos_iff.mpr (print_ne_nil negation)
  obtain ⟨fuel, rfl⟩ : ∃ n, fuel = n + 1 := ⟨fuel - 1, by omega⟩
  match negation with
  | .primary primary =>
    have hprint : (Negation.primary primary).print.length = primary.print.length := rfl
    obtain ⟨hnot, hanswers⟩ := primary_print bash primary hplain fuel (by omega) after hafter p
      hbash token h
    rw [notExpr_primary hnot]
    exact hanswers
  | .not negated =>
    have hprint : (Negation.not negated).print.length = negated.print.length + 1 := rfl
    have hnegated : 0 < negated.print.length := List.length_pos_iff.mpr (print_ne_nil negated)
    have hbang := @notExpr_bang host p fuel (negated.print ++ after)
      (List.append_ne_nil_of_left_ne_nil (print_ne_nil negated) after) token h
      (negated.value host bash) (negated.print.length - 1)
      (fun q token _ hq hlexed =>
        negation_print bash negated hplain fuel (by omega) after hafter q (hq.trans hbash) token
          hlexed)
    have hcount : (Negation.not negated).print.length - 1 = 1 + (negated.print.length - 1) := by
      omega
    rw [hcount]
    exact hbang

theorem conjunction_print (bash : Bool) (conjunction : Conjunction)
    (hplain : conjunction.Plain bash) (fuel : ℕ)
    (hfuel : 4 * conjunction.print.length ≤ fuel + 1) (after : List Bytes)
    (hafter : Closed bash after) (hand : (lexed bash after).1 ≠ .and) (result : Bool)
    (p : TestParser) (hbash : p.bash = bash) (token : Token)
    (h : Lexed p (conjunction.print ++ after) token) :
    Answers (andExpr host fuel result token) p ((conjunction.value host bash).map (result && ·))
      (conjunction.print.length - 1) := by
  have hpos : 0 < conjunction.print.length := List.length_pos_iff.mpr conjunction.print_ne_nil
  obtain ⟨fuel, rfl⟩ : ∃ n, fuel = n + 1 := ⟨fuel - 1, by omega⟩
  match conjunction with
  | .last negation =>
    have hprint : (Conjunction.last negation).print = negation.print := rfl
    obtain ⟨front, word, hsplit, hlength⟩ := split_last (print_ne_nil negation)
    have hnegation :=
      negation_print bash negation hplain fuel (by rw [hprint] at hfuel; omega) after
      hafter p hbash token h
    rw [← hlength] at hnegation
    have hstands : p.words.drop p.pos = front ++ word :: after := by
      rw [h.stands, hprint, hsplit, List.append_assoc, List.singleton_append]
    rw [hprint, ← hlength, andExpr]
    exact hnegation.last hstands (by rwa [hbash]) (result && ·)
      fun value token => andExpr host fuel (result && value) token
  | .and negation rest =>
    have hprint : (Conjunction.and negation rest).print.length =
        negation.print.length + 1 + rest.print.length := by
      simp [Conjunction.print]
      omega
    obtain ⟨front, word, hsplit, hlength⟩ := split_last (print_ne_nil negation)
    have hfirst : 0 < negation.print.length := List.length_pos_iff.mpr (print_ne_nil negation)
    have hrest : 0 < rest.print.length := List.length_pos_iff.mpr rest.print_ne_nil
    have hstands : p.words.drop p.pos = front ++ word :: text "-a" :: (rest.print ++ after) := by
      rw [h.stands, Conjunction.print, hsplit]
      simp
    have hfront : Lexed p (negation.print ++ text "-a" :: (rest.print ++ after)) token := by
      have hsame : (Conjunction.and negation rest).print ++ after =
          negation.print ++ text "-a" :: (rest.print ++ after) := by simp [Conjunction.print]
      rwa [hsame] at h
    have hnegation := negation_print bash negation hplain.1 fuel (by omega)
      (text "-a" :: (rest.print ++ after)) (by rw [Closed, lexed_and]; rfl) p hbash token hfront
    rw [← hlength] at hnegation
    have hagain := hnegation.again hstands (by rw [lexed_and]) (result && ·)
      (fun value following => result && value && following)
      (fun value token => andExpr host fuel (result && value) token)
      (rest.value host bash) (rest.print.length - 1)
      (fun value q token hq hlexed => conjunction_print bash rest hplain.2 fuel (by omega) after
        hafter hand (result && value) q (hq.trans hbash) token hlexed)
    have hvalue : ((Conjunction.and negation rest).value host bash).map (result && ·) =
        (negation.value host bash).bind fun value =>
          (rest.value host bash).map fun following => result && value && following := by
      rw [Conjunction.value]
      cases negation.value host bash with
      | error word => rfl
      | ok value =>
        cases rest.value host bash with
        | error word => rfl
        | ok following => simp [Except.bind, Except.map, Bool.and_assoc]
    have hcount : (Conjunction.and negation rest).print.length - 1 =
        front.length + 2 + (rest.print.length - 1) := by omega
    rw [hvalue, hcount, andExpr]
    exact hagain

theorem disjunction_print (bash : Bool) (expression : Disjunction)
    (hplain : expression.Plain bash) (fuel : ℕ)
    (hfuel : 4 * expression.print.length ≤ fuel) (after : List Bytes)
    (hafter : Closed bash after) (hand : (lexed bash after).1 ≠ .and)
    (hor : (lexed bash after).1 ≠ .or) (result : Bool)
    (p : TestParser) (hbash : p.bash = bash) (token : Token)
    (h : Lexed p (expression.print ++ after) token) :
    Answers (orExpr host fuel result token) p ((expression.value host bash).map (result || ·))
      (expression.print.length - 1) := by
  have hpos : 0 < expression.print.length := List.length_pos_iff.mpr expression.print_ne_nil
  obtain ⟨fuel, rfl⟩ : ∃ n, fuel = n + 1 := ⟨fuel - 1, by omega⟩
  match expression with
  | .last conjunction =>
    have hprint : (Disjunction.last conjunction).print = conjunction.print := rfl
    obtain ⟨front, word, hsplit, hlength⟩ := split_last conjunction.print_ne_nil
    have hconjunction := conjunction_print bash conjunction hplain fuel
      (by rw [hprint] at hfuel; omega) after hafter hand true p hbash token h
    rw [← hlength, map_true_and] at hconjunction
    have hstands : p.words.drop p.pos = front ++ word :: after := by
      rw [h.stands, hprint, hsplit, List.append_assoc, List.singleton_append]
    rw [hprint, ← hlength, orExpr]
    exact hconjunction.last hstands (by rwa [hbash]) (result || ·)
      fun value token => orExpr host fuel (result || value) token
  | .or conjunction rest =>
    have hprint : (Disjunction.or conjunction rest).print.length =
        conjunction.print.length + 1 + rest.print.length := by
      simp [Disjunction.print]
      omega
    obtain ⟨front, word, hsplit, hlength⟩ := split_last conjunction.print_ne_nil
    have hfirst : 0 < conjunction.print.length := List.length_pos_iff.mpr conjunction.print_ne_nil
    have hrest : 0 < rest.print.length := List.length_pos_iff.mpr rest.print_ne_nil
    have hstands : p.words.drop p.pos = front ++ word :: text "-o" :: (rest.print ++ after) := by
      rw [h.stands, Disjunction.print, hsplit]
      simp
    have hfront : Lexed p (conjunction.print ++ text "-o" :: (rest.print ++ after)) token := by
      have hsame : (Disjunction.or conjunction rest).print ++ after =
          conjunction.print ++ text "-o" :: (rest.print ++ after) := by simp [Disjunction.print]
      rwa [hsame] at h
    have hconjunction := conjunction_print bash conjunction hplain.1 fuel (by omega)
      (text "-o" :: (rest.print ++ after)) (by rw [Closed, lexed_or]; rfl)
      (by rw [lexed_or]; decide) true p hbash token hfront
    rw [← hlength, map_true_and] at hconjunction
    have hagain := hconjunction.again hstands (by rw [lexed_or]) (result || ·)
      (fun value following => result || value || following)
      (fun value token => orExpr host fuel (result || value) token)
      (rest.value host bash) (rest.print.length - 1)
      (fun value q token hq hlexed => (disjunction_print bash rest hplain.2 fuel (by omega) after
        hafter hand hor (result || value) q (hq.trans hbash) token hlexed))
    have hvalue : ((Disjunction.or conjunction rest).value host bash).map (result || ·) =
        (conjunction.value host bash).bind fun value =>
          (rest.value host bash).map fun following => result || value || following := by
      rw [Disjunction.value]
      cases conjunction.value host bash with
      | error word => rfl
      | ok value =>
        cases rest.value host bash with
        | error word => rfl
        | ok following => simp [Except.bind, Except.map, Bool.or_assoc]
    have hcount : (Disjunction.or conjunction rest).print.length - 1 =
        front.length + 2 + (rest.print.length - 1) := by omega
    rw [hvalue, hcount, orExpr]
    exact hagain

end

/-! ### One word, and what a count makes of more -/

/-- A word that nothing stands behind is tested for being empty, whatever it spells. -/
theorem notExpr_alone (fuel : ℕ) {p : TestParser} {word : Bytes} {token : Token}
    (h : Lexed p [word] token) :
    Answers (notExpr host (fuel + 3) token) p (.ok !word.isEmpty) 0 := by
  have hdrop : p.words.drop (p.pos + 1) = [] := by
    rw [← List.drop_drop, h.stands]
    rfl
  -- Only a boolean or binary operator, a `!` and a `)` are not taken for operands here.
  have hlexed : (lexed p.bash [word] = (.operand, none)) ∨ ∃ op, operator p.bash word = some op ∧
      op.kind ≠ .unary ∧ op.token ≠ .leftParen ∧ lexed p.bash [word] = (op.token, some op) := by
    rw [lexed]
    cases hop : operator p.bash word with
    | none => exact Or.inl rfl
    | some op =>
      simp only [operandBefore, Bool.and_true, List.isEmpty_nil]
      split
      · exact Or.inl rfl
      · next hother =>
        simp only [Bool.or_eq_true, beq_iff_eq, not_or] at hother
        exact Or.inr ⟨op, rfl, hother.1, hother.2, rfl⟩
  have hplain : token ≠ .not → token ≠ .endOfWords → token ≠ .leftParen →
      p.lastOperator.filter (fun op => op.kind == .unary) = none →
      Answers (notExpr host (fuel + 3) token) p (.ok !word.isEmpty) 0 := by
    intro hnot hend hopen hlast
    rw [notExpr_primary hnot, primary_plain hend hopen]
    exact plainPrimary_word h.stands hlast rfl
  rcases hlexed with hlexed | ⟨op, hop, hkind, hopen, hlexed⟩
  · have htoken : token = .operand := by rw [h.token_eq, hlexed]
    have hlast : p.lastOperator = none := by rw [h.last_eq, hlexed]
    subst htoken
    exact hplain (by decide) (by decide) (by decide) (by rw [hlast]; rfl)
  · have htoken : token = op.token := by rw [h.token_eq, hlexed]
    have hlast : p.lastOperator = some op := by rw [h.last_eq, hlexed]
    by_cases hnot : op.token = .not
    · have hempty : word.isEmpty = false := by
        rw [← operator_text hop]
        exact text_ne_nil op (operator_mem hop)
      rw [htoken, hnot, hempty]
      refine @Answers.done _ _ _ _ none ?_
      rw [notExpr, if_neg (not_not.mpr rfl), Run.bind_done (Run.get_apply p),
        Run.bind_done (lex_eq hdrop)]
      rfl
    · subst htoken
      exact hplain hnot (endOfWords_no_operator op (operator_mem hop)) hopen
        (by rw [hlast, Option.filter_some, if_neg (by simpa using hkind)])

/-- A negation that takes all the words is the whole expression. -/
theorem orExpr_of_notExpr (fuel : ℕ) {p : TestParser} (front : List Bytes) {word : Bytes}
    {token : Token} {value : Except Bytes Bool} (hstands : p.words.drop p.pos = front ++ [word])
    (h : Answers (notExpr host fuel token) p value front.length) :
    Answers (orExpr host (fuel + 2) false token) p value front.length := by
  have hand : Answers (andExpr host (fuel + 1) true token) p value front.length := by
    rw [andExpr, ← map_true_and value]
    exact h.last hstands (by rw [lexed_nil]; decide) (true && ·)
      fun value token => andExpr host fuel (true && value) token
  rw [orExpr, ← map_false_or value]
  exact hand.last hstands (by rw [lexed_nil]; decide) (false || ·)
    fun value token => orExpr host (fuel + 1) (false || value) token

/-- What `run` ends with, for the result it started from. -/
def showsFrom (result : ℕ) : Except Bytes Bool → Outcome Unit Failure ℕ
  | .ok value => .done (result ^^^ (if value then 1 else 0)) ()
  | .error word => .failed (.illegalNumber word) ()

theorem showsFrom_one (value : Except Bytes Bool) : showsFrom 1 value = shows value := by
  rcases value with word | _ | _
  · rfl
  · rfl
  · rfl

theorem showsFrom_zero (value : Except Bytes Bool) :
    showsFrom 0 value = shows (value.map (!·)) := by
  rcases value with word | _ | _
  · rfl
  · rfl
  · rfl

/-- Where `parse` starts. -/
def start (bash : Bool) (expression : List Bytes) : TestParser := ⟨expression, 0, none, bash⟩

theorem parse_forced {bash : Bool} {result : ℕ} {expression : List Bytes}
    {value : Except Bytes Bool} (hne : expression ≠ [])
    (h : Answers (orExpr host (parserFuel expression) false .operand) (start bash expression) value
      (expression.length - 1)) :
    parse host bash true result expression = showsFrom result value := by
  have hend : (expression.length - 1) + 1 = expression.length :=
    Nat.sub_add_cancel (List.length_pos_iff.mpr hne)
  rw [parse]
  simp only [if_true]
  cases value with
  | error word =>
    obtain ⟨q, hq⟩ := h
    rw [start] at hq
    rw [hq]
    rfl
  | ok b =>
    obtain ⟨last, hlast⟩ := h
    rw [start] at hlast
    rw [hlast]
    simp [TestParser.word, hend, showsFrom]

theorem parse_lexed {bash : Bool} {result : ℕ} {expression : List Bytes}
    {value : Except Bytes Bool} (hne : expression ≠ [])
    (h : ∀ (p : TestParser) (token : Token), p.bash = bash → p.pos = 0 → Lexed p expression token →
      Answers (orExpr host (parserFuel expression) false token) p value (expression.length - 1)) :
    parse host bash false result expression = showsFrom result value := by
  have hend : (expression.length - 1) + 1 = expression.length :=
    Nat.sub_add_cancel (List.length_pos_iff.mpr hne)
  have hlex := @TestParser.lex_eq (start bash expression) 0 expression rfl
  have hanswers := h { start bash expression with lastOperator := (lexed bash expression).2 }
    (lexed bash expression).1 rfl rfl ⟨rfl, rfl, rfl⟩
  rw [parse]
  simp only [Bool.false_eq_true, if_false]
  rw [start] at hlex
  rw [hlex]
  simp only
  cases value with
  | error word =>
    obtain ⟨q, hq⟩ := hanswers
    rw [start] at hq
    rw [hq]
    rfl
  | ok b =>
    obtain ⟨last, hlast⟩ := hanswers
    rw [start] at hlast
    rw [hlast]
    simp [TestParser.word, hend, showsFrom]

theorem forcedOperand_eq (bash : Bool) (left middle right : Bytes) :
    forcedOperand bash [left, middle, right] = (operatorOf bash .binary middle).isSome := by
  rw [forcedOperand, operatorOf]
  cases operator bash middle with
  | none => rfl
  | some op =>
    rw [Option.any_some, Option.filter_some]
    cases op.kind == .binary with
    | false => rfl
    | true => rfl

/-- Words that are neither three nor four go to the parser as they are. -/
theorem answerWords_parse {bash : Bool} {result : ℕ} {words : List Bytes} (hne : words ≠ [])
    (h : words.length ≠ 3 ∧ words.length ≠ 4) :
    answerWords host bash result words = parse host bash false result words := by
  cases words with
  | nil => exact absurd rfl hne
  | cons first rest =>
    have hforced : forcedOperand bash (first :: rest) = false := by
      match rest, h with
      | [], _ => rfl
      | [second], _ => rfl
      | [second, third], h => exact absurd rfl h.1
      | second :: third :: fourth :: rest, _ => rfl
    rw [answerWords]
    simp only [hforced, Bool.false_eq_true, if_false]
    rw [if_neg (not_or.mpr h)]

/-- One word, and two that a rule is about. -/
theorem answerWords_few {bash : Bool} {result : ℕ} {words : List Bytes}
    {value : Except Bytes Bool} (h : Counted host bash words value) (hfew : words.length ≤ 2) :
    answerWords host bash result words = showsFrom result value := by
  cases h with
  | one word =>
    rw [answerWords_parse (by simp) (by simp)]
    refine parse_lexed (by simp) fun p token _ _ hlexed => ?_
    exact orExpr_of_notExpr (3 + 3) [] hlexed.stands (notExpr_alone 3 hlexed)
  | notOne word =>
    rw [answerWords_parse (by simp) (by simp)]
    refine parse_lexed (by simp) fun p token _ _ hlexed => ?_
    have hbang := notExpr_bang (List.cons_ne_nil word []) hlexed
      (fun q token _ _ hq => @notExpr_alone host 6 q word token hq)
    have hvalue : (Except.ok (!word.isEmpty) : Except Bytes Bool).map (!·) = .ok word.isEmpty := by
      simp [Except.map]
    rw [hvalue] at hbang
    exact orExpr_of_notExpr 10 [text "!"] hlexed.stands hbang
  | @unary op operand hop =>
    obtain ⟨found, hfound⟩ := Option.isSome_iff_exists.mp hop
    obtain ⟨hop, hkind⟩ := operatorOf_eq_some hfound
    have hvalue : unaryValue host bash op operand = Test.unary host found.token operand := by
      rw [unaryValue, hfound]
    rw [answerWords_parse (by simp) (by simp), hvalue]
    refine parse_lexed (by simp) fun p token hbash _ hlexed => ?_
    subst hbash
    have hfirst : lexed p.bash [op, operand] = (found.token, some found) :=
      lexed_unary hop [] (Or.inl rfl)
    have htoken : token = found.token := by rw [hlexed.token_eq, hfirst]
    have hlast : p.lastOperator = some found := by rw [hlexed.last_eq, hfirst]
    obtain ⟨hend, hopen, hnot⟩ := token_of_kind found (operator_mem hop) (Or.inl hkind)
    subst htoken
    refine orExpr_of_notExpr 10 [op] hlexed.stands ?_
    rw [notExpr_primary hnot, primary_plain hend hopen]
    exact plainPrimary_unary hlast hkind (hlexed.word 1)
  | binary => simp at hfew
  | notTwo => simp at hfew
  | notThree => simp at hfew
  | notNotTwo => simp at hfew

/-- A `!` that stands for itself is stripped, and what was stripped before it forgotten. -/
theorem answerWords_bang {bash : Bool} {result : ℕ} {rest : List Bytes}
    (hforced : forcedOperand bash (text "!" :: rest) = false)
    (hlength : rest.length = 2 ∨ rest.length = 3) :
    answerWords host bash result (text "!" :: rest) = answerWords host bash 0 rest := by
  have hcount : (text "!" :: rest).length = 3 ∨ (text "!" :: rest).length = 4 := by
    simpa using hlength
  have hopen : ¬ (text "!" = text "(" ∧ rest.getLast? = some (text ")")) := by
    rintro ⟨h, -⟩
    revert h
    decide
  rw [answerWords]
  simp only [hforced, Bool.false_eq_true, if_false, if_pos hcount, if_neg hopen, if_true]

/-- Three words with a binary operator in the middle are its comparison. -/
theorem answerWords_binary {bash : Bool} {result : ℕ} {left op right : Bytes}
    (h : (operatorOf bash .binary op).isSome) :
    answerWords host bash result [left, op, right] =
      showsFrom result (binaryValue host bash left op right) := by
  obtain ⟨found, hfound⟩ := Option.isSome_iff_exists.mp h
  obtain ⟨hop, hkind⟩ := operatorOf_eq_some hfound
  have hvalue : binaryValue host bash left op right = compare host found.token left right := by
    rw [binaryValue, hfound]
  rw [answerWords, if_pos (by rw [forcedOperand_eq, h]), hvalue]
  refine parse_forced (by simp) ?_
  refine orExpr_of_notExpr 14 [left, op] rfl ?_
  rw [notExpr_primary (by decide), primary_plain (by decide) (by decide)]
  exact plainPrimary_binary [] rfl rfl hop hkind

/-- Three words a rule is about; a `!` among them is the only one that counts. -/
theorem answerWords_three {bash : Bool} {result : ℕ} {first second third : Bytes}
    {value : Except Bytes Bool} (h : Counted host bash [first, second, third] value) :
    answerWords host bash result [first, second, third] =
      if (operatorOf bash .binary second).isSome then showsFrom result value else shows value := by
  cases h with
  | binary h => rw [if_pos h, answerWords_binary h]
  | @notTwo _ _ value hmiddle h =>
    have hforced : forcedOperand bash [text "!", second, third] = false := by
      rw [forcedOperand_eq, hmiddle]
      rfl
    rw [answerWords_bang hforced (Or.inl rfl), answerWords_few h (le_refl _), showsFrom_zero,
      hmiddle, Option.isSome_none, if_neg Bool.false_ne_true]

/-- Every rule by count is what `run` does. -/
theorem answerWords_counted {bash : Bool} {words : List Bytes} {value : Except Bytes Bool}
    (h : Counted host bash words value) :
    answerWords host bash 1 words = shows value := by
  cases h with
  | one word => rw [answerWords_few (.one word) (by simp), showsFrom_one]
  | notOne word => rw [answerWords_few (.notOne word) (by simp), showsFrom_one]
  | unary h => rw [answerWords_few (.unary h) (by simp), showsFrom_one]
  | binary h => rw [answerWords_binary h, showsFrom_one]
  | notTwo hmiddle h => rw [answerWords_three (.notTwo hmiddle h), showsFrom_one, ite_self]
  | @notThree first second third value honce h =>
    have hforced : forcedOperand bash [text "!", first, second, third] = false := rfl
    rw [answerWords_bang hforced (Or.inr rfl), answerWords_three h]
    rcases honce with honce | honce
    · cases h with
      | binary hbinary => rw [if_pos hbinary, showsFrom_zero]
      | notTwo => exact absurd rfl honce
    · rw [if_pos honce, showsFrom_zero]
  | @notNotTwo first second value hmiddle h =>
    have hforced : forcedOperand bash [text "!", text "!", first, second] = false := rfl
    rw [answerWords_bang hforced (Or.inr rfl), answerWords_three (.notTwo hmiddle h), hmiddle,
      Option.isSome_none, if_neg Bool.false_ne_true]

theorem answerWords_print {bash : Bool} {expression : Disjunction}
    (hplain : expression.Plain bash) (h : 5 ≤ expression.print.length) :
    answerWords host bash 1 expression.print = shows (expression.value host bash) := by
  rw [answerWords_parse expression.print_ne_nil (by omega), ← showsFrom_one]
  refine parse_lexed expression.print_ne_nil fun p token hbash _ hlexed => ?_
  have hprint := @disjunction_print host bash expression hplain
    (parserFuel expression.print) (Nat.le_add_right _ 4) [] rfl
    (by rw [lexed_nil]; decide) (by rw [lexed_nil]; decide) false p hbash token
      (by rwa [List.append_nil])
  rwa [map_false_or] at hprint

theorem run_test (bash : Bool) (words : List Bytes) :
    run host bash (text "test" :: words) = answerWords host bash 1 words := by
  rw [run, if_neg (by decide)]

end

/-- **`test` answers by the count of its words, and by the grammar beyond it.**  Up to
    four words follow the rules of `Counted`; five and more, when they are an expression's
    and its operands spell no operator, have its truth value.  In both an operand that is
    no integer is the only error. -/
theorem run_answers (host : Host) (bash : Bool) :
    (∀ words value, Counted host bash words value →
      run host bash (text "test" :: words) = shows value) ∧
    ∀ expression : Disjunction, expression.Plain bash → 5 ≤ expression.print.length →
      run host bash (text "test" :: expression.print) = shows (expression.value host bash) := by
  refine ⟨fun words value h => ?_, fun expression hplain h => ?_⟩
  · rw [run_test, answerWords_counted h]
  · rw [run_test, answerWords_print hplain h]

/-- A host on which there is nothing. -/
def Host.empty : Host :=
  { collate := fun left right => if left < right then .lt else if left = right then .eq else .gt
    isAssigned := fun _ => false
    isReference := fun _ => false
    isTerminal := fun _ => false
    effectiveAccess := fun _ _ => false
    pathMetadata := fun _ _ => none
    pathIsSameFile := fun _ _ => false
    effectiveUid := 0
    effectiveGid := 0 }

/-- `test ! -n x`, and the seven words of `a = b -o -n x`. -/
theorem run_answers_both :
    run Host.empty false [text "test", text "!", text "-n", text "x"] = .done 1 () ∧
      run Host.empty false
        [text "test", text "a", text "=", text "b", text "-o", text "-n", text "x"] =
          .done 0 () := by
  have hunary : (operatorOf false .unary (text "-n")).isSome := by decide
  have hbinary : (operatorOf false .binary (text "=")).isSome := by decide
  constructor
  · exact (run_answers Host.empty false).1 [text "!", text "-n", text "x"] (.ok false)
      (.notTwo (by decide) (.unary hunary))
  · exact (run_answers Host.empty false).2
      (.or (.last (.primary (.binary (text "a") (text "=") (text "b"))))
        (.last (.last (.primary (.unary (text "-n") (text "x"))))))
      ⟨⟨hbinary, by decide, by decide⟩, hunary, by decide⟩ (by decide)

/-- `test ! ! -n x` is not the negation of `test ! -n x`. -/
theorem not_run_negates_three :
    ¬ ∀ (host : Host) (bash : Bool) (first second third : Bytes) (value : Except Bytes Bool),
      Counted host bash [first, second, third] value →
      run host bash (text "test" :: [text "!", first, second, third]) =
        shows (value.map (!·)) := by
  intro h
  have hrule : Counted Host.empty false [text "!", text "-n", text "x"]
      ((unaryValue Host.empty false (text "-n") (text "x")).map (!·)) :=
    .notTwo (by decide) (.unary (by decide))
  have := h Host.empty false (text "!") (text "-n") (text "x") _ hrule
  revert this
  decide

end Nsh.Test
