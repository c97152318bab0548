import Nsh.Parser.TokenReads

/-!
# Case commands

`case word in [(] pattern [| pattern] ) list ;; ... esac`.  The first pattern of a clause is
read where reserved words are recognised, so that `esac` may end the clauses; a second
list, `canBeCasePattern`, says which of the reserved words are patterns after all.
-/

namespace Nsh.Parser

open Nsh.Input

variable {σ Node : Type}

structure CaseClause (Node : Type) where
  patterns : List ParsedWord
  body : Option Node
  fallthrough : Bool
deriving DecidableEq, Repr

structure CaseCommand (Node : Type) where
  word : ParsedWord
  clauses : List (CaseClause Node)
deriving DecidableEq, Repr

section

variable (s : Surroundings σ Node)

def expectedTokenError {α : Type} (kind : Option TokenKind) : Parse σ α := fun st =>
  .error (.expected kind st.lastToken)

def lastToken : Parse σ TokenKind := fun st => .ok (st.lastToken, st)

/-- `mem::take` of the word that was read last. -/
def takeWord : Parse σ ParsedWord := fun st => .ok (st.word, { st with word := ⟨[], []⟩ })

def pushBack : Parse σ Unit := modify fun st => { st with tokenPushedBack := true }

/-- `list`, in the mode that stops at a terminator. -/
def list (fuel : Nat) : Parse σ (Option Node) := do
  let token ← readToken s .commandStartAfterNewlines fuel
  match token.kind with
  | .newline => do
    parseHereDocuments s
    pure none
  | .eof => do
    parseHereDocuments s
    modify fun st => { st with tokenPushedBack := true, lastToken := .eof }
    pure none
  | kind => do
    pushBack
    if kind.endsList then pure none else s.commands

/-- The patterns of a clause, the first of which has been read. -/
def casePatterns : Nat → List ParsedWord → Parse σ (List ParsedWord)
  | 0, _ => throw .stalled
  | fuel + 1, patterns => do
    let last ← lastToken
    if !last.canBeCasePattern then expectedTokenError (some .word)
    else
      let pattern ← takeWord
      let token ← readToken s .plain (fuel + 1)
      if token.kind ≠ .pipe then pure (patterns ++ [pattern])
      else do
        let _ ← readToken s .plain (fuel + 1)
        casePatterns fuel (patterns ++ [pattern])

/-- The first pattern behind a `(`. -/
def skipParenthesis (fuel : Nat) : Parse σ Unit := do
  let last ← lastToken
  if last = .leftParen then do
    let _ ← readToken s .plain fuel
    pure ()
  else pure ()

/-- One clause, of which the first token has been read, and the token behind it. -/
def caseClause (fuel : Nat) : Parse σ (CaseClause Node × TokenKind) := do
  skipParenthesis s fuel
  let patterns ← casePatterns s fuel []
  let last ← lastToken
  if last ≠ .rightParen then expectedTokenError (some .rightParen)
  else
    let body ← list s fuel
    let token ← readToken s .reservedWordsAfterNewlines fuel
    pure (⟨patterns, body, token.kind = .fallThrough⟩, token.kind)

/-- The loop over the clauses. -/
def caseClauses : Nat → List (CaseClause Node) → Parse σ (List (CaseClause Node))
  | 0, _ => throw .stalled
  | fuel + 1, cases => do
    let token ← readToken s .reservedWordsAfterNewlines (fuel + 1)
    if token.kind = .esacWord then pure cases
    else
      let (clause, kind) ← caseClause s (fuel + 1)
      if kind = .esacWord then pure (cases ++ [clause])
      else if kind ≠ .endCase ∧ kind ≠ .fallThrough then expectedTokenError (some .endCase)
      else caseClauses fuel (cases ++ [clause])

def caseCommand (fuel : Nat) : Parse σ (CaseCommand Node) := do
  let token ← readToken s .plain fuel
  if token.kind ≠ .word then expectedTokenError (some .word)
  else
    let word ← takeWord
    let token ← readToken s .commandStartAfterNewlines fuel
    if token.kind ≠ .inWord then expectedTokenError (some .inWord)
    else
      let clauses ← caseClauses s fuel []
      pure ⟨word, clauses⟩

end

/-! ### The text of the clauses -/

/-- A pattern and the blanks around it. -/
structure PatternText where
  before : Bytes
  word : Bytes
  behind : Bytes
  before_blank : Leads .plain before
  plain : PlainWord word
  behind_blank : Leads .plain behind

def PatternText.text (pattern : PatternText) : Bytes :=
  pattern.before ++ (pattern.word ++ pattern.behind)

def othersText (others : List PatternText) : Bytes :=
  others.flatMap fun pattern => chr '|' :: pattern.text

/-- A clause, written with or without the parenthesis, and the tree of its body. -/
structure ClauseText (Node : Type) where
  lead : Bytes
  parenthesis : Bool
  first : PatternText
  others : List PatternText
  body : Bytes
  tree : Option Node
  lead_leads : Leads .reservedWordsAfterNewlines lead
  not_esac : parenthesis = false → first.word ≠ text "esac"

/-- How a clause ends. -/
inductive Ending where
  | endCase
  | fallThrough
  | esac
deriving DecidableEq, Repr

def Ending.text : Ending → Bytes
  | .endCase => Nsh.text ";;"
  | .fallThrough => Nsh.text ";&"
  | .esac => Nsh.text "esac"

def Ending.kind : Ending → TokenKind
  | .endCase => .endCase
  | .fallThrough => .fallThrough
  | .esac => .esacWord

/-- What may stand behind the end of a clause. -/
def Ending.Admits : Ending → Bytes → Prop
  | .esac, rest => Delimited rest
  | _, _ => True

/-- A list of clauses: `esac`, a last clause without a terminator, or a clause and the
    clauses behind its terminator. -/
inductive Clauses (Node : Type) where
  | esac (lead : Bytes) (leads : Leads .reservedWordsAfterNewlines lead)
  | last (clause : ClauseText Node)
  | cons (clause : ClauseText Node) (fallthrough : Bool) (rest : Clauses Node)

def terminator (fallthrough : Bool) : Ending := if fallthrough then .fallThrough else .endCase

namespace ClauseText

variable (clause : ClauseText Node)

/-- What stands behind the first pattern, up to the body. -/
def alternatives (rest : Bytes) : Bytes :=
  clause.first.behind ++ (othersText clause.others ++ (chr ')' :: rest))

def text (ending : Ending) (rest : Bytes) : Bytes :=
  clause.lead ++ ((if clause.parenthesis then [chr '('] else []) ++
    (clause.first.before ++ (clause.first.word ++
      clause.alternatives (clause.body ++ (ending.text ++ rest)))))

def patterns : List ParsedWord :=
  (clause.first :: clause.others).map fun pattern => .plain pattern.word

def caseClause (ending : Ending) : CaseClause Node :=
  ⟨clause.patterns, clause.tree, ending = .fallThrough⟩

/-- The first pattern stands without a parenthesis and is one of the two reserved words
    that `canBeCasePattern` leaves out. -/
def Refused (dialect : Dialect) : Prop :=
  clause.parenthesis = false ∧
    (clause.first.word = Nsh.text "time" ∨
      (dialect = .bash ∧ clause.first.word = Nsh.text "select"))

instance (dialect : Dialect) : Decidable (clause.Refused dialect) :=
  inferInstanceAs (Decidable (_ ∧ (_ ∨ (_ ∧ _))))

end ClauseText

namespace Clauses

def text : Clauses Node → Bytes → Bytes
  | .esac lead _, rest => lead ++ (Nsh.text "esac" ++ rest)
  | .last clause, rest => clause.text .esac rest
  | .cons clause fallthrough clauses, rest =>
    clause.text (terminator fallthrough) (clauses.text rest)

def trees : Clauses Node → List (CaseClause Node)
  | .esac _ _ => []
  | .last clause => [clause.caseClause .esac]
  | .cons clause fallthrough clauses =>
    clause.caseClause (terminator fallthrough) :: clauses.trees

def all : Clauses Node → List (ClauseText Node)
  | .esac _ _ => []
  | .last clause => [clause]
  | .cons clause _ clauses => clause :: clauses.all

end Clauses

section

variable (s : Surroundings σ Node)

/-- `list` reads this text as this tree, and the end of the clause is the next token. -/
def IsBody (body : Bytes) (ending : Ending) (tree : Option Node) : Prop :=
  ∀ (st : ParserState σ) (rest : Bytes) (fuel : Nat), ending.Admits rest →
    Awaits st (body ++ (ending.text ++ rest)) →
    (body ++ (ending.text ++ rest)).length < fuel →
    ∃ st₁ st₂, list s fuel st = .ok (tree, st₁) ∧
      readToken s .reservedWordsAfterNewlines fuel st₁ = .ok (⟨ending.kind, false⟩, st₂) ∧
      Awaits st₂ rest

/-- The body of every clause is one that `list` reads. -/
def Clauses.Bodies : Clauses Node → Prop
  | .esac _ _ => True
  | .last clause => IsBody s clause.body .esac clause.tree
  | .cons clause fallthrough clauses =>
    IsBody s clause.body (terminator fallthrough) clause.tree ∧ clauses.Bodies

/-- This text is read as a word, and this is the word. -/
def IsSubject (subject : Bytes) (word : ParsedWord) : Prop :=
  ∀ (st : ParserState σ) (rest : Bytes) (fuel : Nat), Delimited rest →
    Awaits st (subject ++ rest) → (subject ++ rest).length < fuel →
    ∃ quoted st', readToken s .plain fuel st = .ok (⟨.word, quoted⟩, st') ∧
      Awaits st' rest ∧ st'.word = word

end

/-- A case command: its word, blanks and newlines, `in` and the clauses. -/
structure CaseText (Node : Type) where
  subject : Bytes
  between : Bytes
  clauses : Clauses Node
  between_leads : Leads .commandStartAfterNewlines between
  between_nonempty : between ≠ []
  delimited : ∀ rest, Delimited (clauses.text rest)

def CaseText.text (c : CaseText Node) (rest : Bytes) : Bytes :=
  c.subject ++ (c.between ++ (Nsh.text "in" ++ c.clauses.text rest))

end Nsh.Parser
