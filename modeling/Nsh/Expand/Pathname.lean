import Nsh.Expand.Field
import Nsh.Patterns.Ordinary
import Nsh.Shell.State
import Mathlib.Data.List.Basic

/-!
# Pathname expansion

A field whose pattern holds an operator is replaced by the names that exist and
that it matches.  The pattern is cut at its slashes; the walk keeps, for every
directory reached, the path it opens and the text it will show, which differ
where the pattern is relative.  The `**` of `globstar`, which only the Bash
dialect has, is not modelled.
-/

namespace Nsh.Expand

open Patterns

variable {Node W : Type}

/-! ### The pattern of a field -/

/-- The loop of `Field::pattern` over the bytes from `offset` on: a backslash that
    is not quoted protects the byte behind it. -/
def Field.marksFrom (f : Field) : Nat → Bytes → List Mark
  | _, [] => []
  | offset, [byte] => [⟨byte, f.quotedAt offset⟩]
  | offset, byte :: next :: rest =>
    if byte = chr '\\' ∧ f.quotedAt offset = false then
      ⟨next, true⟩ :: f.marksFrom (offset + 2) rest
    else ⟨byte, f.quotedAt offset⟩ :: f.marksFrom (offset + 1) (next :: rest)

def Field.pattern (f : Field) (options : PatternOptions) : Pattern where
  marks := f.marksFrom 0 f.bytes
  options := options

namespace Pathname

def startsWithLiteralDot (p : Pattern) : Bool := p.bytes.head? == some (chr '.')

/-! ### Directories -/

/-- A directory tree, seen from its current directory.  `lookup` follows links;
    `entry` does not, so it also finds one that leads nowhere. -/
structure Tree (Node : Type) where
  root : Node
  current : Node
  lookup : Node → Bytes → Option Node
  entry : Node → Bytes → Bool
  isDirectory : Node → Bool
  /-- The names in a directory that can be read, without `.` and `..`. -/
  list : Node → Option (List Bytes)
  lookup_current : lookup current (text ".") = some current
  entry_lookup : ∀ node name, (lookup node name).isSome = true → entry node name = true
  /-- No file has a name with a null byte. -/
  entry_visible : ∀ node name, entry node name = true → (0 : UInt8) ∉ name
  list_names : ∀ node names, list node = some names →
    ∀ name ∈ names, name ≠ [] ∧ chr '/' ∉ name

/-- The names along a path, runs of slashes counting for one. -/
def pathNames (path : Bytes) : List Bytes :=
  (path.splitOnP (· == chr '/')).filter fun name => !name.isEmpty

namespace Tree

variable (t : Tree Node)

def start (path : Bytes) : Node := if path.head? = some (chr '/') then t.root else t.current

def walk (node : Node) (names : List Bytes) : Option Node := names.foldlM t.lookup node

/-- Where a path leads. -/
def resolve (path : Bytes) : Option Node := t.walk (t.start path) (pathNames path)

/-- `path_metadata(path, false)` answers. -/
def existsAt (path : Bytes) : Bool :=
  match (pathNames path).getLast? with
  | none => true
  | some last =>
    (t.walk (t.start path) (pathNames path).dropLast).any fun node => t.entry node last

/-- `path_metadata(path, true)` answers with a directory. -/
def directoryAt (path : Bytes) : Bool := (t.resolve path).any t.isDirectory

def readDirectory (path : Bytes) : Option (List Bytes) := (t.resolve path).bind t.list

end Tree

/-- `PathBuf::join` with a name that has no slash. -/
def join (path name : Bytes) : Bytes :=
  if path.getLast? = some (chr '/') then path ++ name else path ++ chr '/' :: name

/-! ### Settings -/

/-- The `shopt` names that decide about pathname expansion. -/
structure GlobShopts where
  extGlob : Bool := false
  noCaseGlob : Bool := false
  dotGlob : Bool := false
  globSkipDots : Bool := true
  nullGlob : Bool := false
  failGlob : Bool := false
deriving DecidableEq, Repr

structure GlobSettings where
  options : PatternOptions
  dotNames : Bool
  skipDots : Bool
  nullglob : Bool
  failglob : Bool
  collapseAfterMatch : Bool
  ignored : List Pattern

namespace GlobSettings

def skipsDotEntries (settings : GlobSettings) : Bool :=
  settings.skipDots || !settings.ignored.isEmpty

/-- The slashes to write in front of one component. -/
def separator (settings : GlobSettings) (sawMeta : Bool) (slashes : Nat) : Nat :=
  if settings.collapseAfterMatch && sawMeta then 1 else slashes

end GlobSettings

/-- `ignored` are the patterns of `GLOBIGNORE`. -/
def settings (dialect : Dialect) (shopts : GlobShopts) (ignored : List Pattern) : GlobSettings :=
  if dialect ≠ .bash then
    { options := ⟨false, false⟩
      dotNames := false
      skipDots := false
      nullglob := false
      failglob := false
      collapseAfterMatch := false
      ignored := [] }
  else
    { options := ⟨shopts.extGlob, shopts.noCaseGlob⟩
      dotNames := !ignored.isEmpty || shopts.dotGlob
      skipDots := shopts.globSkipDots
      nullglob := shopts.nullGlob
      failglob := shopts.failGlob
      collapseAfterMatch := true
      ignored := ignored }

/-! ### The components of a pattern -/

/-- One component and the number of slashes in front of it; none for the first. -/
structure Step where
  slashes : Nat
  component : Pattern
deriving DecidableEq

/-- A pattern cut into components, with the slashes it opens and ends with. -/
structure Split where
  leading : Nat
  steps : List Step
  trailing : Nat
deriving DecidableEq

def isSlash (mark : Mark) : Bool := mark.byte == chr '/'

/-- The loop of `split`, `run` being the slashes read since the last component. -/
def splitFrom (options : PatternOptions) : Nat → List Mark → Nat → Split → Split
  | 0, _, run, s => { s with trailing := run }
  | _ + 1, [], run, s => { s with trailing := run }
  | fuel + 1, mark :: rest, run, s =>
    if isSlash mark then splitFrom options fuel rest (run + 1) s
    else
      let component := (mark :: rest).takeWhile fun mark => !isSlash mark
      splitFrom options fuel ((mark :: rest).dropWhile fun mark => !isSlash mark) 0
        { leading := if s.steps.isEmpty then run else s.leading
          steps := s.steps ++ [⟨if s.steps.isEmpty then 0 else run, ⟨component, options⟩⟩]
          trailing := s.trailing }

def split (p : Pattern) : Split := splitFrom p.options (p.marks.length + 1) p.marks 0 ⟨0, [], 0⟩

def slashes (count : Nat) : Bytes := List.replicate count (chr '/')

def appendComponent (front : Bytes) (separator : Nat) (component : Bytes) : Bytes :=
  if front ≠ [] ∧ front.getLast? ≠ some (chr '/') then
    front ++ slashes (max separator 1) ++ component
  else front ++ component

/-! ### The walk -/

/-- A directory reached so far: the path to it, and the text that will be shown. -/
structure Candidate where
  path : Bytes
  display : Bytes
deriving DecidableEq, Repr

def Candidate.extend (candidate : Candidate) (separator : Nat) (name : Bytes) : Candidate where
  path := join candidate.path name
  display := appendComponent candidate.display separator name

section Walk

variable (t : Tree Node) (locale : Locale)

/-- The names of one directory that a component may match. -/
def entryNames (component : Pattern) (settings : GlobSettings) (names : List Bytes) : List Bytes :=
  if startsWithLiteralDot component && !settings.skipsDotEntries then
    names ++ [text ".", text ".."]
  else names

/-- Whether a component takes a name. -/
def takes (component : Pattern) (settings : GlobSettings) (name : Bytes) : Bool :=
  !(name.head? == some (chr '.') && !startsWithLiteralDot component && !settings.dotNames) &&
    component.matches locale name

/-- The entries of each candidate directory that one component matches. -/
def children (candidates : List Candidate) (separator : Nat) (component : Pattern)
    (settings : GlobSettings) : List Candidate :=
  candidates.flatMap fun candidate =>
    match t.readDirectory candidate.path with
    | none => []
    | some names =>
      ((entryNames component settings names).filter (takes locale component settings)).map
        fun name => candidate.extend separator name

/-- The loop of `matches` over the components. -/
def matchesFrom (settings : GlobSettings) : Bool → List Candidate → List Step →
    Bool × List Candidate
  | sawMeta, candidates, [] => (sawMeta, candidates)
  | sawMeta, candidates, step :: steps =>
    let separator := settings.separator sawMeta step.slashes
    if step.component.hasMeta then
      matchesFrom settings true (children t locale candidates separator step.component settings)
        steps
    else
      matchesFrom settings sawMeta
        (candidates.map fun candidate => candidate.extend separator step.component.bytes) steps

/-- The parts of a `GLOBIGNORE` pattern, cut at every slash. -/
def components (p : Pattern) : List Pattern :=
  (p.marks.splitOnP isSlash).map fun marks => ⟨marks, p.options⟩

def matchesByComponent (ignored : Pattern) (display : Bytes) : Bool :=
  let parts := components ignored
  let names := display.splitOnP (· == chr '/')
  parts.length == names.length && (parts.zip names).all fun pair => pair.1.matches locale pair.2

/-- Whether `GLOBIGNORE` hides a generated pathname. -/
def isIgnored (display : Bytes) (settings : GlobSettings) : Bool :=
  if settings.ignored.isEmpty then false
  else
    let last := ((display.splitOnP (· == chr '/')).getLast?).getD []
    last == text "." || last == text ".." ||
      settings.ignored.any fun ignored => matchesByComponent locale ignored display

/-- What the walk answers for one candidate it ended at. -/
def shown (trailing separator : Nat) (settings : GlobSettings) (candidate : Candidate) :
    Option Bytes :=
  let found :=
    if trailing > 0 then t.directoryAt candidate.path else t.existsAt candidate.path
  let display :=
    if trailing > 0 ∧ candidate.display.getLast? ≠ some (chr '/') then
      candidate.display ++ slashes separator
    else candidate.display
  if found && !isIgnored locale display settings then some display else none

/-- The names that exist and match, in the order they are met. -/
def matchesOf (p : Pattern) (settings : GlobSettings) : List Bytes :=
  let s := split p
  let (sawMeta, candidates) := matchesFrom t locale settings false
    [⟨if s.leading > 0 then text "/" else text ".", slashes s.leading⟩] s.steps
  if sawMeta then
    candidates.filterMap
      (shown t locale s.trailing (settings.separator sawMeta s.trailing) settings)
  else []

end Walk

/-! ### Fields -/

/-- The bytes a C string shows. -/
def visible (bytes : Bytes) : Bytes := bytes.takeWhile (· != 0)

/-- `Locale::collate`, over the platform's `strcoll`. -/
def collate (strcoll : Bytes → Bytes → Ordering) (left right : Bytes) : Ordering :=
  strcoll (visible left) (visible right)

/-- `Vec::dedup`: of equal neighbours, keep one. -/
def dedup : List Bytes → List Bytes
  | [] => []
  | [name] => [name]
  | name :: next :: names =>
    if name = next then dedup (next :: names) else name :: dedup (next :: names)

def noMatchError (shell : Shell W) (p : Pattern) : Error :=
  Nsh.dialectError shell.options.dialect shell.diagnosticLine (text "no match: " ++ p.bytes)

section Fields

variable (t : Tree Node) (strcoll : Bytes → Bytes → Ordering) (shell : Shell W)
  (settings : GlobSettings)

/-- What one field is replaced by. -/
def expandField (field : Field) : Except Error (List Field) :=
  let p := field.pattern settings.options
  if p.hasMeta then
    let names := dedup ((matchesOf t shell.locale p settings).mergeSort fun left right =>
      (collate strcoll left right).isLE)
    if names.isEmpty then
      if settings.failglob then .error (noMatchError shell p)
      else .ok (if settings.nullglob then [] else [field])
    else .ok (names.map fun name => Field.fromBytes name false false false)
  else .ok [field]

def expand : List Field → Except Error (List Field)
  | [] => .ok []
  | field :: fields => do
    let expanded ← expandField t strcoll shell settings field
    let rest ← expand fields
    .ok (expanded ++ rest)

end Fields

end Pathname

end Nsh.Expand
