import Nsh.Lib.Run
import Nsh.Lib.Keeps
import Nsh.Lib.Nested
import Nsh.Lib.Best
import Nsh.Lib.Exact
import Nsh.Lib.Spending
import Nsh.Lib.Stretch
import Nsh.Shell.Bytes
import Nsh.Shell.Locale
import Nsh.Shell.Characters
import Nsh.Shell.Error
import Nsh.Shell.Flow
import Nsh.Shell.Number
import Nsh.Variables.Value
import Nsh.Shell.State
import Nsh.Variables.Table
import Nsh.Variables.Arrays
import Nsh.Variables.References
import Nsh.Variables.Compound
import Nsh.Variables.Scopes
import Nsh.Variables.Declare
import Nsh.Variables.Kept
import Nsh.Arithmetic.Lexer
import Nsh.Arithmetic.Parser
import Nsh.Arithmetic.Evaluate
import Nsh.Variables.Operations
import Nsh.Arithmetic.Simulation
import Nsh.Arithmetic.Kept
import Nsh.Arithmetic.Walk
import Nsh.Arithmetic.Skip
import Nsh.Arithmetic.Termination
import Nsh.Arithmetic.Spelling
import Nsh.Arithmetic.Nesting
import Nsh.Arithmetic.Expression
import Nsh.Arithmetic.Grammar
import Nsh.Arithmetic.Operators
import Nsh.Arithmetic.Settled
import Nsh.Arithmetic.Precedence
import Nsh.Arithmetic.Correctness
import Nsh.Arithmetic.Elements
import Nsh.Patterns.Pattern
import Nsh.Patterns.Matcher
import Nsh.Patterns.Trial
import Nsh.Patterns.Reading
import Nsh.Patterns.Spans
import Nsh.Patterns.Segment
import Nsh.Patterns.Steps
import Nsh.Patterns.Groups
import Nsh.Patterns.Correct
import Nsh.Patterns.Language
import Nsh.Patterns.Questions
import Nsh.Patterns.Matches
import Nsh.Patterns.Shared
import Nsh.Lib.Fields
import Nsh.Lib.UndoLog
import Nsh.Variables.Subscripts
import Nsh.Variables.IfsCached
import Nsh.Variables.IfsSteps
import Nsh.Variables.IfsAssigned
import Nsh.Variables.IfsRuns
import Nsh.Variables.Restored
import Nsh.Expand.Field
import Nsh.Expand.Pieces
import Nsh.Expand.Split
import Nsh.Expand.Anchors
import Nsh.Expand.ReadSplit
import Nsh.Expand.TwoSplitters
import Nsh.Input.Frame
import Nsh.Input.Preserving
import Nsh.Input.Unread
import Nsh.Aliases.Table
import Nsh.Aliases.Overlays
import Nsh.Aliases.Suspended
import Nsh.Lib.Lines
import Nsh.Parser.Words
import Nsh.Parser.HereDocument
import Nsh.Parser.Tokens
import Nsh.Parser.TokenReads
import Nsh.Parser.Case
import Nsh.Parser.CaseReads
import Nsh.Expand.BraceSequence
import Nsh.Expand.Braces
import Nsh.Expand.LimitedSplit
import Nsh.Expand.Slices
import Nsh.Signals.Traps
import Nsh.Lib.MarkedFirst
import Nsh.Jobs.Model
import Nsh.Jobs.Wait
import Nsh.Jobs.Current
import Nsh.Jobs.Reaping
import Nsh.Lib.Depth
import Nsh.Nodes.Tree
import Nsh.Nodes.Walks
import Nsh.Nodes.Nesting
import Nsh.Nodes.Descent
import Nsh.Nodes.ListStack
import Nsh.Redirection.Model
import Nsh.Redirection.Undone
import Nsh.Lib.FirstAnswer
import Nsh.Lib.Traced
import Nsh.Evaluation.Tree
import Nsh.Evaluation.Meaning
import Nsh.Evaluation.Errexit
import Nsh.Commands.Search
import Nsh.Commands.Pinned
import Nsh.Arithmetic.Power
import Nsh.Arithmetic.Radix
import Nsh.Arithmetic.Constants
import Nsh.Patterns.Ordinary
import Nsh.Expand.Pathname
import Nsh.Expand.IgnoredPieces
import Nsh.Expand.PathnameSplit
import Nsh.Expand.PathnameNames
import Nsh.Expand.Trim
import Nsh.Expand.Substitute
import Nsh.Lib.Cells
import Nsh.Parser.TokenLog
import Nsh.Lib.Chain
import Nsh.Lib.Terminated
import Nsh.Variables.Chains
import Nsh.Directories.Model
import Nsh.Directories.Stack
import Nsh.Directories.AllOrNothing
import Nsh.Read.Record
import Nsh.Read.Stream
import Nsh.Read.Mapfile
import Nsh.Shell.Spaces
import Nsh.Getopts.Scan
import Nsh.Getopts.Command
import Nsh.Lib.NearestEven
import Nsh.Printf.Hexadecimal
import Nsh.Printf.Rounding
import Nsh.Printf.Alike
import Nsh.Printf.Literals
import Nsh.Lib.Strides
import Nsh.Shell.CharacterTable
import Nsh.Words.Decoder
import Nsh.Words.Canonical
import Nsh.Test.Parser
import Nsh.Test.Steps
import Nsh.Test.Answers
import Nsh.Umask.Installed
import Nsh.Signals.Inheritance
import Nsh.Umask.Printed
import Nsh.Lib.Times
import Nsh.Regexes.Quoted
import Nsh.Directories.Place
import Nsh.Directories.Located
import Nsh.Lib.Channel
import Nsh.Outputs.Finishes
import Nsh.Quoting.ReadBack
