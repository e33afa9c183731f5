import PrologMachine.Arithmetic
import PrologMachine.Body
import PrologMachine.Code.Build
import PrologMachine.Code.Clause
import PrologMachine.Code.Decode
import PrologMachine.Code.Emitter
import PrologMachine.Code.Fragment
import PrologMachine.Code.Instruction
import PrologMachine.Code.Opcode
import PrologMachine.Compiler
import PrologMachine.Console.Command
import PrologMachine.Console.Dialogue
import PrologMachine.Console.Directory
import PrologMachine.Console.Flags
import PrologMachine.Console.Lines
import PrologMachine.Console.TopLevel
import PrologMachine.Constant
import PrologMachine.Error
import PrologMachine.Heap.Basic
import PrologMachine.Heap.Binding
import PrologMachine.Heap.Unify
import PrologMachine.Heap.Writer
import PrologMachine.KnowledgeBase
import PrologMachine.Library
import PrologMachine.Machine.Control
import PrologMachine.Machine.Evaluation
import PrologMachine.Machine.Run
import PrologMachine.Machine.State
import PrologMachine.Machine.Structure
import PrologMachine.Main
import PrologMachine.Native.Basic
import PrologMachine.Native.Catalogue
import PrologMachine.Native.Core
import PrologMachine.Number.Binary
import PrologMachine.Number.Decimal
import PrologMachine.Number.Literal
import PrologMachine.Number.Numeral
import PrologMachine.Operator
import PrologMachine.Proofs.Code.Cells
import PrologMachine.Proofs.Code.Compilation
import PrologMachine.Proofs.Code.Emission
import PrologMachine.Proofs.Code.Linking
import PrologMachine.Proofs.Code.Occurrences
import PrologMachine.Proofs.Code.Paths
import PrologMachine.Proofs.Code.Phase
import PrologMachine.Proofs.Derivation
import PrologMachine.Proofs.Goal.Arithmetic
import PrologMachine.Proofs.Goal.Calling
import PrologMachine.Proofs.Goal.Construction
import PrologMachine.Proofs.Goal.Evaluation
import PrologMachine.Proofs.Goal.Ground
import PrologMachine.Proofs.Head.Answers
import PrologMachine.Proofs.Head.Decoding
import PrologMachine.Proofs.Head.Equations
import PrologMachine.Proofs.Head.Pattern
import PrologMachine.Proofs.Head.Unification
import PrologMachine.Proofs.Heap.Binds
import PrologMachine.Proofs.Heap.Chains
import PrologMachine.Proofs.Heap.Change
import PrologMachine.Proofs.Heap.Comparison
import PrologMachine.Proofs.Heap.Descent
import PrologMachine.Proofs.Heap.Finite
import PrologMachine.Proofs.Heap.Growth
import PrologMachine.Proofs.Heap.MostGeneral
import PrologMachine.Proofs.Heap.Shape
import PrologMachine.Proofs.Heap.Symmetry
import PrologMachine.Proofs.Heap.Trail
import PrologMachine.Proofs.Heap.Trees
import PrologMachine.Proofs.Heap.Variants
import PrologMachine.Proofs.Heap.Walk
import PrologMachine.Proofs.Heap.Widening
import PrologMachine.Proofs.Heap.Writing
import PrologMachine.Proofs.KnowledgeBase
import PrologMachine.Proofs.Library.Append
import PrologMachine.Proofs.Library.Splits
import PrologMachine.Proofs.Machine.Actions
import PrologMachine.Proofs.Machine.Backtracking
import PrologMachine.Proofs.Machine.Barriers
import PrologMachine.Proofs.Machine.Bookkeeping
import PrologMachine.Proofs.Machine.Building
import PrologMachine.Proofs.Machine.Calls
import PrologMachine.Proofs.Machine.Commitment
import PrologMachine.Proofs.Machine.Course
import PrologMachine.Proofs.Machine.Discipline
import PrologMachine.Proofs.Machine.Excursion
import PrologMachine.Proofs.Machine.Foreign
import PrologMachine.Proofs.Machine.Instructions
import PrologMachine.Proofs.Machine.Limit
import PrologMachine.Proofs.Machine.Memory
import PrologMachine.Proofs.Machine.Moves
import PrologMachine.Proofs.Machine.Negation
import PrologMachine.Proofs.Machine.Progress
import PrologMachine.Proofs.Machine.Replies
import PrologMachine.Proofs.Machine.Restoration
import PrologMachine.Proofs.Machine.Runs
import PrologMachine.Proofs.Machine.Safety
import PrologMachine.Proofs.Machine.Scanning
import PrologMachine.Proofs.Machine.Searches
import PrologMachine.Proofs.Machine.Stack
import PrologMachine.Proofs.Machine.Stretch
import PrologMachine.Proofs.Machine.Trails
import PrologMachine.Proofs.Machine.Unwinding
import PrologMachine.Proofs.Machine.Variables
import PrologMachine.Proofs.Native
import PrologMachine.Proofs.Reading
import PrologMachine.Proofs.Reading.Atoms
import PrologMachine.Proofs.Reading.Canonical
import PrologMachine.Proofs.Reading.Completion
import PrologMachine.Proofs.Reading.Count
import PrologMachine.Proofs.Reading.Depth
import PrologMachine.Proofs.Reading.Lexing
import PrologMachine.Proofs.Reading.Numbers
import PrologMachine.Proofs.Reading.Pieces
import PrologMachine.Proofs.Reading.RoundTrip
import PrologMachine.Proofs.Reading.Spelling
import PrologMachine.Proofs.Reading.Tiling
import PrologMachine.Proofs.RecencyCache
import PrologMachine.Proofs.Renumbering.Code
import PrologMachine.Proofs.Renumbering.Compiler
import PrologMachine.Proofs.Renumbering.Emission
import PrologMachine.Proofs.Renumbering.Heap
import PrologMachine.Proofs.Renumbering.Machine
import PrologMachine.Proofs.Renumbering.Native
import PrologMachine.Proofs.Renumbering.Run
import PrologMachine.Proofs.Resolution.Adequacy
import PrologMachine.Proofs.Resolution.Answers
import PrologMachine.Proofs.Resolution.Calls
import PrologMachine.Proofs.Resolution.Choices
import PrologMachine.Proofs.Resolution.Clauses
import PrologMachine.Proofs.Resolution.Definite
import PrologMachine.Proofs.Resolution.Failures
import PrologMachine.Proofs.Resolution.Heads
import PrologMachine.Proofs.Resolution.Programs
import PrologMachine.Proofs.Resolution.Search
import PrologMachine.Proofs.Resolution.Stages
import PrologMachine.Proofs.Resolution.Store
import PrologMachine.Proofs.Resolution.Traversal
import PrologMachine.Proofs.Session.Answers
import PrologMachine.Proofs.Session.Builtins
import PrologMachine.Proofs.Session.Isolation
import PrologMachine.Proofs.Session.Ledger
import PrologMachine.Proofs.Session.Libraries
import PrologMachine.Proofs.Session.Limit
import PrologMachine.Proofs.Session.Listing
import PrologMachine.Proofs.Session.Questions
import PrologMachine.Proofs.Session.Slices
import PrologMachine.Proofs.Session.Upkeep
import PrologMachine.Proofs.Signature
import PrologMachine.Proofs.Stock
import PrologMachine.Reader
import PrologMachine.RecencyCache
import PrologMachine.Request
import PrologMachine.Session.Basic
import PrologMachine.Session.Solutions
import PrologMachine.Signature
import PrologMachine.Term.Basic
import PrologMachine.Term.Shape
import PrologMachine.Term.Writer
import PrologMachine.Text.Blank
import PrologMachine.Text.CodePoints
import PrologMachine.Text.Glyph
import PrologMachine.Text.Letters
import PrologMachine.Text.Printable
import PrologMachine.Text.Quoted
import PrologMachine.Token
import PrologMachine.Token.Lexer
import PrologMachine.Transcript
