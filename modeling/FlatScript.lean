import FlatScript.Arrangement
import FlatScript.Builtin.Standard
import FlatScript.Builtin.Table
import FlatScript.CallGraph.Basic
import FlatScript.CallGraph.Cycle
import FlatScript.CallGraph.Order
import FlatScript.CallGraph.Queue
import FlatScript.Callbacks
import FlatScript.Compaction.Script
import FlatScript.Compaction.ShortName
import FlatScript.Compaction.Table
import FlatScript.Compiler
import FlatScript.Controls
import FlatScript.Decimal.Arith
import FlatScript.Decimal.Basic
import FlatScript.Decimal.Literal
import FlatScript.Error
import FlatScript.Folding.Expr
import FlatScript.Folding.Script
import FlatScript.Frame
import FlatScript.Inlining.Expand
import FlatScript.Inlining.Substitution
import FlatScript.Lines
import FlatScript.Lowering.Body
import FlatScript.Lowering.Declare
import FlatScript.Lowering.Loop
import FlatScript.Lowering.Reference
import FlatScript.Name.Dotted
import FlatScript.Name.Ident
import FlatScript.Name.Qualify
import FlatScript.Name.Sigil
import FlatScript.Name.Sorted
import FlatScript.Options
import FlatScript.Parser.Expr
import FlatScript.Parser.Script
import FlatScript.Parser.State
import FlatScript.Parser.Stmt
import FlatScript.Pragma
import FlatScript.Printer
import FlatScript.Program
import FlatScript.Sigils
import FlatScript.Stage
import FlatScript.Symbols
import FlatScript.Syntax.Expr
import FlatScript.Syntax.Leaves
import FlatScript.Syntax.Operator
import FlatScript.Syntax.Rename
import FlatScript.Syntax.Script
import FlatScript.Syntax.Stmt
import FlatScript.Taskfunc
import FlatScript.Text.Blank
import FlatScript.Text.Case
import FlatScript.Text.CaseTable
import FlatScript.Text.Digest
import FlatScript.Text.Glob
import FlatScript.Text.Span
import FlatScript.Token.Basic
import FlatScript.Token.Scan
import FlatScript.Undotting
import FlatScript.Value
import FlatScript.Proofs.CallOrder
import FlatScript.Proofs.Characters
import FlatScript.Proofs.Compilation
import FlatScript.Proofs.Controls
import FlatScript.Proofs.Dialect
import FlatScript.Proofs.Flat
import FlatScript.Proofs.Folding
import FlatScript.Proofs.Inlining.Calls
import FlatScript.Proofs.Reading.Branches
import FlatScript.Proofs.Reading.Expression
import FlatScript.Proofs.Reading.Grammar
import FlatScript.Proofs.Reading.Lines
import FlatScript.Proofs.Reading.Steps
import FlatScript.Proofs.Renaming
import FlatScript.Proofs.Resolution
import FlatScript.Proofs.Running.Execution
import FlatScript.Proofs.Running.Folding
import FlatScript.Proofs.Running.Values
import FlatScript.Proofs.Stack.Balance
import FlatScript.Proofs.Stack.Discipline
import FlatScript.Proofs.Writing.Expressions
import FlatScript.Proofs.Writing.Lexemes
import FlatScript.Proofs.Writing.Lines
import FlatScript.Proofs.Writing.Numbers
import FlatScript.Proofs.Writing.Scripts
import FlatScript.Proofs.Writing.Statements
import FlatScript.Proofs.Writing.Tokens
import FlatScript.Proofs.Writing.Words
import FlatScript.Proofs.Hoisting
import FlatScript.Proofs.LetterCase
import FlatScript.Proofs.Lowering.Storage
import FlatScript.Proofs.Closure
import FlatScript.Proofs.Calls
import FlatScript.Proofs.Frames
import FlatScript.Proofs.Failure
import FlatScript.Proofs.Inlining.Limits
import FlatScript.Proofs.Lowering.Faults
import FlatScript.Proofs.Invariants
import FlatScript.Proofs.Callbacks
import FlatScript.Proofs.Recursion
import FlatScript.Proofs.Lowering.Abreast
import FlatScript.Proofs.Overrides
import FlatScript.Proofs.CallRecords
import FlatScript.Proofs.StackSearch
import FlatScript.Proofs.TopologicalOrder
import FlatScript.Proofs.FirstCircle
import FlatScript.Proofs.Emission
import FlatScript.Proofs.Inlining.Echo
import FlatScript.Proofs.Inlining.Traces
import FlatScript.Proofs.Lowering.Uncopied
import FlatScript.Proofs.Decimal.Quotient
import FlatScript.Proofs.Folding.Reals
import FlatScript.Proofs.Initializers
import FlatScript.Proofs.Synonyms
import FlatScript.Proofs.Compaction.Apart
import FlatScript.Proofs.Compaction.Expansion
import FlatScript.Proofs.Compaction.Restored
import FlatScript.Proofs.Reading.Gaps
import FlatScript.Proofs.Reading.Tiling
import FlatScript.Proofs.Undotting
import FlatScript.Proofs.Folding.Normal
import FlatScript.Proofs.Settling
import FlatScript.Proofs.Writing.Spacing
import FlatScript.Proofs.Reading.Strides
import FlatScript.Proofs.Reading.Progress
import FlatScript.Proofs.Joining
import FlatScript.Proofs.Inlining.Parameters
import FlatScript.Proofs.Layout.Agreement
import FlatScript.Proofs.Lowering.Loops
import FlatScript.Proofs.ControlIds
import FlatScript.Proofs.Inlining.Substituted
import FlatScript.Proofs.Spelling
import FlatScript.Proofs.RoundTrip
