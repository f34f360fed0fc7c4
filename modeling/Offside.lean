import Offside.Decimal.Double
import Offside.Decimal.Layout
import Offside.Decimal.Numeral
import Offside.Decimal.Remainder
import Offside.Decimal.Shortest
import Offside.Entry
import Offside.Eval.Builtin
import Offside.Eval.Journal
import Offside.Eval.Line
import Offside.Eval.Machine
import Offside.Eval.Operator
import Offside.Eval.Step
import Offside.Fault
import Offside.Halt
import Offside.Main
import Offside.Path
import Offside.Position
import Offside.Scope
import Offside.Session
import Offside.Settings.Basic
import Offside.Settings.Character
import Offside.Settings.Cursor
import Offside.Settings.Document
import Offside.Settings.Lexeme.Basic
import Offside.Settings.Lexeme.Scan
import Offside.Settings.Misreading
import Offside.Settings.Scalar
import Offside.Settings.Tag
import Offside.Shell.Dialogue
import Offside.Shell.Files
import Offside.Shell.Invocation
import Offside.Shell.Level
import Offside.Shell.Outcome
import Offside.Shell.SelfCheck
import Offside.Shell.SettingsFile
import Offside.Text.Blank
import Offside.Text.DecimalDigit
import Offside.Text.Letter
import Offside.Text.Printable
import Offside.Text.Quoted
import Offside.Text.Ranges
import Offside.Text.Rune
import Offside.Text.Split
import Offside.Text.UpperCase
import Offside.Token.Basic
import Offside.Token.Kind
import Offside.Token.Lookahead
import Offside.Token.Scan
import Offside.Token.Stream
import Offside.Tree.Basic
import Offside.Tree.Dump
import Offside.Tree.Grammar
import Offside.Tree.Outline
import Offside.Tree.Reading
import Offside.Tree.SExpr
import Offside.Value
import Offside.Proofs.Eval.Invariance
import Offside.Proofs.Eval.Restoration
import Offside.Proofs.Eval.Dynamic
import Offside.Proofs.Scope.Chain
import Offside.Proofs.Eval.Refinement
import Offside.Proofs.Token.Legal
import Offside.Proofs.Tree.Ensures
import Offside.Proofs.Tree.WellFormed
import Offside.Proofs.Text.Utf8
import Offside.Proofs.Tree.ExpressionSound
import Offside.Proofs.Tree.StatementSound
import Offside.Proofs.Eval.Safety
import Offside.Proofs.Token.Spelling
import Offside.Proofs.Tree.Rendering
import Offside.Proofs.Tree.Shows
import Offside.Proofs.Tree.ExpressionComplete
import Offside.Proofs.Tree.StatementComplete
import Offside.Proofs.Eval.Cutoff
import Offside.Proofs.Eval.Termination
import Offside.Proofs.Token.Spelled
import Offside.Proofs.Tree.Words
import Offside.Proofs.Tree.Yield
import Offside.Proofs.Text.Runs
import Offside.Proofs.Token.Extension
import Offside.Proofs.Tree.Comparison
import Offside.Proofs.Tree.Lockstep
import Offside.Proofs.Token.Texts
import Offside.Proofs.Tree.Foresight
import Offside.Proofs.Entry.Continuation
import Offside.Proofs.Entry.Splitting
import Offside.Proofs.Tree.Phrases
import Offside.Proofs.Tree.Viable
import Offside.Proofs.Tree.Earliest
import Offside.Proofs.Tree.Finality
import Offside.Proofs.Token.Moved
import Offside.Proofs.Token.Lexemes
import Offside.Proofs.Token.Printed
import Offside.Proofs.Scope.Handles
import Offside.Proofs.Scope.Nesting
import Offside.Proofs.Token.Requests
import Offside.Proofs.Eval.Depth
import Offside.Proofs.Eval.Limit
import Offside.Proofs.Tree.Moved
import Offside.Proofs.Eval.Likeness
import Offside.Proofs.Eval.Layout
import Offside.Proofs.Tree.Columns
import Offside.Proofs.Tree.BlankLines
import Offside.Proofs.Token.Comments
import Offside.Proofs.Eval.Unassigned
import Offside.Proofs.Tree.Precedence
import Offside.Proofs.Tree.Indentation
import Offside.Proofs.Eval.Arithmetic
import Offside.Proofs.Session.ReadBack
import Offside.Proofs.Text.Quoted
import Offside.Proofs.Tree.Datum
import Offside.Proofs.Tree.SExpr
import Offside.Proofs.Tree.Pruned
import Offside.Proofs.Eval.Abreast
import Offside.Proofs.Eval.Return
