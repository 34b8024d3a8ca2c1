import MatrixLang.NumberText
import MatrixLang.Decimal.Places
import MatrixLang.Diagnostic.Problem
import MatrixLang.Diagnostic.Explanation
import MatrixLang.Scopes
import MatrixLang.Token.Scan
import MatrixLang.Tree.Outline
import MatrixLang.Tree.Parse
import MatrixLang.Typing.Check
import MatrixLang.Tensor.Access
import MatrixLang.Value.Operate
import MatrixLang.Value.Room
import MatrixLang.Run.Execute
import MatrixLang.Command.Basic
import MatrixLang.Main
import MatrixLang.Proofs.Except
import MatrixLang.Proofs.Scopes
import MatrixLang.Proofs.Tree
import MatrixLang.Proofs.Tensor.WellFormed
import MatrixLang.Proofs.Tensor.Bounds
import MatrixLang.Proofs.Typing.Fits
import MatrixLang.Proofs.Tensor.Room
import MatrixLang.Proofs.Typing.Tables
import MatrixLang.Proofs.Typing.Clean
import MatrixLang.Proofs.Typing.Evaluate
import MatrixLang.Proofs.Run.Visits
import MatrixLang.Proofs.Run.Footprint
import MatrixLang.Proofs.Typing.Step
import MatrixLang.Proofs.Typing.StraightLine
import MatrixLang.Proofs.Typing.Stable
import MatrixLang.Proofs.Grammar.Ebnf
import MatrixLang.Proofs.Grammar.Normal
import MatrixLang.Proofs.Grammar.Reading
import MatrixLang.Proofs.Grammar.Readback
import MatrixLang.Proofs.Grammar.Accepted
import MatrixLang.Proofs.Grammar.Language
import MatrixLang.Proofs.Lines
import MatrixLang.Proofs.Grammar.Viable
import MatrixLang.Proofs.Grammar.Stopped
import MatrixLang.Proofs.Grammar.Local
import MatrixLang.Proofs.Grammar.FirstError
import MatrixLang.Proofs.Run.Lines
import MatrixLang.Proofs.Typing.Lines
import MatrixLang.Proofs.Token.Slices
import MatrixLang.Proofs.Token.Placed
import MatrixLang.Proofs.Layout
import MatrixLang.Proofs.Token.Newline
import MatrixLang.Proofs.Token.Pattern
import MatrixLang.Proofs.Token.Match
import MatrixLang.Proofs.Token.LongestMatch
import MatrixLang.Proofs.Grammar.Boundary
import MatrixLang.Proofs.Grammar.Cursor
import MatrixLang.Proofs.Grammar.Following
import MatrixLang.Proofs.Grammar.FirstEnd
import MatrixLang.Proofs.Grammar.Located
import MatrixLang.Proofs.Grammar.StartLines
import MatrixLang.Proofs.Run.Signals
import MatrixLang.Proofs.Typing.Reports
import MatrixLang.Proofs.Typing.LoopControl
import MatrixLang.Proofs.Blocks
import MatrixLang.Proofs.Grammar.Produced
import MatrixLang.Proofs.Rows
import MatrixLang.Proofs.Typing.Unknown
import MatrixLang.Proofs.Typing.Forgetting
import MatrixLang.Proofs.Typing.Undefined
import MatrixLang.Proofs.Typing.Indices
import MatrixLang.Proofs.Double
import MatrixLang.Proofs.Tensor.Lens
import MatrixLang.Proofs.Tensor.Product
import MatrixLang.Proofs.Tensor.InPlace
import MatrixLang.Proofs.Run.Counting
import MatrixLang.Proofs.Run.InPlace
import MatrixLang.Proofs.Tensor.Stack
import MatrixLang.Proofs.Tensor.Transpose
import MatrixLang.Proofs.Token.LineNumbers
import MatrixLang.Proofs.Token.OpenString
import MatrixLang.Proofs.Token.Spelling
import MatrixLang.Proofs.Decimal
import MatrixLang.Proofs.Token.FloatText
import MatrixLang.Proofs.Tensor.Grid
import MatrixLang.Proofs.Scopes.Frames
import MatrixLang.Proofs.Scopes.Brackets
import MatrixLang.Proofs.Tensor.Entrywise
import MatrixLang.Proofs.Command
import MatrixLang.Proofs.Run.Crashes
