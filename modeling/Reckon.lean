import Reckon.Canonical
import Reckon.Cursor
import Reckon.Evaluation
import Reckon.Expr.Basic
import Reckon.Expr.Flatten
import Reckon.Expr.Line
import Reckon.Expr.Outline
import Reckon.Expr.PostOrder
import Reckon.Fault
import Reckon.Log
import Reckon.Main
import Reckon.Operator
import Reckon.Parser
import Reckon.Parser.Chain
import Reckon.Parser.Progress
import Reckon.Proofs.Acceptance
import Reckon.Proofs.Canonical
import Reckon.Proofs.Chain
import Reckon.Proofs.Congruence
import Reckon.Proofs.Evaluation
import Reckon.Proofs.Flattening
import Reckon.Proofs.Frame
import Reckon.Proofs.Grammar
import Reckon.Proofs.Height
import Reckon.Proofs.InOrder
import Reckon.Proofs.IntegerResult
import Reckon.Proofs.Joints
import Reckon.Proofs.Letters
import Reckon.Proofs.Lexeme
import Reckon.Proofs.Limits
import Reckon.Proofs.LineMeaning
import Reckon.Proofs.LongestMatch
import Reckon.Proofs.Meaning
import Reckon.Proofs.NextToken
import Reckon.Proofs.NormalForm
import Reckon.Proofs.Outline
import Reckon.Proofs.Phrase
import Reckon.Proofs.Pieces
import Reckon.Proofs.Reading
import Reckon.Proofs.Rearrangement
import Reckon.Proofs.Reduction
import Reckon.Proofs.Regrouping
import Reckon.Proofs.Resumption
import Reckon.Proofs.RoundTrip
import Reckon.Proofs.Session
import Reckon.Proofs.Shape
import Reckon.Proofs.Shift
import Reckon.Proofs.SingleOperand
import Reckon.Proofs.Steps
import Reckon.Proofs.Tiling
import Reckon.Proofs.Traversal
import Reckon.Proofs.UniqueLine
import Reckon.Proofs.Variables
import Reckon.Proofs.Viability
import Reckon.Proofs.ZeroDivisor
import Reckon.Reduction
import Reckon.Report
import Reckon.Session
import Reckon.Span
import Reckon.Text.Blank
import Reckon.Text.Decimal
import Reckon.Text.Lines
import Reckon.Text.Utf8
import Reckon.Token
