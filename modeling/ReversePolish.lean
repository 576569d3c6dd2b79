import ReversePolish.Text.Blank
import ReversePolish.Text.Offset
import ReversePolish.Text.Decimal
import ReversePolish.Token
import ReversePolish.Lexeme
import ReversePolish.Scan
import ReversePolish.Expr
import ReversePolish.Expr.Eval
import ReversePolish.Error
import ReversePolish.Expr.Parser
import ReversePolish.Expr.Grammar
import ReversePolish.Rpn
import ReversePolish.Rpn.Machine
import ReversePolish.Outline
import ReversePolish.Json
import ReversePolish.Compilation
import ReversePolish.CommandLine.Options
import ReversePolish.CommandLine.Files
import ReversePolish.CommandLine.Log
import ReversePolish.CommandLine.Reply
import ReversePolish.Proofs.Parsing
import ReversePolish.Proofs.Counter
import ReversePolish.Proofs.Viability
import ReversePolish.Proofs.Scanning
import ReversePolish.Proofs.Tiling
import ReversePolish.Proofs.Compiling
import ReversePolish.Proofs.Meaning
import ReversePolish.Proofs.ZeroDivision
import ReversePolish.Proofs.Unplaced
import ReversePolish.Proofs.NodeOrder
import ReversePolish.Proofs.Relocation
import ReversePolish.Proofs.Writing
import ReversePolish.Proofs.Words
import ReversePolish.Proofs.Joining
import ReversePolish.Proofs.Skeleton
import ReversePolish.Proofs.Composition
import ReversePolish.Proofs.Caret
import ReversePolish.Proofs.Placement
import ReversePolish.Proofs.Replies
import ReversePolish.Proofs.Building
import ReversePolish.Proofs.Indentation
import ReversePolish.Proofs.Documents
import ReversePolish.Proofs.Reports
import ReversePolish.Main
import ReversePolish.Proofs.Blanks
import ReversePolish.Proofs.Decimals
import ReversePolish.Proofs.Observation
import ReversePolish.Proofs.Arguments
import ReversePolish.Proofs.Cursor
import ReversePolish.Proofs.ScanLoop
