import Reckon.Cursor.Session
import Reckon.Main
import Reckon.Proofs.Expr.Agenda
import Reckon.Proofs.Expr.FirstFailure
import Reckon.Proofs.Expr.InfixText
import Reckon.Proofs.Expr.Staging
import Reckon.Proofs.Grammar.Alike
import Reckon.Proofs.Grammar.Printed
import Reckon.Proofs.Grammar.Replacement
import Reckon.Proofs.Grammar.Sentence
import Reckon.Proofs.Numeral.Written
import Reckon.Proofs.Report.Columns
import Reckon.Proofs.Report.Lines
import Reckon.Proofs.Scan.Layout
import Reckon.Proofs.Report.Numbering
import Reckon.Proofs.Assembly.Moves
import Reckon.Proofs.Assembly.Replay
import Reckon.Proofs.Assembly.Scopes
import Reckon.Proofs.Cursor.Readers
