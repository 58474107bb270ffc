import ReversePolish.Number.Basic
import ReversePolish.Number.Arithmetic
import ReversePolish.Number.Clamp
import ReversePolish.Number.Decimal
import ReversePolish.Number.Text
import ReversePolish.Number.Numeral
import ReversePolish.Text.Search
import ReversePolish.Text.Printable
import ReversePolish.Text.Quoted
import ReversePolish.Text.Blank
import ReversePolish.Text.Integer
import ReversePolish.Text.Utf8
import ReversePolish.Fault
import ReversePolish.Value.Basic
import ReversePolish.Value.Coercion
import ReversePolish.Datum
import ReversePolish.Token
import ReversePolish.Stack
import ReversePolish.Store
import ReversePolish.Interrupt
import ReversePolish.History
import ReversePolish.Machine
import ReversePolish.Command.Basic
import ReversePolish.Command.Operator
import ReversePolish.Command.Effect
import ReversePolish.Command.Control
import ReversePolish.Evaluate
import ReversePolish.Path
import ReversePolish.Folder
import ReversePolish.Settings
import ReversePolish.Session
import ReversePolish.Proofs.Evaluation
import ReversePolish.Proofs.Nesting
import ReversePolish.Proofs.Numeral
import ReversePolish.Proofs.History
import ReversePolish.Proofs.Literal
import ReversePolish.Proofs.RoundTrip
import ReversePolish.Proofs.Host
import ReversePolish.Proofs.Assembly
import ReversePolish.Proofs.Appending
import ReversePolish.Proofs.Sequencing
import ReversePolish.Proofs.Search
import ReversePolish.Proofs.Exchange
import ReversePolish.Proofs.Frame
import ReversePolish.Proofs.Keeping
import ReversePolish.Proofs.Safety
import ReversePolish.Proofs.Channels
import ReversePolish.Proofs.Grammar
import ReversePolish.Proofs.Operands
import ReversePolish.Proofs.Underflow
import ReversePolish.Proofs.Arrival
import ReversePolish.Proofs.Exit
import ReversePolish.Proofs.Recovery
import ReversePolish.Proofs.Quoting
import ReversePolish.Proofs.Comment
import ReversePolish.Proofs.Attribution
import ReversePolish.Proofs.Coercion
import ReversePolish.Proofs.Restoring
import ReversePolish.Proofs.Store
import ReversePolish.Proofs.Unread
import ReversePolish.Proofs.Termination
import ReversePolish.Proofs.Resuming
import ReversePolish.Proofs.Respacing
import ReversePolish.Proofs.Rounding
import ReversePolish.Proofs.Decimal
import ReversePolish.Proofs.Spelling
import ReversePolish.Proofs.Canonical
import ReversePolish.Proofs.Collecting
import ReversePolish.Proofs.Loops
import ReversePolish.Proofs.Range
import ReversePolish.Proofs.Spacing
import ReversePolish.Proofs.Exactness
import ReversePolish.Proofs.HalfAway
import ReversePolish.Proofs.Editing
import ReversePolish.Proofs.Repetition
import ReversePolish.Proofs.Scalars
import ReversePolish.Proofs.Sorting
import ReversePolish.Proofs.Chronicle
import ReversePolish.Proofs.Journal
import ReversePolish.Proofs.Remainder
import ReversePolish.Proofs.Saturation
import ReversePolish.Proofs.WholeNumbers
