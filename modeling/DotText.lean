import DotText.Cursor.Step
import DotText.Document
import DotText.Editor
import DotText.Proofs.Deletion
import DotText.RoundTrip
import DotText.Index.Gathering
import DotText.Tree.Element
import DotText.Tree.Normal
import DotText.Tree.WellFormed
import DotText.Proofs.Grammar
import DotText.Proofs.Grammar.Gaps
import DotText.Proofs.Grammar.Texts
import DotText.Proofs.Grammar.Trees
import DotText.Proofs.Printing
import DotText.Proofs.Printing.Trees
import DotText.Proofs.NormalForm
import DotText.Proofs.Insertion
import DotText.Proofs.Readable
import DotText.Proofs.Declaring
import DotText.Proofs.EdgeNames
import DotText.Proofs.Elements
import DotText.Proofs.Documents
import DotText.Proofs.Canonical
import DotText.Proofs.Comments
import DotText.Proofs.Untouched
import DotText.Proofs.Counting
import DotText.Proofs.Declared
import DotText.Proofs.Orders
import DotText.Proofs.WellFormed
import DotText.Proofs.Gathering
import DotText.Proofs.Editor
import DotText.Proofs.LastBrace
import DotText.Proofs.Reading.Front
import DotText.Proofs.Joining
import DotText.Edit.Matches
import DotText.Proofs.Matches
import DotText.Proofs.Retracting
import DotText.Proofs.Restoring
import DotText.Proofs.Reading.Leaving
import DotText.Proofs.Unquoting
import DotText.Proofs.Reading.Failing
import DotText.Proofs.Refusing
import DotText.Cursor.History
import DotText.Proofs.Trimming
import DotText.Cursor.Loops
import DotText.Proofs.Loops
import DotText.Cursor.Bytes
import DotText.Cursor.Offsets
import DotText.Proofs.Bytes
import DotText.Proofs.Traversing
import DotText.Proofs.Rounds
import DotText.Proofs.Offsets.Looking
import DotText.Proofs.Offsets.Passes
import DotText.Proofs.Offsets
import DotText.Proofs.Boundaries
