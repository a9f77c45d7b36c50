import Template.Main
import Template.Proofs.Concrete.Acceptance
import Template.Proofs.Document.Seams
import Template.Proofs.Scan.Placement
import Template.Proofs.Scan.Balance
import Template.Proofs.Scan.Languages
import Template.Proofs.Scan.Munching
import Template.Proofs.Concrete.Sites
import Template.Proofs.Document.Order
import Template.Proofs.Document.Nesting
import Template.Proofs.Document.Exactness
import Template.Proofs.Concrete.Locality
import Template.Proofs.Document.Moving
import Template.Proofs.Document.Locality
import Template.Proofs.Concrete.Modes
import Template.Proofs.Scan.Trimming
import Template.Proofs.Concrete.Trailing
import Template.Proofs.Document.Trimming
import Template.Proofs.Concrete.Joins
import Template.Proofs.Document.Spelling
import Template.Proofs.Document.Problems
import Template.Proofs.Concrete.Opacity
import Template.Proofs.Concrete.Strays
import Template.Proofs.Concrete.Dropping
import Template.Proofs.Scan.Blanks
import Template.Proofs.Document.Finish
import Template.Proofs.Document.Printing
import Template.Proofs.Concrete.Charges
import Template.Proofs.Scan.Shortcuts
import Template.Proofs.Scan.Boundaries
import Template.Concrete.Cursor
import Template.Proofs.Concrete.Descent.Agreement
import Template.Concrete.Descent
import Template.Proofs.Concrete.Descent.Content
import Template.Proofs.Concrete.Descent.Progress
import Template.Proofs.Document.Merging
import Template.Proofs.Scan.Brackets
import Template.Proofs.Document.Terminators
import Template.Proofs.Concrete.Causes
import Template.Proofs.Document.Lines
import Template.Proofs.Concrete.Descent.Restoring
