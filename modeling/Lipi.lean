import Lipi.CommandLine
import Lipi.CommandLine.Survey
import Lipi.LineIndex
import Lipi.Main
import Lipi.Proofs.Machine.Relation
import Lipi.Proofs.Machine.Restoration
import Lipi.Proofs.Machine.Nesting
import Lipi.Proofs.Session.Ending
import Lipi.Proofs.Session.Allowance
import Lipi.Proofs.Session.Watching
import Lipi.Proofs.Session.Supply
import Lipi.Proofs.Number.Bits
import Lipi.Proofs.Number.Rounding
import Lipi.Proofs.Number.Shortest
import Lipi.Proofs.Number.ReadBack
import Lipi.Proofs.Token.Items
import Lipi.Proofs.Token.Shows
import Lipi.Proofs.Expr.WellFormed
import Lipi.Proofs.Expr.Items
import Lipi.Proofs.Parser.Reads
import Lipi.Proofs.Expr.ReadBack
import Lipi.Proofs.Parser.Steady
import Lipi.Proofs.Token.Lexed
import Lipi.Proofs.Expr.Reading
import Lipi.Proofs.Statement.WellFormed
import Lipi.Proofs.Statement.Items
import Lipi.Proofs.Statement.Reading
import Lipi.Proofs.Statement.Classes
import Lipi.Proofs.Statement.ReadBack
import Lipi.Proofs.Program.RoundTrip
import Lipi.Proofs.Parser.Progress
import Lipi.Proofs.Program.Termination
import Lipi.Proofs.Session.Positions
import Lipi.Proofs.Session.Constants
import Lipi.Proofs.Session.Methods
import Lipi.Proofs.Session.Receivers
import Lipi.Proofs.Token.Split
import Lipi.Proofs.Program.Diagnostics
import Lipi.Proofs.Program.Spelling
import Lipi.Proofs.Session.Concatenation
import Lipi.Proofs.Machine.LexicalScope
import Lipi.Proofs.Machine.Declarations
import Lipi.Proofs.Session.Access
import Lipi.Proofs.Session.Imports
import Lipi.Proofs.Machine.Isolation
import Lipi.Proofs.Session.ComputedFields
import Lipi.Proofs.Program.LineBreaks
import Lipi.Proofs.Program.Structure
import Lipi.Proofs.Heap.Scopes
import Lipi.Proofs.Session.Constructors
import Lipi.Proofs.Machine.ImportedNames
import Lipi.Proofs.Session.Arrays
import Lipi.Proofs.Heap.Rendering
import Lipi.Proofs.LineIndex
import Lipi.Proofs.Machine.Ceilings
import Lipi.Proofs.Session.Equality
import Lipi.Proofs.FileTree
import Lipi.Proofs.Session.Files
import Lipi.Proofs.Token.Quoting
import Lipi.Proofs.Token.Between
import Lipi.Proofs.Machine.Returning
