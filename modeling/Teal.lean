import Teal.Table
import Teal.Token.Terminator
import Teal.Json.Printer
import Teal.Json.Reader
import Teal.Value.Printer
import Teal.Expr.Printer
import Teal.Expr.Parser
import Teal.Compile
import Teal.Executable.Document
import Teal.Executable.Listing
import Teal.World.Document
import Teal.Scheduler
import Teal.Script
import Teal.Config
import Teal.Workspace
import Teal.Main
import Teal.Proofs.Placement
import Teal.Proofs.Deadlock
import Teal.Proofs.TimeSlice
import Teal.Proofs.Preservation
import Teal.Proofs.Provenance
import Teal.Proofs.Heights
import Teal.Proofs.History
import Teal.Proofs.Discipline
import Teal.Proofs.Wakeups
import Teal.Proofs.Isolation
import Teal.Proofs.Documents
import Teal.Proofs.Resumption
import Teal.Proofs.Texts
import Teal.Proofs.Storage
import Teal.Proofs.Upkeep
import Teal.Proofs.Recovery
import Teal.Proofs.Executables
import Teal.Proofs.Checkpoints
import Teal.Proofs.Rendering
import Teal.Proofs.Reports
import Teal.Proofs.Traces
import Teal.Proofs.AwaitedCalls
import Teal.Proofs.Shapes
import Teal.Proofs.Precedence
import Teal.Proofs.Terminators
import Teal.Proofs.Positions
import Teal.Proofs.Arguments
import Teal.Proofs.Spacing
import Teal.Proofs.Leaves
import Teal.Proofs.Streams
import Teal.Proofs.FunctionTable
import Teal.Proofs.Validity
import Teal.Proofs.Depths
import Teal.Proofs.Entrances
import Teal.Proofs.Scopes
import Teal.Proofs.Literals
import Teal.Proofs.Lines
import Teal.Proofs.Hashes
import Teal.Proofs.Strings
import Teal.Proofs.Files
import Teal.Proofs.Atomicity
