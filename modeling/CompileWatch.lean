import CompileWatch.Sorted.Set
import CompileWatch.Text.Utf8
import CompileWatch.Form.Size
import CompileWatch.Form.Definition
import CompileWatch.Form.Label
import CompileWatch.Reading.Source
import CompileWatch.Expansion.Full
import CompileWatch.ClassFile.Instruction
import CompileWatch.ClassFile.Metrics
import CompileWatch.ClassFile.Emit
import CompileWatch.Capture.Forms
import CompileWatch.Capture.References
import CompileWatch.Capture.Units
import CompileWatch.Host.Contract
import CompileWatch.Compiler.Host
import CompileWatch.Watching.Installer
import CompileWatch.Watching.Journal
import CompileWatch.Watching.Observation
import CompileWatch.Report.FanIn
import CompileWatch.Report.Snapshot
import CompileWatch.Report.Unused
import CompileWatch.Cli.Run
import CompileWatch.Main
import CompileWatch.Proofs.ClassFile.UnitReading
import CompileWatch.Proofs.Watching.Confinement
import CompileWatch.Proofs.Watching.Pairing
import CompileWatch.Proofs.Watching.ReferenceCapture
import CompileWatch.Proofs.Watching.Tokens
import CompileWatch.Proofs.Watching.Views
import CompileWatch.Proofs.Expansion.Settled
import CompileWatch.Proofs.ClassFile.Needed
import CompileWatch.Capture.Request
import CompileWatch.Proofs.Capture.FeedHistory
import CompileWatch.Proofs.Reading.Atoms
import CompileWatch.Proofs.Reading.Rereading
import CompileWatch.Proofs.Capture.History
import CompileWatch.Proofs.Reading.Composition
import CompileWatch.Proofs.Report.Definitions
import CompileWatch.Proofs.Watching.Readable
import CompileWatch.Proofs.Expansion.Ending
import CompileWatch.Proofs.Expansion.Atoms
import CompileWatch.Proofs.Expansion.Identity
import CompileWatch.Proofs.Compiler.Failing
import CompileWatch.Proofs.ClassFile.Tiling
import CompileWatch.Proofs.Compiler.Renamed
import CompileWatch.Proofs.Reading.Lines
import CompileWatch.Proofs.Reading.Discarding
import CompileWatch.Proofs.Capture.Described
import CompileWatch.Proofs.ClassFile.Determined
import CompileWatch.Proofs.Scan.Loading
import CompileWatch.Proofs.Watching.Scoped
import CompileWatch.Proofs.Report.EventOrder
import CompileWatch.Proofs.Watching.Installing
import CompileWatch.Proofs.Scan.Collecting
import CompileWatch.Proofs.ClassFile.Interning
