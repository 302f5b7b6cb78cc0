import FirmwareIds.Text.White
import FirmwareIds.Text.Encoding
import FirmwareIds.Text.Pattern
import FirmwareIds.Text.Cutting
import FirmwareIds.Resource.Block
import FirmwareIds.Resource.Definition
import FirmwareIds.Form.Reference
import FirmwareIds.FileTree.Fault
import FirmwareIds.FileTree.Basic
import FirmwareIds.FileTree.Locate
import FirmwareIds.FileTree.Change
import FirmwareIds.FileTree.Replace
import FirmwareIds.FileKind
import FirmwareIds.FileTree.Walk
import FirmwareIds.Json.Printer
import FirmwareIds.Report.Json
import FirmwareIds.Session.Run
import FirmwareIds.Clock.Calendar
import FirmwareIds.Clock.Stamp
import FirmwareIds.BiosId.Output
import FirmwareIds.Toml.Document
import FirmwareIds.Command.Request
import FirmwareIds.Command.Perform
import FirmwareIds.Main
import FirmwareIds.Toml.Scalar
import FirmwareIds.Proofs.Resource.Declarations
import FirmwareIds.Proofs.Resource.Definitions
import FirmwareIds.Proofs.Text.Removal
import FirmwareIds.Proofs.Resource.Blocks
import FirmwareIds.Proofs.Resource.Stripping
import FirmwareIds.Proofs.Text.Encoding
import FirmwareIds.Proofs.FileTree.Site
import FirmwareIds.Proofs.FileTree.Change
import FirmwareIds.Proofs.FileTree.Directories
import FirmwareIds.Proofs.FileTree.Saving
import FirmwareIds.Proofs.FileTree.Walk
import FirmwareIds.Proofs.Session.Scanning
import FirmwareIds.Proofs.Session.Settling
import FirmwareIds.Proofs.Session.Writing
import FirmwareIds.Proofs.Session.Flushing
import FirmwareIds.Proofs.Session.Accounting
import FirmwareIds.Proofs.Session.Keeping
import FirmwareIds.Proofs.Session.Duplicating
import FirmwareIds.Proofs.Form.References
import FirmwareIds.Proofs.FileTree.Widening
import FirmwareIds.Proofs.Session.Assigning
import FirmwareIds.Proofs.Session.Rescanning
import FirmwareIds.Proofs.Session.Repeating
import FirmwareIds.Proofs.Session.Recording
import FirmwareIds.Proofs.Session.Collecting
import FirmwareIds.Proofs.Session.Allocating
import FirmwareIds.Proofs.Session.Validating
import FirmwareIds.Proofs.Session.Reaching
import FirmwareIds.Proofs.Session.Updating
import FirmwareIds.Proofs.Session.Touching
import FirmwareIds.Proofs.Text.Reencoding
import FirmwareIds.Proofs.Session.Rewriting
import FirmwareIds.Proofs.FileTree.Passing
import FirmwareIds.Proofs.FileTree.Erasing
import FirmwareIds.Proofs.FileTree.Replacing
import FirmwareIds.Proofs.Session.Isolating
import FirmwareIds.Proofs.Text.WellFormed
import FirmwareIds.Proofs.Session.Strictness
import FirmwareIds.Proofs.Resource.Shortening
import FirmwareIds.Proofs.Session.Stepping
import FirmwareIds.Proofs.Session.Reindexing
import FirmwareIds.Proofs.Resource.Rereading
import FirmwareIds.Proofs.Resource.Appending
import FirmwareIds.Proofs.Resource.Joining
import FirmwareIds.Proofs.Text.Seams
import FirmwareIds.Proofs.Text.Searching
import FirmwareIds.Proofs.Resource.Identifiers
import FirmwareIds.Proofs.Form.Questions
import FirmwareIds.Proofs.Form.Bindings
import FirmwareIds.Proofs.Resource.Places
import FirmwareIds.Proofs.BiosId.Settings
import FirmwareIds.Proofs.BiosId.Recovering
import FirmwareIds.Proofs.BiosId.Layout
import FirmwareIds.Proofs.BiosId.Rendering
import FirmwareIds.Proofs.FileTree.Listing
import FirmwareIds.Proofs.Session.Referring
import FirmwareIds.Proofs.Resource.Variants
import FirmwareIds.Proofs.Report.Storing
import FirmwareIds.Proofs.Command.Preferring
