import Docblocks.CommandLine.Run
import Docblocks.Tree.Edit
import Docblocks.Proofs.BlockStructure
import Docblocks.Proofs.RoundTrip
import Docblocks.Proofs.Tree.Growth
import Docblocks.Proofs.Tree.Route
import Docblocks.Proofs.Tree.Directories
import Docblocks.Proofs.Writing.Steps
import Docblocks.Proofs.Writing.OldFiles
import Docblocks.Proofs.Store
import Docblocks.Proofs.Tree.Linkless
import Docblocks.Proofs.Tree.Plain
import Docblocks.Proofs.Writing.Growth
import Docblocks.Proofs.Writing.Plain
import Docblocks.Proofs.Containment
import Docblocks.Proofs.Extraction
import Docblocks.Proofs.Writing.Linkless
import Docblocks.Proofs.Json.RoundTrip
import Docblocks.Proofs.Settings.RoundTrip
import Docblocks.Proofs.Store.History
import Docblocks.Proofs.Writing.Refusal
import Docblocks.Proofs.Tag
import Docblocks.Proofs.Layout
import Docblocks.Proofs.CommandLine
import Docblocks.Proofs.Text.ByteLines
import Docblocks.Proofs.Store.Shape
import Docblocks.Proofs.Extraction.Report
import Docblocks.Proofs.Store.KeyOrder
import Docblocks.Proofs.Settings.Members
import Docblocks.Proofs.Extraction.Scanning
