import BootAssembly.Config.Document
import BootAssembly.Session
import BootAssembly.Proofs.Board.Ranking
import BootAssembly.Proofs.DeviceTree.Portable
import BootAssembly.Proofs.DeviceTree.Structure
import BootAssembly.Proofs.DeviceTree.RoundTrip
import BootAssembly.Proofs.Attempt.Course
import BootAssembly.Proofs.Attempt.TrustGate
import BootAssembly.Proofs.Memory.Placement
import BootAssembly.Proofs.DeviceTree.Position
import BootAssembly.Proofs.Overlay.Target
import BootAssembly.Proofs.DeviceTree.Outline
import BootAssembly.Proofs.DeviceTree.Rewriting
import BootAssembly.Proofs.Overlay.References
import BootAssembly.Proofs.Overlay.Rebasing
import BootAssembly.Proofs.Overlay.Merging
import BootAssembly.Proofs.Overlay.Splicing
import BootAssembly.Proofs.Overlay.Handles
import BootAssembly.Proofs.DeviceTree.Acceptance
import BootAssembly.Proofs.Overlay.Readable
import BootAssembly.Proofs.Board.ExactMatch
import BootAssembly.Proofs.Resolve.Identities
import BootAssembly.Proofs.Resolve.Provenance
import BootAssembly.Proofs.Resolve.Shortcut
import BootAssembly.Proofs.Resolve.Slot
import BootAssembly.Proofs.DeviceTree.Footprint
import BootAssembly.Proofs.Patch.Edits
import BootAssembly.Proofs.Patch.Outcome
import BootAssembly.Proofs.BootImage.Parts
import BootAssembly.Proofs.BootImage.Extent
import BootAssembly.Proofs.Attempt.Refusals
import BootAssembly.Proofs.BootImage.RoundTrip
import BootAssembly.Proofs.Attempt.Shape
import BootAssembly.Proofs.Attempt.TwoRuns
import BootAssembly.Proofs.Attempt.PayloadOnly
import BootAssembly.Proofs.CommandLine.Capacity
import BootAssembly.Proofs.Patch.Success
import BootAssembly.Proofs.Patch.Requested
import BootAssembly.Proofs.Resolve.Single
import BootAssembly.Proofs.Memory.Room
import BootAssembly.Proofs.Attempt.WellFormed
import BootAssembly.Proofs.CommandLine.Clauses
import BootAssembly.Proofs.DeviceTree.Grammar
import BootAssembly.Proofs.DeviceTree.Serialisation
import BootAssembly.Proofs.Gzip.Member
import BootAssembly.Proofs.BootImage.Acceptance
import BootAssembly.Proofs.Gzip.Remainder
import BootAssembly.Proofs.Gzip.RoundTrip
import BootAssembly.Proofs.Deflate.CanonicalCode
import BootAssembly.Proofs.Deflate.Memory
import BootAssembly.Proofs.Kernel.Coherence
import BootAssembly.Proofs.Resolve.Chain
import BootAssembly.Proofs.DeviceTree.ByName
import BootAssembly.Proofs.Overlay.Union
import BootAssembly.Proofs.Overlay.Preservation
import BootAssembly.Proofs.Overlay.Uniqueness
import BootAssembly.Proofs.Overlay.TableRoundTrip
import BootAssembly.Proofs.Board.Expansion
import BootAssembly.Proofs.Patch.Controller
import BootAssembly.Proofs.Overlay.Labelling
import BootAssembly.Proofs.Patch.FusedBlocks
import BootAssembly.Proofs.DeviceTree.Interning
import BootAssembly.Proofs.Gzip.Checksum
