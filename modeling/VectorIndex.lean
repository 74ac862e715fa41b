import VectorIndex.Database
import VectorIndex.Proofs.BeamSearch
import VectorIndex.Proofs.Selection
import VectorIndex.Proofs.Choice
import VectorIndex.Proofs.LinkLists
import VectorIndex.Proofs.Mirror
import VectorIndex.Proofs.Edit
import VectorIndex.Proofs.Wiring
import VectorIndex.Proofs.Insertion
import VectorIndex.Proofs.LiveScan
import VectorIndex.Proofs.Deletion
import VectorIndex.Proofs.Changes
import VectorIndex.Proofs.Walk
import VectorIndex.Proofs.Reconnection
import VectorIndex.Proofs.Codec
import VectorIndex.Proofs.Session
import VectorIndex.Proofs.Commit
import VectorIndex.Proofs.Runs
import VectorIndex.Proofs.Search
import VectorIndex.Proofs.Collections
import VectorIndex.Proofs.Publication
import VectorIndex.Proofs.Transactions
import VectorIndex.Proofs.Parties
import VectorIndex.Proofs.Isolation
import VectorIndex.Proofs.Refusals
import VectorIndex.Proofs.ReverseIndex
import VectorIndex.Proofs.Arrival
import VectorIndex.Proofs.Stranding
import VectorIndex.Proofs.Renewal
import VectorIndex.Proofs.Records
import VectorIndex.Proofs.Comparison
import VectorIndex.Proofs.Expansion
import VectorIndex.Proofs.LocalOptimum
import VectorIndex.Proofs.WiderBeams
import VectorIndex.Proofs.Damage
import VectorIndex.Proofs.Descent
import VectorIndex.Proofs.Promotion
import VectorIndex.Proofs.Shape
import VectorIndex.Proofs.Ordering
import VectorIndex.Proofs.Counts
import VectorIndex.Proofs.Rounding
import VectorIndex.Proofs.Arithmetic
import VectorIndex.Proofs.Symmetry
import VectorIndex.Proofs.Magnitude
import VectorIndex.Proofs.CosineRange
import VectorIndex.Proofs.ReportedOrder
