import NestedRecord.Graph.Encoding
import NestedRecord.Store.Loading
import NestedRecord.Proofs.Graph.Tree
import NestedRecord.Proofs.Aggregate.Consistent
import NestedRecord.Proofs.Procedure.Settling
import NestedRecord.Proofs.Join.Snapshot
import NestedRecord.Proofs.Join.Declared
import NestedRecord.Proofs.Join.Undeclared
import NestedRecord.Proofs.Aggregate.Standing
import NestedRecord.Proofs.Key.Restoring
import NestedRecord.Proofs.Store.Sound
import NestedRecord.Proofs.Graph.Registrations
import NestedRecord.Proofs.Filter.Ordering
import NestedRecord.Proofs.Join.Following
import NestedRecord.Proofs.Join.Interleaving
import NestedRecord.Proofs.Store.Terminating
import NestedRecord.Proofs.Path.Declared
import NestedRecord.Proofs.Record.Conforming
import NestedRecord.Proofs.Record.Retraction
import NestedRecord.Proofs.Aggregate.Repeated
import NestedRecord.Proofs.Join.Territory
import NestedRecord.Proofs.Join.Keyed
import NestedRecord.Proofs.Aggregate.Cancelling
import NestedRecord.Proofs.Graph.Columns
import NestedRecord.Proofs.Graph.Keys
import NestedRecord.Proofs.Graph.Paths
import NestedRecord.Proofs.Store.Loaded
import NestedRecord.Proofs.Reference.Replacement
import NestedRecord.Proofs.Record.Preserving
import NestedRecord.Proofs.Record.Deciding
import NestedRecord.Proofs.Record.Truncating
import NestedRecord.Proofs.Record.Bounding
import NestedRecord.Proofs.Key.Rewriting
import NestedRecord.Proofs.Path.Decomposition
import NestedRecord.Proofs.Aggregate.Persisted
import NestedRecord.Proofs.Descriptor.Spelling
import NestedRecord.Proofs.Graph.Skeleton
import NestedRecord.Proofs.Graph.ColumnTable
import NestedRecord.Proofs.Join.StateKeys
import NestedRecord.Proofs.Procedure.Lens
import NestedRecord.Proofs.Graph.Naming
import NestedRecord.Proofs.Text.Acceptance
import NestedRecord.Proofs.Number.Scaling
