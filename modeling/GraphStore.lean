import GraphStore.Main
import GraphStore.Json.Document
import GraphStore.Request.Text
import GraphStore.Mutation.Vertices
import GraphStore.Mutation.Edges
import GraphStore.Mutation.ChainedEdges
import GraphStore.Mutation.Update
import GraphStore.Query.Lookup
import GraphStore.Workload.Run
import GraphStore.Proofs.Encoding.Utf8
import GraphStore.Proofs.Encoding.BigEndian
import GraphStore.Proofs.Encoding.Order
import GraphStore.Proofs.Number.Rounding
import GraphStore.Proofs.Number.Order
import GraphStore.Proofs.Number.Monotone
import GraphStore.Proofs.Json.NumberText
import GraphStore.Proofs.Json.RoundTrip
import GraphStore.Proofs.Json.Written
import GraphStore.Proofs.Row.RoundTrip
import GraphStore.Proofs.Row.Written
import GraphStore.Proofs.Row.Given
import GraphStore.Proofs.Row.Slots
import GraphStore.Proofs.Row.Conformity
import GraphStore.Proofs.Row.Naming
import GraphStore.Proofs.Filter.RoundTrip
import GraphStore.Proofs.Filter.Comparison
import GraphStore.Proofs.Filter.Truth
import GraphStore.Proofs.Filter.Kleene
import GraphStore.Proofs.Filter.Knowledge
import GraphStore.Proofs.Key.IndexEntries
import GraphStore.Proofs.Key.Prefix
import GraphStore.Proofs.Key.Rows
import GraphStore.Proofs.Key.Padding
import GraphStore.Proofs.Key.IndexKeys
import GraphStore.Proofs.Key.IndexRoundTrip
import GraphStore.Proofs.Key.IndexReadings
import GraphStore.Proofs.Key.ValueOrder
import GraphStore.Proofs.Key.FixedWidth
import GraphStore.Proofs.Storage.Partition
import GraphStore.Proofs.Storage.StemRange
import GraphStore.Proofs.Storage.Node
import GraphStore.Proofs.Storage.Commute
import GraphStore.Proofs.Fanout.Tracker
import GraphStore.Proofs.Fanout.FanIn
import GraphStore.Proofs.Fanout.Units
import GraphStore.Proofs.Fanout.Flight
import GraphStore.Proofs.Mutation.ChainOrder
import GraphStore.Proofs.Mutation.ChainFlight
import GraphStore.Proofs.Mutation.Splitting
import GraphStore.Proofs.Mutation.Chains
import GraphStore.Proofs.Mutation.Prepared
import GraphStore.Proofs.Mutation.Grouping
import GraphStore.Proofs.Mutation.AllOrNothing
import GraphStore.Proofs.Mutation.Schedules
import GraphStore.Proofs.Mutation.ChainRefinement
import GraphStore.Proofs.Mutation.PartialChains
import GraphStore.Proofs.Mutation.ChainBound
import GraphStore.Proofs.Mutation.Updates
import GraphStore.Proofs.Mutation.PreparedUpdate
import GraphStore.Proofs.Mutation.UpdateVertex
import GraphStore.Proofs.Mutation.Upsert
import GraphStore.Proofs.Index.Content
import GraphStore.Proofs.Index.Removal
import GraphStore.Proofs.Index.GivenRows
import GraphStore.Proofs.Index.Mutations
import GraphStore.Proofs.Mutation.WholeBatches
import GraphStore.Proofs.Run.Event
import GraphStore.Proofs.Run.Overwrites
import GraphStore.Proofs.Run.MissingEntries
import GraphStore.Proofs.Run.StaleEntries
import GraphStore.Proofs.Run.Deletions
import GraphStore.Proofs.Run.Undo
import GraphStore.Proofs.Run.Deletable
import GraphStore.Proofs.Cache.Rows
import GraphStore.Proofs.Cache.Uncached
import GraphStore.Proofs.Index.Touched
import GraphStore.Proofs.Cache.Coherence
import GraphStore.Proofs.Cache.Lookups
import GraphStore.Proofs.Cache.Deletions
import GraphStore.Proofs.Run.Transparency
import GraphStore.Proofs.Query.Order
import GraphStore.Proofs.Query.Execution
import GraphStore.Proofs.Query.Wiring
import GraphStore.Proofs.Query.Assembly
import GraphStore.Proofs.Query.Direct
import GraphStore.Proofs.Query.PlanRefinement
import GraphStore.Proofs.Query.Failures
import GraphStore.Proofs.Query.Merge
import GraphStore.Proofs.Query.StoredHits
import GraphStore.Proofs.Query.FilterSources
import GraphStore.Proofs.Query.Entities
import GraphStore.Proofs.Query.Scan
import GraphStore.Proofs.Query.Hints
import GraphStore.Proofs.Query.DoubleHints
import GraphStore.Proofs.Query.ShownValues
import GraphStore.Proofs.Query.MissingPartitions
import GraphStore.Proofs.Key.Parsing
