import BundleGraph.Text
import BundleGraph.Text.Utf8
import BundleGraph.Binary64.Shortest
import BundleGraph.OrderedMap
import BundleGraph.CountingSet
import BundleGraph.Path
import BundleGraph.Sha256
import BundleGraph.Json.Tree
import BundleGraph.Error
import BundleGraph.Change
import BundleGraph.Channel
import BundleGraph.Loader
import BundleGraph.Resolution
import BundleGraph.Preorder
import BundleGraph.Module
import BundleGraph.Build
import BundleGraph.World
import BundleGraph.Graph.Traversal
import BundleGraph.Fingerprint
import BundleGraph.Routing
import BundleGraph.Assembly
import BundleGraph.Toml
import BundleGraph.Cache.Depot
import BundleGraph.Cache.Metrics
import BundleGraph.Gzip
import BundleGraph.Gzip.Stored
import BundleGraph.FileTree
import BundleGraph.DeltaSession
import BundleGraph.Config
import BundleGraph.Config.Load
import BundleGraph.Farm.Unit
import BundleGraph.Farm
import BundleGraph.TransformCache
import BundleGraph.Bundler
import BundleGraph.Proofs.Graph.References
import BundleGraph.Proofs.Graph.EditViews
import BundleGraph.Proofs.Graph.Weight
import BundleGraph.Proofs.Graph.Release
import BundleGraph.Proofs.Graph.Sound
import BundleGraph.Proofs.Graph.Released
import BundleGraph.Proofs.Graph.TrialDeletion
import BundleGraph.Proofs.Graph.Scan
import BundleGraph.Proofs.Graph.Collect
import BundleGraph.Proofs.Graph.Arrival
import BundleGraph.Proofs.Graph.Reported
import BundleGraph.Proofs.Graph.Edges
import BundleGraph.Proofs.Graph.Process
import BundleGraph.Proofs.LoadMemo
import BundleGraph.Proofs.Graph.Drain
import BundleGraph.Proofs.Graph.Exact
import BundleGraph.Proofs.Graph.Traverse
import BundleGraph.Proofs.Graph.Initial
import BundleGraph.Proofs.InsertionOrder
import BundleGraph.Proofs.Session
import BundleGraph.Proofs.Graph.Reached
import BundleGraph.Proofs.Session.Reached
import BundleGraph.Proofs.Graph.Recreated
import BundleGraph.Proofs.Graph.Order
import BundleGraph.Proofs.Graph.Fresh
import BundleGraph.Proofs.Session.Fresh
import BundleGraph.Proofs.Graph.Ledger
import BundleGraph.Proofs.Graph.Patch
import BundleGraph.Proofs.Loads
import BundleGraph.Proofs.Loads.Calls
import BundleGraph.Proofs.Graph.Unaffected
import BundleGraph.Proofs.Session.Unaffected
import BundleGraph.Proofs.ChangeHistory
import BundleGraph.Proofs.Session.Changes
import BundleGraph.Proofs.Graph.Schedules
import BundleGraph.Proofs.Build.Input
import BundleGraph.Proofs.Build.Discovery
import BundleGraph.Proofs.Build.Run
import BundleGraph.Proofs.Build.Layout
import BundleGraph.Proofs.Build.Loads
import BundleGraph.Proofs.Build.Closure
import BundleGraph.Proofs.Graph.Expected
import BundleGraph.Proofs.Build.Initial
import BundleGraph.Proofs.Build.Agreement
import BundleGraph.Proofs.Utf8
import BundleGraph.Proofs.FileTree
import BundleGraph.Proofs.Json.Writing
import BundleGraph.Proofs.Json.Reading
import BundleGraph.Proofs.Json.Codec
import BundleGraph.Proofs.Cache.Entries
import BundleGraph.Proofs.Binary64.Interval
import BundleGraph.Proofs.Binary64.Shortest
import BundleGraph.Proofs.Binary64.Text
import BundleGraph.Proofs.Json.Canonical
import BundleGraph.Proofs.Cache.Stem
import BundleGraph.Proofs.Cache.Stores
import BundleGraph.Proofs.Farm
import BundleGraph.Proofs.Cache.Soundness
import BundleGraph.Proofs.Json.Same
import BundleGraph.Proofs.Cache.Identity
import BundleGraph.Proofs.Cache.Keeping
import BundleGraph.Proofs.Cache.Repeats
import BundleGraph.Proofs.Farm.Protocol
import BundleGraph.Proofs.Graph.Garbage
import BundleGraph.Proofs.Graph.Freed
import BundleGraph.Proofs.Queue.Journal
import BundleGraph.Proofs.Graph.Passes
import BundleGraph.Proofs.Graph.Ends
import BundleGraph.Proofs.Cache.Writes
import BundleGraph.Proofs.Path
import BundleGraph.Proofs.Cache.LocalPath
import BundleGraph.Proofs.Cache.KeyPath
import BundleGraph.Proofs.Progress
import BundleGraph.Proofs.Routing
import BundleGraph.Proofs.ChangeHistory.Overlap
import BundleGraph.Proofs.Graph.Lossless
import BundleGraph.Proofs.CountingSet
