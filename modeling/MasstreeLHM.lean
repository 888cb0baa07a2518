import MasstreeLHM.AddedNode
import MasstreeLHM.ChainInsert
import MasstreeLHM.Chains
import MasstreeLHM.Children
import MasstreeLHM.Clients
import MasstreeLHM.Cover
import MasstreeLHM.Cursor
import MasstreeLHM.DirectoryMeta
import MasstreeLHM.DirectoryNotes
import MasstreeLHM.DirectoryTree
import MasstreeLHM.Divide
import MasstreeLHM.EdgeUpdates
import MasstreeLHM.FileKinds
import MasstreeLHM.FileRename
import MasstreeLHM.Insert
import MasstreeLHM.InternodeArrays
import MasstreeLHM.Invariant
import MasstreeLHM.KeyTable.Bags
import MasstreeLHM.KeyTable.Cells
import MasstreeLHM.KeyTable.Denotation
import MasstreeLHM.KeyTable.Halves
import MasstreeLHM.KeyTable.Insertions
import MasstreeLHM.KeyTable.LeafRuns
import MasstreeLHM.KeyTable.Lookups
import MasstreeLHM.KeyTable.MapRuns
import MasstreeLHM.KeyTable.NewLayer
import MasstreeLHM.KeyTable.Parting
import MasstreeLHM.KeyTable.Removals
import MasstreeLHM.KeyTable.Room
import MasstreeLHM.KeyTable.Runs
import MasstreeLHM.KeyTable.ScanRuns
import MasstreeLHM.KeyTable.ScanSteps
import MasstreeLHM.KeyTable.ScanTable
import MasstreeLHM.KeyTable.SlotOrder
import MasstreeLHM.KeyTable.Spelling
import MasstreeLHM.KeyTable.StringScan
import MasstreeLHM.KeyTable.StringTable
import MasstreeLHM.Keys.Bytewise
import MasstreeLHM.Keys.Key
import MasstreeLHM.Keys.Order
import MasstreeLHM.Keys.PathCodec
import MasstreeLHM.Kpermuter
import MasstreeLHM.Layer
import MasstreeLHM.LayerPointers
import MasstreeLHM.Layers.AddedEdge
import MasstreeLHM.Layers.Collapse
import MasstreeLHM.Layers.Contents
import MasstreeLHM.Layers.Destroy
import MasstreeLHM.Layers.GcRoot
import MasstreeLHM.Layers.Gone
import MasstreeLHM.Layers.Metadata
import MasstreeLHM.Layers.OtherLayers
import MasstreeLHM.Layers.RootSwap
import MasstreeLHM.Layers.Steps
import MasstreeLHM.Layers.Unlink
import MasstreeLHM.Layers.Worklist
import MasstreeLHM.LeafSplit
import MasstreeLHM.Leaves
import MasstreeLHM.LinkSplit
import MasstreeLHM.Listing
import MasstreeLHM.Log.Agreement
import MasstreeLHM.Log.Apply
import MasstreeLHM.Log.Confluence
import MasstreeLHM.Log.Endian
import MasstreeLHM.Log.Epochs
import MasstreeLHM.Log.Frames
import MasstreeLHM.Log.Journal
import MasstreeLHM.Log.Msgpack
import MasstreeLHM.Log.Prefix
import MasstreeLHM.Log.Protocol
import MasstreeLHM.Log.Query
import MasstreeLHM.Log.Record
import MasstreeLHM.Log.Recovery
import MasstreeLHM.Log.Replay
import MasstreeLHM.Log.Skip
import MasstreeLHM.Log.Torn
import MasstreeLHM.Log.ValueBag
import MasstreeLHM.Log.Wakes
import MasstreeLHM.Move
import MasstreeLHM.Names
import MasstreeLHM.Namespace
import MasstreeLHM.NestedDirectories
import MasstreeLHM.Node
import MasstreeLHM.Optimistic.Calm
import MasstreeLHM.Optimistic.Contents
import MasstreeLHM.Optimistic.Locking
import MasstreeLHM.Optimistic.Runs
import MasstreeLHM.Optimistic.Searches
import MasstreeLHM.Optimistic.Sections
import MasstreeLHM.Optimistic.SharedLeaf
import MasstreeLHM.Optimistic.Stores
import MasstreeLHM.Optimistic.Updates
import MasstreeLHM.Optimistic.Validated
import MasstreeLHM.PathKey
import MasstreeLHM.PathPieces
import MasstreeLHM.PathRuns
import MasstreeLHM.Paths
import MasstreeLHM.PendingSplit
import MasstreeLHM.Pointers
import MasstreeLHM.Rcu.Limbo
import MasstreeLHM.Rcu.Linked
import MasstreeLHM.Rcu.Ring
import MasstreeLHM.Rcu.RingRuns
import MasstreeLHM.Rcu.Sections
import MasstreeLHM.Reach
import MasstreeLHM.Reference
import MasstreeLHM.Registry
import MasstreeLHM.Remove
import MasstreeLHM.Rename
import MasstreeLHM.RenameTree
import MasstreeLHM.Resolve
import MasstreeLHM.RootChains
import MasstreeLHM.RootListing
import MasstreeLHM.Rows.Arrays
import MasstreeLHM.Rows.Bag
import MasstreeLHM.Rows.Fill
import MasstreeLHM.Rows.Histories
import MasstreeLHM.Rows.Layout
import MasstreeLHM.Rows.Memory
import MasstreeLHM.Rows.Requests
import MasstreeLHM.Rows.Update
import MasstreeLHM.Runs
import MasstreeLHM.Scan
import MasstreeLHM.ScanDepth
import MasstreeLHM.ScanPaths
import MasstreeLHM.Search
import MasstreeLHM.Separators
import MasstreeLHM.Serial
import MasstreeLHM.Shift
import MasstreeLHM.Split
import MasstreeLHM.Stream.Building
import MasstreeLHM.Stream.Calls
import MasstreeLHM.Stream.Json
import MasstreeLHM.Stream.Memo
import MasstreeLHM.Stream.Parser
import MasstreeLHM.Stream.Refinement
import MasstreeLHM.Stream.RoundTrip
import MasstreeLHM.Stream.Unparse
import MasstreeLHM.Suffixes.BagInUse
import MasstreeLHM.Suffixes.BagRuns
import MasstreeLHM.Suffixes.LeafArea
import MasstreeLHM.Suffixes.Store
import MasstreeLHM.Suffixes.Stringbag
import MasstreeLHM.Table
import MasstreeLHM.Tree
import MasstreeLHM.Trie.Enumeration
import MasstreeLHM.Trie.LayerMap
import MasstreeLHM.Unhook
import MasstreeLHM.Update
import MasstreeLHM.Words.Nibbles
import MasstreeLHM.Words.Nodeversion
import MasstreeLHM.Words.PackedPermuter
import MasstreeLHM.Words.PermuterRuns
