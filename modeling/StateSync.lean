import StateSync.Bytes
import StateSync.Bytes.Hex
import StateSync.Bytes.Lemmas
import StateSync.ChainData
import StateSync.Channel
import StateSync.Error
import StateSync.Hash
import StateSync.Hash.Lemmas
import StateSync.Keccak
import StateSync.Proofs.Arena
import StateSync.Proofs.BranchCache.Depth
import StateSync.Proofs.BranchCache.Filter
import StateSync.Proofs.BranchCache.Insert
import StateSync.Proofs.BranchCache.Lineage
import StateSync.Proofs.BranchCache.Lookup
import StateSync.Proofs.BranchCache.Operations
import StateSync.Proofs.BranchCache.Reachable
import StateSync.Proofs.BranchCache.Retention
import StateSync.Proofs.BranchCache.Strict
import StateSync.Proofs.BranchCache.Structure
import StateSync.Proofs.BranchCache.Traversals
import StateSync.Proofs.BranchCache.Versions
import StateSync.Proofs.ByteStore
import StateSync.Proofs.HexPrefix
import StateSync.Proofs.HexPrefix.Buffer
import StateSync.Proofs.LayeredReader
import StateSync.Proofs.LayeredReader.Forgotten
import StateSync.Proofs.Nibbles
import StateSync.Proofs.Nibbles.Order
import StateSync.Proofs.NodeCode.Canonical
import StateSync.Proofs.NodeCode.Grammar
import StateSync.Proofs.NodeCode.Parts
import StateSync.Proofs.NodeCode.Strict
import StateSync.Proofs.NodeStore.Boundaries
import StateSync.Proofs.NodeStore.Calls
import StateSync.Proofs.NodeStore.Contents
import StateSync.Proofs.NodeStore.Digests
import StateSync.Proofs.NodeStore.Durability
import StateSync.Proofs.NodeStore.Eviction
import StateSync.Proofs.NodeStore.Failures
import StateSync.Proofs.NodeStore.Flushes
import StateSync.Proofs.NodeStore.Memory
import StateSync.Proofs.NodeStore.Operations
import StateSync.Proofs.NodeStore.Queues
import StateSync.Proofs.NodeStore.Resolution
import StateSync.Proofs.NodeStore.Settlement
import StateSync.Proofs.NodeStore.Spellings
import StateSync.Proofs.NodeStore.Views
import StateSync.Proofs.NodeStore.Witnesses
import StateSync.Proofs.Pivot
import StateSync.Proofs.Position
import StateSync.Proofs.PrefixScan
import StateSync.Proofs.Tracker.Calls
import StateSync.Proofs.Tracker.Finish
import StateSync.Proofs.Tracker.Idle
import StateSync.Proofs.Tracker.Ledger
import StateSync.Proofs.Tracker.Progress
import StateSync.Proofs.Tracker.Reports
import StateSync.Proofs.Tracker.Restart
import StateSync.Proofs.Tracker.Retries
import StateSync.Proofs.Tracker.Schedule
import StateSync.Proofs.Tracker.Session
import StateSync.Proofs.Tracker.Targets
import StateSync.Proofs.Witness
import StateSync.Rounding
import StateSync.Store.Arena
import StateSync.Store.Backend
import StateSync.Store.Branch
import StateSync.Store.BranchCache
import StateSync.Store.BranchCursor
import StateSync.Store.ByteStore
import StateSync.Store.Config
import StateSync.Store.Delta
import StateSync.Store.KeyFilter
import StateSync.Store.LayeredReader
import StateSync.Store.NodeStore
import StateSync.Store.NodeStore.Commit
import StateSync.Store.NodeStore.Finish
import StateSync.Store.NodeStore.Flush
import StateSync.Store.Policy
import StateSync.Store.ReadOnlyView
import StateSync.Sync.Batch
import StateSync.Sync.Error
import StateSync.Sync.Log
import StateSync.Sync.Metrics
import StateSync.Sync.Pivot
import StateSync.Sync.Tracker
import StateSync.Sync.Tracker.Report
import StateSync.Sync.Tracker.Request
import StateSync.Sync.Tracker.Schedule
import StateSync.Trie.HexPrefix
import StateSync.Trie.Key
import StateSync.Trie.Nibbles
import StateSync.Trie.NodeCode
import StateSync.Trie.Resolver
import StateSync.Word
