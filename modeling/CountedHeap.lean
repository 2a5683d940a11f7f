import CountedHeap.Hex
import CountedHeap.Reference
import CountedHeap.Kind
import CountedHeap.Fault
import CountedHeap.Word
import CountedHeap.Memory
import CountedHeap.Block
import CountedHeap.Pool
import CountedHeap.Table
import CountedHeap.Config
import CountedHeap.Operator
import CountedHeap.Failure
import CountedHeap.Layout
import CountedHeap.Text.Utf8
import CountedHeap.Text.Hidden
import CountedHeap.Text.Quoted
import CountedHeap.Output
import CountedHeap.Heap.Basic
import CountedHeap.Heap.Value
import CountedHeap.Heap.Release
import CountedHeap.Heap.Make
import CountedHeap.Heap.Inspect
import CountedHeap.Heap.Order
import CountedHeap.Heap.Lists
import CountedHeap.Heap.Dicts
import CountedHeap.Heap.Operate
import CountedHeap.Heap.Print
import CountedHeap.Heap.Dump
import CountedHeap.Heap.Collect
import CountedHeap.Globals
import CountedHeap.Session.Basic
import CountedHeap.Session.Builtin
import CountedHeap.Proofs.Outcome
import CountedHeap.Proofs.Memory
import CountedHeap.Proofs.Alignment
import CountedHeap.Proofs.Tiling
import CountedHeap.Proofs.FreeList
import CountedHeap.Proofs.Allocation
import CountedHeap.Proofs.Table
import CountedHeap.Proofs.Content
import CountedHeap.Proofs.Store
import CountedHeap.Proofs.Sound
import CountedHeap.Proofs.Making
import CountedHeap.Proofs.Releasing
import CountedHeap.Proofs.Operations
import CountedHeap.Proofs.Edges
import CountedHeap.Proofs.Moving
import CountedHeap.Proofs.Collecting
import CountedHeap.Proofs.Client
import CountedHeap.Proofs.Bijection
import CountedHeap.Proofs.Survivors
import CountedHeap.Proofs.Alike
import CountedHeap.Proofs.Counting
import CountedHeap.Proofs.Hashing
import CountedHeap.Proofs.Ledger
import CountedHeap.Proofs.Accounts
import CountedHeap.Proofs.ListAccounts
import CountedHeap.Proofs.PoolRuns
import CountedHeap.Proofs.Mapping
import CountedHeap.Proofs.Lookups
import CountedHeap.Proofs.Rehashing
import CountedHeap.Proofs.DictAccounts
import CountedHeap.Proofs.Bindings
import CountedHeap.Proofs.OperatorAccounts
import CountedHeap.Proofs.Refcounts
import CountedHeap.Proofs.Completing
import CountedHeap.Proofs.Exhaustion
import CountedHeap.Proofs.Shapes
import CountedHeap.Proofs.Turns
import CountedHeap.Proofs.Programs
import CountedHeap.Proofs.SessionAccounts
import CountedHeap.Proofs.BoundValues
import CountedHeap.Proofs.Paths
import CountedHeap.Proofs.Frames
import CountedHeap.Proofs.Isolation
import CountedHeap.Proofs.Progress
import CountedHeap.Proofs.Coarse
import CountedHeap.Proofs.Evacuating
import CountedHeap.Proofs.TurnPaths
import CountedHeap.Proofs.Reserves
import CountedHeap.Proofs.Dictionaries
import CountedHeap.Proofs.Cycles
import CountedHeap.Proofs.Restoring
import CountedHeap.Proofs.Failures
import CountedHeap.Proofs.Packing
import CountedHeap.Proofs.Repeating
import CountedHeap.Proofs.Mirrors
import CountedHeap.Proofs.PoolTwins
import CountedHeap.Proofs.Twins
import CountedHeap.Proofs.TwinValues
import CountedHeap.Proofs.TwinOperations
import CountedHeap.Proofs.TwinCollections
import CountedHeap.Proofs.Views
import CountedHeap.Proofs.Histories
import CountedHeap.Proofs.TwinSessions
import CountedHeap.Proofs.BestFit
import CountedHeap.Proofs.Serving
import CountedHeap.Proofs.Compaction
import CountedHeap.Proofs.Postorder
import CountedHeap.Proofs.Meanings
import CountedHeap.Proofs.Equality
import CountedHeap.Proofs.Limits
import CountedHeap.Proofs.Answering
import CountedHeap.Proofs.DictAnswering
import CountedHeap.Proofs.Comparing
import CountedHeap.Proofs.Operating
import CountedHeap.Proofs.Printing
import CountedHeap.Proofs.Faultless
import CountedHeap.Proofs.Sparing
import CountedHeap.Proofs.Ordering
import CountedHeap.Proofs.Growing
import CountedHeap.Proofs.Sequences
import CountedHeap.Proofs.Strings
import CountedHeap.Proofs.LoadFactor
import CountedHeap.Proofs.Sizes
import CountedHeap.Proofs.Channel
import CountedHeap.Proofs.Replaying
import CountedHeap.Proofs.Arithmetic
import CountedHeap.Proofs.Lines
import CountedHeap.Proofs.Dumping
import CountedHeap.Proofs.Formats
