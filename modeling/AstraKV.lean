import AstraKV.Lib.Weave
import AstraKV.Lib.ListEdit
import AstraKV.Lib.Cut
import AstraKV.BPTree.Spine
import AstraKV.BPTree.Search
import AstraKV.BPTree.Pair
import AstraKV.BPTree.Insert
import AstraKV.BPTree.Walk
import AstraKV.BPTree.Delete
import AstraKV.BPTree.Rank
import AstraKV.BPTree.Iterate
import AstraKV.BPTree.Run
import AstraKV.BPTree.Shape
import AstraKV.BPTree.Queries
import AstraKV.BPTree.Clear
import AstraKV.Lib.Binary64
import AstraKV.ZSet.ScoredMember
import AstraKV.Lib.Dict
import AstraKV.ZSet.ZSetBPlus
import AstraKV.ZSet.InStep
import AstraKV.ZSet.Range
import AstraKV.ZSet.Run
import AstraKV.ZSet.Exact
import AstraKV.Data.LinkedList
import AstraKV.Data.StreamData
import AstraKV.Lib.LittleEndian
import AstraKV.Data.Eviction2Q
import AstraKV.Data.Metadata
import AstraKV.Data.VectorData
import AstraKV.Engine.Codec
import AstraKV.Engine.Evict
import AstraKV.Engine.Ops
import AstraKV.Engine.Step
import AstraKV.Engine.Slot
import AstraKV.Engine.Local
import AstraKV.Engine.Sweep
import AstraKV.Engine.Consistent
import AstraKV.Engine.Lapse
import AstraKV.Engine.ReadBack
import AstraKV.Engine.TimeToLive
import AstraKV.Engine.Opaque
import AstraKV.Engine.RoundTrip
import AstraKV.Engine.BulkRead
import AstraKV.Engine.Reopen
import AstraKV.Engine.Kind
import AstraKV.Engine.LastPut
import AstraKV.Engine.Extend
import AstraKV.Engine.WriteThrough
import AstraKV.Engine.Reference
import AstraKV.Engine.Refine
import AstraKV.Engine.Course
import AstraKV.Engine.Cleanup
import AstraKV.Data.StreamOrder
import AstraKV.Data.StreamHistory
import AstraKV.Lib.Cursor
import AstraKV.Engine.Decode
import AstraKV.Engine.StreamRecord
import AstraKV.Engine.VectorRecord
import AstraKV.Engine.Memory
import AstraKV.Engine.Pass
import AstraKV.Engine.Victims
import AstraKV.Engine.Collection
import AstraKV.Engine.FirstWrite
import AstraKV.Engine.Progress
import AstraKV.Engine.Together
import AstraKV.Data.EvictionRun
import AstraKV.Data.ListRun
import AstraKV.Lib.WriteLog
import AstraKV.Data.DashMap
import AstraKV.Engine.VectorHistory
import AstraKV.Lib.LastStep
import AstraKV.Data.DashRun
import AstraKV.Lib.BitField
import AstraKV.Data.HyperLogLog
import AstraKV.Lib.Utf8
import AstraKV.Engine.ZsetBuffer
import AstraKV.Lib.Crowd
import AstraKV.Engine.StaleCopy
import AstraKV.Engine.Increment
import AstraKV.Engine.EntryBuffer
import AstraKV.Engine.StreamBuffer
import AstraKV.Engine.Removal
import AstraKV.Lib.Span
import AstraKV.Engine.IndexRange
import AstraKV.Lib.Mutex
import AstraKV.ZSet.ByRank
import AstraKV.Engine.Counter
import AstraKV.ZSet.RangeRemoval
import AstraKV.Engine.StreamAdd
import AstraKV.Data.Bitmap
import AstraKV.Data.SketchBits
import AstraKV.Data.AccessCount
import AstraKV.Engine.LeastVictim
import AstraKV.Engine.Recency
import AstraKV.Engine.VectorSpan
import AstraKV.Data.BitOp
import AstraKV.Data.BitRange
import AstraKV.Data.Simd
import AstraKV.BPTree.ClearHeap
import AstraKV.BPTree.Depth
import AstraKV.Engine.JsonPath
import AstraKV.Lib.Projection
import AstraKV.Engine.Tracked
import AstraKV.Engine.Isolation
import AstraKV.Lib.Tour
import AstraKV.Data.DashScan
import AstraKV.Lib.Tally
import AstraKV.Engine.Stats
import AstraKV.BPTree.Update
import AstraKV.Lib.Points
import AstraKV.Engine.Writers
import AstraKV.Lib.CHeap
import AstraKV.Binding.CApi
import AstraKV.Binding.Rust
import AstraKV.Binding.Calls
import AstraKV.Binding.Served
import AstraKV.Binding.Snapshot
import AstraKV.Binding.EntryId
import AstraKV.Lib.Mixing
import AstraKV.Data.Murmur
import AstraKV.Lib.Contest
import AstraKV.Engine.PutsAndGets
import AstraKV.Engine.PutBeside
import AstraKV.Data.MetadataRun
import AstraKV.Data.SketchCopy
import AstraKV.Engine.EvictBeside
import AstraKV.Data.VectorSearch
import AstraKV.Engine.Cache
import AstraKV.Engine.Diskless
