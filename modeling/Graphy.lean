import Graphy.Core.Term
import Graphy.Core.Text
import Graphy.Core.Iri
import Graphy.Core.Concise
import Graphy.Algebra.Tree
import Graphy.Misc.Int128
import Graphy.Misc.Digits
import Graphy.Misc.Ieee
import Graphy.Core.Inline
import Graphy.Algebra.Rewrite
import Graphy.Algebra.Proofs.Tree
import Graphy.Algebra.Proofs.Sink
import Graphy.Algebra.Proofs.Canonical
import Graphy.Algebra.Proofs.Simplified
import Graphy.Algebra.Proofs.Idempotent
import Graphy.Core.Proofs.Calendar
import Graphy.Core.Proofs.Concise
import Graphy.Misc.Utf8
import Graphy.Core.Proofs.Text
import Graphy.Core.Proofs.Encode
import Graphy.Core.Proofs.Encoded
import Graphy.Core.Proofs.Inline
import Graphy.Core.Rfc3986
import Graphy.Core.Proofs.Rfc3986
import Graphy.Core.Proofs.Iri
import Graphy.Core.Proofs.Resolve
import Graphy.Core.Spelling
import Graphy.Core.Proofs.Spelling
import Graphy.Misc.Scaled
import Graphy.Core.ValueOrder
import Graphy.Core.Proofs.ValueOrder
import Graphy.Core.TermId
import Graphy.Engine.Decimal
import Graphy.Engine.Proofs.Decimal
import Graphy.Engine.Temporal
import Graphy.Engine.Timeline
import Graphy.Engine.Proofs.Temporal
import Graphy.Engine.Proofs.Timeline
import Graphy.Interop.JsonLd
import Graphy.Misc.LittleEndian
import Graphy.Misc.PackedBits
import Graphy.Misc.Search
import Graphy.Misc.BitVector
import Graphy.Misc.WaveletMatrix
import Graphy.Succinct.PackedInts
import Graphy.Succinct.Serial
import Graphy.Succinct.Proofs.PackedInts
import Graphy.Succinct.Proofs.Serial
import Graphy.Interop.Proofs.JsonLd
import Graphy.Misc.Chunks
import Graphy.Misc.Clients
import Graphy.Misc.Conflicts
import Graphy.Misc.Csv
import Graphy.Misc.Outcome
import Graphy.Misc.Emits
import Graphy.Misc.FirstSeen
import Graphy.Misc.Incremental
import Graphy.Misc.Interleave
import Graphy.Misc.Layout
import Graphy.Misc.MinHeap
import Graphy.Misc.OrderedMap
import Graphy.Misc.Overlay
import Graphy.Misc.Probing
import Graphy.Misc.Push
import Graphy.Misc.SetUpdate
import Graphy.Misc.SortedSources
import Graphy.Misc.Xml
import Graphy.Turtle.Terms
import Graphy.Turtle.Quad
import Graphy.Turtle.Parser
import Graphy.Pipe.Event
import Graphy.Pipe.Ops
import Graphy.Pipe.Plan
import Graphy.Pipe.Meaning
import Graphy.Pipe.Proofs.Event
import Graphy.Pipe.Proofs.Slices
import Graphy.Pipe.Proofs.Tree
import Graphy.Pipe.Proofs.Chain
import Graphy.Pipe.Proofs.Concat
import Graphy.Pipe.Proofs.Sender
import Graphy.Pipe.Proofs.Merge
import Graphy.Pipe.Proofs.Delivery
import Graphy.Turtle.Lexer
import Graphy.Turtle.Writer
import Graphy.Protocol.Results
import Graphy.Protocol.Faithful
import Graphy.Turtle.Nx
import Graphy.Turtle.Proofs.Lexing
import Graphy.Turtle.Proofs.Reading
import Graphy.Protocol.Proofs.Tables
import Graphy.Protocol.Proofs.Csv
import Graphy.Protocol.Proofs.Json
import Graphy.Protocol.Proofs.Tsv
import Graphy.Protocol.Proofs.Xml
import Graphy.Protocol.Proofs.Faithful
import Graphy.Store.Dictionary
import Graphy.Store.Bt
import Graphy.Store.Foq
import Graphy.Store.Segment
import Graphy.Store.Delta
import Graphy.Store.Snapshot
import Graphy.Store.Commit
import Graphy.Store.Wal
import Graphy.Store.Group
import Graphy.Server.Requests
import Graphy.Store.Proofs.Bt
import Graphy.Store.Proofs.BtNavigation
import Graphy.Store.Proofs.Segment
import Graphy.Store.Proofs.Build
import Graphy.Store.Proofs.Delta
import Graphy.Store.Proofs.Snapshot
import Graphy.Store.Proofs.Commit
import Graphy.Store.Proofs.Group
import Graphy.Store.Proofs.Open
import Graphy.Server.Proofs.Requests
import Graphy.Store.BtBytes
import Graphy.Store.Scan
import Graphy.Store.WalBytes
import Graphy.Store.WalRecords
import Graphy.Store.Capture
import Graphy.Store.DictMerge
import Graphy.Store.Merge
import Graphy.Store.System
import Graphy.Store.Compaction
import Graphy.Succinct.RankSelect
import Graphy.Store.PackedBt
import Graphy.Store.Count
import Graphy.Store.Proofs.GroupAnswers
import Graphy.Store.Proofs.Sources
import Graphy.Store.Proofs.SourceRows
import Graphy.Store.Proofs.DeltaRange
import Graphy.Store.Proofs.SegmentScan
import Graphy.Store.Proofs.Scan
import Graphy.Store.Proofs.SnapshotScan
import Graphy.Store.Proofs.WalBytes
import Graphy.Store.Proofs.WalRecords
import Graphy.Store.Proofs.Capture
import Graphy.Store.Proofs.Alike
import Graphy.Succinct.Proofs.BitStream
import Graphy.Succinct.Proofs.Directory
import Graphy.Succinct.Proofs.RankSelect
import Graphy.Succinct.Reference
import Graphy.Succinct.Proofs.Reference
import Graphy.Store.Proofs.PackedBt
import Graphy.Store.Proofs.BtBytes
import Graphy.Store.Proofs.DeltaAgreement
import Graphy.Store.Proofs.Identity
import Graphy.Store.Proofs.Compaction
import Graphy.Store.Proofs.Count
import Graphy.Succinct.Wavelet
import Graphy.Succinct.Proofs.Wavelet
import Graphy.Store.Proofs.Directories
import Graphy.Store.Proofs.Ephemeral
import Graphy.Store.Proofs.MergeScan
import Graphy.Store.Proofs.System
import Graphy.Store.Proofs.SystemCalls
import Graphy.Store.Proofs.SystemEpochs
import Graphy.Store.Proofs.SystemAnswers
import Graphy.Store.Proofs.Visibility
import Graphy.Store.Proofs.Poison
import Graphy.Succinct.Pfc
import Graphy.Store.Sidecar
import Graphy.Succinct.Proofs.Pfc
import Graphy.Succinct.Proofs.PfcBuild
import Graphy.Succinct.Proofs.PfcBytes
import Graphy.Store.Proofs.Sidecar
import Graphy.Store.Proofs.SnapshotCount
import Graphy.Succinct.ExtSort
import Graphy.Succinct.Proofs.ExtSort
import Graphy.Turtle.Highlight
import Graphy.Turtle.Driver
import Graphy.Turtle.Proofs.Spans
import Graphy.Turtle.Proofs.Highlight
import Graphy.Turtle.Proofs.Stable
import Graphy.Turtle.Proofs.Feeding
import Graphy.Turtle.Proofs.Chunks
import Graphy.Turtle.Proofs.Emission
import Graphy.Turtle.Proofs.Coherence
import Graphy.Turtle.Proofs.Delivery
import Graphy.Turtle.Proofs.Handlers
import Graphy.Turtle.Proofs.Objects
import Graphy.Turtle.Proofs.Quads
import Graphy.Turtle.Proofs.Taking
import Graphy.Turtle.Proofs.TtlEmits
import Graphy.Turtle.Proofs.Runs
import Graphy.Turtle.Proofs.DeepReifier
import Graphy.Turtle.Proofs.Driving
import Graphy.Turtle.RoundTrip
import Graphy.Turtle.Proofs.NQuads
import Graphy.Turtle.Proofs.NxEmits
import Graphy.Turtle.Proofs.Sizes
import Graphy.Turtle.Proofs.RoundTrip
import Graphy.Turtle.Proofs.NxChunks
import Graphy.Turtle.Proofs.Shown
import Graphy.Turtle.Proofs.TtlChunks
import Graphy.Store.Proofs.DictMerge
