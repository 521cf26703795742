import PointCloud.Decimal.Reading
import PointCloud.Kernel.ZigZag
import PointCloud.Kernel.RunLength
import PointCloud.Kernel.SharedBits
import PointCloud.Kernel.Zlib
import PointCloud.Kernel.Zstd
import PointCloud.Kernel.Builtin
import PointCloud.Document.Decode
import PointCloud.Document.Write
import PointCloud.Scheme
import PointCloud.Schema.Basic
import PointCloud.Schema.Description
import PointCloud.Schema.Registry
import PointCloud.Config
import PointCloud.Bytes.Cursor
import PointCloud.Scheme.Payload
import PointCloud.Patch.Basic
import PointCloud.Service
import PointCloud.Kernel.Zstd.Backward
import PointCloud.Kernel.Zstd.Distribution
import PointCloud.Kernel.Zstd.Literals
import PointCloud.Kernel.Zstd.Sequences
import PointCloud.Kernel.Zstd.Checksum
import PointCloud.Proofs.Kernel.RunLength
import PointCloud.Proofs.Bytes.Bits
import PointCloud.Proofs.Kernel.SharedBits
import PointCloud.Proofs.Kernel.Zlib
import PointCloud.Proofs.Column.Plan
import PointCloud.Proofs.Kernel.Zstd
import PointCloud.Proofs.Kernel.Compressors
import PointCloud.Proofs.Bytes.Cursor
import PointCloud.Proofs.Scheme.Dimensional
import PointCloud.Proofs.Scheme.RoundTrip
import PointCloud.Proofs.Key
import PointCloud.Proofs.Scheme.Hierarchical
import PointCloud.Proofs.Binary64.Numeric
import PointCloud.Proofs.Schema.Alike
import PointCloud.Proofs.Patch.Summary
import PointCloud.Proofs.Scheme.Alike
import PointCloud.Proofs.Patch.Reachable
import PointCloud.Proofs.Scheme.Untrusted
import PointCloud.Proofs.Scheme.Lengths
import PointCloud.Proofs.Machine.Step
import PointCloud.Proofs.Machine.Word
import PointCloud.Proofs.Machine.Reader
import PointCloud.Proofs.Machine.Kernel
import PointCloud.Proofs.Machine.Points
import PointCloud.Proofs.Machine.Dimensional
import PointCloud.Proofs.Machine.Hierarchical
import PointCloud.Proofs.Machine.Header
import PointCloud.Proofs.Machine.Payload
import PointCloud.Proofs.Patch.Untrusted
import PointCloud.Proofs.Bytes.Exact
import PointCloud.Proofs.Patch.Wire
import PointCloud.Proofs.Patch.Bounds
import PointCloud.Proofs.Patch.Intersection
import PointCloud.Proofs.Patch.Merge
import PointCloud.Proofs.Scheme.Writing
import PointCloud.Proofs.Patch.Reencoding
import PointCloud.Proofs.Kernel.Inflate
import PointCloud.Proofs.Scheme.PrefixFree
import PointCloud.Proofs.Scheme.PointCount
import PointCloud.Proofs.Patch.Query
import PointCloud.Proofs.Service.Storage
import PointCloud.Proofs.Patch.Sort
import PointCloud.Proofs.Schema.Words
import PointCloud.Proofs.Schema.Making
import PointCloud.Proofs.Patch.Indices
import PointCloud.Proofs.Binary64.Rounding
import PointCloud.Proofs.Binary64.Order
import PointCloud.Proofs.Patch.ByteOrder
import PointCloud.Proofs.Binary64.Narrow
import PointCloud.Proofs.Dimension.Keys
import PointCloud.Proofs.Patch.SortedValues
import PointCloud.Proofs.Binary64.Error
import PointCloud.Proofs.Dimension.Encoding
import PointCloud.Proofs.Patch.Transform
import PointCloud.Proofs.Patch.Extent
import PointCloud.Proofs.Column.Choice
import PointCloud.Proofs.Scheme.Arrangement
import PointCloud.Proofs.Scheme.Planning
import PointCloud.Proofs.Patch.Filter
import PointCloud.Proofs.Patch.Extract
import PointCloud.Proofs.Schema.Layout
import PointCloud.Proofs.Dimension.Faithful
import PointCloud.Proofs.Patch.PointOrder
import PointCloud.Proofs.Patch.Retag
import PointCloud.Proofs.Binary64.Whole
import PointCloud.Proofs.Dimension.Range
import PointCloud.Proofs.Kernel.Varint
import PointCloud.Proofs.Kernel.RunStreams
import PointCloud.Proofs.Kernel.SharedPrefix
import PointCloud.Proofs.Point.Encoders
import PointCloud.Proofs.Column.Tally
import PointCloud.Proofs.Patch.Join
