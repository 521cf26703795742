import PointCloud.Decimal.Style
import PointCloud.Interpretation

/-!
# Errors

Every failure is a cause: what was asked of which data, and what was found instead. The wording is
kept apart, in one `message` function per kind of cause. Failures of the byte kernels are a kind of
their own (`KernelFault`): inside a patch payload they are reported as corruption of the patch,
under the name of the scheme that was reading.
-/

namespace PointCloud

/-! ## Kernels -/

/-- Why a variable-length integer could not be read. -/
inductive VarintFault where
  | unexpectedEnd
  | overflow
  | tooFewBytes (values bytes : Nat)
  | trailingBytes
  deriving DecidableEq, Repr

/-- Why a run-length stream could not be read or written. -/
inductive RunLengthFault where
  | missingRunCount
  | missingValue
  | runOverflow (run expected : Nat)
  | wrongCount (decoded expected : Nat)
  | trailingBytes
  | tooManyRuns (runs : Nat)
  deriving DecidableEq, Repr

/-- Why a zlib stream could not be inflated. -/
inductive ZlibFault where
  | corrupt
  | wrongSize (expected found : Nat)
  deriving DecidableEq, Repr

/-- Why a zstd stream could not be decompressed. -/
inductive ZstdFault where
  | missingSize
  | corrupt
  | wrongSize (expected found : Nat)
  deriving DecidableEq, Repr

/-- A failure of a kernel while reading encoded bytes. -/
inductive KernelFault where
  | varint (fault : VarintFault)
  | runLength (fault : RunLengthFault)
  | sharedBits
  | zlib (fault : ZlibFault)
  | zstd (fault : ZstdFault)
  deriving DecidableEq, Repr

def VarintFault.message : VarintFault → String
  | unexpectedEnd => "Unexpected end of buffer"
  | overflow => "Integer overflow during decoding"
  | tooFewBytes values bytes => s!"{values} values cannot fit in {bytes} bytes"
  | trailingBytes => "Did not consume entire input buffer. Trailing bytes detected."

def RunLengthFault.message : RunLengthFault → String
  | missingRunCount => "Truncated buffer: cannot read run count"
  | missingValue => "Truncated buffer: cannot read value"
  | runOverflow run expected => s!"Run of {run} values overflows the expected {expected} values"
  | wrongCount decoded expected => s!"Decoded to {decoded} values, but expected {expected}"
  | trailingBytes => "Trailing bytes after the last run"
  | tooManyRuns runs => s!"{runs} runs exceed the u32 run counter"

def ZlibFault.message : ZlibFault → String
  | corrupt => "corrupt deflate stream"
  | wrongSize expected found =>
    s!"Inflated size does not match column size. Expected {expected}, got {found}."

def ZstdFault.message : ZstdFault → String
  | missingSize => "Input stream too short to contain size header."
  | corrupt => "corrupt frame"
  | wrongSize expected found =>
    s!"Decompressed size does not match header. Expected {expected}, got {found}."

def KernelFault.message : KernelFault → String
  | varint fault => s!"LEB128 decoding error: {fault.message}"
  | runLength fault => s!"RLE decoding error: {fault.message}"
  | sharedBits => "Bitpack decoding failed due to truncated buffer or data corruption"
  | zlib fault => s!"Deflate operation failed: {fault.message}"
  | zstd fault => s!"Zstd operation failed: {fault.message}"

/-! ## Patch data -/

/-- What is wrong with the bytes of a point or a patch, or with a buffer of points. -/
inductive Corruption where
  | byteOrderMarker (marker : UInt8)
  | addressSpace (points size : Nat)
  | truncated (needed offset available : Nat)
  | truncatedValues (values available : Nat)
  | trailing (context : String) (bytes : Nat)
  | bufferSize (bytes points size : Nat)
  | bufferCount (bytes points : Nat)
  | methodTag (tag : UInt8)
  | columnSize (dimension : String) (bytes points size : Nat)
  | columnTooLong (bytes : Nat)
  | clusterKeyWidth (width : Nat)
  | clusterOverflow (points expected : Nat)
  | clusterTotal (points expected : Nat)
  | sharedBitCount (dimension : String) (shared width : Nat)
  | lowValue (dimension : String) (unique : Nat)
  | missingLength
  | declaredLength (declared expected : Nat)
  | payloadOfEmpty
  | verbatimSize (bytes points size : Nat)
  | decodedLength (scheme : String) (bytes expected : Nat)
  | pointOfPatch (index bytes : Nat) (pcid : UInt32) (size : Nat)
  | pointCount (points : Nat)
  | pointOfSchema (bytes : Nat) (pcid : UInt32) (size : Nat)
  | pointSize (bytes size : Nat)
  | statisticsFlag (flag : UInt8) (points : Nat)
  | entryCount (block : String) (entries dimensions : Nat)
  | kernel (scheme : String) (fault : KernelFault)
  deriving DecidableEq, Repr

def Corruption.message : Corruption → String
  | byteOrderMarker marker => s!"invalid endian marker byte {marker}"
  | addressSpace points size => s!"{points} points of {size} bytes overflow the address space"
  | truncated needed offset available =>
    s!"truncated buffer: needed {needed} bytes at offset {offset}, {available} available"
  | truncatedValues values available =>
    s!"truncated buffer: {values} f64 values need {8 * values} bytes, {available} available"
  | trailing context bytes => s!"{context}: {bytes} trailing bytes"
  | bufferSize bytes points size =>
    s!"point buffer of {bytes} bytes does not hold {points} points of {size} bytes"
  | bufferCount bytes points => s!"point buffer of {bytes} bytes does not hold {points} points"
  | methodTag tag => s!"unknown column method tag {tag}"
  | columnSize dimension bytes points size =>
    s!"column '{dimension}' holds {bytes} bytes, expected {points} values of {size} bytes"
  | columnTooLong bytes => s!"encoded column of {bytes} bytes exceeds the u32 length field"
  | clusterKeyWidth width => s!"Hierarchical key width {width} exceeds 64 bits"
  | clusterOverflow points expected =>
    s!"Hierarchical cluster of {points} points overflows patch of {expected}"
  | clusterTotal points expected =>
    s!"Hierarchical payload holds {points} points, header says {expected}"
  | sharedBitCount dimension shared width =>
    s!"dimension '{dimension}' claims {shared} common bits of {width}"
  | lowValue dimension unique => s!"dimension '{dimension}' low value exceeds {unique} unique bits"
  | missingLength => "ExternalLossless payload lacks its length header"
  | declaredLength declared expected =>
    s!"ExternalLossless payload declares {declared} bytes, expected {expected}"
  | payloadOfEmpty => "ExternalLossless payload for an empty patch is not empty"
  | verbatimSize bytes points size =>
    s!"Uncompressed payload of {bytes} bytes, expected {points} points x {size} bytes"
  | decodedLength scheme bytes expected => s!"{scheme}: decoded {bytes} bytes, expected {expected}"
  | pointOfPatch index bytes pcid size =>
    s!"point {index} holds {bytes} bytes, schema {pcid} points hold {size}"
  | pointCount points => s!"{points} points exceed the u32 point count"
  | pointOfSchema bytes pcid size =>
    s!"point buffer of {bytes} bytes does not match schema {pcid} point size {size}"
  | pointSize bytes size => s!"point buffer of {bytes} bytes does not match point size {size}"
  | statisticsFlag flag points => s!"invalid stats flag {flag} for a patch of {points} points"
  | entryCount block entries dimensions =>
    s!"{block} hold {entries} entries for {dimensions} dimensions"
  | kernel scheme fault => s!"{scheme}: {fault.message}"

/-! ## Schemas -/

/-- Why a schema cannot be built, or cannot serve for what was asked. -/
inductive SchemaFault where
  | noDimensions (pcid : UInt32)
  | position (dimension : String) (found expected : Nat)
  | scale (dimension : String) (value : Binary64)
  | offset (dimension : String) (value : Binary64)
  | duplicateName (dimension : String)
  | missingAxis (pcid : UInt32)
  | tallyCount (tracked dimensions : Nat)
  | tallyCountFor (tracked : Nat) (pcid : UInt32) (dimensions : Nat)
  | spatialReference (found expected : Int)
  deriving DecidableEq, Repr

def SchemaFault.message : SchemaFault → String
  | noDimensions pcid => s!"schema {pcid} has no dimensions"
  | position dimension found expected =>
    "dimension positions must be unique and dense from 0; " ++
      s!"'{dimension}' has position {found}, expected {expected}"
  | scale dimension value =>
    s!"dimension '{dimension}' has invalid scale {NumberStyle.message.text value}"
  | offset dimension value =>
    s!"dimension '{dimension}' has invalid offset {NumberStyle.message.text value}"
  | duplicateName dimension => s!"duplicate dimension name '{dimension}'"
  | missingAxis pcid =>
    s!"Hierarchical compression needs X and Y dimensions; schema {pcid} lacks one"
  | tallyCount tracked dimensions =>
    s!"statistics track {tracked} dimensions, schema has {dimensions}"
  | tallyCountFor tracked pcid dimensions =>
    s!"statistics track {tracked} dimensions, schema {pcid} has {dimensions}"
  | spatialReference found expected =>
    s!"cannot transform from srid {found} to srid {expected}; reprojection is not supported"

/-! ## All errors -/

/-- A failure of the library. -/
inductive Error where
  | unknownSchema (pcid : UInt32)
  | unknownDimension (name : String)
  | missingDimension (name : String)
  | invalidSchema (fault : SchemaFault)
  | valueOutOfRange (dimension : String) (value : Binary64) (interpretation : Interpretation)
  | corruptPatch (cause : Corruption)
  | unsupportedScheme (tag : UInt8)
  | byteOrderMismatch (declared found : ByteOrder)
  | indexOutOfRange (index points : Nat)
  | schemaMismatch (expected found : UInt32)
  | emptyPatchList
  | allocationFailed
  | malformedDocument
  | kernel (fault : KernelFault)
  | wordTooWide (word width : Nat)
  deriving DecidableEq, Repr

namespace Error

/-- The name of a byte order in messages. -/
private def orderName : ByteOrder → String
  | .big => "Big"
  | .little => "Little"

/-- The wording of an error. -/
def message : Error → String
  | unknownSchema pcid => s!"No schema registered for pcid {pcid}"
  | unknownDimension name => s!"Schema has no dimension named '{name}'"
  | missingDimension name => s!"No value supplied for dimension '{name}'"
  | invalidSchema fault => s!"Invalid schema: {fault.message}"
  | valueOutOfRange dimension value interpretation =>
    s!"Value {NumberStyle.message.text value} does not fit dimension " ++
      s!"'{dimension}' ({interpretation.name})"
  | corruptPatch cause => s!"Corrupt patch: {cause.message}"
  | unsupportedScheme tag => s!"Unsupported compression tag {tag}"
  | byteOrderMismatch declared found =>
    s!"Endianness mismatch: schema declares {orderName declared}, data is {orderName found}"
  | indexOutOfRange index points =>
    s!"Point index {index} out of range for patch of {points} points"
  | schemaMismatch expected found =>
    s!"Schema mismatch: expected pcid {expected}, got pcid {found}"
  | emptyPatchList => "Cannot merge an empty list of patches"
  | allocationFailed => "Failed to allocate decode buffer"
  | malformedDocument => "Malformed document"
  | kernel fault => fault.message
  | wordTooWide word width => s!"Bitpack encoding error: value {word} exceeds bit width {width}"

/-- Whether an error was raised by a kernel reading encoded bytes. -/
def isKernelFault : Error → Bool
  | kernel _ => true
  | _ => false

/-- Reports a kernel failure as corruption found while reading the named scheme; any other error
stays as it is. -/
def asCorruption (scheme : String) : Error → Error
  | kernel fault => corruptPatch (.kernel scheme fault)
  | error => error

theorem isKernelFault_asCorruption (scheme : String) (e : Error) :
    (e.asCorruption scheme).isKernelFault = false := by
  cases e <;> rfl

end Error

end PointCloud
