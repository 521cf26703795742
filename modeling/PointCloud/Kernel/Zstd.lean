import PointCloud.Capacity
import PointCloud.Kernel.Compressors
import PointCloud.Kernel.Zstd.Block
import PointCloud.Kernel.Zstd.Checksum

/-!
# Zstd streams

A stream is the length of its content, eight bytes wide, and a sequence of frames; no content has no
stream at all. A frame is a header, blocks and perhaps a checksum of its content. Frames may
announce the length of their content; skippable frames carry none. Frames that need a dictionary are
refused.

A frame that announces little content is read in one go. Others are read block by block: then blocks
are held to the length that the header allows, and only the content that is kept can be copied from.

Frames are written by a compressor.
-/

namespace PointCloud

namespace Zstd

/-! ## Reading -/

/-- The number that opens a frame. -/
def frameMagic : Nat := 0xfd2fb528

/-- The number that opens a skippable frame, apart from its lowest four bits. -/
def skippableMagic : Nat := 0x184d2a5

/-- The greatest length of a block. -/
def blockLimit : Nat := 131072

/-- The least window. -/
def windowLeast : Nat := 1024

/-- The greatest window of a frame that is read block by block. -/
def windowLimit : Nat := 2 ^ 27 + 1

/-- The greatest content of a frame that is read in one go, if it is announced. -/
def wholeLimit : Nat := 8192

/-- What a frame header says of the blocks that follow. -/
structure FrameHeader where
  /-- How far back copies may reach. -/
  window : Nat
  /-- The announced length of the content. -/
  content? : Option Nat
  /-- Whether a checksum follows the last block. -/
  checked : Bool
  deriving DecidableEq, Repr

namespace FrameHeader

/-- The greatest block that the frame may hold. -/
def blockLimit (h : FrameHeader) : Nat := min Zstd.blockLimit h.window

/-- Whether the frame is read in one go. -/
def isWhole (h : FrameHeader) : Bool := h.content?.any (· ≤ wholeLimit)

/-- How much content is kept in front of the reader of a frame that is read block by block. It has
to hold the window, a block, and a block that is being unpacked. -/
def kept (h : FrameHeader) : Nat :=
  let full := max h.window windowLeast + 2 * h.blockLimit + 2 * Room.slack
  h.content?.elim full (min · full)

/-- Whether content has the announced length. -/
def fits (h : FrameHeader) (content : Array UInt8) : Bool := h.content?.all (· = content.size)

end FrameHeader

/-- Reads the length of the content, which is announced in one of five ways; the greatest number of
eight bytes announces nothing. -/
def takeContent? (width : Nat) (single : Bool) (bytes : Bytes) : Option (Option Nat × Bytes) :=
  match width with
  | 0 =>
    if single then (takeNumber? 1 bytes).map fun (n, rest) => (some n, rest) else some (none, bytes)
  | 1 => (takeNumber? 2 bytes).map fun (n, rest) => (some (n + 256), rest)
  | 2 => (takeNumber? 4 bytes).map fun (n, rest) => (some n, rest)
  | _ => (takeNumber? 8 bytes).map fun (n, rest) => (if n = 2 ^ 64 - 1 then none else some n, rest)

/-- Reads a frame header: a descriptor, a window unless the frame is a single segment, the number of
a dictionary, which has to be none, and the length of the content. -/
def takeHeader? (bytes : Bytes) : Option (FrameHeader × Bytes) := do
  let (descriptor, bytes) ← takeNumber? 1 bytes
  -- One bit is reserved.
  guard (descriptor / 8 % 2 = 0)
  let single : Bool := descriptor / 32 % 2 = 1
  let (scale, bytes) ← if single then some (0, bytes) else takeNumber? 1 bytes
  guard (10 + scale / 8 ≤ 31)
  let (dictionary, bytes) ← takeNumber? ([0, 1, 2, 4].getD (descriptor % 4) 0) bytes
  guard (dictionary = 0)
  let (content?, bytes) ← takeContent? (descriptor / 64) single bytes
  let window :=
    if single then content?.getD (2 ^ 64) else 2 ^ (10 + scale / 8) * (8 + scale % 8) / 8
  return (⟨window, content?, descriptor / 4 % 2 = 1⟩, bytes)

/-- Reads one block of a kind and a size, with the bytes after it. -/
def takeBlock? (kind size : Nat) (room : Room) (p : Progress) (bytes : Bytes) :
    Option (Progress × Bytes) := do
  match kind with
  | 0 =>
    let (content, rest) ← takeBytes? size bytes
    guard (size ≤ room.free)
    return (p.append content, rest)
  | 1 =>
    let (b, rest) ← takeNumber? 1 bytes
    guard (size ≤ room.free)
    return (p.append (List.replicate size (UInt8.ofNat b)), rest)
  | 2 =>
    let (packed, rest) ← takeBytes? size bytes
    guard (size ≤ room.limit)
    return (← p.unpack? room packed, rest)
  | _ => none

/-- Reads the blocks of a frame in one go, at most `steps` of them. The length of a block is not
looked at, as long as there is room for all the content. -/
def takeWhole? (h : FrameHeader) : Nat → Progress → Bytes → Option (Array UInt8 × Bytes)
  | 0, _, _ => none
  | steps + 1, p, bytes => do
    let (header, bytes) ← takeNumber? 3 bytes
    -- A bit for the last block, two for the kind, and the size.
    let room : Room := ⟨h.blockLimit, wholeLimit - p.out.size⟩
    let (p, bytes) ← takeBlock? (header / 2 % 4) (header / 8) room p bytes
    if header % 2 = 0 then takeWhole? h steps p bytes
    else
      guard (h.fits p.out)
      return (p.out, bytes)

/-- Reads the blocks of a frame one by one, at most `steps` of them. What is kept of the content
began at byte `start`. A block without bytes is passed over; if it is the last one, the length of
the content is not looked at. -/
def takeStreamed? (h : FrameHeader) :
    Nat → Nat → Progress → Bytes → Option (Array UInt8 × Bytes)
  | 0, _, _, _ => none
  | steps + 1, start, p, bytes => do
    let (header, bytes) ← takeNumber? 3 bytes
    let (final, kind, size) := (header % 2 == 1, header / 2 % 4, header / 8)
    if size = 0 && kind % 2 = 0 then
      if final then return (p.out, bytes) else takeStreamed? h steps start p bytes
    else
      let room : Room := ⟨h.blockLimit, min h.blockLimit (h.kept - (p.out.size - start))⟩
      let (p, bytes) ← takeBlock? kind size room p bytes
      if final then
        guard (h.fits p.out)
        return (p.out, bytes)
      -- Without room for another block, what is kept is laid aside, and something new is begun.
      else if h.kept < h.content?.getD (h.kept + 1) &&
          h.kept < p.out.size - start + h.blockLimit then
        takeStreamed? h steps p.out.size { p with oldest := start } bytes
      else takeStreamed? h steps start p bytes

/-- Reads one frame, with the bytes after it. -/
def takeFrame? (bytes : Bytes) : Option (Bytes × Bytes) := do
  let (magic, bytes) ← takeNumber? 4 bytes
  if magic / 16 = skippableMagic then
    let (size, bytes) ← takeNumber? 4 bytes
    let (_, bytes) ← takeBytes? size bytes
    return ([], bytes)
  guard (magic = frameMagic)
  let (header, bytes) ← takeHeader? bytes
  let steps := bytes.length + 1
  let (content, bytes) ←
    if header.isWhole then takeWhole? header steps {} bytes
    else if header.window ≤ windowLimit then takeStreamed? header steps 0 {} bytes
    else none
  let content := content.toList
  if !header.checked then return (content, bytes)
  let (written, bytes) ← takeNumber? 4 bytes
  guard (written = (checksum content).toNat % 2 ^ 32)
  return (content, bytes)

/-- Reads frames up to the end of the bytes: one at least, at most `steps`. -/
def frames? : Nat → Bytes → Option Bytes
  | 0, _ => none
  | steps + 1, bytes => do
    let (content, bytes) ← takeFrame? bytes
    if bytes.isEmpty then return content
    let more ← frames? steps bytes
    return content ++ more

/-- The content of a stream. -/
def decode (bytes : Bytes) : Except Error Bytes := do
  if bytes.isEmpty then return []
  if bytes.length < 8 then throw (.kernel (.zstd .missingSize))
  let size := Numeral.ofBytes (bytes.take 8)
  reserve size
  match frames? (bytes.length + 1) (bytes.drop 8) with
  | none => throw (.kernel (.zstd .corrupt))
  | some content =>
    if content.length ≠ size then throw (.kernel (.zstd (.wrongSize size content.length)))
    return content

/-! ## Writing -/

/-- The length of content, in front of its frames. -/
def withLength (content frames : Bytes) : Bytes := Numeral.toBytes 8 content.length ++ frames

/-- The stream of a byte string. A level that is not given is that of the compressor itself. -/
def encode [Compressors] (content : Bytes) (level : Int := 3) : Bytes :=
  if content.isEmpty then [] else withLength content (Compressors.zstd level content)

end Zstd

end PointCloud
