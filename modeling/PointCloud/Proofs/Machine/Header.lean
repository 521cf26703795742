import Mathlib
import PointCloud.Patch.Wire
import PointCloud.Proofs.Machine.Reader

/-!
# Serialized patches on the machine

A header is read field by field; what is left of the bytes behind it is the payload, by a difference
and a slice that are in range because no field reaches past the end.

Main results:

* `Machine.readHeader_safe`, `Machine.deserialize_safe` — the machine reads a header and a patch as
  they are meant to be read, and no step on the way is out of range.
-/

namespace PointCloud

namespace Machine

/-- Reads the marker and the identifier in front of serialized data, and finds their schema. -/
def readOwner (registry : Registry) (bytes : Bytes) : Run (Schema × Reader bytes) := do
  let (marker, r) ← (Reader.start bytes).byte
  match ByteOrder.ofMarker? marker with
  | none => refuse (.corruptPatch (.byteOrderMarker marker))
  | some found =>
    let (pcid, r) ← r.uint32 found
    let s ← ofReader (registry.resolve pcid)
    if s.order ≠ found then refuse (.byteOrderMismatch s.order found)
    return (s, r)

/-- Reads the statistics of a patch of `count` points, behind their flag. -/
def readStatistics {input : Bytes} (order : ByteOrder) (width : Nat) (count : UInt32)
    (r : Reader input) : Run (Option Statistics × Reader input) := do
  let (flag, r) ← r.byte
  if flag = 0 then return (none, r)
  if flag ≠ 1 || count = 0 then refuse (.corruptPatch (.statisticsFlag flag count.toNat))
  let (lows, r) ← r.floats order width
  let (highs, r) ← r.floats order width
  let (averages, r) ← r.floats order width
  return (some ⟨lows, highs, averages⟩, r)

/-- Reads a header, with the schema that the patch belongs to. -/
def readHeader (registry : Registry) (bytes : Bytes) : Run (Schema × PatchHeader) := do
  let (s, r) ← readOwner registry bytes
  let (tag, r) ← r.byte
  let scheme ← ofReader (Scheme.ofTag tag)
  let (count, r) ← r.uint32 s.order
  let (lows, r) ← r.floats s.order s.width
  let (highs, r) ← r.floats s.order s.width
  let bounds := if count = 0 then .empty else .extent lows highs
  let (statistics, r) ← readStatistics s.order s.width count r
  let _ ← sub bytes.length r.position
  let payload ← slice bytes r.position bytes.length
  return (s,
    { order := s.order, pcid := s.pcid, scheme, count, bounds, statistics
      size := r.position, payload })

/-- Reads a serialized patch, with the schema that it belongs to. -/
def deserialize (registry : Registry) (bytes : Bytes) : Run (Schema × Patch) := do
  let (s, h) ← readHeader registry bytes
  return (s,
    { pcid := h.pcid, scheme := h.scheme, count := h.count, bounds := h.bounds
      statistics := h.statistics, payload := h.payload })

open Reader (Same)

theorem readOwner_follows (registry : Registry) {bytes : Bytes} (hshort : bytes.length < 2 ^ 63) :
    Follows Same (readOwner registry bytes) (Point.readOwner registry bytes) := by
  unfold readOwner Point.readOwner
  refine (Reader.byte_follows (Reader.at_start hshort)).bind ?_
  rintro ⟨marker, r⟩ ⟨_, c⟩ ⟨rfl, hat⟩
  dsimp only
  cases ByteOrder.ofMarker? marker with
  | none => exact .refused _
  | some found =>
    refine (Reader.uint32_follows hat found).bind ?_
    rintro ⟨pcid, r⟩ ⟨_, c⟩ ⟨rfl, hat⟩
    refine (Follows.ofReader _).bind ?_
    rintro s _ rfl
    simp only [Result.throw_eq, Result.error_bind, refuse_bind]
    exact Follows.check _ Iff.rfl fun _ => .ok ⟨rfl, hat⟩

theorem readStatistics_follows {input : Bytes} (order : ByteOrder) (width : Nat) (count : UInt32)
    {r : Reader input} {c : Cursor} (hat : r.At c) :
    Follows Same (readStatistics order width count r)
      (PatchHeader.readStatistics order width count c) := by
  unfold readStatistics PatchHeader.readStatistics
  refine (Reader.byte_follows hat).bind ?_
  rintro ⟨flag, r⟩ ⟨_, c⟩ ⟨rfl, hat⟩
  dsimp only
  by_cases hnone : flag = 0
  · rw [if_pos hnone, if_pos hnone]
    exact .ok ⟨rfl, hat⟩
  rw [if_neg hnone, if_neg hnone]
  simp only [Result.throw_eq, Result.error_bind, refuse_bind]
  refine Follows.check _ Iff.rfl fun _ => ?_
  refine (Reader.floats_follows hat order width).bind ?_
  rintro ⟨lows, r⟩ ⟨_, c⟩ ⟨rfl, hat⟩
  refine (Reader.floats_follows hat order width).bind ?_
  rintro ⟨highs, r⟩ ⟨_, c⟩ ⟨rfl, hat⟩
  refine (Reader.floats_follows hat order width).bind ?_
  rintro ⟨averages, r⟩ ⟨_, c⟩ ⟨rfl, hat⟩
  exact .ok ⟨rfl, hat⟩

theorem readHeader_follows (registry : Registry) {bytes : Bytes} (hshort : bytes.length < 2 ^ 63) :
    Follows Eq (readHeader registry bytes) (PatchHeader.read registry bytes) := by
  unfold readHeader PatchHeader.read
  refine (readOwner_follows registry hshort).bind ?_
  rintro ⟨s, r⟩ ⟨_, c⟩ ⟨rfl, hat⟩
  refine (Reader.byte_follows hat).bind ?_
  rintro ⟨tag, r⟩ ⟨_, c⟩ ⟨rfl, hat⟩
  refine (Follows.ofReader _).bind ?_
  rintro scheme _ rfl
  refine (Reader.uint32_follows hat s.order).bind ?_
  rintro ⟨count, r⟩ ⟨_, c⟩ ⟨rfl, hat⟩
  refine (Reader.floats_follows hat s.order s.width).bind ?_
  rintro ⟨lows, r⟩ ⟨_, c⟩ ⟨rfl, hat⟩
  refine (Reader.floats_follows hat s.order s.width).bind ?_
  rintro ⟨highs, r⟩ ⟨_, c⟩ ⟨rfl, hat⟩
  refine (readStatistics_follows s.order s.width count hat).bind ?_
  rintro ⟨stats, r⟩ ⟨_, c⟩ ⟨rfl, hat⟩
  -- What is left for the payload is what the cursor has left.
  dsimp only at hat ⊢
  rw [sub_eq hat.position_le, Result.ok_bind, slice_length_eq hat.position_le, Result.ok_bind,
    hat.offset_eq, hat.rest_eq]
  exact .ok rfl

theorem readHeader_safe (registry : Registry) {bytes : Bytes} (hshort : bytes.length < 2 ^ 63) :
    Safe (readHeader registry bytes) (PatchHeader.read registry bytes) :=
  (readHeader_follows registry hshort).safe

theorem deserialize_safe (registry : Registry) {bytes : Bytes} (hshort : bytes.length < 2 ^ 63) :
    Safe (deserialize registry bytes) (Patch.deserialize registry bytes) := by
  refine Follows.safe ?_
  refine (readHeader_follows registry hshort).bind ?_
  rintro ⟨s, h⟩ ⟨s', h'⟩ heq
  obtain ⟨rfl, rfl⟩ := Prod.mk.inj heq
  exact .ok rfl

end Machine

end PointCloud
