import Mathlib
import PointCloud.Proofs.Machine.Kernel
import PointCloud.Proofs.Machine.Points

/-!
# Dimensional payloads on the machine

Main result:

* `Machine.dimensional_follows` — for every payload, the columns are read and written in range.
-/

namespace PointCloud

namespace Machine

/-! ## One column -/

/-- The words that bytes hold as they are. -/
def verbatim (d : Dimension) (order : ByteOrder) (points : Nat) (bytes : Bytes) :
    Run (List Nat) := do
  let expected ← ofReader (bufferLength points d.size)
  if bytes.length ≠ expected then
    refuse (.corruptPatch (.columnSize d.name bytes.length points d.size))
  nonzero d.size
  (cut d.size (bytes.length / d.size) bytes).mapM (readWord order d.size)

/-- The words that an encoding by a method holds. -/
def column (d : Dimension) (order : ByteOrder) (points : Nat) (bytes : Bytes) :
    ColumnMethod → Run (List Nat)
  | .verbatim => verbatim d order points bytes
  | .runLength => runLength d.size order points bytes
  | .sharedBits => sharedBits d.size order points bytes
  | .deflate => do
    let expected ← ofReader (bufferLength points d.size)
    let inflated ← zlib expected bytes
    verbatim d order points inflated

theorem mapM_eq_map {α β : Type} {f : α → Run β} {g : α → β} {xs : List α}
    (h : ∀ x ∈ xs, f x = .ok (g x)) : xs.mapM f = .ok (xs.map g) := by
  induction xs with
  | nil => rfl
  | cons x xs ih =>
    rw [List.forall_mem_cons] at h
    rw [List.mapM_cons, h.1, Result.ok_bind, ih h.2]
    rfl

variable {d : Dimension} {order : ByteOrder} {points : Nat} {bytes : Bytes}

theorem verbatim_follows :
    Follows Eq (verbatim d order points bytes) (Column.ofVerbatim d order points bytes) := by
  unfold verbatim Column.ofVerbatim
  refine (Follows.ofReader _).bind_of_eq ?_
  rintro expected _ hexpected rfl
  simp only [Result.throw_eq, Result.error_bind, refuse_bind]
  refine Follows.check _ Iff.rfl fun hlength => ?_
  have hbytes : bytes.length = points * d.size := by
    rw [not_not.mp hlength]
    exact (bufferLength_eq_ok_iff.mp hexpected).2
  have hcount : bytes.length / d.size = points := by
    rw [hbytes, Nat.mul_div_cancel _ d.size_pos]
  -- Every piece is of the size of a word, so no word is put together from too few bytes.
  have hwords : ∀ piece ∈ cut d.size points bytes,
      readWord order d.size piece = .ok (order.word piece) := by
    intro piece hpiece
    have hpiece := length_of_mem_cut (Nat.le_of_eq hbytes.symm) hpiece
    rw [readWord_eq order d.size_le (Nat.le_of_eq hpiece.symm), List.take_of_length_le (by omega)]
  rw [nonzero_eq d.size_pos, Result.ok_bind, hcount, mapM_eq_map hwords]
  exact .ok rfl

theorem column_follows (hshort : bytes.length < 2 ^ 63) (method : ColumnMethod) :
    Follows Eq (column d order points bytes method)
      (Column.decode d order points bytes method) := by
  cases method with
  | verbatim => exact verbatim_follows
  | runLength => exact runLength_follows hshort d.size_le
  | sharedBits => exact sharedBits_follows hshort d.size_le
  | deflate =>
    refine (Follows.ofReader _).bind ?_
    rintro expected _ rfl
    refine zlib_follows.bind ?_
    rintro inflated _ rfl
    exact verbatim_follows

/-! ## The payload -/

/-- Reads the column of a dimension and writes it into the points. -/
def dimensionalColumn {input : Bytes} (s : Schema) (points : Nat) (d : Dimension) (r : Reader input)
    (buffer : Bytes) : Run (Bytes × Reader input) := do
  let (tag, r) ← r.byte
  let method ← ofReader (ColumnMethod.ofTag tag)
  let (length, r) ← r.word s.order 4
  let (encoded, r) ← r.take length
  let words ← column d s.order points encoded method
  nonzero s.size
  let buffer ← writeColumn s.order d.size (s.byteOffset d.position) s.size words buffer
  return (buffer, r)

/-- The buffer of points that a dimensional payload holds. -/
def dimensional (s : Schema) (points : Nat) (payload : Bytes) : Run Bytes := do
  let total ← ofReader (bufferLength points s.size)
  ofReader (reserve total)
  let (buffer, r) ← fillColumns (dimensionalColumn s points) s.dimensions (.start payload)
    (List.replicate total 0)
  r.finish "Dimensional payload"
  return buffer

theorem dimensionalColumn_fills (input : Bytes) (s : Schema) (points : Nat)
    (hsize : points * s.size < 2 ^ 62) :
    Fills input s points (dimensionalColumn s points)
      (fun d c => Dimensional.readColumn d s.order points c) := by
  intro d hd r c buffer hat hbuffer hroom
  unfold dimensionalColumn Dimensional.readColumn
  refine (Reader.byte_follows hat).bind ?_
  rintro ⟨tag, r⟩ ⟨_, c⟩ ⟨rfl, hat⟩
  refine (Follows.ofReader _).bind ?_
  rintro method _ rfl
  refine (Reader.word_follows hat s.order (by decide)).bind ?_
  rintro ⟨length, r⟩ ⟨_, c⟩ ⟨rfl, hat⟩
  refine (Reader.take_follows hat length).bind_of_eq ?_
  rintro ⟨encoded, r'⟩ ⟨_, c'⟩ htaken ⟨rfl, hat'⟩
  -- An encoding is a part of the payload, so it is no longer than one.
  have hshort : encoded.length < 2 ^ 63 := by
    have hlt := hat.length_rest_lt
    rw [(Cursor.take_eq_ok_iff.mp htaken).1, List.length_append] at hlt
    exact Nat.lt_of_le_of_lt (Nat.le_add_right _ _) hlt
  refine (column_follows hshort method).bind_of_eq ?_
  rintro words _ hwords rfl
  have hpositive : 0 < s.size := s.size_pos
  -- Writing asks nothing of the words: the dimension is inside the point.
  obtain ⟨filled, hfilled⟩ := writeColumn_isOk s.order words d.size_le hroom
    (show buffer.length < 2 ^ 62 by omega)
  rw [nonzero_eq hpositive, Result.ok_bind, hfilled, Result.ok_bind]
  exact .ok ⟨hfilled, Column.length_of_decode hwords, hat'⟩

theorem dimensional_follows (s : Schema) (points : Nat) {payload : Bytes}
    (hshort : payload.length < 2 ^ 63) :
    Follows Eq (dimensional s points payload) (Dimensional.decompress s points payload) := by
  unfold dimensional Dimensional.decompress
  refine (Follows.ofReader _).bind_of_eq ?_
  rintro total _ htotal rfl
  refine (Follows.ofReader _).bind_of_eq fun _ _ hreserve _ => ?_
  have hsize : total = points * s.size := (bufferLength_eq_ok_iff.mp htotal).2
  -- What was set aside bounds every place in the buffer.
  have hroom : points * s.size < 2 ^ 62 := by
    rw [← hsize]
    exact reserve_eq_ok_iff.mp hreserve
  have hzeros : (List.replicate total (0 : UInt8)).length = points * s.size := by
    rw [List.length_replicate, hsize]
  have hnil : ∀ c, Dimensional.readColumns s.order points [] c = .ok ([], c) := fun _ => rfl
  have hfill := fillColumns_follows (dimensionalColumn_fills payload s points hroom) hnil
    (fun _ _ _ => rfl) (Reader.at_start hshort) _ hroom hzeros
  refine hfill.bind ?_
  rintro ⟨buffer, r⟩ ⟨columns, c⟩ ⟨rfl, hat⟩
  exact (Reader.finish_follows hat _).bind fun _ _ _ => .ok rfl

end Machine

end PointCloud
