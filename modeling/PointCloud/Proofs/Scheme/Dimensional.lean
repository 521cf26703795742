import Mathlib
import PointCloud.Proofs.Bytes.Cursor
import PointCloud.Proofs.Column.Plan
import PointCloud.Scheme.Dimensional

/-!
# Dimensional payloads: round trip

The reader of columns follows their writer field by field: the tag names the method, the length ends
the encoding, and the method gives the words back. What the plan of a column was does not matter, as
long as it is a plan.

Main results:

* `Dimensional.readColumn_frame` — to read a stored column is to decode it;
* `Dimensional.readColumns_of_writeColumns` — columns are read back, whatever follows them;
* `Dimensional.decompress_of_writeColumns` — a payload of columns holds the rows they came from;
* `Dimensional.writeColumns_isOk` — columns that fit the length field are written.
-/

namespace PointCloud

theorem ColumnMethod.ofTag_tag (m : ColumnMethod) : ofTag m.tag = .ok m := by
  cases m <;> rfl

namespace Dimensional

open Column (IsPlan)

variable {points level : Nat}

/-! ## One column -/

/-- A column as it is stored: the tag of its method, the length of its encoding, the encoding. -/
def frame (order : ByteOrder) (column : Column.Plan) : Bytes :=
  column.1.tag :: order.bytes 4 column.2.length ++ column.2

theorem columnBytes_eq_ok (order : ByteOrder) {p : Column.Plan} (h : p.2.length < 2 ^ 32) :
    columnBytes order p = .ok (frame order p) :=
  if_pos h

/-- To read a stored column is to decode it by its method. -/
theorem readColumn_frame (d : Dimension) {order : ByteOrder} {column : Column.Plan}
    (hfits : column.2.length < 2 ^ 32) (total : Nat) (rest : Bytes) :
    readColumn d order points ⟨total, frame order column ++ rest⟩ =
      Column.decode d order points column.2 column.1 >>= fun words =>
        .ok (words, ⟨total, rest⟩) := by
  have hsmall : column.2.length < 256 ^ 4 := by omega
  have hword := Cursor.word_append total (column.2 ++ rest) order hsmall
  have htake := Cursor.take_length_append total rest column.2 rfl
  simp only [readColumn, frame, List.cons_append, List.append_assoc, Cursor.byte_cons,
    Result.ok_bind, ColumnMethod.ofTag_tag, hword, htake, Result.pure_eq]

@[simp] theorem length_frame (order : ByteOrder) (column : Column.Plan) :
    (frame order column).length = column.2.length + 5 := by
  simp only [frame, List.cons_append, List.length_cons, List.length_append,
    ByteOrder.length_bytes]
  omega

/-- The first column is planned and framed, and the others follow it. -/
theorem writeColumns_cons_eq_ok_iff {plan : Column → Except Error Column.Plan} {c : Column}
    {columns : List Column} {payload : Bytes} :
    writeColumns plan (c :: columns) = .ok payload ↔
      ∃ p others, plan c = .ok p ∧ p.2.length < 2 ^ 32 ∧ writeColumns plan columns = .ok others ∧
        payload = frame c.order p ++ others := by
  rw [writeColumns]
  constructor
  · intro h
    obtain ⟨p, hp, h⟩ := Result.bind_eq_ok_iff.mp h
    obtain ⟨bytes, hbytes, h⟩ := Result.bind_eq_ok_iff.mp h
    obtain ⟨others, hothers, h⟩ := Result.bind_eq_ok_iff.mp h
    obtain rfl := Except.ok.inj h
    unfold columnBytes at hbytes
    split at hbytes
    · rename_i hlength
      obtain rfl : frame c.order p = bytes := Except.ok.inj hbytes
      exact ⟨p, others, hp, hlength, hothers, rfl⟩
    · cases hbytes
  · rintro ⟨p, others, hp, hlength, hothers, rfl⟩
    simp only [hp, columnBytes_eq_ok c.order hlength, hothers, Result.ok_bind, Result.pure_eq]

/-! ## All columns -/

variable [Compressors]

/-- Columns are read back, whatever follows them. -/
theorem readColumns_of_writeColumns [LawfulCompressors] {plan : Column → Except Error Column.Plan}
    (hplan : ∀ c p, plan c = .ok p → c.IsPlan level p) {order : ByteOrder} {columns : List Column}
    (total : Nat) {payload : Bytes} (rest : Bytes) (hpoints : points < 2 ^ 32)
    (hfits : ∀ c ∈ columns, c.Fits points) (horder : ∀ c ∈ columns, c.order = order)
    (h : writeColumns plan columns = .ok payload) :
    readColumns order points (columns.map (·.dimension)) ⟨total, payload ++ rest⟩ =
      .ok (columns.map (·.words), ⟨total, rest⟩) := by
  induction columns generalizing payload with
  | nil =>
    rw [writeColumns, Except.ok.injEq] at h
    subst h
    rfl
  | cons c columns ih =>
    obtain ⟨p, others, hp, hlength, hothers, rfl⟩ := writeColumns_cons_eq_ok_iff.mp h
    have hwords := Column.decode_of_encode (hfits c List.mem_cons_self) hpoints
      (hplan c p hp).encode_eq
    -- The other columns follow the first one, so it is read with them as its rest.
    rw [horder c List.mem_cons_self] at hwords ⊢
    have hfirst : readColumn c.dimension order points
        ⟨total, frame order p ++ (others ++ rest)⟩ = .ok (c.words, ⟨total, others ++ rest⟩) := by
      rw [readColumn_frame c.dimension hlength, hwords, Result.ok_bind]
    have hrest := ih (fun c hc => hfits c (List.mem_cons_of_mem _ hc))
      (fun c hc => horder c (List.mem_cons_of_mem _ hc)) hothers
    simp only [List.map_cons, readColumns, List.append_assoc, hfirst, hrest, Result.ok_bind,
      Result.pure_eq]

/-- Columns that fit the length field are written, if they can be planned. -/
theorem writeColumns_isOk {plan : Column → Except Error Column.Plan}
    (hplan : ∀ c p, plan c = .ok p → c.IsPlan level p) {columns : List Column}
    (hplanned : ∀ c ∈ columns, ∃ p, plan c = .ok p)
    (hlength : ∀ c ∈ columns, c.bytes.length < 2 ^ 32) :
    ∃ payload, writeColumns plan columns = .ok payload := by
  induction columns with
  | nil => exact ⟨[], rfl⟩
  | cons c columns ih =>
    obtain ⟨p, hp⟩ := hplanned c List.mem_cons_self
    obtain ⟨others, hothers⟩ := ih (fun c hc => hplanned c (List.mem_cons_of_mem _ hc))
      fun c hc => hlength c (List.mem_cons_of_mem _ hc)
    -- A plan is never longer than the words as they are, which fit the field.
    have hshort : p.2.length < 2 ^ 32 :=
      Nat.lt_of_le_of_lt (hplan c p hp).length_le (hlength c List.mem_cons_self)
    exact ⟨_, writeColumns_cons_eq_ok_iff.mpr ⟨p, others, hp, hshort, hothers, rfl⟩⟩

/-! ## Payloads -/

section Payload

variable {plan : Column → Except Error Column.Plan} {s : Schema} {rows : List Row}

/-- A payload of columns holds the rows that the columns came from. -/
theorem decompress_of_writeColumns [LawfulCompressors]
    (hplan : ∀ c p, plan c = .ok p → c.IsPlan level p)
    (hfits : ∀ row ∈ rows, Row.Fits s.sizes row) (hpoints : rows.length < 2 ^ 32)
    (hroom : reserve (rows.length * s.size) = .ok ()) {payload : Bytes}
    (h : writeColumns plan (Column.ofRows s rows) = .ok payload) :
    decompress s rows.length payload = .ok (s.bytes rows) := by
  have horder : ∀ c ∈ Column.ofRows s rows, c.order = s.order :=
    fun c hc => Column.order_of_mem_ofRows hc
  have hread := readColumns_of_writeColumns hplan payload.length [] hpoints
    (fun c hc => Column.fits_of_mem_ofRows hfits hc) horder h
  rw [Column.map_dimension_ofRows, Column.map_words_ofRows, List.append_nil] at hread
  have hlength := bufferLength_of_reserve hroom
  simp only [decompress, Cursor.start, hlength, hroom, hread, Result.ok_bind, Cursor.finish_nil,
    Result.pure_eq, s.columns_ofColumns hfits]

end Payload

end Dimensional

end PointCloud
