import Mathlib
import PointCloud.Proofs.Schema.Making

/-!
# The layout of a point

The words of a point lie one after the other, so a word begins at the sum of the sizes before it.
This makes the places of the words cover a point without gap, and without a byte that belongs to two
of them. A word can therefore be written in place: it is read back as far as its size goes, no other
word is touched, and the words are all there is to a point.

Main results:

* `Schema.flatMap_fields` — the places of the words, one after the other, are the whole point;
* `Schema.wordAt_putWord`, `Schema.wordAt_putWord_of_ne` — a word that is written in place;
* `Schema.eq_of_wordAt_eq` — a point is its words;
* `Schema.make_layout` — which lists make a schema, and what the schema is like.
-/

namespace PointCloud

/-! ## Words in place -/

namespace ByteOrder

variable (order : ByteOrder) (size word : Nat) {offset first length : Nat} {buffer : Bytes}

theorem length_put (h : offset + size ≤ buffer.length) :
    (order.put size word offset buffer).length = buffer.length := by
  rw [put, List.length_append, List.length_append, length_bytes, List.length_take, List.length_drop]
  omega

/-- A word that is put into a buffer is read back from there. -/
theorem word_put (h : offset ≤ buffer.length) :
    order.word (((order.put size word offset buffer).drop offset).take size) =
      word % 256 ^ size := by
  have htake : (buffer.take offset).length = offset := by rw [List.length_take]; omega
  rw [put, List.append_assoc, List.drop_left' htake, List.take_left' (by simp), word_bytes]

/-- The bytes in front of a word are left as they are. -/
theorem take_drop_put_before (h : offset + size ≤ buffer.length) (hend : first + length ≤ offset) :
    ((order.put size word offset buffer).drop first).take length =
      (buffer.drop first).take length := by
  have htake : (buffer.take offset).length = offset := by rw [List.length_take]; omega
  -- What is read lies in the part of the buffer in front of the word, which is kept.
  rw [put, List.append_assoc, List.drop_append_of_le_length (by omega),
    List.take_append_of_le_length (by rw [List.length_drop]; omega), List.drop_take, List.take_take,
    Nat.min_eq_left (by omega)]

/-- And so are those behind it. -/
theorem take_drop_put_after (h : offset + size ≤ buffer.length) (hbegin : offset + size ≤ first) :
    ((order.put size word offset buffer).drop first).take length =
      (buffer.drop first).take length := by
  have hhead : (buffer.take offset ++ order.bytes size word).length = offset + size := by
    rw [List.length_append, length_bytes, List.length_take]
    omega
  -- As many bytes are dropped before the rest begins as were replaced.
  rw [put, List.drop_append, List.drop_eq_nil_of_le (by omega), List.nil_append, hhead,
    List.drop_drop, Nat.add_sub_cancel' hbegin]

/-- No byte outside the word is touched. -/
theorem getElem?_put_of_outside {i : Nat} (h : offset + size ≤ buffer.length)
    (hi : i < offset ∨ offset + size ≤ i) :
    (order.put size word offset buffer)[i]? = buffer[i]? := by
  have htake : (buffer.take offset).length = offset := by rw [List.length_take]; omega
  have hhead : (buffer.take offset ++ order.bytes size word).length = offset + size := by
    rw [List.length_append, length_bytes, htake]
  rw [put]
  rcases hi with hbefore | hafter
  · rw [List.append_assoc, List.getElem?_append_left (by omega), List.getElem?_take_of_lt hbefore]
  · -- The rest of the buffer begins where the word ends.
    rw [List.getElem?_append_right (by omega), hhead, List.getElem?_drop, Nat.add_sub_cancel' hafter]

/-- A word that is put into the rest of a buffer is put into the buffer. -/
theorem take_append_put_drop (count : Nat) (buffer : Bytes) :
    buffer.take count ++ order.put size word offset (buffer.drop count) =
      order.put size word (count + offset) buffer := by
  simp only [put, List.take_add, List.drop_drop, List.append_assoc, Nat.add_assoc]

end ByteOrder

/-- A row with one word replaced is written as the bytes it had, with that word put in place. -/
theorem Row.toBytes_set (order : ByteOrder) {sizes : List Nat} {bytes : Bytes} {j : Nat}
    (hj : j < sizes.length) (word : Nat) (hbytes : bytes.length = sizes.sum) :
    toBytes order sizes ((ofBytes order sizes bytes).set j word) =
      order.put sizes[j] word (sizes.take j).sum bytes := by
  induction sizes generalizing bytes j with
  | nil => simp at hj
  | cons size sizes ih =>
    rw [List.sum_cons] at hbytes
    have htake : (bytes.take size).length = size := by rw [List.length_take]; omega
    have hdrop : (bytes.drop size).length = sizes.sum := by rw [List.length_drop]; omega
    cases j with
    | zero =>
      -- The word is the first one, and what is left is written as it was read.
      rw [ofBytes, List.set_cons_zero, toBytes, toBytes_ofBytes hdrop]
      simp [ByteOrder.put]
    | succ j =>
      have hword := order.bytes_word (bytes.take size)
      rw [htake] at hword
      have hrest := ih (by simpa using hj) hdrop
      rw [ofBytes, List.set_cons_succ, toBytes, hword, hrest, ByteOrder.take_append_put_drop,
        List.take_succ_cons, List.sum_cons]
      rfl

namespace Schema

variable {s : Schema} {raw other : Bytes} {d e : Dimension}

/-! ## Places -/

/-- The places of the words after some dimensions are what is left of the point. -/
theorem flatMap_fields_of_split (before : List Dimension) {after : List Dimension}
    (h : before ++ after = s.dimensions) :
    after.flatMap (fun d => List.range' (s.byteOffset d.position) d.size) =
      List.range' (before.map (·.size)).sum (after.map (·.size)).sum := by
  induction after generalizing before with
  | nil => rfl
  | cons d after ih =>
    have hrest := ih (before ++ [d]) (by rw [List.append_assoc]; exact h)
    rw [List.map_append, List.sum_append, List.map_singleton, List.sum_singleton] at hrest
    rw [List.flatMap_cons, byteOffset_of_split h, hrest, List.map_cons, List.sum_cons,
      List.range'_append_1]

/-- The places of the words, in the order of positions, are the whole point. -/
theorem flatMap_fields (s : Schema) :
    s.dimensions.flatMap (fun d => List.range' (s.byteOffset d.position) d.size) =
      List.range s.size := by
  have h := flatMap_fields_of_split (s := s) [] rfl
  rw [h, List.range_eq_range']
  rfl

/-- Two words have no byte in common: one of them ends before the other begins. -/
theorem disjoint_of_ne (hd : d ∈ s.dimensions) (he : e ∈ s.dimensions) (hne : e ≠ d) :
    s.byteOffset e.position + e.size ≤ s.byteOffset d.position ∨
      s.byteOffset d.position + d.size ≤ s.byteOffset e.position := by
  rw [← byteOffset_succ hd, ← byteOffset_succ he]
  rcases Nat.lt_trichotomy e.position d.position with hlt | heq | hlt
  · exact .inl (byteOffset_mono hlt)
  · -- one dimension for every position
    have hget := getElem_position he
    rw [heq, getElem_position hd] at hget
    exact absurd (Option.some.inj hget).symm hne
  · exact .inr (byteOffset_mono hlt)

/-! ## Points -/

theorem fits_in (hraw : raw.length = s.size) (hd : d ∈ s.dimensions) :
    s.byteOffset d.position + d.size ≤ raw.length :=
  hraw ▸ byteOffset_add_size_le hd

theorem wordAt_zero (raw : Bytes) (d : Dimension) :
    s.wordAt raw 0 d = s.order.word ((raw.drop (s.byteOffset d.position)).take d.size) := by
  rw [wordAt, Nat.zero_mul, Nat.zero_add]

theorem row_eq_map_words (hraw : raw.length = s.size) :
    s.row raw = s.dimensions.map (s.wordAt raw 0) := by
  have hpoint : s.pointAt raw 0 = raw := by
    rw [pointAt, Nat.zero_mul, List.drop_zero, List.take_of_length_le (Nat.le_of_eq hraw)]
  have hrow := s.row_pointAt raw 0
  rwa [hpoint] at hrow

theorem length_putWord (hraw : raw.length = s.size) (hd : d ∈ s.dimensions) (word : Nat) :
    (s.putWord raw d word).length = s.size :=
  (s.order.length_put d.size word (fits_in hraw hd)).trans hraw

/-- A word that is written is read back, as far as its size goes. -/
theorem wordAt_putWord (hraw : raw.length = s.size) (hd : d ∈ s.dimensions) (word : Nat) :
    s.wordAt (s.putWord raw d word) 0 d = word % 2 ^ (8 * d.size) := by
  have hfits := fits_in hraw hd
  rw [wordAt_zero, two_pow_eight_mul]
  exact s.order.word_put d.size word (by omega)

/-- No other word is touched. -/
theorem wordAt_putWord_of_ne (hraw : raw.length = s.size) (hd : d ∈ s.dimensions)
    (he : e ∈ s.dimensions) (hne : e ≠ d) (word : Nat) :
    s.wordAt (s.putWord raw d word) 0 e = s.wordAt raw 0 e := by
  have hfits := fits_in hraw hd
  rw [wordAt_zero, wordAt_zero]
  congr 1
  rcases disjoint_of_ne hd he hne with hbefore | hafter
  · exact s.order.take_drop_put_before d.size word hfits hbefore
  · exact s.order.take_drop_put_after d.size word hfits hafter

/-- Writing a word in place is replacing it in the row. -/
theorem putWord_eq (hraw : raw.length = s.size) (hd : d ∈ s.dimensions) (word : Nat) :
    s.putWord raw d word = s.rowBytes ((s.row raw).set d.position word) := by
  obtain ⟨hlt, hget⟩ := List.getElem?_eq_some_iff.mp (getElem_position hd)
  have hlt' : d.position < s.sizes.length := by rwa [s.length_sizes]
  have hset := Row.toBytes_set s.order hlt' word hraw
  have hsize : s.sizes[d.position] = d.size := by simp [sizes, hget]
  rw [hsize] at hset
  exact hset.symm

/-- Points of the same words are the same. -/
theorem eq_of_wordAt_eq (hraw : raw.length = s.size) (hother : other.length = s.size)
    (hwords : ∀ d ∈ s.dimensions, s.wordAt other 0 d = s.wordAt raw 0 d) : other = raw := by
  -- Words make a row, and a row is written as the bytes that it was read from.
  have hrow : s.row other = s.row raw := by
    rw [row_eq_map_words hother, row_eq_map_words hraw]
    exact List.map_congr_left hwords
  have hbytes := congrArg s.rowBytes hrow
  rwa [s.rowBytes_row hother, s.rowBytes_row hraw] at hbytes

/-! ## Schemas that are made -/

/-- A list of dimensions makes a schema exactly if it is admissible, and then the same one in any
order. In the schema the places of the words are the whole point; a word that is written in place is
read back, with no other word touched, and a point is its words. The axes of space are the
dimensions of their names with the lowest positions. -/
theorem make_layout (pcid : UInt32) (srid : Int) (order : ByteOrder)
    (dimensions : List Dimension) :
    ((∃ s, make pcid srid order dimensions = .ok s) ↔ Admissible dimensions) ∧
    (∀ others, others.Perm dimensions →
      (∀ s, make pcid srid order dimensions = .ok s → make pcid srid order others = .ok s) ∧
      (¬ Admissible dimensions →
        ∃ fault, make pcid srid order others = .error (.invalidSchema fault))) ∧
    ∀ s, make pcid srid order dimensions = .ok s →
      (s.pcid = pcid ∧ s.srid = srid ∧ s.order = order ∧ s.dimensions.Perm dimensions) ∧
      s.dimensions.map (·.position) = List.range dimensions.length ∧
      s.dimensions.flatMap (fun d => List.range' (s.byteOffset d.position) d.size) =
        List.range s.size ∧
      (∀ raw : Bytes, raw.length = s.size →
        s.row raw = s.dimensions.map (s.wordAt raw 0) ∧
        (∀ d ∈ s.dimensions, ∀ word,
          s.putWord raw d word = s.rowBytes ((s.row raw).set d.position word) ∧
          (s.putWord raw d word).length = s.size ∧
          s.wordAt (s.putWord raw d word) 0 d = word % 2 ^ (8 * d.size) ∧
          ∀ e ∈ s.dimensions, e ≠ d →
            s.wordAt (s.putWord raw d word) 0 e = s.wordAt raw 0 e) ∧
        ∀ other : Bytes, other.length = s.size →
          (∀ d ∈ s.dimensions, s.wordAt other 0 d = s.wordAt raw 0 d) → other = raw) ∧
      ∀ letter ∈ axisLetters,
        (s.axis? letter = none ↔ ∀ d ∈ s.dimensions, ¬ d.IsNamed letter) ∧
        ∀ position, s.axis? letter = some position ↔
          (∃ d ∈ s.dimensions, d.IsNamed letter ∧ d.position = position) ∧
            ∀ d ∈ s.dimensions, d.IsNamed letter → position ≤ d.position := by
  refine ⟨exists_make_iff, ?_, ?_⟩
  · intro others hothers
    constructor
    · intro s h
      obtain ⟨hpcid, hsrid, horder, hperm⟩ := make_eq_ok_iff.mp h
      exact make_eq_ok_iff.mpr ⟨hpcid, hsrid, horder, hperm.trans hothers.symm⟩
    · exact fun hnot => make_of_not_admissible fun h => hnot (h.perm hothers)
  · intro s h
    have hmade := make_eq_ok_iff.mp h
    have hpositions := s.valid.2.1
    rw [hmade.2.2.2.length_eq] at hpositions
    refine ⟨hmade, hpositions, s.flatMap_fields, ?_, ?_⟩
    · intro raw hraw
      refine ⟨row_eq_map_words hraw, ?_, fun other => eq_of_wordAt_eq hraw⟩
      intro d hd word
      exact ⟨putWord_eq hraw hd word, length_putWord hraw hd word, wordAt_putWord hraw hd word,
        fun e he hne => wordAt_putWord_of_ne hraw hd he hne word⟩
    · intro letter hletter
      exact ⟨axis?_eq_none_iff hletter, fun position => axis?_eq_some_iff hletter⟩

/-- The dimensions of the plane in another order. A word too wide for the class is cut to its low
byte, and the coordinates around it stay. -/
theorem make_layout_planar :
    let x : Dimension := { name := "X", position := 0, interpretation := .int16 }
    let y : Dimension := { name := "Y", position := 1, interpretation := .int16 }
    let kind : Dimension := { name := "Class", position := 2, interpretation := .uint8 }
    let s := planar
    let raw : Bytes := [0, 7, 255, 0, 3]
    Admissible [kind, x, y] ∧ make 1 4326 .big [kind, x, y] = .ok s ∧
    s.dimensions.flatMap (fun d => List.range' (s.byteOffset d.position) d.size) =
      [0, 1, 2, 3, 4] ∧
    s.putWord raw kind 0x1ff = [0, 7, 255, 0, 255] ∧
    s.wordAt (s.putWord raw kind 0x1ff) 0 kind = 255 ∧
    s.wordAt (s.putWord raw kind 0x1ff) 0 y = s.wordAt raw 0 y ∧
    s.axis? 'y' = some 1 ∧ s.axis? 'z' = none := by
  intro x y kind s raw
  have hperm : s.dimensions.Perm [kind, x, y] := by decide
  have hmade : make 1 4326 .big [kind, x, y] = .ok s :=
    make_eq_ok_iff.mpr ⟨rfl, rfl, rfl, hperm⟩
  obtain ⟨haccepted, -, hlayout⟩ := make_layout 1 4326 .big [kind, x, y]
  obtain ⟨-, -, hfields, hwords, haxes⟩ := hlayout s hmade
  obtain ⟨-, hput, -⟩ := hwords raw rfl
  obtain ⟨-, -, hread, hkept⟩ := hput kind (by decide) 0x1ff
  refine ⟨haccepted.mp ⟨s, hmade⟩, hmade, hfields, by decide, hread.trans (by decide),
    hkept y (by decide) (by decide), ?_, ?_⟩
  · exact ((haxes 'y' (by decide)).2 1).mpr (by decide)
  · exact (haxes 'z' (by decide)).1.mpr (by decide)

end Schema

end PointCloud
