import Mathlib
import PointCloud.Proofs.Patch.SortedValues
import PointCloud.Proofs.Point.Encoders

/-!
# Words of transformed patches

A patch is moved to another schema value by value: each dimension is given the value that the
dimension of its name had, encoded anew. Points stay where they are, as many as before. A dimension
that stands for the same numbers under both schemas does not have to keep its words all the same,
since the values in between are rounded. It keeps those that their values are encoded as, which
floating words are, apart from NaNs, and integers that rounding does not move by a half.

Main results:

* `Point.exists_row_of_ofValues` — a point of values holds the words that stand for them;
* `Patch.exists_image_of_transform` — a transformed patch holds encoded values, point by point;
* `Patch.transform_words` — so dimensions of the same numbers keep the words that are recovered;
* `Patch.not_keepsWords` — an identifier that is not recovered, and altered.
-/

namespace PointCloud

/-! ## Points of values -/

/-- A row of encoded values fits the dimensions. -/
theorem Row.fits_of_words {dimensions : List Dimension} {value : Dimension → Binary64} {row : Row}
    (h : List.Forall₂ (fun d word => d.word? (value d) = some word) dimensions row) :
    Fits (dimensions.map (·.size)) row := by
  -- Sizes, dimensions and words are walked together, one word a step.
  induction h with
  | nil => rfl
  | cons hword _ ih =>
    have hlt := Dimension.lt_of_word? hword
    rw [Dimension.two_pow_bits] at hlt
    exact ⟨hlt, ih⟩

/-- The point of a row. -/
def Point.ofRow (s : Schema) (row : Row) : Point := ⟨s.pcid, s.rowBytes row⟩

/-- A point of values holds the words that stand for them. -/
theorem Point.exists_row_of_ofValues {s : Schema} {value : Dimension → Binary64} {point : Point}
    (h : ofValues s (s.dimensions.map value) = .ok point) :
    ∃ row, point = ofRow s row ∧
      List.Forall₂ (fun d word => d.word? (value d) = some word) s.dimensions row := by
  obtain ⟨hpcid, hlength, hwords⟩ := ofValues_map_eq_ok_iff.mp h
  refine ⟨s.row point.raw, ?_, ?_⟩
  · rw [ofRow, s.rowBytes_row hlength, ← hpcid]
  · rw [Schema.row_eq_map_words hlength, List.forall₂_map_right_iff, List.forall₂_same]
    intro d hd
    exact Dimension.word_eq_ok_iff.mp (hwords d hd)

namespace Patch

variable {config : Config} {s new : Schema} {p q : Patch} {default : Binary64}
  {target : Option Scheme} {buffer image : Bytes}

/-! ## Rows -/

/-- The value that a dimension of another schema is given: that of its name, or the default. -/
def valueUnder (s : Schema) (default : Binary64) (row : Row) (d : Dimension) : Binary64 :=
  match s.named? d.name with
  | some source => valueOf source row
  | none => default

/-- Whether a row of another schema holds the encoded values of a row. -/
def Encodes (s new : Schema) (default : Binary64) (row result : Row) : Prop :=
  List.Forall₂ (fun d word => d.word? (valueUnder s default row d) = some word)
    new.dimensions result

/-- Encoded points are the points of rows of encoded values. -/
theorem exists_rows_of_points {rows : List Row} {points : List Point}
    (h : List.Forall₂ (fun row point =>
      Point.ofValues new (valuesUnder s new default row) = .ok point) rows points) :
    ∃ results, points = results.map (Point.ofRow new) ∧
      List.Forall₂ (Encodes s new default) rows results := by
  induction h with
  | nil => exact ⟨[], rfl, .nil⟩
  | cons hpoint _ ih =>
    obtain ⟨results, rfl, hencodes⟩ := ih
    obtain ⟨result, rfl, hresult⟩ := Point.exists_row_of_ofValues hpoint
    exact ⟨result :: results, rfl, .cons hresult hencodes⟩

theorem fits_of_encodes {rows results : List Row}
    (h : List.Forall₂ (Encodes s new default) rows results) :
    ∀ result ∈ results, Row.Fits new.sizes result := by
  induction h with
  | nil => simp
  | cons hresult _ ih => exact List.forall_mem_cons.mpr ⟨Row.fits_of_words hresult, ih⟩

/-- A transformed patch holds the encoded values of the rows, in their order. The scheme must not
group points: then every row of the one has its counterpart in the same place of the other. -/
theorem exists_rows_of_transform [Compressors] [LawfulCompressors]
    (h : p.transform config s new default target = .ok q) (hscheme : q.scheme ≠ .hierarchical) :
    ∃ buffer results, p.decode s = .ok buffer ∧ q.count = p.count ∧ HoldsInOrder new q results ∧
      List.Forall₂ (Encodes s new default) (s.rows buffer) results := by
  unfold transform at h
  simp only [Result.throw_eq, Result.error_bind, Result.check_eq_ok_iff] at h
  obtain ⟨-, h⟩ := h
  -- The steps in turn: rows are decoded, room is set aside, points encoded, and the patch built.
  obtain ⟨rows, hrows, h⟩ := Result.bind_eq_ok_iff.mp h
  obtain ⟨u, hroom, h⟩ := Result.bind_eq_ok_iff.mp h
  obtain ⟨points, hpoints, h⟩ := Result.bind_eq_ok_iff.mp h
  obtain ⟨buffer, hbuffer, hrows⟩ := Result.bind_eq_ok_iff.mp hrows
  obtain rfl := Except.ok.inj hrows
  obtain ⟨results, rfl, hencodes⟩ := exists_rows_of_points (Result.forall₂_of_mapM hpoints)
  have hlength : results.length = p.count.toNat := by
    rw [← hencodes.length_eq, s.length_rows (length_of_decode hbuffer)]
  -- The points are written one after the other, as their rows are.
  have hbytes : (results.map (Point.ofRow new)).flatMap (·.raw) = new.bytes results :=
    List.flatMap_map ..
  rw [hbytes, List.length_map] at h
  obtain ⟨hgiven, -⟩ := exists_holds_of_ofBuffer h
  rw [hgiven] at hscheme
  -- The room that was set aside for the image is the room that decoding it asks for.
  have hq := holdsInOrder_of_ofRows (fits_of_encodes hencodes) hscheme (by rwa [hlength]) h
  have hcount : q.count = p.count := by
    rw [← UInt32.toNat_inj, ← hq.holds.count, hlength]
  exact ⟨buffer, results, hbuffer, hcount, hq, hencodes⟩

/-! ## Words -/

/-- A transformed patch holds encoded values, point by point. -/
theorem exists_image_of_transform [Compressors] [LawfulCompressors]
    (h : p.transform config s new default target = .ok q) (hscheme : q.scheme ≠ .hierarchical) :
    q.count = p.count ∧ ∃ buffer image, p.decode s = .ok buffer ∧ q.decode new = .ok image ∧
      ∀ index < p.count.toNat, ∀ d ∈ new.dimensions,
        d.word? (valueUnder s default (s.dimensions.map (s.wordAt buffer index)) d) =
          some (new.wordAt image index d) := by
  obtain ⟨buffer, results, hbuffer, hcount, hq, hencodes⟩ := exists_rows_of_transform h hscheme
  refine ⟨hcount, buffer, new.bytes results, hbuffer, hq.decode_eq, ?_⟩
  -- Both lists of rows are read word by word, so a pair of rows is an index, and a pair of words a
  -- dimension.
  have hrows := new.rows_bytes hq.holds.fits
  have hlength := length_of_decode hq.decode_eq
  rw [hcount] at hlength
  rw [← hrows, Schema.rows_eq_map_words hlength,
    Schema.rows_eq_map_words (length_of_decode hbuffer), List.forall₂_map_left_iff,
    List.forall₂_map_right_iff, List.forall₂_same] at hencodes
  intro index hindex d hd
  have hrow := hencodes index (List.mem_range.mpr hindex)
  unfold Encodes at hrow
  rw [List.forall₂_map_right_iff, List.forall₂_same] at hrow
  exact hrow d hd

theorem valueUnder_of_name_eq {d e : Dimension} (he : e ∈ s.dimensions) (hname : d.name = e.name)
    (buffer : Bytes) (index : Nat) :
    valueUnder s default (s.dimensions.map (s.wordAt buffer index)) d =
      e.value (s.wordAt buffer index e) := by
  have hnamed := Schema.named?_eq_some_iff.mpr ⟨he, hname.symm⟩
  unfold valueUnder
  rw [hnamed]
  dsimp only
  rw [valueOf, Schema.getD_map_wordAt he]

/-- Whether dimensions of one name that stand for the same numbers have the same words in points of
both schemas. -/
def KeepsWords (s new : Schema) (buffer image : Bytes) (points : Nat) : Prop :=
  ∀ index < points, ∀ d ∈ new.dimensions, ∀ e ∈ s.dimensions, d.name = e.name →
    d.SameNumbers e → new.wordAt image index d = s.wordAt buffer index e

/-- What the words of a transformed patch are. A dimension holds the word of the value that the
dimension of its name had, for every point in its place. If it stands for the same numbers, it keeps
every word that is recovered, and no NaN becomes a number. -/
theorem transform_words [Compressors] [LawfulCompressors]
    (h : p.transform config s new default target = .ok q) (hscheme : q.scheme ≠ .hierarchical) :
    q.count = p.count ∧ ∃ buffer image, p.decode s = .ok buffer ∧ q.decode new = .ok image ∧
      ∀ index < p.count.toNat, ∀ d ∈ new.dimensions, ∀ e ∈ s.dimensions, d.name = e.name →
        let word := s.wordAt buffer index e
        let result := new.wordAt image index d
        d.word? (e.value word) = some result ∧
          (d.SameNumbers e → (e.Recovers word → result = word) ∧
            ((e.value word).isNaN = true → (d.value result).isNaN = true)) := by
  obtain ⟨hcount, buffer, image, hbuffer, himage, hwords⟩ := exists_image_of_transform h hscheme
  refine ⟨hcount, buffer, image, hbuffer, himage, ?_⟩
  intro index hindex d hd e he hname word result
  have hresult : d.word? (e.value word) = some result := by
    have hword := hwords index hindex d hd
    rwa [valueUnder_of_name_eq he hname] at hword
  have hlt : word < 2 ^ e.interpretation.bits := Schema.wordAt_lt buffer index e
  have hscaled := Dimension.isScaled_of_mem he
  refine ⟨hresult, fun hsame => ⟨fun hrecovers => ?_, fun hnan => ?_⟩⟩
  -- a word that is recovered
  · exact hrecovers.word_eq (Dimension.isScaled_of_mem hd) hscaled hsame hlt hresult
  -- a NaN, which need not be
  · exact Dimension.isNaN_value_of_word? hscaled hsame hlt hnan hresult

end Patch

/-- Points with the identifier of labelled ones, behind a grade of their own. -/
def Schema.graded : Schema where
  pcid := 2
  srid := 4326
  order := .little
  dimensions := [
    { name := "Grade", position := 0, interpretation := .uint8 },
    { name := "Id", position := 1, interpretation := .int64 }]
  valid := by decide

namespace Patch

/-- Labelled points become graded ones if their values can be encoded. -/
theorem exists_transform_labelled (buffer image : Bytes) (h : buffer.length = 18)
    (himage : image.length = 18)
    (hpoints : (Schema.labelled.rows buffer).mapM (fun row => Point.ofValues Schema.graded
        (valuesUnder Schema.labelled Schema.graded (.zero false) row)) =
      .ok ((Schema.graded.rows image).map (Point.ofRow Schema.graded))) :
    ∃ q, (labelled buffer).transform {} Schema.labelled Schema.graded (.zero false) none = .ok q ∧
      q.scheme ≠ .hierarchical ∧ q.decode Schema.graded = .ok image := by
  have hlength : image.length = 2 * Schema.graded.size := himage
  have hrows := Schema.bytes_rows _ hlength
  have hcount := Schema.length_rows _ hlength
  have hroom : reserve ((labelled buffer).count.toNat * Schema.graded.size) = .ok () := rfl
  obtain ⟨q, hq⟩ := exists_ofBuffer (s := Schema.graded) {} (by decide : Scheme.uncompressed ≠ _)
    hlength (by decide) rfl
  have htransform :
      (labelled buffer).transform {} Schema.labelled Schema.graded (.zero false) none = .ok q := by
    unfold transform
    rw [if_neg (by decide), rows_of_decode (decode_labelled h)]
    dsimp only [Result.ok_bind]
    rw [hroom, Result.ok_bind, hpoints, Result.ok_bind, List.length_map, hcount,
      List.flatMap_map]
    show ofBuffer {} Schema.graded (Schema.graded.bytes (Schema.graded.rows image)) 2 _ = _
    rw [hrows]
    exact hq
  rw [← hrows, ← hcount] at hq
  have hheld := holdsInOrder_of_ofRows (fun row => Schema.graded.fits_of_mem_rows)
    (by decide) (by rw [hcount]; rfl) hq
  refine ⟨q, htransform, hheld.ordered, ?_⟩
  rw [hheld.decode_eq, hrows]

/-- Two points whose identifiers are values, so that they are kept. -/
theorem transform_words_labelled :
    let s := Schema.labelled
    let new := Schema.graded
    let buffer : Bytes := [0, 0, 0, 0, 0, 0, 0, 9, 3, 0, 32, 0, 0, 0, 0, 0, 0, 5]
    ∃ q, (labelled buffer).transform {} s new (.zero false) none = .ok q ∧
      q.scheme ≠ .hierarchical ∧ q.count = 2 ∧
      ∃ image, (labelled buffer).decode s = .ok buffer ∧ q.decode new = .ok image ∧
        (∀ index < 2, ∀ e ∈ s.dimensions, e.Recovers (s.wordAt buffer index e)) ∧
        KeepsWords s new buffer image 2 := by
  intro s new buffer
  obtain ⟨q, htransform, hscheme, -⟩ := exists_transform_labelled buffer
    [0, 9, 0, 0, 0, 0, 0, 0, 0, 0, 0, 0, 0, 0, 0, 0, 32, 0] rfl rfl (by decide +kernel)
  have hplain : ∀ index < 2, ∀ e ∈ s.dimensions, e.interpretation.isFloat = false ∧
      e.scale = .one ∧ e.offset.isZero = true ∧
      (e.interpretation.integer (s.wordAt buffer index e)).natAbs ≤ 2 ^ 53 := by decide +kernel
  have hrecovers : ∀ index < 2, ∀ e ∈ s.dimensions, e.Recovers (s.wordAt buffer index e) := by
    intro index hindex e he
    obtain ⟨hfloat, hscale, hoffset, hsmall⟩ := hplain index hindex e he
    exact .plain hfloat hscale hoffset hsmall
  obtain ⟨hcount, found, image, hfound, himage, hwords⟩ := transform_words htransform hscheme
  obtain rfl := Except.ok.inj ((decode_labelled rfl).symm.trans hfound)
  refine ⟨q, htransform, hscheme, hcount, image, hfound, himage, hrecovers, ?_⟩
  intro index hindex d hd e he hname hsame
  exact ((hwords index hindex d hd e he hname).2 hsame).1 (hrecovers index hindex e he)

/-- An identifier past the values, 2 ^ 53 + 1, which is decoded to 2 ^ 53 and encoded as such. -/
theorem not_keepsWords :
    let s := Schema.labelled
    let new := Schema.graded
    let buffer : Bytes := [0, 32, 0, 0, 0, 0, 0, 1, 3, 0, 0, 0, 0, 0, 0, 0, 4, 5]
    let image : Bytes := [0, 0, 0, 0, 0, 0, 0, 32, 0, 0, 4, 0, 0, 0, 0, 0, 0, 0]
    s.srid = new.srid ∧ Reachable s (labelled buffer) ∧ (labelled buffer).decode s = .ok buffer ∧
    ∃ q, (labelled buffer).transform {} s new (.zero false) none = .ok q ∧
      q.scheme ≠ .hierarchical ∧ q.decode new = .ok image ∧ ¬ KeepsWords s new buffer image 2 := by
  intro s new buffer image
  obtain ⟨q, htransform, hscheme, himage⟩ := exists_transform_labelled buffer image rfl rfl
    (by decide +kernel)
  refine ⟨rfl, reachable_labelled rfl, decode_labelled rfl, q, htransform, hscheme, himage, ?_⟩
  intro hkeeps
  have hsame : (new.dimensions[1]).SameNumbers s.dimensions[0] :=
    ⟨rfl, by decide +kernel, by decide +kernel⟩
  have hword := hkeeps 0 (by decide) new.dimensions[1] (List.getElem_mem _) s.dimensions[0]
    (List.getElem_mem _) rfl hsame
  have haltered : new.wordAt image 0 new.dimensions[1] ≠ s.wordAt buffer 0 s.dimensions[0] := by
    decide +kernel
  exact haltered hword

end Patch

end PointCloud
