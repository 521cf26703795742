import Mathlib
import PointCloud.Proofs.Patch.Summary
import PointCloud.Proofs.Scheme.Hierarchical
import PointCloud.Proofs.Scheme.RoundTrip
import PointCloud.Proofs.Scheme.Untrusted

/-!
# Writing under another schema

A scheme that keeps the order of the points looks at the types of the dimensions and not at their
names, so it writes the same payload under two schemas that read alike. The scheme that groups
points looks for the axes by name. It writes under every schema that has an X and a Y axis, and
under no other.

Main results:

* `Schema.HasPlane`, `Hierarchical.keyAxes_isOk_iff` — the schemas that points can be grouped under;
* `Scheme.compress_alike` — a scheme that keeps the order writes the same under both schemas;
* `Scheme.writes_of_hasPlane`, `Scheme.Writes.alike` — buffers that can be written;
* `Scheme.compress_failsOnly` — the ways in which a payload can fail to be written: but for want of
  axes, a schema is never refused.
-/

namespace PointCloud

open Result (FailsOnly)

/-! ## Axes -/

/-- A schema with an X and a Y axis. -/
def Schema.HasPlane (s : Schema) : Prop := s.axis? 'x' ≠ none ∧ s.axis? 'y' ≠ none

instance (s : Schema) : Decidable s.HasPlane := inferInstanceAs (Decidable (_ ∧ _))

namespace Hierarchical

theorem keyAxes_isOk_iff {s : Schema} : (∃ axes, keyAxes s = .ok axes) ↔ s.HasPlane := by
  unfold keyAxes Schema.HasPlane
  cases s.axis? 'x' <;> cases s.axis? 'y' <;> simp

theorem keyAxes_of_not_hasPlane {s : Schema} (h : ¬ s.HasPlane) :
    keyAxes s = .error (.invalidSchema (.missingAxis s.pcid)) := by
  rw [← keyAxes_isOk_iff, not_exists] at h
  unfold keyAxes at h ⊢
  split
  · rename_i hx hy
    simp [hx, hy] at h
  · rfl

end Hierarchical

/-! ## Columns of one type -/

namespace Column

variable {c c' : Column}

/-- Columns of the same words, of dimensions of the same type. -/
structure Alike (c c' : Column) : Prop where
  interpretation : c.dimension.interpretation = c'.dimension.interpretation
  order          : c.order = c'.order
  words          : c.words = c'.words

theorem plan_congr [Compressors] (h : c.Alike c') (config : Config) :
    plan config c = plan config c' := by
  obtain ⟨⟨name, description, position, interpretation, scale, offset⟩, order, words⟩ := c
  obtain ⟨⟨name', description', position', interpretation', scale', offset'⟩, order', words'⟩ := c'
  obtain ⟨rfl, rfl, rfl⟩ := h
  rfl

/-- Rows have columns of the same types under schemas that read alike. -/
theorem ofRows_alike {s t : Schema} (hst : s.Alike t) (rows : List Row) :
    List.Forall₂ Alike (ofRows s rows) (ofRows t rows) := by
  unfold ofRows Schema.columns
  rw [← hst.width_eq]
  refine forall₂_zipWith ?_ hst.dimensions (List.forall₂_same.mpr fun words _ => Eq.refl words)
  rintro d e words _ hde rfl
  exact ⟨hde.interpretation, hst.order, rfl⟩

end Column

theorem Schema.Alike.rows_eq {s t : Schema} (h : s.Alike t) (buffer : Bytes) :
    s.rows buffer = t.rows buffer := by
  have hrow : s.row = t.row := by
    funext bytes
    unfold row
    rw [h.order, h.sizes_eq]
  unfold rows
  rw [hrow, h.size_eq]

/-! ## Payloads -/

theorem Dimensional.writeColumns_congr [Compressors] (config : Config)
    {columns columns' : List Column} (h : List.Forall₂ Column.Alike columns columns') :
    writeColumns (Column.plan config) columns = writeColumns (Column.plan config) columns' := by
  induction h with
  | nil => rfl
  | cons hc _ ih => rw [writeColumns, writeColumns, Column.plan_congr hc, hc.order, ih]

namespace Scheme

variable [Compressors] {s t : Schema}

/-- A scheme that keeps the order writes the same payload under schemas that read alike. -/
theorem compress_alike (hst : s.Alike t) {scheme : Scheme} (hscheme : scheme ≠ .hierarchical)
    (config : Config) (buffer : Bytes) (points : Nat) :
    scheme.compress config s buffer points = scheme.compress config t buffer points := by
  unfold compress
  rw [← hst.size_eq]
  cases scheme with
  | uncompressed => rfl
  | dimensional =>
    have hcolumns :
        Dimensional.compress config s buffer = Dimensional.compress config t buffer := by
      unfold Dimensional.compress
      rw [← hst.rows_eq]
      exact Dimensional.writeColumns_congr config (Column.ofRows_alike hst _)
    refine congrArg (_ >>= ·) (funext fun expected => ?_)
    exact congrArg (if buffer.length ≠ expected then _ else ·) hcolumns
  | hierarchical => exact absurd rfl hscheme
  | externalLossless => rfl

/-- With axes, the scheme that groups points writes whatever the length of the buffer allows. -/
theorem writes_of_hasPlane (hplane : s.HasPlane) (config : Config) {buffer : Bytes}
    {points : Nat} (hbuffer : buffer.length = points * s.size)
    (hlength : points * s.size < 2 ^ 64) :
    hierarchical.Writes config s buffer points := by
  obtain ⟨axes, haxes⟩ := Hierarchical.keyAxes_isOk_iff.mpr hplane
  have hexpected : bufferLength points s.size = .ok (points * s.size) :=
    bufferLength_eq_ok_iff.mpr ⟨hlength, rfl⟩
  unfold Writes compress
  rw [hexpected, Result.ok_bind, if_neg (not_not.mpr hbuffer)]
  exact ⟨_, Hierarchical.compress_eq_ok config haxes buffer⟩

/-- Without them it refuses the schema. -/
theorem compress_hierarchical_of_not_hasPlane (hplane : ¬ s.HasPlane) (config : Config)
    {buffer : Bytes} {points : Nat} (hbuffer : buffer.length = points * s.size)
    (hlength : points * s.size < 2 ^ 64) :
    hierarchical.compress config s buffer points =
      .error (.invalidSchema (.missingAxis s.pcid)) := by
  have hexpected : bufferLength points s.size = .ok (points * s.size) :=
    bufferLength_eq_ok_iff.mpr ⟨hlength, rfl⟩
  unfold compress
  rw [hexpected, Result.ok_bind, if_neg (not_not.mpr hbuffer)]
  have haxes := Hierarchical.keyAxes_of_not_hasPlane hplane
  exact Hierarchical.compress_of_keyAxes_error haxes config buffer

/-- What was written under the scheme that groups points was written under a schema with axes. -/
theorem hasPlane_of_compress {config : Config} {buffer payload : Bytes} {points : Nat}
    (h : hierarchical.compress config s buffer points = .ok payload) : s.HasPlane := by
  unfold compress at h
  obtain ⟨expected, -, h⟩ := Result.bind_eq_ok_iff.mp h
  simp only [Result.throw_eq, Result.error_bind, Result.check_eq_ok_iff] at h
  exact Hierarchical.keyAxes_isOk_iff.mp (Hierarchical.exists_keyAxes_of_compress h.2)

/-- If a payload can be written under a schema, it can under one that reads alike, where points may
be grouped only if it has axes. -/
theorem Writes.alike (hst : s.Alike t) {scheme : Scheme}
    (hplane : scheme = .hierarchical → t.HasPlane) {config : Config} {buffer : Bytes}
    {points : Nat} (h : scheme.Writes config s buffer points) :
    scheme.Writes config t buffer points := by
  obtain ⟨payload, h⟩ := h
  -- Grouped points may be written differently, as keys differ; all others are written the same.
  by_cases hscheme : scheme = .hierarchical
  · subst hscheme
    unfold compress at h
    obtain ⟨expected, hexpected, h⟩ := Result.bind_eq_ok_iff.mp h
    obtain ⟨hlength, rfl⟩ := bufferLength_eq_ok_iff.mp hexpected
    simp only [Result.throw_eq, Result.error_bind, Result.check_eq_ok_iff, ne_eq, not_not] at h
    rw [hst.size_eq] at h hlength
    exact writes_of_hasPlane (hplane rfl) config h.1 hlength
  · rw [compress_alike hst hscheme] at h
    exact ⟨payload, h⟩

end Scheme

/-! ## Refusals -/

namespace Error

/-- The errors of writing a payload, the axes being there: those of reading one, and a word that is
too wide to be packed. -/
inductive IsWriting : Error → Prop
  | reading {e : Error} (h : e.IsReading) : IsWriting e
  | wordTooWide (word width : Nat) : IsWriting (.wordTooWide word width)

/-- An error that blames the schema. -/
inductive IsInvalidSchema : Error → Prop
  | invalidSchema (fault : SchemaFault) : IsInvalidSchema (.invalidSchema fault)

theorem IsRefusal.isReading {e : Error} (h : e.IsRefusal) : e.IsReading := by
  cases h with
  | corruptPatch cause => exact .corruptPatch cause
  | allocationFailed => exact .allocationFailed

theorem IsWriting.not_isInvalidSchema {e : Error} (h : e.IsWriting) : ¬ e.IsInvalidSchema := by
  intro hinvalid
  cases hinvalid
  cases h with
  | reading h => cases h

end Error

open Error (IsWriting)

namespace Column

variable [Compressors]

theorem encode_failsOnly (c : Column) (level : Nat) (method : ColumnMethod) :
    FailsOnly IsWriting (c.encode level method) := by
  cases method with
  | verbatim => exact FailsOnly.ok _
  | runLength =>
    show FailsOnly IsWriting (RunLength.encode c.dimension.size c.order c.words)
    unfold RunLength.encode
    dsimp only
    split
    · exact FailsOnly.ok _
    · exact FailsOnly.error (.reading (.kernel _))
  | sharedBits =>
    show FailsOnly IsWriting (SharedBits.encode c.dimension.size c.order c.words)
    unfold SharedBits.encode
    dsimp only
    split
    · exact FailsOnly.ok _
    · split
      · exact FailsOnly.error (.wordTooWide _ _)
      · exact FailsOnly.ok _
  | deflate => exact FailsOnly.ok _

theorem plan_failsOnly (config : Config) (c : Column) : FailsOnly IsWriting (plan config c) := by
  unfold plan planWith
  split
  · exact FailsOnly.ok _
  · split
    · exact FailsOnly.ok _
    · exact (c.encode_failsOnly _ _).bind fun _ => FailsOnly.ok _

end Column

theorem Dimensional.writeColumns_failsOnly [Compressors] (config : Config)
    (columns : List Column) : FailsOnly IsWriting (writeColumns (Column.plan config) columns) := by
  induction columns with
  | nil => exact FailsOnly.ok _
  | cons c columns ih =>
    refine (c.plan_failsOnly config).bind fun planned => ?_
    refine FailsOnly.bind ?_ fun bytes => ih.bind fun rest => FailsOnly.ok _
    unfold columnBytes
    split
    · exact FailsOnly.ok _
    · exact FailsOnly.error (.reading (.corruptPatch _))

/-- With axes, or in order, a payload can only fail to be written in these ways. -/
theorem Scheme.compress_failsOnly [Compressors] {s : Schema} {scheme : Scheme}
    (hplane : scheme = .hierarchical → s.HasPlane) (config : Config) (buffer : Bytes)
    (points : Nat) : FailsOnly IsWriting (scheme.compress config s buffer points) := by
  unfold compress
  refine ((bufferLength_failsOnly points s.size).mono fun _ => .reading).bind fun expected => ?_
  refine FailsOnly.check (.reading (.corruptPatch _)) ?_
  cases scheme with
  | uncompressed => exact FailsOnly.ok _
  | dimensional => exact Dimensional.writeColumns_failsOnly config _
  | hierarchical =>
    obtain ⟨axes, haxes⟩ := Hierarchical.keyAxes_isOk_iff.mpr (hplane rfl)
    show FailsOnly IsWriting (Hierarchical.compress config s buffer)
    rw [Hierarchical.compress_eq_ok config haxes buffer]
    exact FailsOnly.ok _
  | externalLossless => exact FailsOnly.ok _

/-- A computation that never blames the schema. -/
def NeverInvalid {α : Type} (x : Except Error α) : Prop :=
  FailsOnly (fun e => ¬ e.IsInvalidSchema) x

theorem Error.IsReading.not_isInvalidSchema {e : Error} (h : e.IsReading) :
    ¬ e.IsInvalidSchema :=
  (IsWriting.reading h).not_isInvalidSchema

theorem Error.IsRefusal.not_isInvalidSchema {e : Error} (h : e.IsRefusal) :
    ¬ e.IsInvalidSchema :=
  h.isReading.not_isInvalidSchema

theorem bufferLength_neverInvalid (points size : Nat) : NeverInvalid (bufferLength points size) :=
  (bufferLength_failsOnly points size).mono fun _ he => he.not_isInvalidSchema

theorem reserve_neverInvalid (bytes : Nat) : NeverInvalid (reserve bytes) :=
  (reserve_failsOnly bytes).mono fun _ he => he.not_isInvalidSchema

end PointCloud
