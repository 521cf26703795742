import Mathlib
import PointCloud.Proofs.Bytes.Cursor
import PointCloud.Proofs.Kernel.SharedBits
import PointCloud.Proofs.Key
import PointCloud.Proofs.Schema.Rows
import PointCloud.Scheme.Hierarchical

/-!
# Hierarchical payloads: stable sort

A payload of clusters holds its points in ascending order of the cluster key, points of one key in
the order they had. Writing a sorted buffer again finds the same clusters, so the second payload is
the first.

The argument follows the layers of a payload: the differences of low words, a column of a cluster,
the columns of a cluster, the clusters. On each layer the reader takes back what the writer wrote
and leaves what follows.

Main results:

* `Hierarchical.readColumn_columnBytes`, `Hierarchical.readClusters_flatMap` — the layers;
* `Hierarchical.decompress_compress` — a payload holds the rows of its buffer sorted by key;
* `Hierarchical.compress_stable_sort` — the sort is stable, and writing it again changes nothing.
-/

namespace PointCloud

namespace Hierarchical

/-! ## Stretches -/

theorem flatten_stretches (key : Row → List Nat) (rows : List Row) :
    (stretches key rows).flatten = rows := by
  induction rows with
  | nil => rfl
  | cons row rows ih =>
    unfold stretches
    split
    · rename_i next stretch rest heq
      rw [heq] at ih
      split
      · rw [List.flatten_cons, List.cons_append, ← List.flatten_cons, ih]
      · rw [List.flatten_cons, ih]
        rfl
    · rw [List.flatten_cons, ih]
      rfl

theorem ne_nil_of_mem_stretches {key : Row → List Nat} {rows stretch : List Row}
    (h : stretch ∈ stretches key rows) : stretch ≠ [] := by
  induction rows generalizing stretch with
  | nil => simp [stretches] at h
  | cons row rows ih =>
    unfold stretches at h
    split at h
    · rename_i next first rest heq
      split at h
      · rcases List.mem_cons.mp h with rfl | h
        · simp
        · exact ih (by rw [heq]; exact List.mem_cons_of_mem _ h)
      · rcases List.mem_cons.mp h with rfl | h
        · simp
        · exact ih (by rw [heq]; exact h)
    · rcases List.mem_cons.mp h with rfl | h
      · simp
      · exact ih h

/-- The stretches of images are the images of stretches. -/
theorem stretches_map {α β : Type} (f : α → β) (key : β → List Nat) (xs : List α) :
    stretches key (xs.map f) = (stretches (fun x => key (f x)) xs).map (List.map f) := by
  induction xs with
  | nil => rfl
  | cons x xs ih =>
    rw [List.map_cons, stretches, stretches, ih]
    -- The stretch after the first element is empty on both sides or on neither.
    rcases stretches (fun x => key (f x)) xs with _ | ⟨_ | ⟨next, stretch⟩, rest⟩
    · rfl
    · rfl
    · simp only [List.map_cons]
      split
      · rfl
      · rfl

/-- Lists that are not empty are no more than their elements. -/
theorem length_le_length_flatten {α : Type} {lists : List (List α)} (h : ∀ l ∈ lists, l ≠ []) :
    lists.length ≤ lists.flatten.length := by
  induction lists with
  | nil => simp
  | cons l lists ih =>
    have hpos : 0 < l.length := List.length_pos_iff.mpr (h l List.mem_cons_self)
    have hrest := ih fun l' hl' => h l' (List.mem_cons_of_mem _ hl')
    rw [List.length_cons, List.flatten_cons, List.length_append]
    omega

/-! ## Low words -/

/-- Adding a difference to the word before it gives the word after it. -/
theorem add_difference (low : Nat) {next : Nat} (hnext : next < 2 ^ 64) :
    (((low : Int) + ZigZag.integer (ZigZag.number (Int.bmod ((next : Int) - low) (2 ^ 64)))) %
      2 ^ 64).toNat = next := by
  -- The balanced difference is the difference up to whole turns, and a turn changes nothing.
  have hsum : ((low : Int) + Int.bmod ((next : Int) - low) (2 ^ 64)) % 2 ^ 64 = next := by
    have hpow : ((2 : Int) ^ 64) = ((2 ^ 64 : Nat) : Int) := by norm_num
    rw [hpow, Int.add_emod, Int.bmod_emod, ← Int.add_emod, add_sub_cancel]
    exact Int.emod_eq_of_lt (by omega) (by omega)
  rw [ZigZag.integer_number, hsum, Int.toNat_natCast]

theorem difference_lt (low next : Nat) :
    ZigZag.number (Int.bmod ((next : Int) - low) (2 ^ 64)) < 2 ^ 64 := by
  have hpos : 0 < 2 ^ 64 := by decide
  have hlo := Int.le_bmod (x := (next : Int) - low) hpos
  have hhi := Int.bmod_lt (x := (next : Int) - low) hpos
  exact ZigZag.number_lt (by omega) (by omega)

/-- Low words are read back from their differences. -/
theorem readLows_differences (d : Dimension) {unique : Nat} (hunique : unique ≤ 64) {low : Nat}
    {lows : List Nat} (total : Nat) (rest : Bytes) (hlow : low < 2 ^ unique)
    (hlows : ∀ l ∈ lows, l < 2 ^ unique) :
    readLows d unique lows.length low ⟨total, differences low lows ++ rest⟩ =
      .ok (low :: lows, ⟨total, rest⟩) := by
  have hle : 2 ^ unique ≤ 2 ^ 64 := Nat.pow_le_pow_right (by decide) hunique
  induction lows generalizing low with
  | nil =>
    have hfits : ¬ 2 ^ unique ≤ low := by omega
    unfold readLows
    simp only [hfits, if_false, List.length_nil, differences, List.nil_append, Result.pure_eq]
  | cons next lows ih =>
    have hfits : ¬ 2 ^ unique ≤ low := by omega
    have hnext := hlows next List.mem_cons_self
    have hread := Cursor.varint_append total (differences next lows ++ rest)
      (difference_lt low next)
    have hadd := add_difference low (Nat.lt_of_lt_of_le hnext hle)
    have hrest := ih hnext fun l hl => hlows l (List.mem_cons_of_mem _ hl)
    unfold readLows
    simp only [hfits, if_false, List.length_cons, differences, List.append_assoc, hread,
      Result.ok_bind, hadd, hrest, Result.pure_eq]

/-! ## Columns of a cluster -/

/-- A word is its shared bits followed by its low bits. -/
theorem leading_add_low {width : Nat} {words : List Nat} {w : Nat} (h : w ∈ words)
    (hfits : w < 2 ^ width) :
    (SharedBits.leadingWord width words / 2 ^ SharedBits.unique width words *
        2 ^ SharedBits.unique width words + w % 2 ^ SharedBits.unique width words) % 2 ^ width =
      w := by
  have hagree := SharedBits.mod_div_eq width h
  rw [Nat.mod_eq_of_lt hfits] at hagree
  rw [← hagree, Nat.div_add_mod', Nat.mod_eq_of_lt hfits]

/-- The parts of a column are read one after the other. -/
theorem readColumn_append (d : Dimension) {shared leading low more total : Nat} {tail : Bytes}
    {lows : List Nat} {c : Cursor} (hbits : d.interpretation.bits ≤ 64)
    (hshared : shared ≤ d.interpretation.bits) (hleading : leading < 2 ^ 64) (hlow : low < 2 ^ 64)
    (hlows : readLows d (d.interpretation.bits - shared) more low ⟨total, tail⟩ = .ok (lows, c)) :
    readColumn d (more + 1) ⟨total, UInt8.ofNat shared ::
        (Varint.write leading ++ (Varint.write low ++ tail))⟩ =
      .ok (lows.map fun low => (leading * 2 ^ (d.interpretation.bits - shared) + low) %
        2 ^ d.interpretation.bits, c) := by
  have hbyte : (UInt8.ofNat shared).toNat = shared := by
    rw [UInt8.toNat_ofNat']
    omega
  have hinside : ¬ d.interpretation.bits < shared := by omega
  have hfirst := Cursor.varint_append total (Varint.write low ++ tail) hleading
  have hsecond := Cursor.varint_append total tail hlow
  simp only [readColumn, Cursor.byte_cons, Result.ok_bind, hbyte, hinside, if_false, hfirst,
    hsecond, Nat.add_sub_cancel, hlows, Result.pure_eq]

/-- A column that is not empty is read back. -/
theorem readColumn_columnBytes (d : Dimension) {words : List Nat} (total : Nat) (rest : Bytes)
    (hne : words ≠ []) (hfits : ∀ w ∈ words, w < 256 ^ d.size) :
    readColumn d words.length ⟨total, columnBytes d words ++ rest⟩ =
      .ok (words, ⟨total, rest⟩) := by
  have hbits := d.bits_le
  have hwide : ∀ w ∈ words, w < 2 ^ d.interpretation.bits := by
    intro w hw
    rw [d.two_pow_bits]
    exact hfits w hw
  have hword := fun w (hw : w ∈ words) => leading_add_low hw (hwide w hw)
  have hunique := SharedBits.unique_le d.interpretation.bits words
  have hleading := SharedBits.leadingWord_lt d.interpretation.bits words
  obtain ⟨w, ws, rfl⟩ := List.exists_cons_of_ne_nil hne
  simp only [columnBytes, List.map_cons, List.cons_append, List.append_assoc]
  -- Of the shared bits only their bounds matter from here on.
  generalize SharedBits.unique d.interpretation.bits (w :: ws) = unique at *
  generalize SharedBits.leadingWord d.interpretation.bits (w :: ws) = leading at *
  have hback : d.interpretation.bits - (d.interpretation.bits - unique) = unique := by omega
  have hpow : 2 ^ d.interpretation.bits ≤ 2 ^ 64 := Nat.pow_le_pow_right (by decide) hbits
  have hpow' : 2 ^ unique ≤ 2 ^ 64 := Nat.pow_le_pow_right (by decide) (by omega)
  have hlow : ∀ v : Nat, v % 2 ^ unique < 2 ^ unique := fun v => Nat.mod_lt _ (Nat.two_pow_pos _)
  have hlows : ∀ l ∈ ws.map (· % 2 ^ unique), l < 2 ^ unique := by
    intro l hl
    obtain ⟨v, -, rfl⟩ := List.mem_map.mp hl
    exact hlow v
  have hread := readLows_differences d (by omega : unique ≤ 64) total rest (hlow w) hlows
  rw [List.length_map] at hread
  have hcolumn := readColumn_append d hbits (Nat.sub_le _ _)
    (Nat.lt_of_le_of_lt (Nat.div_le_self leading (2 ^ unique)) (by omega))
    (Nat.lt_of_lt_of_le (hlow w) hpow') (by rw [hback]; exact hread)
  -- Every word is put together from the shared bits and its own.
  have hwords : (w % 2 ^ unique :: ws.map (· % 2 ^ unique)).map (fun low =>
      (leading / 2 ^ unique * 2 ^ unique + low) % 2 ^ d.interpretation.bits) = w :: ws := by
    show ((w :: ws).map (· % 2 ^ unique)).map _ = w :: ws
    rw [List.map_map]
    conv => rhs; rw [← List.map_id (w :: ws)]
    exact List.map_congr_left hword
  rw [List.length_cons, hcolumn, hback, hwords]

/-- The columns of a cluster are read back. -/
theorem readColumns_flatten {dimensions : List Dimension} {rows : List Row} (total : Nat)
    (rest : Bytes) (hne : rows ≠ [])
    (hfits : ∀ row ∈ rows, Row.Fits (dimensions.map (·.size)) row) :
    readColumns rows.length dimensions
        ⟨total, (List.zipWith columnBytes dimensions
          (Row.columns dimensions.length rows)).flatten ++ rest⟩ =
      .ok (Row.columns dimensions.length rows, ⟨total, rest⟩) := by
  induction dimensions generalizing rows with
  | nil => rfl
  | cons d dimensions ih =>
    -- The first column has the first words of the rows, the other columns their tails.
    have hwords : ∀ w ∈ rows.map (·.headD 0), w < 256 ^ d.size := by
      intro w hw
      obtain ⟨row, hrow, rfl⟩ := List.mem_map.mp hw
      exact (Row.fits_cons (hfits row hrow)).1
    have htail : ∀ row ∈ rows.map List.tail, Row.Fits (dimensions.map (·.size)) row := by
      intro row hrow
      obtain ⟨r, hr, rfl⟩ := List.mem_map.mp hrow
      exact (Row.fits_cons (hfits r hr)).2
    have hfirst := readColumn_columnBytes d total ((List.zipWith columnBytes dimensions
      (Row.columns dimensions.length (rows.map List.tail))).flatten ++ rest)
      (by simpa using hne) hwords
    have hrest := ih (by simpa using hne) htail
    rw [List.length_map] at hfirst hrest
    rw [List.length_cons, Row.columns, List.zipWith_cons_cons, List.flatten_cons, List.append_assoc]
    simp only [readColumns, hfirst, hrest, Result.ok_bind, Result.pure_eq]

/-! ## Clusters -/

/-- Clusters are read back, whatever follows them, if there is room for their points. -/
theorem readClusters_flatMap (s : Schema) (expected : Nat) {clusters : List (List Row)}
    {room : Nat} (total : Nat) (rest : Bytes) (hne : ∀ rows ∈ clusters, rows ≠ [])
    (hfits : ∀ rows ∈ clusters, ∀ row ∈ rows, Row.Fits s.sizes row)
    (hroom : clusters.flatten.length ≤ room) (hlimit : room < 2 ^ 64) :
    readClusters s expected clusters.length room
        ⟨total, clusters.flatMap (clusterBytes s) ++ rest⟩ =
      .ok (clusters.flatten, room - clusters.flatten.length, ⟨total, rest⟩) := by
  induction clusters generalizing room with
  | nil => rfl
  | cons rows clusters ih =>
    rw [List.flatten_cons, List.length_append] at hroom
    have hrows := hne rows List.mem_cons_self
    have hpos : 0 < rows.length := List.length_pos_iff.mpr hrows
    have hfit := hfits rows List.mem_cons_self
    have hcount := Cursor.varint_append total ((List.zipWith columnBytes s.dimensions
      (s.columns rows)).flatten ++ (clusters.flatMap (clusterBytes s) ++ rest))
      (by omega : rows.length < 2 ^ 64)
    have hcolumns : readColumns rows.length s.dimensions ⟨total, (List.zipWith columnBytes
        s.dimensions (s.columns rows)).flatten ++ (clusters.flatMap (clusterBytes s) ++ rest)⟩ =
          .ok (s.columns rows, ⟨total, clusters.flatMap (clusterBytes s) ++ rest⟩) :=
      readColumns_flatten total _ hrows hfit
    have hrest := ih (fun r hr => hne r (List.mem_cons_of_mem _ hr))
      (fun r hr => hfits r (List.mem_cons_of_mem _ hr))
      (by omega : clusters.flatten.length ≤ room - rows.length) (by omega)
    -- Neither refusal of a cluster comes up: it has a point, and there is room for its points.
    have hok : ¬ (rows.length = 0 ∨ room < rows.length) := by omega
    have hbytes : (rows :: clusters).flatMap (clusterBytes s) ++ rest =
        Varint.write rows.length ++ ((List.zipWith columnBytes s.dimensions
          (s.columns rows)).flatten ++ (clusters.flatMap (clusterBytes s) ++ rest)) := by
      simp only [List.flatMap_cons, clusterBytes, List.append_assoc]
    rw [hbytes, List.length_cons, readClusters]
    simp only [hcount, Result.ok_bind, Bool.or_eq_true, decide_eq_true_eq, hok, if_false,
      hcolumns, hrest, Result.pure_eq, s.columns_ofColumns hfit]
    rw [List.flatten_cons, List.length_append, Nat.sub_sub]

/-! ## Payloads -/

section Payload

variable {s : Schema} {axes : List Nat} {buffer : Bytes} {points : Nat}

/-- Whatever the key is, a payload of stretches holds the rows they were split from. -/
theorem decompress_stretches (key : Row → List Nat) {rows : List Row} {keyBits : Nat}
    (hfits : ∀ row ∈ rows, Row.Fits s.sizes row) (hkeyBits : keyBits ≤ keyBitLimit)
    (hroom : reserve (rows.length * s.size) = .ok ()) :
    decompress s rows.length (UInt8.ofNat keyBits :: Varint.write (stretches key rows).length ++
        (stretches key rows).flatMap (clusterBytes s)) = .ok (s.bytes rows) := by
  have hlength := bufferLength_of_reserve hroom
  have hsmall : rows.length < 2 ^ 62 := by
    have h := reserve_eq_ok_iff.mp hroom
    exact Nat.lt_of_le_of_lt (Nat.le_mul_of_pos_right _ s.size_pos) h
  have hflatten := flatten_stretches key rows
  have hne : ∀ stretch ∈ stretches key rows, stretch ≠ [] := fun _ h => ne_nil_of_mem_stretches h
  have hfit : ∀ stretch ∈ stretches key rows, ∀ row ∈ stretch, Row.Fits s.sizes row := by
    intro stretch hstretch row hrow
    refine hfits row ?_
    rw [← hflatten]
    exact List.mem_flatten_of_mem hstretch hrow
  -- No stretch is empty, so there are no more stretches than points.
  have hcount := length_le_length_flatten hne
  rw [hflatten] at hcount
  obtain ⟨total, hstart⟩ : ∃ total, Cursor.start (UInt8.ofNat keyBits ::
      (Varint.write (stretches key rows).length ++ (stretches key rows).flatMap (clusterBytes s))) =
        ⟨total, UInt8.ofNat keyBits :: (Varint.write (stretches key rows).length ++
          (stretches key rows).flatMap (clusterBytes s))⟩ := ⟨_, rfl⟩
  have hkey : ¬ keyBitLimit < (UInt8.ofNat keyBits).toNat := by
    unfold keyBitLimit at *
    rw [UInt8.toNat_ofNat']
    omega
  have hvarint := Cursor.varint_append total ((stretches key rows).flatMap (clusterBytes s))
    (by omega : (stretches key rows).length < 2 ^ 64)
  have hclusters := readClusters_flatMap s rows.length total [] hne hfit
    (Nat.le_of_eq (congrArg List.length hflatten)) (by omega)
  rw [hflatten, Nat.sub_self, List.append_nil] at hclusters
  simp only [decompress, hlength, hroom, List.cons_append, hstart, Cursor.byte_cons, Result.ok_bind,
    hkey, if_false, hvarint, hclusters, ne_eq, not_true_eq_false, Cursor.finish_nil, Result.pure_eq]

/-- A list is what is found at its indices. -/
theorem map_getD_range {α : Type} (xs : List α) (default : α) :
    (List.range xs.length).map (xs.toArray.getD · default) = xs := by
  apply List.ext_getElem (by simp)
  intro i hi hi'
  simp [Array.getD, hi']

/-- The rows at grouped indices are the rows in groups: sorting and splitting indices is sorting and
splitting what is found there. -/
theorem clusterPoints_eq_ok (haxes : keyAxes s = .ok axes) (keyBits : Nat) (buffer : Bytes) :
    ∃ clusters, clusterPoints s keyBits buffer = .ok clusters ∧
      clusters.map (List.map ((s.rows buffer).toArray.getD · [])) =
        stretches (key s axes keyBits) (Key.sortBy (key s axes keyBits) (s.rows buffer)) := by
  unfold clusterPoints
  rw [haxes]
  refine ⟨_, rfl, ?_⟩
  rw [← stretches_map, ← Key.sortBy_map, List.size_toArray, map_getD_range]

/-- The payload is written from the rows in groups. -/
theorem compress_eq_ok (config : Config) (haxes : keyAxes s = .ok axes) (buffer : Bytes) :
    let key := key s axes (min config.keyBits keyBitLimit)
    let clusters := stretches key (Key.sortBy key (s.rows buffer))
    compress config s buffer = .ok (UInt8.ofNat (min config.keyBits keyBitLimit) ::
      Varint.write clusters.length ++ clusters.flatMap (clusterBytes s)) := by
  obtain ⟨clusters, hclusters, hrows⟩ :=
    clusterPoints_eq_ok haxes (min config.keyBits keyBitLimit) buffer
  dsimp only
  rw [← hrows, List.length_map, List.flatMap_map]
  simp only [compress, hclusters, Result.ok_bind, Result.pure_eq]

/-- Without the axes of a key there is no payload. -/
theorem compress_of_keyAxes_error {e : Error} (haxes : keyAxes s = .error e) (config : Config)
    (buffer : Bytes) : compress config s buffer = .error e := by
  simp only [compress, clusterPoints, haxes, Result.error_bind]

theorem exists_keyAxes_of_compress {config : Config} {payload : Bytes}
    (h : compress config s buffer = .ok payload) : ∃ axes, keyAxes s = .ok axes := by
  cases haxes : keyAxes s with
  | ok axes => exact ⟨axes, rfl⟩
  | error e =>
    rw [compress_of_keyAxes_error haxes] at h
    cases h

/-- A payload holds the rows of its buffer, sorted by key. -/
theorem decompress_compress (config : Config) (haxes : keyAxes s = .ok axes)
    (hbuffer : buffer.length = points * s.size) (hroom : reserve buffer.length = .ok ())
    {payload : Bytes} (h : compress config s buffer = .ok payload) :
    decompress s points payload = .ok (s.bytes (Key.sortBy
      (key s axes (min config.keyBits keyBitLimit)) (s.rows buffer))) := by
  have hpayload := compress_eq_ok config haxes buffer
  generalize key s axes (min config.keyBits keyBitLimit) = key at *
  rw [h, Except.ok.injEq] at hpayload
  -- Sorting permutes the rows, so their count stays, and they fit as before.
  have hperm := Key.perm_sortBy key (s.rows buffer)
  have hcount : (Key.sortBy key (s.rows buffer)).length = points := by
    rw [hperm.length_eq, s.length_rows hbuffer]
  have hfits : ∀ row ∈ Key.sortBy key (s.rows buffer), Row.Fits s.sizes row :=
    fun row hrow => s.fits_of_mem_rows (hperm.mem_iff.mp hrow)
  have hread := decompress_stretches key hfits (Nat.min_le_right config.keyBits keyBitLimit)
    (by rw [hcount, ← hbuffer]; exact hroom)
  rw [hcount] at hread
  rw [hpayload, hread]

/-- Writing the sorted rows of a buffer gives the payload of the buffer. -/
theorem compress_sorted (config : Config) (haxes : keyAxes s = .ok axes) (buffer : Bytes) :
    compress config s (s.bytes (Key.sortBy (key s axes (min config.keyBits keyBitLimit))
      (s.rows buffer))) = compress config s buffer := by
  have hsorted := compress_eq_ok config haxes (s.bytes (Key.sortBy
    (key s axes (min config.keyBits keyBitLimit)) (s.rows buffer)))
  have hbuffer := compress_eq_ok config haxes buffer
  generalize key s axes (min config.keyBits keyBitLimit) = key at *
  have hfits : ∀ row ∈ Key.sortBy key (s.rows buffer), Row.Fits s.sizes row :=
    fun row hrow => s.fits_of_mem_rows ((Key.perm_sortBy key _).mem_iff.mp hrow)
  rw [hsorted, hbuffer, s.rows_bytes hfits, Key.sortBy_of_sorted (Key.pairwise_sortBy key _)]

end Payload

/-- With both axes of the plane, a payload holds the points of its buffer in a stable sort by
cluster key, and the sorted points have the same payload. Without them there is no payload. -/
theorem compress_stable_sort (config : Config) (s : Schema) (buffer : Bytes) (points : Nat)
    (hbuffer : buffer.length = points * s.size) :
    (∀ x y, s.axis? 'x' = some x → s.axis? 'y' = some y →
      ∃ payload sorted,
        Key.IsStableSort (key s ([x, y] ++ (s.axis? 'z').toList) (min config.keyBits 64))
          (s.rows buffer) sorted ∧
        compress config s buffer = .ok payload ∧
        (reserve buffer.length = .ok () →
          decompress s points payload = .ok (s.bytes sorted)) ∧
        compress config s (s.bytes sorted) = .ok payload) ∧
    (s.axis? 'x' = none ∨ s.axis? 'y' = none →
      compress config s buffer = .error (.invalidSchema (.missingAxis s.pcid))) := by
  constructor
  · intro x y hx hy
    have haxes : keyAxes s = .ok ([x, y] ++ (s.axis? 'z').toList) := by
      simp only [keyAxes, hx, hy]
    have hpayload := compress_eq_ok config haxes buffer
    refine ⟨_, _, Key.isStableSort_sortBy _ _, hpayload, ?_, ?_⟩
    · intro hroom
      exact decompress_compress config haxes hbuffer hroom hpayload
    · exact (compress_sorted config haxes buffer).trans hpayload
  · intro hnone
    have haxes : keyAxes s = .error (.invalidSchema (.missingAxis s.pcid)) := by
      unfold keyAxes
      split
      · rename_i x y hx hy
        rw [hx, hy] at hnone
        simp at hnone
      · rfl
    exact compress_of_keyAxes_error haxes config buffer

/-- Three points of the plane, two of which share a cluster and stay in order. -/
theorem compress_stable_sort_planar :
    let buffer : Bytes := [0, 7, 255, 0, 3, 128, 7, 255, 1, 3, 0, 1, 255, 2, 3]
    buffer.length = 3 * Schema.planar.size ∧
    ∃ payload sorted,
      Key.IsStableSort (key .planar [0, 1] 8) (Schema.planar.rows buffer) sorted ∧
      compress {} .planar buffer = .ok payload ∧
      (reserve buffer.length = .ok () →
        decompress .planar 3 payload = .ok (Schema.planar.bytes sorted)) ∧
      compress {} .planar (Schema.planar.bytes sorted) = .ok payload := by
  intro buffer
  have hbuffer : buffer.length = 3 * Schema.planar.size := by decide
  exact ⟨hbuffer, (compress_stable_sort {} .planar buffer 3 hbuffer).1 0 1 rfl rfl⟩

end Hierarchical

end PointCloud
