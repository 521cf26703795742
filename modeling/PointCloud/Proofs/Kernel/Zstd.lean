import Mathlib
import PointCloud.Kernel.Builtin
import PointCloud.Proofs.Result

/-!
# Built-in zstd frames: round trip

The built-in compressor keeps packed blocks only if they read back, so all that is left to show is
that verbatim blocks do. The frame announces no length, so it is read block by block; the reader
keeps a stretch of content in front of it and lays it aside when there is no room for another block.
What carries the proof is that there always is room for one more block.

Main results:

* `Zstd.takeStreamed?_storedBlocks` — verbatim blocks give their content back;
* `Zstd.decode_write` — what is written reads back.
-/

namespace PointCloud

namespace Zstd

/-! ## Fields of a written frame -/

/-- The header of every written frame: a window of two megabytes, no length, no checksum. -/
def writtenHeader : FrameHeader := ⟨2 ^ 21, none, false⟩

theorem takeNumber?_toBytes (width n : Nat) (rest : Bytes) (h : n < 256 ^ width) :
    takeNumber? width (Numeral.toBytes width n ++ rest) = some (n, rest) := by
  rw [takeNumber?, takeBytes?_append (by simp)]
  simp [Numeral.ofBytes_toBytes, Nat.mod_eq_of_lt h]

theorem takeNumber?_one (b : UInt8) (rest : Bytes) :
    takeNumber? 1 (b :: rest) = some (b.toNat, rest) := by
  simp [takeNumber?, takeBytes?, Numeral.ofBytes]

theorem takeNumber?_zero (bytes : Bytes) : takeNumber? 0 bytes = some (0, bytes) := by
  simp [takeNumber?, takeBytes?, Numeral.ofBytes]

theorem takeHeader?_written (blocks : Bytes) :
    takeHeader? ([0x00, 0x58] ++ blocks) = some (writtenHeader, blocks) := by
  have hdescriptor : (0x00 : UInt8).toNat = 0 := rfl
  have hscale : (0x58 : UInt8).toNat = 88 := rfl
  rw [List.cons_append, List.cons_append, List.nil_append, takeHeader?, takeNumber?_one,
    hdescriptor]
  simp only [Option.bind_eq_bind, Option.bind_some, takeNumber?_one, hscale]
  simp [takeNumber?_zero, takeContent?, writtenHeader]

/-! ## Verbatim blocks -/

/-- A frame that announces no length and whose window holds the greatest block. -/
structure FrameHeader.IsOpen (h : FrameHeader) : Prop where
  content?_eq : h.content? = none
  blockLimit_eq : h.blockLimit = Zstd.blockLimit

theorem isOpen_writtenHeader : writtenHeader.IsOpen := ⟨rfl, by decide⟩

variable {h : FrameHeader}

theorem FrameHeader.IsOpen.fits (hopen : h.IsOpen) (out : Array UInt8) : h.fits out = true := by
  simp [FrameHeader.fits, hopen.content?_eq]

theorem FrameHeader.IsOpen.blockLimit_le_kept (hopen : h.IsOpen) : Zstd.blockLimit ≤ h.kept := by
  simp only [FrameHeader.kept, hopen.content?_eq, hopen.blockLimit_eq, Option.elim_none]
  omega

/-- Whether a reader has room for another block, of what it keeps since byte `start`. -/
def HasRoom (h : FrameHeader) (start : Nat) (p : Progress) : Prop :=
  p.out.size - start + blockLimit ≤ h.kept

/-- The number in front of a verbatim block holds its length and whether it is the last one. -/
theorem takeNumber?_block (final : Bool) {content : Bytes} (rest : Bytes)
    (hlength : content.length ≤ blockLimit) :
    takeNumber? 3 (block final 0 content ++ rest) =
      some (8 * content.length + final.toNat, content ++ rest) := by
  have hheader : 8 * content.length + final.toNat < 256 ^ 3 := by
    have hfinal := final.toNat_le
    unfold blockLimit at hlength
    omega
  have hflag : (if final then 1 else 0) = final.toNat := by cases final <;> rfl
  rw [block, List.append_assoc, Nat.mul_zero, Nat.add_zero, hflag,
    takeNumber?_toBytes _ _ _ hheader]

/-- The room for a block, when there is any, is that of the greatest one. -/
theorem takeBlock?_verbatim {start : Nat} {p : Progress} {content : Bytes} (rest : Bytes)
    (hlength : content.length ≤ blockLimit) (hroom : HasRoom h start p) :
    takeBlock? 0 content.length ⟨blockLimit, min blockLimit (h.kept - (p.out.size - start))⟩ p
        (content ++ rest) = some (p.append content, rest) := by
  unfold HasRoom at hroom
  have hfree : content.length ≤ min blockLimit (h.kept - (p.out.size - start)) := by omega
  simp only [takeBlock?, takeBytes?_append rfl, hfree]
  simp

/-- The last block is appended, and what follows it is left. -/
theorem takeStreamed?_last {steps start : Nat} {p : Progress} {content : Bytes} (hopen : h.IsOpen)
    (rest : Bytes) (hne : content ≠ []) (hlength : content.length ≤ blockLimit)
    (hroom : HasRoom h start p) :
    takeStreamed? h (steps + 1) start p (block true 0 content ++ rest) =
      some (p.out ++ content.toArray, rest) := by
  have hpos : content.length ≠ 0 := by simpa using hne
  have hblock := takeBlock?_verbatim rest hlength hroom
  -- The number in front of the block gives its length, its kind and that it is the last.
  have hsize : (8 * content.length + 1) / 8 = content.length := by omega
  have hkind : (8 * content.length + 1) / 2 % 4 = 0 := by omega
  have hlast : (8 * content.length + 1) % 2 = 1 := by omega
  rw [takeStreamed?, takeNumber?_block true rest hlength]
  simp only [Option.bind_eq_bind, Option.bind_some, Bool.toNat_true, hsize, hkind, hlast,
    hopen.blockLimit_eq, hblock, hopen.fits]
  simp [hpos, Progress.append]

/-- Any other block is appended, and there is room for another one. -/
theorem takeStreamed?_block (steps : Nat) {start : Nat} {p : Progress} {content : Bytes}
    (hopen : h.IsOpen)
    (rest : Bytes) (hne : content ≠ []) (hlength : content.length ≤ blockLimit)
    (hroom : HasRoom h start p) :
    ∃ start' p', HasRoom h start' p' ∧ p'.out = p.out ++ content.toArray ∧
      takeStreamed? h (steps + 1) start p (block false 0 content ++ rest) =
        takeStreamed? h steps start' p' rest := by
  have hpos : content.length ≠ 0 := by simpa using hne
  have hblock := takeBlock?_verbatim rest hlength hroom
  have hsize : (8 * content.length + 0) / 8 = content.length := by omega
  have hkind : (8 * content.length + 0) / 2 % 4 = 0 := by omega
  have hlast : (8 * content.length + 0) % 2 = 0 := by omega
  rw [takeStreamed?, takeNumber?_block false rest hlength]
  simp only [Option.bind_eq_bind, Option.bind_some, Bool.toNat_false, hsize, hkind, hlast,
    hopen.blockLimit_eq, hblock, hopen.content?_eq, Option.getD_none]
  by_cases hfull : h.kept < (p.append content).out.size - start + blockLimit
  · -- What is kept is laid aside, so the next block is read into an empty stretch.
    refine ⟨(p.append content).out.size, { p.append content with oldest := start }, ?_, rfl, ?_⟩
    · simpa [HasRoom] using hopen.blockLimit_le_kept
    · simp [hpos, hfull]
  · refine ⟨start, p.append content, ?_, rfl, ?_⟩
    · unfold HasRoom
      omega
    · simp [hpos, hfull]

/-- The blocks of a frame are appended one after the other. -/
theorem takeStreamed?_storedBlocks (fuller steps : Nat) {start : Nat} {p : Progress}
    {content : Bytes} (hopen : h.IsOpen) (rest : Bytes) (hsteps : fuller < steps)
    (hmore : fuller * blockLimit < content.length)
    (hlength : content.length ≤ (fuller + 1) * blockLimit) (hroom : HasRoom h start p) :
    takeStreamed? h steps start p (storedBlocks fuller content ++ rest) =
      some (p.out ++ content.toArray, rest) := by
  induction fuller generalizing steps start p content with
  | zero =>
    obtain ⟨steps, rfl⟩ : ∃ n, steps = n + 1 := ⟨steps - 1, by omega⟩
    have hne : content ≠ [] := by
      rintro rfl
      simp at hmore
    exact takeStreamed?_last hopen rest hne (by omega) hroom
  | succ fuller ih =>
    obtain ⟨steps, rfl⟩ : ∃ n, steps = n + 1 := ⟨steps - 1, by omega⟩
    rw [Nat.succ_mul] at hmore hlength
    -- The first block is full, and something is left for the last one.
    have htake : (content.take blockLimit).length = blockLimit := by
      rw [List.length_take]
      omega
    have hdrop : (content.drop blockLimit).length = content.length - blockLimit := by simp
    have hne : content.take blockLimit ≠ [] := by
      intro h
      rw [h] at htake
      exact absurd htake (by decide)
    obtain ⟨start', p', hroom', hout, hstep⟩ := takeStreamed?_block steps hopen
      (storedBlocks fuller (content.drop blockLimit) ++ rest) hne (Nat.le_of_eq htake) hroom
    have hmore' : fuller * blockLimit < (content.drop blockLimit).length := by omega
    have hrest := ih steps (by omega) hmore' (by omega) hroom'
    have hjoin : (content.take blockLimit).toArray ++ (content.drop blockLimit).toArray =
        content.toArray := by
      rw [List.append_toArray, List.take_append_drop]
    rw [storedBlocks, List.append_assoc, hstep, hrest, hout, Array.append_assoc, hjoin]

/-! ## Streams -/

section Length

variable (content frames : Bytes)

@[simp] theorem length_withLength : (withLength content frames).length = frames.length + 8 := by
  simp [withLength, Nat.add_comm]

/-- A stream begins with the length of its content. -/
theorem declared_withLength (h : content.length < 2 ^ 64) :
    Numeral.ofBytes ((withLength content frames).take 8) = content.length := by
  rw [withLength, List.take_left' (by simp), Numeral.ofBytes_toBytes, Nat.mod_eq_of_lt (by omega)]

@[simp] theorem drop_withLength : (withLength content frames).drop 8 = frames :=
  List.drop_left' (by simp)

end Length

theorem length_storedBlocks (fuller : Nat) (content : Bytes) :
    fuller < (storedBlocks fuller content).length := by
  induction fuller generalizing content with
  | zero => simp [storedBlocks, block]
  | succ fuller ih =>
    have hrest := ih (content.drop blockLimit)
    simp only [storedBlocks, block, List.length_append, Numeral.length_toBytes] at *
    omega

theorem takeFrame?_store {content : Bytes} (hne : content ≠ []) :
    takeFrame? (store content) = some (content, []) := by
  have hpos : 0 < content.length := List.length_pos_iff.mpr hne
  have hsteps := length_storedBlocks ((content.length - 1) / blockLimit) content
  -- The last block is neither empty nor longer than a block.
  have hmore : (content.length - 1) / blockLimit * blockLimit < content.length := by
    unfold blockLimit
    omega
  have hlength : content.length ≤ ((content.length - 1) / blockLimit + 1) * blockLimit := by
    unfold blockLimit
    omega
  have hroom : HasRoom writtenHeader 0 {} := by
    simpa [HasRoom] using isOpen_writtenHeader.blockLimit_le_kept
  have hblocks := takeStreamed?_storedBlocks ((content.length - 1) / blockLimit)
    ((storedBlocks ((content.length - 1) / blockLimit) content).length + 1)
    isOpen_writtenHeader [] (by omega) hmore hlength hroom
  rw [List.append_nil] at hblocks
  have hskip : frameMagic / 16 ≠ skippableMagic := by decide
  have hwhole : writtenHeader.isWhole = false := rfl
  have hwindow : writtenHeader.window ≤ windowLimit := by decide
  have hchecked : writtenHeader.checked = false := rfl
  rw [store, frame, List.append_assoc, takeFrame?, takeNumber?_toBytes _ _ _ (by decide)]
  simp only [Option.bind_eq_bind, Option.bind_some, if_neg hskip, guard_true, takeHeader?_written,
    hwhole, hwindow, hblocks, hchecked]
  simp

theorem decode_store {content : Bytes} (hne : content ≠ []) (hroom : content.length < 2 ^ 62) :
    decode (withLength content (store content)) = .ok content := by
  have hframe := takeFrame?_store hne
  generalize store content = frames at *
  have hlong : 8 ≤ (withLength content frames).length := by simp
  have hempty : (withLength content frames).isEmpty = false := by
    rw [List.isEmpty_eq_false_iff, ← List.length_pos_iff]
    omega
  have hshort : ¬ (withLength content frames).length < 8 := by omega
  have hdeclared := declared_withLength content frames (by omega)
  simp only [decode, hempty, hshort, hdeclared, drop_withLength, reserve, hroom, frames?, hframe]
  simp

/-- A written frame reads back as the content it was written from. -/
theorem decode_write {content : Bytes} (hne : content ≠ []) (hroom : content.length < 2 ^ 62) :
    decode (withLength content (write content)) = .ok content := by
  have hstore := decode_store hne hroom
  simp only [write]
  -- A packed frame is kept only if it was read back; otherwise the verbatim one is written.
  split
  · rename_i decoded hdecoded
    split
    · rename_i heq
      rw [hdecoded, heq]
    · exact hstore
  · exact hstore

end Zstd

end PointCloud
