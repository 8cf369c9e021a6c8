import Xasmos.Exb.Image
import Mathlib

/-!
# The `.exb` v1 format

`ExbFormat img size` states the format as a predicate on the bytes of the file,
with no order of checks and no running state: intervals are sets and disjointness
is set disjointness, the page total is a sum over the table, and the checksum is
the bitwise CRC-32.  That the validator accepts exactly the files the predicate
describes is in `Accept`.
-/

namespace Xasmos.Exb

open Bytes

/-! ## The fields of a file -/

/-- The entry point. -/
def entryField (img : Bytes) : ℕ := getLE 8 img 16
/-- Offset of the segment table. -/
def segOff (img : Bytes) : ℕ := getLE 4 img 32
/-- Number of segments. -/
def segCnt (img : Bytes) : ℕ := getLE 4 img 36
/-- Offset of the capability table. -/
def capOff (img : Bytes) : ℕ := getLE 4 img 40
/-- Number of capabilities. -/
def capCnt (img : Bytes) : ℕ := getLE 4 img 44

/-- Segment entry `i`, with the number of pages its memory size spans. -/
def segAt (img : Bytes) (i : ℕ) : ExbSeg :=
  let o := segOff img + i * segSize
  ⟨getLE 8 img o, getLE 8 img (o + 8), (getLE 8 img (o + 8) + page - 1) / page,
    getLE 4 img (o + 16), getLE 4 img (o + 20), getLE 4 img (o + 24)⟩

/-- The reserved word of segment entry `i`. -/
def segReserved (img : Bytes) (i : ℕ) : ℕ := getLE 4 img (segOff img + i * segSize + 28)

/-- The kind word of capability entry `i`, its reserved word and its value. -/
def capKind (img : Bytes) (i : ℕ) : ℕ := getLE 4 img (capOff img + i * capSize)
@[inherit_doc capKind]
def capReserved (img : Bytes) (i : ℕ) : ℕ := getLE 4 img (capOff img + i * capSize + 4)
@[inherit_doc capKind]
def capValue (img : Bytes) (i : ℕ) : ℕ := getLE 8 img (capOff img + i * capSize + 8)

/-- A capability kind without its optional bit, which is bit 31. -/
def capBase (img : Bytes) (i : ℕ) : ℕ := capKind img i % 2 ^ 31

/-- The bytes of the two tables. -/
def segTable (img : Bytes) : Set ℕ := Set.Ico (segOff img) (segOff img + segCnt img * segSize)
@[inherit_doc segTable]
def capTable (img : Bytes) : Set ℕ := Set.Ico (capOff img) (capOff img + capCnt img * capSize)

/-- The whole-page virtual span of a segment. -/
def ExbSeg.span (s : ExbSeg) : Set ℕ := Set.Ico s.vaddr (s.vaddr + s.pages * page)

/-- The bytes of the file a segment is loaded from. -/
def ExbSeg.data (s : ExbSeg) : Set ℕ := Set.Ico s.fileOff (s.fileOff + s.fileSize)

/-- The CRC-32 of the file with the checksum field read as zero. -/
def crc32Ref (img : Bytes) (size : ℕ) : ℕ :=
  (~~~(((List.range size).map fun i => if 28 ≤ i ∧ i < 32 then 0 else img i).foldl
    (crcByte crcPoly) 0xFFFFFFFF#32)).toNat

/-! ## The format -/

/-- One segment entry on its own. -/
structure SegOk (img : Bytes) (size : ℕ) (i : ℕ) : Prop where
  reserved : segReserved img i = 0
  flags_known : (segAt img i).flags < 8
  readable : (segAt img i).flags.testBit 0 = true
  not_wx : ¬ ((segAt img i).flags.testBit 1 = true ∧ (segAt img i).flags.testBit 2 = true)
  aligned : page ∣ (segAt img i).vaddr
  va_min : vaMin ≤ (segAt img i).vaddr
  va_limit : (segAt img i).vaddr + (segAt img i).pages * page ≤ vaLimit
  mem_pos : 0 < (segAt img i).memSize
  file_le_mem : (segAt img i).fileSize ≤ (segAt img i).memSize
  no_data : (segAt img i).fileSize = 0 → (segAt img i).fileOff = 0
  data_inside : 0 < (segAt img i).fileSize →
    headerSize ≤ (segAt img i).fileOff ∧ (segAt img i).fileOff + (segAt img i).fileSize ≤ size
  data_seg_table : Disjoint (segAt img i).data (segTable img)
  data_cap_table : Disjoint (segAt img i).data (capTable img)

/-- One capability entry on its own. -/
structure CapOk (img : Bytes) (i : ℕ) : Prop where
  reserved : capReserved img i = 0
  base_pos : 0 < capBase img i
  stack : capBase img i = 1 →
    page ∣ capValue img i ∧ page ≤ capValue img i ∧ capValue img i ≤ maxStackPages * page
  heap : capBase img i = 2 → capValue img i ≤ maxHeapRequest
  tokens : capBase img i = 3 → capValue img i ≤ maxTokenRequest
  unknown : 3 < capBase img i → (capKind img i).testBit 31 = true

/-- The `.exb` v1 format. -/
structure ExbFormat (img : Bytes) (size : ℕ) : Prop where
  size_min : headerSize ≤ size
  size_max : size ≤ maxFile
  size_field : getLE 4 img 24 = size
  magic : img 0 = 0x7F ∧ img 1 = 0x45 ∧ img 2 = 0x58 ∧ img 3 = 0x42
  version : img 4 = 1
  endian : img 5 = 1
  header_size : getLE 2 img 6 = headerSize
  flags_zero : getLE 4 img 8 = 0
  reserved : ∀ i, 49 ≤ i → i < 64 → img i = 0
  kind : img 48 = 0
  target : getLE 4 img 12 = 1
  crc : getLE 4 img 28 = crc32Ref img size
  seg_count : 1 ≤ segCnt img ∧ segCnt img ≤ maxSegs
  seg_table : headerSize ≤ segOff img ∧ segOff img + segCnt img * segSize ≤ size
  cap_count : capCnt img ≤ maxCaps
  cap_none : capCnt img = 0 → capOff img = 0
  cap_table : 0 < capCnt img →
    headerSize ≤ capOff img ∧ capOff img + capCnt img * capSize ≤ size
  tables_disjoint : Disjoint (segTable img) (capTable img)
  segs : ∀ i < segCnt img, SegOk img size i
  spans_disjoint : ∀ i j, i < j → j < segCnt img → Disjoint (segAt img i).span (segAt img j).span
  data_disjoint : ∀ i j, i < j → j < segCnt img → Disjoint (segAt img i).data (segAt img j).data
  pages : ∑ i ∈ Finset.range (segCnt img), (segAt img i).pages ≤ maxImagePages
  entry : ∃ i < segCnt img, (segAt img i).flags.testBit 2 = true ∧
    (segAt img i).vaddr ≤ entryField img ∧
    entryField img < (segAt img i).vaddr + (segAt img i).fileSize
  caps : ∀ i < capCnt img, CapOk img i
  caps_once : ∀ i j, i < j → j < capCnt img → capBase img i = capBase img j → 3 < capBase img j

/-! ## The checksum -/

/-- Each table entry is four shifts of its index. -/
theorem crcTab_eq (n : ℕ) (h : n < 16) :
    crcTab.getD n 0#32 = crcSteps crcPoly 4 (BitVec.ofNat 32 n) := by
  interval_cases n <;> rfl

theorem crcNibble_eq (c : BitVec 32) : crcNibble c = crcSteps crcPoly 4 c := by
  have hlow : lowBits 4 c = c &&& 15#32 := rfl
  have hlt : (c &&& 15#32).toNat < 16 := by
    rw [BitVec.toNat_and]
    exact lt_of_le_of_lt Nat.and_le_right (by decide)
  rw [crcSteps_split, hlow, crcNibble, crcTab_eq _ hlt, BitVec.ofNat_toNat, BitVec.setWidth_eq]

/-- The loop folds the bytes from `i` on, the checksum field read as zero. -/
theorem crcLoop_eq (img : Bytes) (k i : ℕ) (crc : BitVec 32) :
    crcLoop (m := Id) img k i crc =
      ((List.range' i k).map fun j => if 28 ≤ j ∧ j < 32 then 0 else img j).foldl
        (crcByte crcPoly) crc := by
  induction k generalizing i crc with
  | zero => rfl
  | succ k ih =>
    have hbyte : ∀ b : UInt8, crcNibble (crcNibble (crc ^^^ b.toBitVec.setWidth 32)) =
        crcByte crcPoly crc b := by
      intro b
      rw [crcNibble_eq, crcNibble_eq, ← crcSteps_add]
      rfl
    rw [List.range'_succ, List.map_cons, List.foldl_cons, ← ih, ← hbyte]
    by_cases h : 28 ≤ i ∧ i < 32
    · simp only [crcLoop, h, and_self, if_true]; rfl
    · simp only [crcLoop, h, if_false]; rfl

/-- The nibble table computes the CRC-32 of the image. -/
theorem exbCrc32Image_eq (img : Bytes) (size : ℕ) :
    exbCrc32Image (m := Id) img size = crc32Ref img size := by
  have h := crcLoop_eq img size 0 0xFFFFFFFF#32
  rw [crc32Ref, List.range_eq_range', ← h]
  rfl

/-- The reflected CRC-32 of a message, bit by bit. -/
def crc32 (msg : List UInt8) : BitVec 32 := ~~~crcBits 0xEDB88320#32 0xFFFFFFFF#32 msg

/-- The image with the checksum field zeroed. -/
def zeroedImage (img : Bytes) (size : ℕ) : List UInt8 :=
  (List.range size).map fun i => if 28 ≤ i ∧ i < 32 then 0 else img i

/-- **The checksum is CRC-32**: of the image with its checksum field zeroed, whatever its length. -/
theorem exbCrc32Image_eq_crc32 (img : Bytes) (size : ℕ) :
    exbCrc32Image (m := Id) img size = (crc32 (zeroedImage img size)).toNat := by
  rw [exbCrc32Image_eq, crc32Ref, foldl_crcByte crcPoly (by decide)]
  rfl

-- the check value of CRC-32
example : crc32 [0x31, 0x32, 0x33, 0x34, 0x35, 0x36, 0x37, 0x38, 0x39] = 0xCBF43926#32 := by
  decide +kernel

end Xasmos.Exb
