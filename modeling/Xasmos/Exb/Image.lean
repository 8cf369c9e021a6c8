import Xasmos.Lib.LittleEndian
import Xasmos.Lib.Crc

/-!
# The `.exb` validator

`exbParse` checks an executable image: a 64-byte header, a table of 32-byte
segment entries, a table of 16-byte capability entries, and a CRC-32 over the
whole file with bytes 28..31 read as zero.  The image is untrusted, so the
validator is written over a monad `m` of byte reads: `rd o` is one access to byte
`o`.  On a fixed image `m` is `Id`, and `rd` is the image itself.

All sums below are of 32-bit fields, or of 64-bit fields already checked against
a bound far below `2 ^ 64`, so none of them can wrap and natural numbers compute
what the source's `uint64_t` does.
-/

namespace Xasmos.Exb

open Bytes

/-! ## Format constants -/

/-- `EXB_HEADER_SIZE`. -/
def headerSize : ℕ := 64
/-- `EXB_SEG_SIZE`. -/
def segSize : ℕ := 32
/-- `EXB_CAP_SIZE`. -/
def capSize : ℕ := 16
/-- `EXB_PAGE`. -/
def page : ℕ := 4096
/-- `EXB_MAX_FILE`. -/
def maxFile : ℕ := 16 * 1024 * 1024
/-- `EXB_MAX_SEGS`. -/
def maxSegs : ℕ := 8
/-- `EXB_MAX_CAPS`. -/
def maxCaps : ℕ := 8
/-- `EXB_MAX_IMAGE_PAGES`. -/
def maxImagePages : ℕ := 4096
/-- `EXB_MAX_IMAGE_BYTES`. -/
def maxImageBytes : ℕ := maxImagePages * page
/-- `EXB_DEFAULT_STACK_PAGES`. -/
def defaultStackPages : ℕ := 4
/-- `EXB_MAX_STACK_PAGES`. -/
def maxStackPages : ℕ := 64
/-- `EXB_MAX_HEAP_REQUEST`. -/
def maxHeapRequest : ℕ := 2 ^ 20
/-- `EXB_MAX_TOKEN_REQUEST`. -/
def maxTokenRequest : ℕ := 4096
/-- `EXB_VA_MIN`. -/
def vaMin : ℕ := 0x0000008000000000
/-- `EXB_VA_LIMIT`. -/
def vaLimit : ℕ := 0x0000700000000000
/-- `EXB_SEG_R`, `EXB_SEG_W` and `EXB_SEG_X`. -/
def segR : ℕ := 1
@[inherit_doc segR] def segW : ℕ := 2
@[inherit_doc segR] def segX : ℕ := 4
/-- `EXB_CAP_OPTIONAL`, the flag bit of a capability kind. -/
def capOptional : ℕ := 0x80000000

/-- The failures of `ExbStatus` that a parse can report. -/
inductive ExbError where
  | eSize | eMagic | eVersion | eHeader | eTarget | eCrc | eSegtab | eSeg | eWx
  | eOverlap | eEntry | eCap | eLimit | eKind
  deriving DecidableEq, Repr, Inhabited

/-- `ExbSeg`: one segment as the loader will map it. -/
structure ExbSeg where
  vaddr : ℕ
  memSize : ℕ
  pages : ℕ
  fileOff : ℕ
  fileSize : ℕ
  flags : ℕ
  deriving DecidableEq, Repr, Inhabited

/-- `ExbInfo`: what a successful parse tells the loader. -/
structure ExbInfo where
  entry : ℕ
  segCount : ℕ
  seg : ℕ → ExbSeg
  imagePages : ℕ
  stackBytes : ℕ
  heapFrames : ℕ
  extraTokens : ℕ

/-- `zero_out`: every byte of the record cleared. -/
def zeroOut : ExbInfo :=
  ⟨0, 0, fun _ => ⟨0, 0, 0, 0, 0, 0⟩, 0, 0, 0, 0⟩

/-! ## The checksum -/

/-- The CRC-32 polynomial, reflected. -/
def crcPoly : BitVec 32 := 0xEDB88320#32

/-- The sixteen-entry table of `exb_crc32_image`. -/
def crcTab : List (BitVec 32) :=
  [0x00000000#32, 0x1DB71064#32, 0x3B6E20C8#32, 0x26D930AC#32,
   0x76DC4190#32, 0x6B6B51F4#32, 0x4DB26158#32, 0x5005713C#32,
   0xEDB88320#32, 0xF00F9344#32, 0xD6D6A3E8#32, 0xCB61B38C#32,
   0x9B64C2B0#32, 0x86D3D2D4#32, 0xA00AE278#32, 0xBDBDF21C#32]

/-- One nibble of the checksum: `crc = (crc >> 4) ^ tab[crc & 15]`. -/
def crcNibble (crc : BitVec 32) : BitVec 32 :=
  (crc >>> 4) ^^^ crcTab.getD (crc &&& 15#32).toNat 0#32

section Reader

variable {m : Type → Type} [Monad m]

/-- The loop of `exb_crc32_image` from byte `i`, with `k` bytes to go.  The
checksum field itself is not read. -/
def crcLoop (rd : ℕ → m UInt8) : ℕ → ℕ → BitVec 32 → m (BitVec 32)
  | 0, _, crc => pure crc
  | k + 1, i, crc => do
    let b ← if 28 ≤ i ∧ i < 32 then pure 0 else rd i
    let crc := crc ^^^ b.toBitVec.setWidth 32
    crcLoop rd k (i + 1) (crcNibble (crcNibble crc))

/-- `exb_crc32_image`. -/
def exbCrc32Image (rd : ℕ → m UInt8) (size : ℕ) : m ℕ := do
  let crc ← crcLoop rd size 0 0xFFFFFFFF#32
  pure (~~~crc).toNat

/-! ## The parser -/

/-- One byte of the image, `img[o]`. -/
def byteAt (rd : ℕ → m UInt8) (o : ℕ) : ExceptT ExbError m UInt8 := ExceptT.lift (rd o)

/-- `le16`, `le32` and `le64`: a little-endian field of the image. -/
def le16 (rd : ℕ → m UInt8) (o : ℕ) : ExceptT ExbError m ℕ := ExceptT.lift (getLEM 2 rd o)
@[inherit_doc le16]
def le32 (rd : ℕ → m UInt8) (o : ℕ) : ExceptT ExbError m ℕ := ExceptT.lift (getLEM 4 rd o)
@[inherit_doc le16]
def le64 (rd : ℕ → m UInt8) (o : ℕ) : ExceptT ExbError m ℕ := ExceptT.lift (getLEM 8 rd o)

/-- `overlap`: the half-open intervals `[a0, a1)` and `[b0, b1)` meet. -/
def overlap (a0 a1 b0 b1 : ℕ) : Bool := decide (a0 < b1) && decide (b0 < a1)

/-- Report `e` when the condition of a failed check holds. -/
def failIf (c : Prop) [Decidable c] (e : ExbError) : ExceptT ExbError m Unit :=
  if c then throw e else pure ()

/-- The four arrays `v0`, `v1`, `d0`, `d1` at one index: the virtual span and the
file span of a segment already accepted. -/
structure Span where
  v0 : ℕ
  v1 : ℕ
  d0 : ℕ
  d1 : ℕ
  deriving DecidableEq, Repr

/-- Header bytes `i`, `i + 1`, … (`k` of them) must be zero. -/
def checkReserved (rd : ℕ → m UInt8) : ℕ → ℕ → ExceptT ExbError m Unit
  | 0, _ => pure ()
  | k + 1, i => do
    failIf ((← byteAt rd i) ≠ 0) .eHeader
    checkReserved rd k (i + 1)

/-- The fixed part of the header, up to the checksum. -/
def checkHeader (rd : ℕ → m UInt8) (size : ℕ) : ExceptT ExbError m Unit := do
  failIf (size < headerSize ∨ maxFile < size) .eSize
  failIf ((← byteAt rd 0) ≠ 0x7F) .eMagic
  failIf ((← byteAt rd 1) ≠ 0x45) .eMagic
  failIf ((← byteAt rd 2) ≠ 0x58) .eMagic
  failIf ((← byteAt rd 3) ≠ 0x42) .eMagic
  failIf ((← byteAt rd 4) ≠ 1) .eVersion
  failIf ((← byteAt rd 5) ≠ 1) .eVersion
  failIf ((← le16 rd 6) ≠ headerSize) .eHeader
  failIf ((← le32 rd 8) ≠ 0) .eHeader
  checkReserved rd 15 49
  failIf ((← byteAt rd 48) ≠ 0) .eKind
  failIf ((← le32 rd 12) ≠ 1) .eTarget
  failIf ((← le32 rd 24) ≠ size) .eSize
  let stored ← le32 rd 28
  let crc ← ExceptT.lift (exbCrc32Image rd size)
  failIf (stored ≠ crc) .eCrc

/-- Where the two tables lie, once checked. -/
structure Tables where
  segOff : ℕ
  segEnd : ℕ
  segCnt : ℕ
  capOff : ℕ
  capEnd : ℕ
  capCnt : ℕ
  deriving DecidableEq, Repr

/-- The table bounds: both inside the file, after the header, not overlapping. -/
def checkTables (size segOff segCnt capOff capCnt : ℕ) : ExceptT ExbError m Tables := do
  failIf (segCnt < 1 ∨ maxSegs < segCnt) .eSegtab
  let segEnd := segOff + segCnt * segSize
  failIf (segOff < headerSize ∨ size < segEnd) .eSegtab
  failIf (maxCaps < capCnt) .eCap
  if capCnt = 0 then do
    failIf (capOff ≠ 0) .eCap
    pure ⟨segOff, segEnd, segCnt, capOff, capOff, capCnt⟩
  else do
    let capEnd := capOff + capCnt * capSize
    failIf (capOff < headerSize ∨ size < capEnd) .eCap
    failIf (overlap segOff segEnd capOff capEnd) .eOverlap
    pure ⟨segOff, segEnd, segCnt, capOff, capEnd, capCnt⟩

/-- The file part of a segment: nothing at all, or bytes of the file after the
header that meet neither table. -/
def checkFileData (size : ℕ) (t : Tables) (foff fsz : ℕ) : ExceptT ExbError m Unit :=
  if fsz = 0 then failIf (foff ≠ 0) .eSeg
  else do
    failIf (foff < headerSize) .eSeg
    failIf (size < foff + fsz) .eSeg
    failIf (overlap foff (foff + fsz) t.segOff t.segEnd) .eOverlap
    failIf (t.capCnt ≠ 0 ∧ overlap foff (foff + fsz) t.capOff t.capEnd) .eOverlap

/-- One turn of the segment loop: the entry at `o`, against the spans accepted so
far and the running page total. -/
def parseSeg (rd : ℕ → m UInt8) (size : ℕ) (t : Tables) (spans : List Span) (total o : ℕ) :
    ExceptT ExbError m (ExbSeg × Span) := do
  let vaddr ← le64 rd o
  let mem ← le64 rd (o + 8)
  let foff ← le32 rd (o + 16)
  let fsz ← le32 rd (o + 20)
  let fl ← le32 rd (o + 24)
  failIf ((← le32 rd (o + 28)) ≠ 0) .eSeg
  failIf (fl &&& (2 ^ 32 - 1 - (segR ||| segW ||| segX)) ≠ 0) .eSeg
  failIf (fl &&& segR = 0) .eSeg
  failIf (fl &&& segW ≠ 0 ∧ fl &&& segX ≠ 0) .eWx
  failIf (vaddr &&& (page - 1) ≠ 0) .eSeg
  failIf (vaddr < vaMin ∨ vaLimit ≤ vaddr) .eSeg
  failIf (mem = 0 ∨ maxImageBytes < mem) .eSeg
  let pages := (mem + page - 1) / page
  let vend := vaddr + pages * page
  failIf (vaLimit < vend) .eSeg
  failIf (mem < fsz) .eSeg
  checkFileData size t foff fsz
  failIf (maxImagePages < total + pages) .eLimit
  failIf (spans.any fun s => overlap vaddr vend s.v0 s.v1 ||
    (decide (fsz ≠ 0) && decide (s.d0 < s.d1) && overlap foff (foff + fsz) s.d0 s.d1)) .eOverlap
  pure (⟨vaddr, mem, pages, foff, fsz, fl⟩, ⟨vaddr, vend, foff, foff + fsz⟩)

/-- The segment loop from entry `i`, with `k` entries to go. -/
def parseSegs (rd : ℕ → m UInt8) (size : ℕ) (t : Tables) :
    ℕ → ℕ → List Span → ℕ → ExbInfo → ExceptT ExbError m (ℕ × ExbInfo)
  | 0, _, _, total, out => pure (total, out)
  | k + 1, i, spans, total, out => do
    let (s, sp) ← parseSeg rd size t spans total (t.segOff + i * segSize)
    parseSegs rd size t k (i + 1) (spans ++ [sp]) (total + s.pages)
      { out with seg := Function.update out.seg i s }

/-- The entry test on one segment: executable, and the entry in its file part. -/
def holdsEntry (entry : ℕ) (s : ExbSeg) : Bool :=
  decide (s.flags &&& segX ≠ 0) && decide (s.vaddr ≤ entry) &&
    decide (entry - s.vaddr < s.fileSize)

/-- Which capability kinds the manifest has named so far: the bits of `seen`. -/
structure Seen where
  stack : Bool
  heap : Bool
  tokens : Bool
  deriving DecidableEq, Repr

/-- One turn of the capability loop: the entry at `o`. -/
def parseCap (rd : ℕ → m UInt8) (seen : Seen) (out : ExbInfo) (o : ℕ) :
    ExceptT ExbError m (Seen × ExbInfo) := do
  let kind ← le32 rd o
  let value ← le64 rd (o + 8)
  failIf ((← le32 rd (o + 4)) ≠ 0) .eCap
  let base := kind &&& (2 ^ 32 - 1 - capOptional)
  failIf (base = 0) .eCap
  match base with
  | 1 => do
    failIf seen.stack .eCap
    failIf (value % page ≠ 0 ∨ value < page ∨ maxStackPages * page < value) .eCap
    pure ({ seen with stack := true }, { out with stackBytes := value })
  | 2 => do
    failIf seen.heap .eCap
    failIf (maxHeapRequest < value) .eCap
    pure ({ seen with heap := true }, { out with heapFrames := value })
  | 3 => do
    failIf seen.tokens .eCap
    failIf (maxTokenRequest < value) .eCap
    pure ({ seen with tokens := true }, { out with extraTokens := value })
  | _ => do
    failIf (kind &&& capOptional = 0) .eCap
    pure (seen, out)

/-- The capability loop from entry `i`, with `k` entries to go. -/
def parseCaps (rd : ℕ → m UInt8) (capOff : ℕ) :
    ℕ → ℕ → Seen → ExbInfo → ExceptT ExbError m ExbInfo
  | 0, _, _, out => pure out
  | k + 1, i, seen, out => do
    let (seen, out) ← parseCap rd seen out (capOff + i * capSize)
    parseCaps rd capOff k (i + 1) seen out

/-- `parse_impl`.  A failure drops the record, as `exb_parse` clears it anyway. -/
def parseImpl (rd : ℕ → m UInt8) (size : ℕ) (out : ExbInfo) : ExceptT ExbError m ExbInfo := do
  checkHeader rd size
  let entry ← le64 rd 16
  let segOff ← le32 rd 32
  let segCnt ← le32 rd 36
  let capOff ← le32 rd 40
  let capCnt ← le32 rd 44
  let t ← checkTables size segOff segCnt capOff capCnt
  let (total, out) ← parseSegs rd size t t.segCnt 0 [] 0 out
  let out := { out with segCount := t.segCnt, imagePages := total }
  failIf (¬ (List.range t.segCnt).any fun i => holdsEntry entry (out.seg i)) .eEntry
  parseCaps rd t.capOff t.capCnt 0 ⟨false, false, false⟩
    { out with entry := entry, stackBytes := defaultStackPages * page }

/-- `exb_parse`: the status (`.ok ()` is `EXB_OK`) and the record, which any failure
leaves zeroed. -/
def exbParse (rd : ℕ → m UInt8) (size : ℕ) (out : ExbInfo) :
    m (Except ExbError Unit × ExbInfo) := do
  match ← (parseImpl rd size out).run with
  | .ok info => pure (.ok (), info)
  | .error e => pure (.error e, zeroOut)

end Reader
end Xasmos.Exb
