import Xasmos.Exb.Accept

/-!
# The packer

`build_image` of `exbpack.rexx` lays out an image: the header, the two tables, then the data of the
segments, each part padded to 16 bytes, and last the checksum over the whole.  A REXX
string is a list of bytes and a REXX number a natural number.  `exit 3`, on a layout that does
not add up, is `none`.
-/

namespace Xasmos.Exb

open Bytes

variable {a b body : List UInt8} {i j n o off off' pos size v : ℕ} {p q : Bytes} {α : Type}

/-! ## The tool -/

/-- The stem `seg.i.`. -/
structure PackSeg where
  vaddr : ℕ
  mem : ℕ
  flags : ℕ
  data : List UInt8

variable {s t : PackSeg} {segs : List PackSeg}

/-- The stem `cap.i.`. -/
structure PackCap where
  kind : ℕ
  val : ℕ

/-- `d2c(v, n)`: the low `n` bytes of a number, most significant first. -/
def d2c (v n : ℕ) : List UInt8 := ((List.range n).map fun i => UInt8.ofNat (v / 256 ^ i)).reverse

/-- `p16`, `p32` and `p64`: little-endian packing. -/
def p16 (v : ℕ) : List UInt8 := (d2c v 2).reverse
@[inherit_doc p16]
def p32 (v : ℕ) : List UInt8 := (d2c v 4).reverse
@[inherit_doc p16]
def p64 (v : ℕ) : List UInt8 := (d2c v 8).reverse

/-- `roundup16` -/
def roundup16 (x : ℕ) : ℕ :=
  let n := x + 15
  n - n % 16

/-- `zeros` -/
def zeros (n : ℕ) : List UInt8 := List.replicate n 0

/-- `u32xor` -/
def u32xor (a b : ℕ) : ℕ := (a % 2 ^ 32) ^^^ (b % 2 ^ 32)

/-- `init_table` -/
def packTab : List ℕ :=
  [0x00000000, 0x1DB71064, 0x3B6E20C8, 0x26D930AC, 0x76DC4190, 0x6B6B51F4, 0x4DB26158, 0x5005713C,
   0xEDB88320, 0xF00F9344, 0xD6D6A3E8, 0xCB61B38C, 0x9B64C2B0, 0x86D3D2D4, 0xA00AE278, 0xBDBDF21C]

/-- One nibble of `crc32img`. -/
def packNibble (crc : ℕ) : ℕ :=
  let idx := crc % 16
  let crc := crc / 16
  u32xor crc (packTab.getD idx 0)

/-- `crc32img`; the loop counts from 1. -/
def crc32img (s : List UInt8) : ℕ :=
  u32xor (((List.range' 1 s.length).foldl (fun crc i =>
    let byte := if 29 ≤ i ∧ i ≤ 32 then 0 else (s.getD (i - 1) 0).toNat
    packNibble (packNibble (u32xor crc byte))) 0xFFFFFFFF)) 0xFFFFFFFF

/-- The first loop of `build_image`: the offset of each segment's data, and where the next would
be. -/
def layout : ℕ → List PackSeg → List ℕ × ℕ
  | pos, [] => ([], pos)
  | pos, s :: segs =>
    if 0 < s.data.length then
      (pos :: (layout (roundup16 (pos + s.data.length)) segs).1,
        (layout (roundup16 (pos + s.data.length)) segs).2)
    else (0 :: (layout pos segs).1, (layout pos segs).2)

/-- A line of the segment table. -/
def packSeg (s : PackSeg) (off : ℕ) : List UInt8 :=
  p64 s.vaddr ++ p64 s.mem ++ p32 off ++ p32 s.data.length ++ p32 s.flags ++ p32 0

/-- A line of the capability table. -/
def packCap (c : PackCap) : List UInt8 := p32 c.kind ++ p32 0 ++ p64 c.val

/-- Fill up to a multiple of 16. -/
def pad16 (body : List UInt8) : List UInt8 := body ++ zeros (roundup16 body.length - body.length)

/-- The last loop of `build_image`. -/
def packData : List UInt8 → List PackSeg → List UInt8
  | body, [] => body
  | body, s :: segs =>
    if 0 < s.data.length then packData (pad16 (body ++ s.data)) segs else packData body segs

/-- `overlay(new, s, n)` for a string that is long enough; positions count from 1. -/
def overlay (new s : List UInt8) (n : ℕ) : List UInt8 :=
  s.take (n - 1) ++ new ++ s.drop (n - 1 + new.length)

/-- The header, with the checksum still zero. -/
def packHeader (total entry nseg co ncap fkind : ℕ) : List UInt8 :=
  [0x7F, 0x45, 0x58, 0x42, 1, 1] ++ p16 64 ++ p32 0 ++ p32 1 ++ p64 entry ++ p32 total ++ p32 0 ++
    p32 64 ++ p32 nseg ++ p32 co ++ p32 ncap ++ d2c fkind 1 ++ zeros 15

/-- `build_image` -/
def buildImage (segs : List PackSeg) (caps : List PackCap) (entry fkind : ℕ) :
    Option (List UInt8) :=
  let nseg := segs.length
  let ncap := caps.length
  let co := if 0 < ncap then 64 + 32 * nseg else 0
  let lay := layout (roundup16 (64 + 32 * nseg + 16 * ncap)) segs
  let total := lay.2
  let segtab := (segs.zip lay.1).flatMap fun x => packSeg x.1 x.2
  let captab := caps.flatMap packCap
  let body := pad16 (packHeader total entry nseg co ncap fkind ++ segtab ++ captab)
  let body := packData body segs
  if body.length ≠ total then none
  else some (overlay (p32 (crc32img body)) body 29)

/-! ## Strings as memory -/

/-- A string as the memory that holds it. -/
def bytesOf (l : List UInt8) : Bytes := fun i => l.getD i 0

theorem bytesOf_append_left (h : i < a.length) : bytesOf (a ++ b) i = bytesOf a i := by
  simp only [bytesOf, List.getD_eq_getElem?_getD, List.getElem?_append_left h]

theorem bytesOf_append_right (a b : List UInt8) (i : ℕ) :
    bytesOf (a ++ b) (a.length + i) = bytesOf b i := by
  simp only [bytesOf, List.getD_eq_getElem?_getD, List.getElem?_append_right (Nat.le_add_right _ _),
    Nat.add_sub_cancel_left]

/-- A field whose bytes are the digits of a number. -/
theorem getLE_digits (h : ∀ i < n, p (o + i) = UInt8.ofNat (v / 256 ^ i)) :
    getLE n p o = v % 256 ^ n := by
  induction n generalizing o v with
  | zero => rw [getLE, pow_zero, Nat.mod_one]
  | succ n ih =>
    have h0 : p o = UInt8.ofNat v := by simpa using h 0 (by omega)
    have hrest : getLE n p (o + 1) = v / 256 % 256 ^ n := by
      apply ih
      intro i hi
      have := h (i + 1) (by omega)
      rwa [show o + (i + 1) = o + 1 + i by omega, pow_succ', ← Nat.div_div_eq_div_mul] at this
    have hpow : 256 ^ (n + 1) = 256 * 256 ^ n := pow_succ' 256 n
    rw [getLE, h0, hrest, UInt8.toNat_ofNat', hpow, Nat.mod_mul]

@[simp] theorem length_d2c (v n : ℕ) : (d2c v n).length = n := by simp [d2c]

@[simp] theorem length_p16 (v : ℕ) : (p16 v).length = 2 := by simp [p16]

@[simp] theorem length_p32 (v : ℕ) : (p32 v).length = 4 := by simp [p32]

@[simp] theorem length_p64 (v : ℕ) : (p64 v).length = 8 := by simp [p64]

@[simp] theorem length_zeros (n : ℕ) : (zeros n).length = n := List.length_replicate

theorem bytesOf_zeros (n i : ℕ) : bytesOf (zeros n) i = 0 := by
  simp only [bytesOf, zeros, List.getD_eq_getElem?_getD, List.getElem?_replicate]
  split_ifs <;> rfl

/-- The memory `p` has the string `l` at `o`. -/
def Spells (p : Bytes) (o : ℕ) (l : List UInt8) : Prop := ∀ i < l.length, p (o + i) = bytesOf l i

theorem spells_bytesOf (a b c : List UInt8) : Spells (bytesOf (a ++ (b ++ c))) a.length b := by
  intro i hi
  rw [bytesOf_append_right, bytesOf_append_left hi]

theorem spells_append : Spells p o (a ++ b) ↔ Spells p o a ∧ Spells p (o + a.length) b := by
  constructor
  · intro h
    constructor
    · intro i hi
      rw [h i (by rw [List.length_append]; omega), bytesOf_append_left hi]
    · intro i hi
      rw [Nat.add_assoc, h (a.length + i) (by rw [List.length_append]; omega), bytesOf_append_right]
  · rintro ⟨ha, hb⟩ i hi
    rw [List.length_append] at hi
    by_cases hlt : i < a.length
    · rw [ha i hlt, bytesOf_append_left hlt]
    · obtain ⟨j, rfl⟩ : ∃ j, i = a.length + j := ⟨i - a.length, by omega⟩
      rw [← Nat.add_assoc, hb j (by omega), bytesOf_append_right]

/-- A packed number reads back. -/
theorem Spells.getLE (h : Spells p o (d2c v n).reverse) (hv : v < 256 ^ n) : getLE n p o = v := by
  rw [getLE_digits (v := v), Nat.mod_eq_of_lt hv]
  intro i hi
  rw [h i (by simpa using hi)]
  simp [bytesOf, d2c, hi]

/-! ## Rounding -/

theorem le_roundup16 (x : ℕ) : x ≤ roundup16 x := by
  simp only [roundup16]
  omega

theorem roundup16_mod (x : ℕ) : roundup16 x % 16 = 0 := by
  simp only [roundup16]
  omega

theorem length_pad16 (body : List UInt8) : (pad16 body).length = roundup16 body.length := by
  have := le_roundup16 body.length
  simp only [pad16, List.length_append, length_zeros]
  omega

/-! ## The checksum -/

theorem u32xor_toNat (a b : BitVec 32) : u32xor a.toNat b.toNat = (a ^^^ b).toNat := by
  rw [u32xor, Nat.mod_eq_of_lt a.isLt, Nat.mod_eq_of_lt b.isLt, BitVec.toNat_xor]

theorem packTab_eq (n : ℕ) (h : n < 16) : packTab.getD n 0 = (crcTab.getD n 0#32).toNat := by
  interval_cases n <;> rfl

theorem packNibble_toNat (c : BitVec 32) : packNibble c.toNat = (crcNibble c).toNat := by
  have hand : (c &&& 15#32).toNat = c.toNat % 16 := by
    rw [BitVec.toNat_and]
    exact Nat.and_two_pow_sub_one_eq_mod _ 4
  have hshift : c.toNat / 16 = (c >>> 4).toNat := by
    rw [BitVec.toNat_ushiftRight, Nat.shiftRight_eq_div_pow]
  simp only [packNibble, crcNibble, hand]
  rw [packTab_eq _ (Nat.mod_lt _ (by decide)), hshift, u32xor_toNat]

/-- The loop of the tool is the loop of the validator. -/
theorem packLoop_eq (s : List UInt8) (k i : ℕ) (crc : BitVec 32) :
    (List.range' (i + 1) k).foldl (fun crc i =>
      let byte := if 29 ≤ i ∧ i ≤ 32 then 0 else (s.getD (i - 1) 0).toNat
      packNibble (packNibble (u32xor crc byte))) crc.toNat =
        (crcLoop (m := Id) (bytesOf s) k i crc).toNat := by
  induction k generalizing i crc with
  | zero => rfl
  | succ k ih =>
    have hbyte : ∀ b : UInt8, packNibble (packNibble (u32xor crc.toNat b.toNat)) =
        (crcNibble (crcNibble (crc ^^^ b.toBitVec.setWidth 32))).toNat := by
      intro b
      have hb : b.toNat = (b.toBitVec.setWidth 32).toNat := by
        have hlt : b.toBitVec.toNat < 2 ^ 32 := lt_of_lt_of_le b.toNat_lt (by decide)
        rw [BitVec.toNat_setWidth, Nat.mod_eq_of_lt hlt]
        rfl
      rw [hb, u32xor_toNat, packNibble_toNat, packNibble_toNat]
    rw [List.range'_succ, List.foldl_cons]
    simp only [Nat.add_sub_cancel]
    by_cases h : 28 ≤ i ∧ i < 32
    · have h' : 29 ≤ i + 1 ∧ i + 1 ≤ 32 := by omega
      have h0 := hbyte 0
      simp only [crcLoop, h, h', and_self, if_true]
      rw [show (0 : ℕ) = (0 : UInt8).toNat from rfl, h0]
      exact ih (i + 1) _
    · have h' : ¬ (29 ≤ i + 1 ∧ i + 1 ≤ 32) := by omega
      simp only [crcLoop, h, h', if_false]
      rw [hbyte]
      exact ih (i + 1) _

/-- The checksum of the tool is the CRC-32 of the image. -/
theorem crc32img_eq (s : List UInt8) : crc32img s = crc32Ref (bytesOf s) s.length := by
  have hloop := packLoop_eq s s.length 0 0xFFFFFFFF#32
  rw [← exbCrc32Image_eq, crc32img]
  simp only [Nat.zero_add] at hloop
  rw [show (0xFFFFFFFF : ℕ) = (0xFFFFFFFF#32).toNat from rfl, hloop, u32xor_toNat]
  have hnot : ∀ c : BitVec 32, c ^^^ 0xFFFFFFFF#32 = ~~~c := by
    intro c
    rw [show (0xFFFFFFFF#32 : BitVec 32) = BitVec.allOnes 32 from rfl, BitVec.xor_allOnes]
  rw [hnot]
  rfl

/-! ## The data of the segments -/

theorem length_layout (pos : ℕ) (segs : List PackSeg) :
    (layout pos segs).1.length = segs.length := by
  induction segs generalizing pos with
  | nil => rfl
  | cons s segs ih =>
    unfold layout
    split_ifs <;> simp [ih]

theorem le_layout (pos : ℕ) (segs : List PackSeg) : pos ≤ (layout pos segs).2 := by
  induction segs generalizing pos with
  | nil => exact le_rfl
  | cons s segs ih =>
    unfold layout
    split_ifs
    · have h1 := le_roundup16 (pos + s.data.length)
      have h2 := ih (roundup16 (pos + s.data.length))
      simp only
      omega
    · exact ih pos

/-- Where the data of a segment is, if it has any. -/
structure DataAt (pos total : ℕ) (s : PackSeg) (off : ℕ) : Prop where
  none : s.data.length = 0 → off = 0
  lo : 0 < s.data.length → pos ≤ off
  hi : 0 < s.data.length → off + s.data.length ≤ total

theorem dataAt_layout (hs : segs[i]? = some s) (ho : (layout pos segs).1[i]? = some off) :
    DataAt pos (layout pos segs).2 s off := by
  induction segs generalizing pos i with
  | nil => simp at hs
  | cons s' segs ih =>
    unfold layout at ho ⊢
    split_ifs at ho ⊢ with hd
    · have h1 := le_roundup16 (pos + s'.data.length)
      have h2 := le_layout (roundup16 (pos + s'.data.length)) segs
      cases i with
      | zero =>
        simp only [List.getElem?_cons_zero, Option.some.injEq] at hs ho
        subst hs ho
        exact ⟨fun h => by omega, fun _ => le_rfl, fun _ => by simp only; omega⟩
      | succ i =>
        have h := ih hs ho
        exact ⟨h.none, fun hp => by have := h.lo hp; omega, h.hi⟩
    · cases i with
      | zero =>
        simp only [List.getElem?_cons_zero, Option.some.injEq] at hs ho
        subst hs ho
        exact ⟨fun _ => rfl, fun h => absurd h hd, fun h => absurd h hd⟩
      | succ i => exact ih hs ho

/-- Data comes in the order of the segments. -/
theorem layout_order (hij : i < j) (hs : segs[i]? = some s) (ht : segs[j]? = some t)
    (ho : (layout pos segs).1[i]? = some off) (ho' : (layout pos segs).1[j]? = some off')
    (hp : 0 < s.data.length) (hp' : 0 < t.data.length) : off + s.data.length ≤ off' := by
  induction segs generalizing pos i j with
  | nil => simp at hs
  | cons u segs ih =>
    obtain ⟨j, rfl⟩ : ∃ j', j = j' + 1 := ⟨j - 1, by omega⟩
    unfold layout at ho ho'
    split_ifs at ho ho' with hd
    · cases i with
      | zero =>
        simp only [List.getElem?_cons_zero, Option.some.injEq] at hs ho
        subst hs ho
        have h1 := le_roundup16 (pos + u.data.length)
        have ht' : segs[j]? = some t := ht
        have h2 := (dataAt_layout ht' ho').lo hp'
        omega
      | succ i => exact ih (by omega) hs ht ho ho'
    · cases i with
      | zero =>
        simp only [List.getElem?_cons_zero, Option.some.injEq] at hs
        subst hs
        exact absurd hp hd
      | succ i => exact ih (by omega) hs ht ho ho'

theorem packData_append (body : List UInt8) (segs : List PackSeg) :
    ∃ rest, packData body segs = body ++ rest := by
  induction segs generalizing body with
  | nil => exact ⟨[], by simp [packData]⟩
  | cons s segs ih =>
    unfold packData
    split_ifs
    · obtain ⟨rest, h⟩ := ih (pad16 (body ++ s.data))
      exact ⟨_, by rw [h, pad16, List.append_assoc, List.append_assoc]⟩
    · exact ih body

theorem length_packData (hb : body.length % 16 = 0) (segs : List PackSeg) :
    (packData body segs).length = (layout body.length segs).2 := by
  induction segs generalizing body with
  | nil => rfl
  | cons s segs ih =>
    have hpad : (pad16 (body ++ s.data)).length = roundup16 (body.length + s.data.length) := by
      rw [length_pad16, List.length_append]
    unfold packData layout
    split_ifs
    · rw [ih (by rw [hpad]; exact roundup16_mod _), hpad]
    · exact ih hb

/-- The data of a segment stands at its offset. -/
theorem packData_data (hb : body.length % 16 = 0) (hs : segs[i]? = some s)
    (ho : (layout body.length segs).1[i]? = some off) (hp : 0 < s.data.length) :
    ∃ a b, packData body segs = a ++ (s.data ++ b) ∧ a.length = off := by
  induction segs generalizing body i with
  | nil => simp at hs
  | cons u segs ih =>
    have hpad : (pad16 (body ++ u.data)).length = roundup16 (body.length + u.data.length) := by
      rw [length_pad16, List.length_append]
    have hmod : (pad16 (body ++ u.data)).length % 16 = 0 := by
      rw [hpad]
      exact roundup16_mod _
    unfold layout at ho
    unfold packData
    split_ifs at ho ⊢ with hd
    · cases i with
      | zero =>
        simp only [List.getElem?_cons_zero, Option.some.injEq] at hs ho
        subst hs ho
        obtain ⟨rest, h⟩ := packData_append (pad16 (body ++ u.data)) segs
        exact ⟨body, zeros _ ++ rest, by rw [h, pad16, List.append_assoc, List.append_assoc], rfl⟩
      | succ i => exact ih hmod hs (by rw [hpad]; exact ho)
    · cases i with
      | zero =>
        simp only [List.getElem?_cons_zero, Option.some.injEq] at hs
        subst hs
        exact absurd hp hd
      | succ i => exact ih hb hs ho

/-! ## The tables -/

/-- A table of lines of one length, around line `i`. -/
theorem flatMap_split (f : α → List UInt8) (hf : ∀ x, (f x).length = n) {l : List α} {x : α}
    (h : l[i]? = some x) : ∃ a b, l.flatMap f = a ++ (f x ++ b) ∧ a.length = i * n := by
  induction l generalizing i with
  | nil => simp at h
  | cons y l ih =>
    cases i with
    | zero =>
      simp only [List.getElem?_cons_zero, Option.some.injEq] at h
      subst h
      exact ⟨[], l.flatMap f, by simp, by simp⟩
    | succ i =>
      obtain ⟨a, b, hab, hlen⟩ := ih h
      refine ⟨f y ++ a, b, ?_, ?_⟩
      · rw [List.flatMap_cons, hab, List.append_assoc]
      · rw [List.length_append, hf, hlen, Nat.succ_mul, Nat.add_comm]

theorem length_flatMap_const (f : α → List UInt8) (hf : ∀ x, (f x).length = n) (l : List α) :
    (l.flatMap f).length = l.length * n := by
  induction l with
  | nil => simp
  | cons y l ih =>
    rw [List.flatMap_cons, List.length_append, hf, ih, List.length_cons, Nat.succ_mul, Nat.add_comm]

@[simp] theorem length_packSeg (s : PackSeg) (off : ℕ) :
    (packSeg s off).length = 32 := by simp [packSeg]

@[simp] theorem length_packCap (c : PackCap) : (packCap c).length = 16 := by simp [packCap]

@[simp] theorem length_packHeader (total entry nseg co ncap fkind : ℕ) :
    (packHeader total entry nseg co ncap fkind).length = 64 := by simp [packHeader]

/-! ## The image -/

section Image

variable (segs : List PackSeg) (caps : List PackCap) (entry fkind : ℕ)

/-- The size of the image. -/
def packTotal : ℕ := (layout (roundup16 (64 + 32 * segs.length + 16 * caps.length)) segs).2

/-- The offsets of the data. -/
def packOffs : List ℕ := (layout (roundup16 (64 + 32 * segs.length + 16 * caps.length)) segs).1

/-- The offset of the capability table. -/
def packCapOff : ℕ := if 0 < caps.length then 64 + 32 * segs.length else 0

/-- The header and the tables. -/
def packHead : List UInt8 :=
  packHeader (packTotal segs caps) entry segs.length (packCapOff segs caps) caps.length fkind ++
    (segs.zip (packOffs segs caps)).flatMap (fun x => packSeg x.1 x.2) ++ caps.flatMap packCap

/-- Everything but the checksum. -/
def packBody : List UInt8 := packData (pad16 (packHead segs caps entry fkind)) segs

/-- The image. -/
def packImage : List UInt8 :=
  overlay (p32 (crc32img (packBody segs caps entry fkind))) (packBody segs caps entry fkind) 29

theorem length_packHead :
    (packHead segs caps entry fkind).length = 64 + 32 * segs.length + 16 * caps.length := by
  have hoffs : (packOffs segs caps).length = segs.length := length_layout _ _
  have hsegs := length_flatMap_const (fun x : PackSeg × ℕ => packSeg x.1 x.2) (n := 32)
    (fun x => length_packSeg x.1 x.2)
    (segs.zip (packOffs segs caps))
  have hcaps := length_flatMap_const packCap (n := 16) length_packCap caps
  rw [List.length_zip, hoffs, Nat.min_self] at hsegs
  rw [packHead, List.length_append, List.length_append, length_packHeader, hsegs, hcaps]
  omega

theorem length_pad_packHead :
    (pad16 (packHead segs caps entry fkind)).length =
      roundup16 (64 + 32 * segs.length + 16 * caps.length) := by
  rw [length_pad16, length_packHead]

theorem length_packBody : (packBody segs caps entry fkind).length = packTotal segs caps := by
  rw [packBody, length_packData (by rw [length_pad_packHead]; exact roundup16_mod _),
    length_pad_packHead]
  rfl

/-- The layout always adds up. -/
theorem buildImage_eq :
    buildImage segs caps entry fkind = some (packImage segs caps entry fkind) := by
  have hlen := length_packBody segs caps entry fkind
  simp only [packBody, packHead, packTotal, packOffs, packCapOff] at hlen
  simp only [buildImage, packImage, packBody, packHead, packTotal, packOffs, packCapOff, hlen,
    ne_eq, not_true_eq_false, if_false]

theorem head_le_total : 64 + 32 * segs.length + 16 * caps.length ≤ packTotal segs caps :=
  le_trans (le_roundup16 _) (le_layout _ _)

theorem length_packImage : (packImage segs caps entry fkind).length = packTotal segs caps := by
  have hlen := length_packBody segs caps entry fkind
  have hmin := head_le_total segs caps
  simp only [packImage, overlay, List.length_append, List.length_take, List.length_drop,
    length_p32, hlen]
  omega

/-- The image is the body but for the checksum field. -/
theorem bytesOf_packImage (h : i < 28 ∨ 32 ≤ i) :
    bytesOf (packImage segs caps entry fkind) i = bytesOf (packBody segs caps entry fkind) i := by
  have hlen := length_packBody segs caps entry fkind
  have hmin := head_le_total segs caps
  have htake : ((packBody segs caps entry fkind).take 28).length = 28 := by
    rw [List.length_take]
    omega
  have hfront : ((packBody segs caps entry fkind).take 28 ++ p32
      (crc32img (packBody segs caps entry fkind))).length = 32 := by
    rw [List.length_append, htake, length_p32]
  simp only [packImage, overlay, length_p32, Nat.reduceSub, Nat.reduceAdd]
  rcases h with h | h
  · rw [bytesOf_append_left (by omega), bytesOf_append_left (by omega)]
    simp only [bytesOf, List.getD_eq_getElem?_getD, List.getElem?_take_of_lt h]
  · obtain ⟨j, rfl⟩ : ∃ j, i = 32 + j := ⟨i - 32, by omega⟩
    have hright := bytesOf_append_right ((packBody segs caps entry fkind).take 28 ++
      p32 (crc32img (packBody segs caps entry fkind))) ((packBody segs caps entry fkind).drop 32) j
    rw [hfront] at hright
    rw [hright]
    simp only [bytesOf, List.getD_eq_getElem?_getD, List.getElem?_drop]

theorem crc32Ref_congr (h : ∀ i, i < 28 ∨ 32 ≤ i → p i = q i) :
    crc32Ref p size = crc32Ref q size := by
  have hmap : (List.range size).map (fun i => if 28 ≤ i ∧ i < 32 then 0 else p i) =
      (List.range size).map fun i => if 28 ≤ i ∧ i < 32 then 0 else q i := by
    apply List.map_congr_left
    intro i _
    split_ifs with hi
    · rfl
    · exact h i (by omega)
  rw [crc32Ref, crc32Ref, hmap]

/-- The checksum field holds the checksum of the image. -/
theorem packImage_crc :
    getLE 4 (bytesOf (packImage segs caps entry fkind)) 28 =
      crc32Ref (bytesOf (packImage segs caps entry fkind)) (packTotal segs caps) := by
  have hlen := length_packBody segs caps entry fkind
  have hmin := head_le_total segs caps
  have hcrc : crc32Ref (bytesOf (packImage segs caps entry fkind)) (packTotal segs caps) =
      crc32img (packBody segs caps entry fkind) := by
    rw [crc32Ref_congr fun i hi => bytesOf_packImage segs caps entry fkind hi, crc32img_eq, hlen]
  have hlt : crc32img (packBody segs caps entry fkind) < 256 ^ 4 := by
    rw [crc32img_eq, crc32Ref]
    exact BitVec.isLt _
  have hsp := spells_bytesOf ((packBody segs caps entry fkind).take 28)
    (p32 (crc32img (packBody segs caps entry fkind)))
    ((packBody segs caps entry fkind).drop 32)
  rw [List.length_take, hlen, Nat.min_eq_left (by omega)] at hsp
  rw [hcrc, packImage, overlay, List.append_assoc]
  exact hsp.getLE hlt

/-- A field away from the checksum. -/
theorem getLE_packImage (h : o + n ≤ 28 ∨ 32 ≤ o) :
    getLE n (bytesOf (packImage segs caps entry fkind)) o =
      getLE n (bytesOf (packBody segs caps entry fkind)) o :=
  getLE_congr fun i hi => bytesOf_packImage segs caps entry fkind (by omega)

/-- The body starts with the header and the tables. -/
theorem spells_packHead :
    Spells (bytesOf (packBody segs caps entry fkind)) 0 (packHead segs caps entry fkind) := by
  obtain ⟨rest, hrest⟩ := packData_append (pad16 (packHead segs caps entry fkind)) segs
  rw [packBody, hrest, pad16, List.append_assoc]
  exact spells_bytesOf [] _ _

/-- A line of the segment table. -/
theorem spells_packSeg (hs : segs[i]? = some s) (ho : (packOffs segs caps)[i]? = some off) :
    Spells (bytesOf (packBody segs caps entry fkind)) (64 + i * 32) (packSeg s off) := by
  have hzip : (segs.zip (packOffs segs caps))[i]? = some (s, off) := by
    rw [List.getElem?_zip_eq_some]
    exact ⟨hs, ho⟩
  obtain ⟨a, b, hab, hlen⟩ := flatMap_split (fun x : PackSeg × ℕ => packSeg x.1 x.2)
    (fun x => length_packSeg x.1 x.2) hzip
  have hsp := spells_packHead segs caps entry fkind
  rw [packHead, hab] at hsp
  have h := (spells_append.mp (spells_append.mp (spells_append.mp (spells_append.mp hsp).1).2).2).1
  rwa [hlen, length_packHeader, Nat.zero_add] at h

/-- A line of the capability table. -/
theorem spells_packCap {c : PackCap} (hc : caps[i]? = some c) :
    Spells (bytesOf (packBody segs caps entry fkind)) (64 + 32 * segs.length + i * 16)
      (packCap c) := by
  have hoffs : (packOffs segs caps).length = segs.length := length_layout _ _
  have hsegs := length_flatMap_const (fun x : PackSeg × ℕ => packSeg x.1 x.2) (n := 32)
    (fun x => length_packSeg x.1 x.2)
    (segs.zip (packOffs segs caps))
  rw [List.length_zip, hoffs, Nat.min_self] at hsegs
  obtain ⟨a, b, hab, hlen⟩ := flatMap_split packCap length_packCap hc
  have hsp := spells_packHead segs caps entry fkind
  rw [packHead, hab] at hsp
  have h := (spells_append.mp (spells_append.mp (spells_append.mp hsp).2).2).1
  rwa [List.length_append, length_packHeader, hsegs, hlen, Nat.zero_add,
    Nat.mul_comm segs.length] at h

end Image

end Xasmos.Exb
