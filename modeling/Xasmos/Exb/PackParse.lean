import Xasmos.Exb.Pack

/-!
# The packer and the parser agree

What `build_image` lays out is read back field by field, and every condition of the format is
found to hold; the parser therefore accepts the image, and the record it fills is that of the
packed program.
-/

namespace Xasmos.Exb

open Bytes

variable {c : PackCap} {caps : List PackCap} {entry i off : ℕ} {img : Bytes} {s : PackSeg}

/-! ## What may be packed -/

/-- The capability kind without its optional bit. -/
def PackCap.base (c : PackCap) : ℕ := c.kind % 2 ^ 31

/-- The pages of a segment. -/
def PackSeg.pages (s : PackSeg) : ℕ := (s.mem + page - 1) / page

/-- The format's conditions on one segment. -/
structure PackSegOk (s : PackSeg) : Prop where
  flags_known : s.flags < 8
  readable : s.flags.testBit 0 = true
  not_wx : ¬ (s.flags.testBit 1 = true ∧ s.flags.testBit 2 = true)
  aligned : page ∣ s.vaddr
  va_min : vaMin ≤ s.vaddr
  va_limit : s.vaddr + s.pages * page ≤ vaLimit
  mem_pos : 0 < s.mem
  file_le_mem : s.data.length ≤ s.mem

/-- The format's conditions on one capability of a known kind. -/
structure PackCapOk (c : PackCap) : Prop where
  kind : c.kind < 2 ^ 32
  known : c.base = 1 ∨ c.base = 2 ∨ c.base = 3
  stack : c.base = 1 → page ∣ c.val ∧ page ≤ c.val ∧ c.val ≤ maxStackPages * page
  heap : c.base = 2 → c.val ≤ maxHeapRequest
  tokens : c.base = 3 → c.val ≤ maxTokenRequest

/-- A program that may be packed. -/
structure PackOk (segs : List PackSeg) (caps : List PackCap) (entry : ℕ) : Prop where
  count : 1 ≤ segs.length ∧ segs.length ≤ maxSegs
  segOk : ∀ s ∈ segs, PackSegOk s
  disjoint : segs.Pairwise fun s t => Disjoint (Set.Ico s.vaddr (s.vaddr + s.pages * page))
    (Set.Ico t.vaddr (t.vaddr + t.pages * page))
  pages : (segs.map PackSeg.pages).sum ≤ maxImagePages
  entryIn : ∃ s ∈ segs, s.flags.testBit 2 = true ∧ s.vaddr ≤ entry ∧ entry < s.vaddr + s.data.length
  capOk : ∀ c ∈ caps, PackCapOk c
  distinct : (caps.map PackCap.base).Nodup
  size : packTotal segs caps ≤ maxFile

section Packed

variable {segs : List PackSeg}

/-- Three kinds are known. -/
theorem PackOk.caps_le (h : PackOk segs caps entry) : caps.length ≤ 3 := by
  have hsub : (caps.map PackCap.base).toFinset ⊆ {1, 2, 3} := by
    intro b hb
    rw [List.mem_toFinset] at hb
    obtain ⟨c, hc, rfl⟩ := List.mem_map.mp hb
    simpa using (h.capOk c hc).known
  have hcard := Finset.card_le_card hsub
  rwa [List.toFinset_card_of_nodup h.distinct, List.length_map] at hcard

/-- Nothing is cut off when the sizes are packed. -/
theorem PackOk.total_lt (h : PackOk segs caps entry) : packTotal segs caps < 256 ^ 4 :=
  lt_of_le_of_lt h.size (by decide)

theorem PackSeg.mem_le (s : PackSeg) : s.mem ≤ s.pages * page := by
  simp only [PackSeg.pages, page]
  omega

theorem PackSegOk.vaddr_lt (h : PackSegOk s) : s.vaddr < 256 ^ 8 := by
  have := h.va_limit
  simp only [vaLimit] at this
  omega

theorem PackSegOk.mem_lt (h : PackSegOk s) : s.mem < 256 ^ 8 := by
  have := h.va_limit
  have := s.mem_le
  simp only [vaLimit] at *
  omega

theorem PackOk.entry_lt (h : PackOk segs caps entry) : entry < 256 ^ 8 := by
  obtain ⟨s, hs, _, _, hlt⟩ := h.entryIn
  have h1 := (h.segOk s hs).va_limit
  have h2 := s.mem_le
  have h3 := (h.segOk s hs).file_le_mem
  simp only [vaLimit] at h1
  omega

/-- The fields of the header. -/
structure PackedHeader (segs : List PackSeg) (caps : List PackCap) (entry : ℕ) (img : Bytes) :
    Prop where
  magic : img 0 = 0x7F ∧ img 1 = 0x45 ∧ img 2 = 0x58 ∧ img 3 = 0x42
  version : img 4 = 1 ∧ img 5 = 1
  headerSize_eq : getLE 2 img 6 = headerSize
  flags_eq : getLE 4 img 8 = 0
  target_eq : getLE 4 img 12 = 1
  entry_eq : entryField img = entry
  total_eq : getLE 4 img 24 = packTotal segs caps
  segOff_eq : segOff img = 64
  segCnt_eq : segCnt img = segs.length
  capOff_eq : capOff img = packCapOff segs caps
  capCnt_eq : capCnt img = caps.length
  kind_eq : img 48 = 0
  reserved : ∀ i, 49 ≤ i → i < 64 → img i = 0

theorem PackOk.header (h : PackOk segs caps entry) :
    PackedHeader segs caps entry (bytesOf (packImage segs caps entry 0)) := by
  have hseg := h.count.2
  have hcap := h.caps_le
  have hco : packCapOff segs caps < 256 ^ 4 := by
    simp only [packCapOff, maxSegs] at hseg ⊢
    split_ifs <;> omega
  have hfield : ∀ {n v o : ℕ}, Spells (bytesOf (packBody segs caps entry 0)) o (d2c v n).reverse →
    v < 256 ^ n →
      (o + n ≤ 28 ∨ 32 ≤ o) → getLE n (bytesOf (packImage segs caps entry 0)) o = v :=
    fun hsp hv ho => (getLE_packImage segs caps entry 0 ho).trans (hsp.getLE hv)
  have hsp := (spells_append.mp (spells_append.mp (spells_packHead segs caps entry 0)).1).1
  simp only [packHeader, spells_append, List.length_append, List.length_cons, List.length_nil,
    length_p16, length_p32, length_p64, length_d2c, Nat.reduceAdd] at hsp
  obtain ⟨⟨⟨⟨⟨⟨⟨⟨⟨⟨⟨⟨hm, hhs⟩, hfl⟩, htgt⟩, hent⟩, htot⟩, _⟩, hso⟩, hsc⟩, hco'⟩, hcc⟩, hk⟩,
    hz⟩ := hsp
  have hbyte : ∀ i, i < 28 ∨ 32 ≤ i → bytesOf (packImage segs caps entry 0) i =
      bytesOf (packBody segs caps entry 0) i :=
    fun i hi => bytesOf_packImage segs caps entry 0 hi
  constructor
  · rw [hbyte 0 (by omega), hbyte 1 (by omega), hbyte 2 (by omega), hbyte 3 (by omega)]
    exact ⟨hm 0 (by decide), hm 1 (by decide), hm 2 (by decide), hm 3 (by decide)⟩
  · rw [hbyte 4 (by omega), hbyte 5 (by omega)]
    exact ⟨hm 4 (by decide), hm 5 (by decide)⟩
  · exact hfield hhs (by decide) (by omega)
  · exact hfield hfl (by decide) (by omega)
  · exact hfield htgt (by decide) (by omega)
  · exact hfield hent h.entry_lt (by omega)
  · exact hfield htot h.total_lt (by omega)
  · exact hfield hso (by decide) (by omega)
  · exact hfield hsc (by simp only [maxSegs] at hseg; omega) (by omega)
  · exact hfield hco' hco (by omega)
  · exact hfield hcc (by omega) (by omega)
  · rw [hbyte 48 (by omega)]
    exact hk 0 (by decide)
  · intro i h1 h2
    obtain ⟨j, rfl⟩ : ∃ j, i = 49 + j := ⟨i - 49, by omega⟩
    rw [hbyte _ (by omega), hz j (by simp; omega), bytesOf_zeros]

/-- Where the data of segment `i` lies. -/
theorem packed_dataAt (hs : segs[i]? = some s) (ho : (packOffs segs caps)[i]? = some off) :
    DataAt (64 + 32 * segs.length + 16 * caps.length) (packTotal segs caps) s off := by
  have h := dataAt_layout hs ho
  exact ⟨h.none, fun hp => le_trans (le_roundup16 _) (h.lo hp), h.hi⟩

/-- The entry of a segment reads back. -/
theorem PackOk.segAt_eq (h : PackOk segs caps entry) (hs : segs[i]? = some s)
    (ho : (packOffs segs caps)[i]? = some off) :
    segAt (bytesOf (packImage segs caps entry 0)) i = ⟨s.vaddr, s.mem, s.pages, off, s.data.length,
      s.flags⟩ ∧
      segReserved (bytesOf (packImage segs caps entry 0)) i = 0 := by
  have hok := h.segOk s (List.mem_of_getElem? hs)
  have hdata := packed_dataAt hs ho
  have htot := h.total_lt
  have hoff : off < 256 ^ 4 ∧ s.data.length < 256 ^ 4 := by
    rcases Nat.eq_zero_or_pos s.data.length with h0 | hp
    · rw [hdata.none h0, h0]
      exact ⟨by decide, by decide⟩
    · have := hdata.hi hp
      omega
  have hsp := spells_packSeg segs caps entry 0 hs ho
  simp only [packSeg, spells_append, List.length_append, length_p32, length_p64, Nat.add_assoc,
    Nat.reduceAdd] at hsp
  obtain ⟨⟨⟨⟨⟨hva, hmem⟩, hfo⟩, hfs⟩, hfl⟩, hres⟩ := hsp
  have hfield : ∀ {n v k : ℕ}, Spells (bytesOf (packBody segs caps entry 0)) (64 + (i * 32 + k))
    (d2c v n).reverse →
      v < 256 ^ n → getLE n (bytesOf (packImage segs caps entry 0)) (64 + i * 32 + k) = v := by
    intro n v k hsp hv
    rw [getLE_packImage segs caps entry 0 (by omega), Nat.add_assoc]
    exact hsp.getLE hv
  simp only [segAt, segReserved, h.header.segOff_eq, segSize]
  rw [hfield hmem hok.mem_lt, hfield hfo hoff.1, hfield hfs hoff.2,
    hfield hfl (lt_trans hok.flags_known (by decide)), hfield hres (by decide)]
  have hva' := hfield (k := 0) hva hok.vaddr_lt
  rw [Nat.add_zero] at hva'
  rw [hva']
  exact ⟨rfl, rfl⟩

/-- The entry of a capability reads back. -/
theorem PackOk.capAt_eq (h : PackOk segs caps entry) (hc : caps[i]? = some c) :
    capKind (bytesOf (packImage segs caps entry 0)) i = c.kind ∧
      capReserved (bytesOf (packImage segs caps entry 0)) i = 0 ∧
      capValue (bytesOf (packImage segs caps entry 0)) i = c.val := by
  have hok := h.capOk c (List.mem_of_getElem? hc)
  have hval : c.val < 256 ^ 8 := by
    rcases hok.known with hb | hb | hb
    · have := (hok.stack hb).2.2
      simp only [maxStackPages, page] at this
      omega
    · have := hok.heap hb
      simp only [maxHeapRequest] at this
      omega
    · have := hok.tokens hb
      simp only [maxTokenRequest] at this
      omega
  have hpos : 0 < caps.length := by
    have := (List.getElem?_eq_some_iff.mp hc).1
    omega
  have hsp := spells_packCap segs caps entry 0 hc
  simp only [packCap, spells_append, List.length_append, length_p32, Nat.add_assoc,
    Nat.reduceAdd] at hsp
  obtain ⟨⟨hk, hres⟩, hv⟩ := hsp
  have hfield : ∀ {n v k : ℕ}, Spells (bytesOf (packBody segs caps entry 0))
    (64 + (32 * segs.length + (i * 16 + k)))
      (d2c v n).reverse → v < 256 ^ n →
        getLE n (bytesOf (packImage segs caps entry 0)) (64 + 32 * segs.length + i * 16 + k) =
        v := by
    intro n v k hsp hv
    rw [getLE_packImage segs caps entry 0 (by omega), Nat.add_assoc, Nat.add_assoc]
    exact hsp.getLE hv
  simp only [capKind, capReserved, capValue, h.header.capOff_eq, packCapOff, if_pos hpos, capSize]
  have hk' := hfield (k := 0) hk hok.kind
  rw [Nat.add_zero] at hk'
  exact ⟨hk', hfield hres (by decide), hfield hv hval⟩

/-- The offset of the data of a segment. -/
theorem exists_off (caps : List PackCap) (hi : i < segs.length) :
    ∃ s off, segs[i]? = some s ∧ (packOffs segs caps)[i]? = some off := by
  have hlen : (packOffs segs caps).length = segs.length := length_layout _ _
  exact ⟨segs[i], (packOffs segs caps)[i], List.getElem?_eq_getElem hi, List.getElem?_eq_getElem
    (by omega)⟩

/-- One segment of the image is in order. -/
theorem PackOk.segOk_image (h : PackOk segs caps entry) (hi : i < segs.length) :
    SegOk (bytesOf (packImage segs caps entry 0)) (packTotal segs caps) i := by
  obtain ⟨s, off, hs, ho⟩ := exists_off caps hi
  obtain ⟨heq, hres⟩ := h.segAt_eq hs ho
  have hok := h.segOk s (List.mem_of_getElem? hs)
  have hdata := packed_dataAt hs ho
  have hcount := h.header.segCnt_eq
  have hso := h.header.segOff_eq
  have hcc := h.header.capCnt_eq
  have hco := h.header.capOff_eq
  have hfits : 0 < s.data.length → headerSize ≤ off ∧
      off + s.data.length ≤ packTotal segs caps := by
    intro hp
    have := hdata.lo hp
    refine ⟨?_, hdata.hi hp⟩
    simp only [headerSize]
    omega
  have htables : Disjoint (Set.Ico off (off + s.data.length)) (Set.Ico 64 (64 + segs.length * 32)) ∧
      Disjoint (Set.Ico off (off + s.data.length))
      (Set.Ico (packCapOff segs caps) (packCapOff segs caps + caps.length * 16)) := by
    rcases Nat.eq_zero_or_pos s.data.length with h0 | hp
    · simp [h0]
    · have := hdata.lo hp
      constructor
      · rw [Set.Ico_disjoint_Ico]
        omega
      · rw [Set.Ico_disjoint_Ico]
        simp only [packCapOff]
        split_ifs <;> omega
  refine ⟨hres, ?_, ?_, ?_, ?_, ?_, ?_, ?_, ?_, ?_, ?_, ?_, ?_⟩
  all_goals simp only [heq, ExbSeg.data, segTable, capTable, hcount, hso, hcc, hco, segSize,
    capSize]
  · exact hok.flags_known
  · exact hok.readable
  · exact hok.not_wx
  · exact hok.aligned
  · exact hok.va_min
  · exact hok.va_limit
  · exact hok.mem_pos
  · exact hok.file_le_mem
  · exact hdata.none
  · exact hfits
  · exact htables.1
  · exact htables.2

/-- One capability of the image is in order. -/
theorem PackOk.capOk_image (h : PackOk segs caps entry) (hc : caps[i]? = some c) :
    CapOk (bytesOf (packImage segs caps entry 0)) i ∧
      capBase (bytesOf (packImage segs caps entry 0)) i = c.base := by
  obtain ⟨hk, hres, hv⟩ := h.capAt_eq hc
  have hok := h.capOk c (List.mem_of_getElem? hc)
  have hbase : capBase (bytesOf (packImage segs caps entry 0)) i = c.base := by
    rw [capBase, hk]
    rfl
  refine ⟨⟨hres, ?_, ?_, ?_, ?_, ?_⟩, hbase⟩
  all_goals simp only [hbase, hv]
  · rcases hok.known with hb | hb | hb <;> omega
  · exact hok.stack
  · exact hok.heap
  · exact hok.tokens
  · intro hb
    rcases hok.known with hb' | hb' | hb' <;> omega

/-- **What is packed is in the format.** -/
theorem PackOk.format (h : PackOk segs caps entry) :
    ExbFormat (bytesOf (packImage segs caps entry 0)) (packTotal segs caps) := by
  have hhdr := h.header
  have hmin := head_le_total segs caps
  have hcaps : caps.length ≤ maxCaps := le_trans h.caps_le (by decide)
  have hcap : ∀ {i : ℕ} (hi : i < caps.length), caps[i]? = some caps[i] :=
    fun hi => List.getElem?_eq_getElem hi
  have hspan : ∀ {i : ℕ} {s : PackSeg}, segs[i]? = some s →
    (segAt (bytesOf (packImage segs caps entry 0)) i).span =
      Set.Ico s.vaddr (s.vaddr + s.pages * page) := by
    intro i s hs
    obtain ⟨s', off, hs', ho⟩ := exists_off caps (List.getElem?_eq_some_iff.mp hs).1
    obtain rfl : s' = s := Option.some.inj (hs'.symm.trans hs)
    rw [ExbSeg.span, (h.segAt_eq hs ho).1]
  constructor
  · simp only [headerSize]
    omega
  · exact h.size
  · exact hhdr.total_eq
  · exact hhdr.magic
  · exact hhdr.version.1
  · exact hhdr.version.2
  · exact hhdr.headerSize_eq
  · exact hhdr.flags_eq
  · exact hhdr.reserved
  · exact hhdr.kind_eq
  · exact hhdr.target_eq
  · exact packImage_crc segs caps entry 0
  · rw [hhdr.segCnt_eq]
    exact h.count
  · rw [hhdr.segCnt_eq, hhdr.segOff_eq]
    simp only [headerSize, segSize]
    omega
  · rw [hhdr.capCnt_eq]
    exact hcaps
  · rw [hhdr.capCnt_eq, hhdr.capOff_eq, packCapOff]
    intro h0
    rw [if_neg (by omega)]
  · rw [hhdr.capCnt_eq, hhdr.capOff_eq, packCapOff]
    intro hp
    rw [if_pos hp]
    simp only [headerSize, capSize]
    omega
  · rw [segTable, capTable, hhdr.segCnt_eq, hhdr.segOff_eq, hhdr.capCnt_eq, hhdr.capOff_eq,
      Set.Ico_disjoint_Ico, packCapOff]
    simp only [segSize, capSize]
    split_ifs <;> omega
  · rw [hhdr.segCnt_eq]
    intro i hi
    exact h.segOk_image hi
  · rw [hhdr.segCnt_eq]
    intro i j hij hj
    have hi := List.getElem?_eq_getElem (lt_trans hij hj)
    rw [hspan hi, hspan (List.getElem?_eq_getElem hj)]
    exact List.pairwise_iff_getElem.mp h.disjoint i j (lt_trans hij hj) hj hij
  · rw [hhdr.segCnt_eq]
    intro i j hij hj
    obtain ⟨s, off, hs, ho⟩ := exists_off caps (lt_trans hij hj)
    obtain ⟨t, off', ht, ho'⟩ := exists_off caps hj
    rw [ExbSeg.data, ExbSeg.data, (h.segAt_eq hs ho).1, (h.segAt_eq ht ho').1, Set.Ico_disjoint_Ico]
    simp only
    rcases Nat.eq_zero_or_pos s.data.length with h0 | hp
    · omega
    · rcases Nat.eq_zero_or_pos t.data.length with h0' | hp'
      · omega
      · have := layout_order hij hs ht ho ho' hp hp'
        omega
  · rw [hhdr.segCnt_eq]
    refine le_trans (le_of_eq ?_) h.pages
    rw [Finset.sum_range, ← List.ofFn_getElem_eq_map, List.sum_ofFn]
    apply Finset.sum_congr rfl
    intro i _
    obtain ⟨s, off, hs, ho⟩ := exists_off caps i.isLt
    rw [(h.segAt_eq hs ho).1]
    rw [List.getElem?_eq_getElem i.isLt, Option.some.injEq] at hs
    rw [← hs]
  · obtain ⟨s, hs, hx, hlo, hhi⟩ := h.entryIn
    obtain ⟨i, hi, rfl⟩ := List.getElem_of_mem hs
    obtain ⟨s', off, hs', ho⟩ := exists_off caps hi
    rw [List.getElem?_eq_getElem hi, Option.some.injEq] at hs'
    subst hs'
    refine ⟨i, by rw [hhdr.segCnt_eq]; exact hi, ?_⟩
    rw [(h.segAt_eq (List.getElem?_eq_getElem hi) ho).1, hhdr.entry_eq]
    exact ⟨hx, hlo, hhi⟩
  · rw [hhdr.capCnt_eq]
    intro i hi
    exact (h.capOk_image (hcap hi)).1
  · rw [hhdr.capCnt_eq]
    intro i j hij hj hb
    rw [(h.capOk_image (hcap (lt_trans hij hj))).2, (h.capOk_image (hcap hj)).2] at hb
    have hne := List.pairwise_iff_getElem.mp h.distinct i j (by simpa using lt_trans hij hj)
      (by simpa using hj) hij
    simp only [List.getElem_map] at hne
    exact absurd hb hne

/-! ## The record -/

/-- The value that a capability list asks for, or the default. -/
def request (caps : List PackCap) (base default : ℕ) : ℕ :=
  ((caps.find? fun c => c.base = base).map PackCap.val).getD default

/-- The field of the record that a known kind fills. -/
def capField (base : ℕ) (info : ExbInfo) : ℕ :=
  match base with
  | 1 => info.stackBytes
  | 2 => info.heapFrames
  | _ => info.extraTokens

theorem capField_fillCap (img : Bytes) (i : ℕ) (out : ExbInfo) {base : ℕ}
    (hb : base = 1 ∨ base = 2 ∨ base = 3) :
    capField base (fillCap img i out) =
      if capBase img i = base then capValue img i else capField base out := by
  unfold fillCap
  split <;> rcases hb with rfl | rfl | rfl <;> simp_all [capField]

theorem request_of_notMem {base : ℕ} (h : ∀ c ∈ caps, c.base ≠ base) (d : ℕ) :
    request caps base d = d := by
  have hnone : caps.find? (fun c => c.base = base) = none := by
    rw [List.find?_eq_none]
    intro c hc
    simpa using h c hc
  rw [request, hnone]
  rfl

/-- A kind that is asked for is asked for whatever the default. -/
theorem request_of_mem {base : ℕ} (h : ∃ c ∈ caps, c.base = base) (d d' : ℕ) :
    request caps base d = request caps base d' := by
  obtain ⟨c, hc, hb⟩ := h
  have hsome : (caps.find? fun c => c.base = base).isSome := by
    rw [List.find?_isSome]
    exact ⟨c, hc, by simpa using hb⟩
  obtain ⟨c', hc'⟩ := Option.isSome_iff_exists.mp hsome
  rw [request, request, hc']
  rfl

/-- The capability loop leaves in each field what the list asks for. -/
theorem capField_fillCaps {out : ExbInfo} {base : ℕ} (hb : base = 1 ∨ base = 2 ∨ base = 3)
    (hd : (caps.map PackCap.base).Nodup)
    (h : ∀ j c, caps[j]? = some c → capBase img (i + j) = c.base ∧ capValue img (i + j) = c.val) :
    capField base (fillCaps img caps.length i out) = request caps base (capField base out) := by
  induction caps generalizing i out with
  | nil => rfl
  | cons c caps ih =>
    rw [List.map_cons, List.nodup_cons] at hd
    obtain ⟨hbase, hval⟩ := h 0 c rfl
    rw [Nat.add_zero] at hbase hval
    have hrest : capField base (fillCaps img caps.length (i + 1) (fillCap img i out)) =
        request caps base (capField base (fillCap img i out)) := by
      refine ih hd.2 fun j c' hc' => ?_
      have := h (j + 1) c' hc'
      rwa [show i + (j + 1) = i + 1 + j by omega] at this
    rw [List.length_cons, fillCaps, hrest, capField_fillCap img i out hb, hbase, hval]
    by_cases hc : c.base = base
    · rw [if_pos hc, request_of_notMem]
      · simp [request, hc]
      · intro c' hc' he
        exact hd.1 (List.mem_map.mpr ⟨c', hc', he.trans hc.symm⟩)
    · simp [request, hc]

/-- The record of a parse is that of the program: segments with their file bytes, entry point, stack
size, heap frames and token request. -/
structure SameProgram (segs : List PackSeg) (caps : List PackCap) (entry : ℕ) (image : List UInt8)
    (info : ExbInfo) : Prop where
  count : info.segCount = segs.length
  segs_eq : ∀ i s, segs[i]? = some s → (info.seg i).vaddr = s.vaddr ∧ (info.seg i).memSize = s.mem ∧
    (info.seg i).flags = s.flags ∧
      (image.drop (info.seg i).fileOff).take (info.seg i).fileSize = s.data
  entry_eq : info.entry = entry
  stack : info.stackBytes = request caps 1 (defaultStackPages * page)
  heap : info.heapFrames = request caps 2 0
  tokens : info.extraTokens = request caps 3 0

/-- The fields that the capabilities fill. -/
theorem capField_infoOf (hcnt : capCnt img = caps.length) (hd : (caps.map PackCap.base).Nodup)
    (h : ∀ j c, caps[j]? = some c → capBase img j = c.base ∧ capValue img j = c.val) (out : ExbInfo)
    {base : ℕ} (hb : base = 1 ∨ base = 2 ∨ base = 3) :
    capField base (infoOf img out) = request caps base
      (capField base { out with stackBytes := defaultStackPages * page }) := by
  have hfields : capField base { fillSegs img 0 (segCnt img) out with
      segCount := segCnt img
      imagePages := pagesBelow img (segCnt img)
      entry := entryField img
      stackBytes := defaultStackPages * page } = capField base { out with
          stackBytes := defaultStackPages * page } := by
    rcases hb with rfl | rfl | rfl <;> rfl
  rw [infoOf, hcnt, capField_fillCaps hb hd, hfields]
  · intro j c hc
    rw [Nat.zero_add]
    exact h j c hc

theorem PackOk.capField_info (h : PackOk segs caps entry) (out : ExbInfo) (base : ℕ)
    (hb : base = 1 ∨ base = 2 ∨ base = 3) :
    capField base (infoOf (bytesOf (packImage segs caps entry 0)) out) =
      request caps base (capField base { out with stackBytes := defaultStackPages * page }) :=
  capField_infoOf h.header.capCnt_eq h.distinct
    (fun _ _ hc => ⟨(h.capOk_image hc).2, (h.capAt_eq hc).2.2⟩) out hb

/-- The data of a segment, cut out of the image. -/
theorem PackOk.data_eq (hs : segs[i]? = some s) (ho : (packOffs segs caps)[i]? = some off) :
    ((packImage segs caps entry 0).drop off).take s.data.length = s.data := by
  rcases Nat.eq_zero_or_pos s.data.length with h0 | hp
  · rw [h0, List.take_zero, List.length_eq_zero_iff.mp h0]
  · have hlo := (packed_dataAt hs ho).lo hp
    have hhi := (packed_dataAt hs ho).hi hp
    have hlen := length_packBody segs caps entry 0
    rw [packOffs, ← length_pad_packHead segs caps entry 0] at ho
    obtain ⟨a, b, hab, ha⟩ :=
      packData_data (by rw [length_pad_packHead]; exact roundup16_mod _) hs ho hp
    have hbody : packBody segs caps entry 0 = a ++ (s.data ++ b) := hab
    have htail : (packImage segs caps entry 0).drop off =
        (packBody segs caps entry 0).drop off := by
      have hfront : ((packBody segs caps entry 0).take 28 ++ p32
          (crc32img (packBody segs caps entry 0))).length = 32 := by
        rw [List.length_append, List.length_take, length_p32]
        omega
      obtain ⟨k, rfl⟩ : ∃ k, off = 32 + k := ⟨off - 32, by omega⟩
      rw [packImage, overlay, ← List.drop_drop, ← hfront, List.drop_left, hfront, length_p32,
        List.drop_drop]
    rw [htail, hbody, ← ha, List.drop_left, List.take_left]

/-- The image is accepted, and its record is that of the program but for heap frames and tokens that
the list does not ask for: those keep what the record held before. -/
theorem PackOk.parsed (h : PackOk segs caps entry) (out : ExbInfo) :
    ∃ info, Id.run (exbParse (m := Id) (bytesOf (packImage segs caps entry 0))
      (packImage segs caps entry 0).length out) =
        (.ok (), info) ∧
      (SameProgram segs caps entry (packImage segs caps entry 0) info ↔
        request caps 2 out.heapFrames = request caps 2 0 ∧
          request caps 3 out.extraTokens = request caps 3 0) ∧
      info.heapFrames = request caps 2 out.heapFrames ∧
        info.extraTokens = request caps 3 out.extraTokens := by
  have hheap := h.capField_info out 2 (by omega)
  have htokens := h.capField_info out 3 (by omega)
  have hstack := h.capField_info out 1 (by omega)
  simp only [capField] at hheap htokens hstack
  refine ⟨infoOf (bytesOf (packImage segs caps entry 0)) out, ?_, ?_, hheap, htokens⟩
  · have hy := (yields_parseImpl_iff (bytesOf (packImage segs caps entry 0))
      (packTotal segs caps) out _).mpr
      ⟨(passes_iff _ _).mpr h.format, rfl⟩
    rw [length_packImage]
    exact exbParse_of_yields hy
  · constructor
    · intro hsame
      exact ⟨hheap.symm.trans hsame.heap, htokens.symm.trans hsame.tokens⟩
    · rintro ⟨h2, h3⟩
      refine ⟨?_, ?_, ?_, hstack, hheap.trans h2, htokens.trans h3⟩
      · rw [segCount_infoOf, h.header.segCnt_eq]
      · intro i s hs
        obtain ⟨s', off, hs', ho⟩ := exists_off caps (List.getElem?_eq_some_iff.mp hs).1
        obtain rfl : s' = s := Option.some.inj (hs'.symm.trans hs)
        have hi : i < segCnt (bytesOf (packImage segs caps entry 0)) := by
          rw [h.header.segCnt_eq]
          exact (List.getElem?_eq_some_iff.mp hs).1
        rw [seg_infoOf _ out hi, (h.segAt_eq hs ho).1]
        exact ⟨rfl, rfl, rfl, PackOk.data_eq hs ho⟩
      · rw [entry_infoOf]
        exact h.header.entry_eq

/-- Heap frames and tokens that the list does not ask for are zero only if they were before. -/
theorem request_eq_zero_iff {base : ℕ} (v : ℕ) :
    request caps base v = request caps base 0 ↔ (∃ c ∈ caps, c.base = base) ∨ v = 0 := by
  by_cases h : ∃ c ∈ caps, c.base = base
  · simp only [h, true_or, iff_true]
    exact request_of_mem h v 0
  · have hne : ∀ c ∈ caps, c.base ≠ base := fun c hc he => h ⟨c, hc, he⟩
    rw [request_of_notMem hne, request_of_notMem hne]
    simp only [h, false_or]

end Packed

/-- The segments that `exbpack.rexx base` packs. -/
def baseSegs : List PackSeg :=
  [⟨vaMin, page, 5, List.replicate 15 0x90 ++ [0xC3]⟩,
   ⟨vaMin + page, 2 * page, 3, [0x64, 0x61, 0x74, 0x61, 0x2D, 0x73, 0x65, 0x67]⟩]

/-- The capabilities that `exbpack.rexx base` packs. -/
def baseCaps : List PackCap := [⟨1, 8192⟩, ⟨2, 16⟩]

theorem baseProgram_ok : PackOk baseSegs baseCaps vaMin where
  count := by decide
  segOk := by
    intro s hs
    simp only [baseSegs, List.mem_cons, List.not_mem_nil, or_false] at hs
    rcases hs with rfl | rfl <;>
      exact ⟨by decide, by decide, by decide, by decide, by decide, by decide, by decide, by decide⟩
  disjoint := by
    simp only [baseSegs, List.pairwise_cons, List.mem_singleton, forall_eq, List.not_mem_nil,
      false_imp_iff, implies_true, List.Pairwise.nil, and_true]
    rw [Set.Ico_disjoint_Ico]
    decide
  pages := by decide
  entryIn := ⟨⟨vaMin, page, 5, List.replicate 15 0x90 ++ [0xC3]⟩, by
    simp [baseSegs], by decide, by decide, by decide⟩
  capOk := by
    intro c hc
    simp only [baseCaps, List.mem_cons, List.not_mem_nil, or_false] at hc
    rcases hc with rfl | rfl <;> exact ⟨by decide, by decide, by decide, by decide, by decide⟩
  distinct := by decide
  size := by decide

/-- **The packer and the parser agree** on every program, when what is not asked for is zero in the
record that the parser is given. -/
theorem PackOk.agree_iff {segs : List PackSeg} {caps : List PackCap} {entry : ℕ}
    (h : PackOk segs caps entry) (out : ExbInfo) :
    (∃ image info, buildImage segs caps entry 0 = some image ∧
      Id.run (exbParse (m := Id) (bytesOf image) image.length out) = (.ok (), info) ∧
      SameProgram segs caps entry image info) ↔
    ((∃ c ∈ caps, c.base = 2) ∨ out.heapFrames = 0) ∧
      ((∃ c ∈ caps, c.base = 3) ∨ out.extraTokens = 0) := by
  obtain ⟨info, hparse, hsame, _⟩ := h.parsed out
  rw [← request_eq_zero_iff, ← request_eq_zero_iff, ← hsame]
  constructor
  · rintro ⟨image, info', himage, hparse', hsame'⟩
    rw [buildImage_eq, Option.some.injEq] at himage
    subst himage
    rw [hparse, Prod.mk.injEq] at hparse'
    rw [hparse'.2]
    exact hsame'
  · intro hs
    exact ⟨_, info, buildImage_eq segs caps entry 0, hparse, hs⟩

/-- The base program, packed and parsed into a cleared record. -/
theorem PackOk.agree_iff_base : ∃ image info, buildImage baseSegs baseCaps vaMin 0 = some image ∧
    Id.run (exbParse (m := Id) (bytesOf image) image.length zeroOut) = (.ok (), info) ∧
    SameProgram baseSegs baseCaps vaMin image info :=
  (PackOk.agree_iff baseProgram_ok zeroOut).mpr ⟨Or.inr rfl, Or.inr rfl⟩

/-- The base program asks for no tokens, and parsed into a record that held some it still has
them. -/
theorem stale_tokens_base : PackOk baseSegs baseCaps vaMin ∧
    ¬ ∃ image info, buildImage baseSegs baseCaps vaMin 0 = some image ∧
      Id.run (exbParse (m := Id) (bytesOf image) image.length { zeroOut with extraTokens := 7 }) =
        (.ok (), info) ∧
      SameProgram baseSegs baseCaps vaMin image info := by
  refine ⟨baseProgram_ok, ?_⟩
  rintro ⟨image, info, himage, hparse, hsame⟩
  obtain ⟨info', hparse', _, _, htokens⟩ := baseProgram_ok.parsed { zeroOut with extraTokens := 7 }
  rw [buildImage_eq, Option.some.injEq] at himage
  subst himage
  rw [hparse', Prod.mk.injEq] at hparse
  have h7 : info'.extraTokens = 0 := by
    rw [hparse.2]
    exact hsame.tokens
  rw [htokens] at h7
  exact absurd h7 (by decide)

end Xasmos.Exb
