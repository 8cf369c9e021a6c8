import Xasmos.Kernel.Frames

/-!
# The frames the kernel starts with

`physInitFromHandoff` builds the frame bitmap from the memory map of the firmware: every
frame of conventional, boot-services and loader memory becomes free, then the first MiB
and the framebuffer are reserved.

The kernel image itself is loader memory.  `NeverHandedOut` says that no sequence of
allocations and frees returns one of its frames; `neverHandedOut_iff` says when that is so.

## Main definitions

* `XeretHandoff`, with the memory map as the bytes the firmware wrote.
* `AllocRun p₀ p held` — `p` is reached from `p₀` with the ranges `held` allocated.
* `Reported` — the image lies in loader memory of the memory map.
-/

namespace Xasmos.Kernel

open Bytes

/-- The type of a memory descriptor. -/
inductive EfiMemoryType where
  | reservedMemory
  | loaderCode
  | loaderData
  | bootServicesCode
  | bootServicesData
  | runtimeServicesCode
  | runtimeServicesData
  | conventionalMemory
  | unusableMemory
  | acpiReclaimMemory
  | acpiMemoryNvs
  | memoryMappedIo
  | memoryMappedIoPortSpace
  | palCode
  | persistentMemory
  | unknown
  deriving DecidableEq

/-- The type of a code in the memory map. -/
def EfiMemoryType.ofCode : ℕ → EfiMemoryType
  | 0 => .reservedMemory
  | 1 => .loaderCode
  | 2 => .loaderData
  | 3 => .bootServicesCode
  | 4 => .bootServicesData
  | 5 => .runtimeServicesCode
  | 6 => .runtimeServicesData
  | 7 => .conventionalMemory
  | 8 => .unusableMemory
  | 9 => .acpiReclaimMemory
  | 10 => .acpiMemoryNvs
  | 11 => .memoryMappedIo
  | 12 => .memoryMappedIoPortSpace
  | 13 => .palCode
  | 14 => .persistentMemory
  | _ => .unknown

/-- The fields of `EFI_MEMORY_DESCRIPTOR` that are read. -/
structure MemoryDescriptor where
  type : EfiMemoryType
  physicalStart : ℕ
  numberOfPages : ℕ
  deriving DecidableEq

/-- The descriptor at offset `off` of the memory map. -/
def descriptorAt (map : Bytes) (off : ℕ) : MemoryDescriptor :=
  ⟨.ofCode (getLE 4 map off), getLE 8 map (off + 8), getLE 8 map (off + 24)⟩

/-- The fields of `FramebufferInfo` that are read. -/
structure FramebufferInfo where
  base : ℕ
  height : ℕ
  pixelsPerScanline : ℕ

/-- What the boot loader hands to the kernel; `mmap` is the memory at `mmapAddr`. -/
structure XeretHandoff where
  magic : ℕ
  fb : FramebufferInfo
  mmapAddr : ℕ
  mmap : Bytes
  mmapSize : ℕ
  mmapDescSize : ℕ
  physEnd : ℕ

/-- `XERET_HANDOFF_MAGIC` -/
def handoffMagic : ℕ := 0x5845524554484E44

/-- Memory of this type is free once the boot services are gone. -/
def EfiMemoryType.isFreed : EfiMemoryType → Bool
  | .conventionalMemory => true
  | .bootServicesCode => true
  | .bootServicesData => true
  | .loaderCode => true
  | .loaderData => true
  | _ => false

/-- One turn of the loop over the memory map. -/
def addDescriptor (d : MemoryDescriptor) (p : PhysBitmap) : PhysBitmap :=
  if d.type.isFreed then markRangeFree d.physicalStart d.numberOfPages p else p

/-- The number of descriptors in the memory map: those that fit in its size. -/
def XeretHandoff.descCount (hand : XeretHandoff) : ℕ := hand.mmapSize / hand.mmapDescSize

/-- Descriptor `i`; the stride is the firmware's. -/
def XeretHandoff.desc (hand : XeretHandoff) (i : ℕ) : MemoryDescriptor :=
  descriptorAt hand.mmap (i * hand.mmapDescSize)

/-- The size of the framebuffer. -/
def FramebufferInfo.bytes (fb : FramebufferInfo) : ℕ :=
  fb.pixelsPerScanline * 4 * fb.height % 2 ^ 64

/-- `phys_init_from_handoff`; `none` is the failure. -/
def physInitFromHandoff (hand : XeretHandoff) : Option PhysBitmap :=
  if hand.magic ≠ handoffMagic then none
  else if hand.mmapAddr = 0 ∨ hand.mmapSize = 0 ∨ hand.mmapDescSize = 0 then none
  else if hand.physEnd = 0 then none
  else
    let frames := ((hand.physEnd + frameSize - 1) % 2 ^ 64) >>> frameShift
    let frames := if bitmapMaxFrames < frames then bitmapMaxFrames else frames
    -- everything is used, then the memory map frees
    let p := loop 0 hand.descCount (fun i => addDescriptor (hand.desc i))
      ⟨frames, 0, frames, fun _ => 0⟩
    let p := physReserveRange 0 0x100000 p
    some (if hand.fb.base ≠ 0 ∧ hand.fb.height ≠ 0 then
      physReserveRange hand.fb.base hand.fb.bytes p else p)

/-! ## What is free after the start -/

/-- The descriptor frees frame `g`. -/
def MemoryDescriptor.Frees (d : MemoryDescriptor) (g : ℕ) : Prop :=
  d.type.isFreed = true ∧ d.numberOfPages ≠ 0 ∧ d.physicalStart / frameSize ≤ g ∧
    g < (d.physicalStart / frameSize + d.numberOfPages) % 2 ^ 64

/-- `phys_reserve_range start bytes` reserves frame `g`. -/
def Reserves (start bytes g : ℕ) : Prop :=
  bytes ≠ 0 ∧ start / frameSize ≤ g ∧
    g < (start / frameSize + (bytes + frameSize - 1) % 2 ^ 64 / frameSize) % 2 ^ 64

/-- Frame `g` is in the first MiB, or in what is reserved for the framebuffer. -/
def XeretHandoff.ReservedFrame (hand : XeretHandoff) (g : ℕ) : Prop :=
  g < 256 ∨ hand.fb.base ≠ 0 ∧ hand.fb.height ≠ 0 ∧ Reserves hand.fb.base hand.fb.bytes g

section Start

variable {hand : XeretHandoff} {p : PhysBitmap}

theorem addDescriptor_spec (h : Counted p) (d : MemoryDescriptor) :
    Counted (addDescriptor d p) ∧ (addDescriptor d p).totalFrames = p.totalFrames ∧
      ∀ g, (addDescriptor d p).isFree g = true ↔ p.isFree g = true ∨ d.Frees g ∧
        g < p.totalFrames := by
  unfold addDescriptor
  by_cases hd : d.type.isFreed = true
  · rw [if_pos hd]
    obtain ⟨h1, h2, h3⟩ := markRangeFree_spec h d.physicalStart d.numberOfPages
    refine ⟨h1, h2, fun g => ?_⟩
    rw [h3, Bool.or_eq_true, decide_eq_true_iff, MemoryDescriptor.Frees]
    simp only [hd, true_and, and_assoc]
  · rw [if_neg hd]
    simp [h, MemoryDescriptor.Frees, hd]

theorem physReserveRange_spec (h : Counted p) (hin : ∀ g, p.isFree g = true → g < p.totalFrames)
    (start bytes : ℕ) :
    Counted (physReserveRange start bytes p) ∧ (physReserveRange start bytes p).totalFrames =
      p.totalFrames ∧
      ∀ g, (physReserveRange start bytes p).isFree g = true ↔ p.isFree g = true ∧
        ¬ Reserves start bytes g := by
  obtain ⟨h1, h2, h3⟩ := markRangeUsed_spec h start bytes
  refine ⟨h1, h2, fun g => ?_⟩
  rw [physReserveRange, h3, Bool.and_eq_true, Bool.not_eq_true', decide_eq_false_iff_not, Reserves]
  refine and_congr_right fun hg => ?_
  simp only [hin g hg, and_true]

theorem reserves_firstMiB (g : ℕ) : Reserves 0 0x100000 g ↔ g < 256 := by
  have hlast : (0 / frameSize + (0x100000 + frameSize - 1) % 2 ^ 64 / frameSize) % 2 ^ 64 =
    256 := by decide
  rw [Reserves, hlast, Nat.zero_div]
  simp

/-- The bitmap before the memory map is read: no frame is free. -/
def allUsed (frames : ℕ) : PhysBitmap := ⟨frames, 0, frames, fun _ => 0⟩

theorem isFree_allUsed (frames g : ℕ) : (allUsed frames).isFree g = false := by
  simp [allUsed, PhysBitmap.isFree, bitOf]

theorem counted_allUsed (frames : ℕ) : Counted (allUsed frames) := by
  constructor
  · have hnone : Nat.count (fun g => (allUsed frames).isFree g = true) frames =
        Nat.count (fun _ => False) frames :=
      count_congr fun g _ => by simp [isFree_allUsed]
    rw [allUsed] at hnone ⊢
    rw [hnone, Nat.count_false]
  · exact Nat.zero_add frames

/-- What the loop over the memory map frees. -/
theorem mmapLoop_spec (hand : XeretHandoff) (frames n : ℕ) :
    Counted (loop 0 n (fun i => addDescriptor (hand.desc i)) (allUsed frames)) ∧
      (loop 0 n (fun i => addDescriptor (hand.desc i)) (allUsed frames)).totalFrames = frames ∧
      ∀ g, (loop 0 n (fun i => addDescriptor (hand.desc i)) (allUsed frames)).isFree g = true ↔
        g < frames ∧ ∃ i < n, (hand.desc i).Frees g := by
  refine loop_induct (fun k q => Counted q ∧ q.totalFrames = frames ∧
    ∀ g, q.isFree g = true ↔ g < frames ∧ ∃ i < k, (hand.desc i).Frees g) (Nat.zero_le n) ?_ ?_
  · refine ⟨counted_allUsed frames, rfl, fun g => ?_⟩
    simp [isFree_allUsed]
  · intro k q _ _ hq
    obtain ⟨hc, ht, hb⟩ := hq
    obtain ⟨h1, h2, h3⟩ := addDescriptor_spec hc (hand.desc k)
    refine ⟨h1, h2.trans ht, fun g => ?_⟩
    rw [h3, hb, ht]
    constructor
    · rintro (⟨hg, i, hi, hf⟩ | ⟨hf, hg⟩)
      · exact ⟨hg, i, by omega, hf⟩
      · exact ⟨hg, k, by omega, hf⟩
    · rintro ⟨hg, i, hi, hf⟩
      by_cases hik : i = k
      · exact Or.inr ⟨hik ▸ hf, hg⟩
      · exact Or.inl ⟨hg, i, by omega, hf⟩

/-- The two reservations of the start. -/
theorem bootReserve_spec {q : PhysBitmap} (h : Counted q)
    (hin : ∀ g, q.isFree g = true → g < q.totalFrames) (hand : XeretHandoff)
    (hp : p = if hand.fb.base ≠ 0 ∧ hand.fb.height ≠ 0 then
      physReserveRange hand.fb.base hand.fb.bytes
        (physReserveRange 0 0x100000 q) else physReserveRange 0 0x100000 q) :
    Counted p ∧ p.totalFrames = q.totalFrames ∧
      ∀ g, p.isFree g = true ↔ q.isFree g = true ∧ ¬ hand.ReservedFrame g := by
  obtain ⟨h1, h2, h3⟩ := physReserveRange_spec h hin 0 0x100000
  have hin' : ∀ g, (physReserveRange 0 0x100000 q).isFree g = true →
      g < (physReserveRange 0 0x100000 q).totalFrames := by
    intro g hg
    rw [h2]
    exact hin g ((h3 g).mp hg).1
  by_cases hfb : hand.fb.base ≠ 0 ∧ hand.fb.height ≠ 0
  · rw [if_pos hfb] at hp
    subst hp
    obtain ⟨h4, h5, h6⟩ := physReserveRange_spec h1 hin' hand.fb.base hand.fb.bytes
    refine ⟨h4, h5.trans h2, fun g => ?_⟩
    rw [h6 g, h3 g, reserves_firstMiB, XeretHandoff.ReservedFrame]
    simp only [hfb.1, hfb.2, ne_eq, not_false_eq_true, true_and, not_or, and_assoc]
  · rw [if_neg hfb] at hp
    subst hp
    refine ⟨h1, h2, fun g => ?_⟩
    rw [h3 g, reserves_firstMiB, XeretHandoff.ReservedFrame]
    have hno : ¬ (hand.fb.base ≠ 0 ∧ hand.fb.height ≠ 0 ∧ Reserves hand.fb.base hand.fb.bytes g) :=
      fun hr => hfb ⟨hr.1, hr.2.1⟩
    simp only [hno, or_false]

/-- The frames of the machine, as far as the bitmap holds them. -/
def XeretHandoff.frames (hand : XeretHandoff) : ℕ :=
  if bitmapMaxFrames < ((hand.physEnd + frameSize - 1) % 2 ^ 64) >>> frameShift then bitmapMaxFrames
  else ((hand.physEnd + frameSize - 1) % 2 ^ 64) >>> frameShift

/-- **The frames that are free after the start.** -/
theorem physInitFromHandoff_full (h : physInitFromHandoff hand = some p) :
    Counted p ∧ p.totalFrames = hand.frames ∧
      ∀ g, p.isFree g = true ↔
        g < p.totalFrames ∧ (∃ i < hand.descCount, (hand.desc i).Frees g) ∧
          ¬ hand.ReservedFrame g := by
  unfold physInitFromHandoff at h
  by_cases h1 : hand.magic ≠ handoffMagic
  · simp [h1] at h
  rw [if_neg h1] at h
  by_cases h2 : hand.mmapAddr = 0 ∨ hand.mmapSize = 0 ∨ hand.mmapDescSize = 0
  · simp [h2] at h
  rw [if_neg h2] at h
  by_cases h3 : hand.physEnd = 0
  · simp [h3] at h
  rw [if_neg h3] at h
  obtain hp := (Option.some.inj h).symm
  set frames := ((hand.physEnd + frameSize - 1) % 2 ^ 64) >>> frameShift
  obtain ⟨hc, ht, hb⟩ :=
    mmapLoop_spec hand (if bitmapMaxFrames < frames then bitmapMaxFrames else frames) hand.descCount
  obtain ⟨h4, h5, h6⟩ :=
    bootReserve_spec hc (fun g hg => by rw [ht]; exact ((hb g).mp hg).1) hand hp
  refine ⟨h4, h5.trans ht, fun g => ?_⟩
  rw [h6, hb, h5, ht, and_assoc]

theorem physInitFromHandoff_spec (h : physInitFromHandoff hand = some p) :
    Counted p ∧ p.totalFrames ≤ bitmapMaxFrames ∧
      ∀ g, p.isFree g = true ↔
        g < p.totalFrames ∧ (∃ i < hand.descCount, (hand.desc i).Frees g) ∧
          ¬ hand.ReservedFrame g := by
  obtain ⟨hc, htotal, hfree⟩ := physInitFromHandoff_full h
  refine ⟨hc, ?_, hfree⟩
  rw [htotal, XeretHandoff.frames]
  split <;> omega

/-- Frame 0 is never free: its address is the failure of an allocation. -/
theorem physInitFromHandoff_zero (h : physInitFromHandoff hand = some p) : p.isFree 0 = false := by
  obtain ⟨_, _, hfree⟩ := physInitFromHandoff_spec h
  by_contra h0
  exact ((hfree 0).mp (by simpa using h0)).2.2 (Or.inl (by decide))

end Start

/-! ## Runs of the allocator -/

/-- The ranges that are allocated after an allocation of `n` frames returned `addr`. -/
def returned (addr n : ℕ) (held : List (ℕ × ℕ)) : List (ℕ × ℕ) :=
  if addr = 0 then held else (addr, n) :: held

/-- The states reached from `p₀` by allocations and by frees of allocated ranges, each with the
ranges that are allocated: their addresses and their numbers of frames. -/
inductive AllocRun (p₀ : PhysBitmap) : PhysBitmap → List (ℕ × ℕ) → Prop where
  | start : AllocRun p₀ p₀ []
  | allocFrames {p : PhysBitmap} {held : List (ℕ × ℕ)} (n : ℕ) (h : AllocRun p₀ p held) :
      AllocRun p₀ (physAllocFrames n p).2 (returned (physAllocFrames n p).1 n held)
  | allocHuge {p : PhysBitmap} {held : List (ℕ × ℕ)} (h : AllocRun p₀ p held) :
      AllocRun p₀ (physAllocHuge p).2 (returned (physAllocHuge p).1 framesPerHuge held)
  | freeFrames {p : PhysBitmap} {held : List (ℕ × ℕ)} {addr n : ℕ} (h : AllocRun p₀ p held)
      (hmem : (addr, n) ∈ held) : AllocRun p₀ (physFreeFrames addr n p) (held.erase (addr, n))

/-- No run from `p₀` ever returns a range that holds a frame of `image`. -/
def NeverHandedOut (p₀ : PhysBitmap) (image : Set ℕ) : Prop :=
  ∀ p held, AllocRun p₀ p held → ∀ r ∈ held, ∀ f ∈ image,
    ¬ (r.1 / frameSize ≤ f ∧ f < r.1 / frameSize + r.2)

/-- Every frame of the image is loader memory in the memory map. -/
def Reported (hand : XeretHandoff) (image : Set ℕ) : Prop :=
  ∀ f ∈ image, ∃ i < hand.descCount,
    ((hand.desc i).type = .loaderCode ∨ (hand.desc i).type = .loaderData) ∧
    (hand.desc i).physicalStart / frameSize ≤ f ∧
    f < (hand.desc i).physicalStart / frameSize + (hand.desc i).numberOfPages ∧
    (hand.desc i).physicalStart / frameSize + (hand.desc i).numberOfPages < 2 ^ 64

/-- The range of `n` frames at the address `addr` was free at the start of the run. -/
structure WasFree (p₀ : PhysBitmap) (addr n : ℕ) : Prop where
  pos : 0 < n
  exists_frame : ∃ a, addr = a * frameSize ∧ FreeRun p₀ n a

/-- What a run keeps: frames that are free or allocated were free at its start. -/
structure FromStart (p₀ p : PhysBitmap) (held : List (ℕ × ℕ)) : Prop where
  counted : Counted p
  total : p.totalFrames = p₀.totalFrames
  free : ∀ f, p.isFree f = true → p₀.isFree f = true
  held : ∀ r ∈ held, WasFree p₀ r.1 r.2

section Runs

variable {p₀ p q : PhysBitmap} {held : List (ℕ × ℕ)} {hand : XeretHandoff} {image : Set ℕ} {n : ℕ}

theorem FromStart.took {a : ℕ} (h : FromStart p₀ p held) (hn : 0 < n) (ht : TookRun p a n q) :
    FromStart p₀ q ((a * frameSize, n) :: held) := by
  refine ⟨ht.counted, ht.total.trans h.total, fun f hf => ?_, fun r hr => ?_⟩
  · rw [ht.isFree, Bool.and_eq_true] at hf
    exact h.free f hf.1
  · rcases List.mem_cons.mp hr with rfl | hr
    · exact ⟨hn, a, rfl, h.total ▸ ht.run.1, fun f h1 h2 => h.free f (ht.run.2 f h1 h2)⟩
    · exact h.held r hr

theorem FromStart.gave {addr : ℕ} (h : FromStart p₀ p held)
    (hmax : p₀.totalFrames ≤ bitmapMaxFrames) (hmem : (addr, n) ∈ held) :
    FromStart p₀ (physFreeFrames addr n p) (held.erase (addr, n)) := by
  obtain ⟨hn, a, ha, hle, hfree⟩ := h.held _ hmem
  simp only at ha hle hn
  have hlt : p.totalFrames < 2 ^ 64 := by
    have h1 := h.total
    rw [bitmapMaxFrames] at hmax
    omega
  have hg := physFreeFrames_spec h.counted hn (h.total ▸ hle) hlt
  rw [ha]
  refine ⟨hg.counted, hg.total.trans h.total, fun f hf => ?_,
    fun r hr => h.held r (List.mem_of_mem_erase hr)⟩
  rw [hg.isFree, Bool.or_eq_true, decide_eq_true_iff] at hf
  rcases hf with hf | hf
  · exact h.free f hf
  · exact hfree f hf.1 hf.2

/-- **Every run.** -/
theorem AllocRun.fromStart (hc : Counted p₀) (h0 : p₀.isFree 0 = false)
    (hmax : p₀.totalFrames ≤ bitmapMaxFrames) (h : AllocRun p₀ p held) : FromStart p₀ p held := by
  have hzero : ∀ {p held}, FromStart p₀ p held → p.isFree 0 = false := by
    intro p held h
    by_contra hf
    have hf' := h.free 0 (by simpa using hf)
    rw [h0] at hf'
    exact absurd hf' (by simp)
  induction h with
  | start => exact ⟨hc, rfl, fun _ hf => hf, by simp⟩
  | @allocFrames p held n _ ih =>
    by_cases hn : n = 0
    · simpa [physAllocFrames, hn, returned] using ih
    rcases physAllocFrames_spec ih.counted (hzero ih) (Nat.pos_of_ne_zero hn) with ⟨h1, h2, _⟩ | ⟨a,
      ha, h1, h2, _⟩
    · rwa [h1, h2, returned, if_pos rfl]
    · have hne : a * frameSize ≠ 0 := Nat.mul_ne_zero (by omega) (by decide)
      rw [h1, returned, if_neg hne]
      exact ih.took (Nat.pos_of_ne_zero hn) h2
  | @allocHuge p held _ ih =>
    rcases physAllocHuge_spec ih.counted (hzero ih) with ⟨h1, h2, _⟩ | ⟨a, ha, h1, _, h2, _⟩
    · rwa [h1, h2, returned, if_pos rfl]
    · have hne : a * frameSize ≠ 0 := Nat.mul_ne_zero (by omega) (by decide)
      rw [h1, returned, if_neg hne]
      exact ih.took (by decide) h2
  | freeFrames _ hmem ih => exact ih.gave hmax hmem

/-- A frame that is free is handed out if single frames are allocated long enough: each
allocation takes the lowest free frame. -/
theorem AllocRun.reaches (h0 : p₀.isFree 0 = false) (hmax : p₀.totalFrames ≤ bitmapMaxFrames)
    (hc : Counted p₀) {f : ℕ} (h : AllocRun p₀ p held) (hf : p.isFree f = true)
    (hlt : f < p.totalFrames) : ∃ p' held', AllocRun p₀ p' held' ∧ (f * frameSize, 1) ∈ held' := by
  have hs := h.fromStart hc h0 hmax
  have hz : p.isFree 0 = false := by
    by_contra hz
    have hz' := hs.free 0 (by simpa using hz)
    rw [h0] at hz'
    exact absurd hz' (by simp)
  -- by induction on the number of free frames below `f`
  induction hk : Nat.count
    (fun g => p.isFree g = true) f using Nat.strong_induction_on generalizing p held with
  | _ k ih =>
    have hrun : FreeRun p 1 f := ⟨hlt, fun g h1 h2 => by rwa [show g = f by omega]⟩
    rcases physAllocFrames_spec hs.counted hz (Nat.one_pos) with ⟨_, _, h3⟩ | ⟨a, ha, h1, h2, h3⟩
    · exact absurd hrun (h3 f)
    have hne : a * frameSize ≠ 0 := Nat.mul_ne_zero (by omega) (by decide)
    have hstep := h.allocFrames 1
    rw [h1, returned, if_neg hne] at hstep
    by_cases haf : a = f
    · exact ⟨_, _, hstep, by rw [haf]; exact List.mem_cons_self⟩
    have hle := h3 f hrun
    have hcount := count_add_length (p := fun g => (physAllocFrames 1 p).2.isFree g = true)
      (q := fun g => p.isFree g = true) (n := f) (List.nodup_singleton a)
      (by
        intro g hg
        rw [List.mem_singleton.mp hg]
        exact ⟨by omega, h2.run.2 a le_rfl (by omega)⟩)
      (fun g _ => by
        rw [h2.isFree, Bool.and_eq_true, Bool.not_eq_true', decide_eq_false_iff_not,
          List.mem_singleton]
        exact and_congr_right fun _ => not_congr (by omega))
    rw [List.length_singleton] at hcount
    have hfree : (physAllocFrames 1 p).2.isFree f = true := by
      rw [h2.isFree, hf, Bool.true_and, Bool.not_eq_true', decide_eq_false_iff_not]
      omega
    have hz2 : (physAllocFrames 1 p).2.isFree 0 = false := by rw [h2.isFree, hz, Bool.false_and]
    exact ih _ (by omega) hstep hfree (by rw [h2.total]; exact hlt)
      (hstep.fromStart hc h0 hmax) hz2 rfl

/-- **When the kernel image is safe**: no frame of it is ever handed out, exactly if each one is
in the first MiB, or is reserved with the framebuffer, or lies beyond the bitmap. -/
theorem neverHandedOut_iff (hand : XeretHandoff) (p : PhysBitmap) (image : Set ℕ)
    (hinit : physInitFromHandoff hand = some p) (himage : Reported hand image) :
    NeverHandedOut p image ↔ ∀ f ∈ image, hand.ReservedFrame f ∨ p.totalFrames ≤ f := by
  obtain ⟨hc, hmax, hfree⟩ := physInitFromHandoff_spec hinit
  have h0 := physInitFromHandoff_zero hinit
  constructor
  · intro hnever f hf
    by_contra hno
    rw [not_or, Nat.not_le] at hno
    obtain ⟨i, hi, htype, h1, h2, h3⟩ := himage f hf
    have hfrees : (hand.desc i).Frees f := by
      refine ⟨?_, by omega, h1, by rw [Nat.mod_eq_of_lt h3]; exact h2⟩
      rcases htype with ht | ht <;> rw [ht] <;> rfl
    have hff : p.isFree f = true := (hfree f).mpr ⟨hno.2, ⟨i, hi, hfrees⟩, hno.1⟩
    obtain ⟨q, held, hrun, hmem⟩ := AllocRun.start.reaches h0 hmax hc hff hno.2
    refine hnever q held hrun _ hmem f hf ?_
    rw [Nat.mul_div_cancel f (by decide)]
    omega
  · intro hall q held hrun r hr f hf hin
    obtain ⟨_, a, ha, _, hwas⟩ := (hrun.fromStart hc h0 hmax).held r hr
    rw [ha, Nat.mul_div_cancel a (by decide)] at hin
    obtain ⟨hlt, _, hres⟩ := (hfree f).mp (hwas f hin.1 hin.2)
    rcases hall f hf with h1 | h1
    · exact hres h1
    · omega

end Runs

/-- A machine of 272 frames whose only memory is the kernel image, 16 frames at `start`. -/
def imageHandoff (start : ℕ) : XeretHandoff where
  magic := handoffMagic
  fb := ⟨0, 0, 0⟩
  mmapAddr := 4096
  mmap := putLE 8 (putLE 8 (putLE 4 (fun _ => 0) 0 1) 8 start) 24 16
  mmapSize := 48
  mmapDescSize := 48
  physEnd := 0x110000

/-- The frames of the image of `imageHandoff`. -/
def imageFrames (start : ℕ) : Set ℕ := {f | start / frameSize ≤ f ∧ f < start / frameSize + 16}

theorem reported_imageHandoff {start : ℕ} (hstart : start < 2 ^ 32)
    (hdesc : (imageHandoff start).desc 0 = ⟨.loaderCode, start, 16⟩) :
    Reported (imageHandoff start) (imageFrames start) := by
  intro f hf
  refine ⟨0, show 0 < 48 / 48 by decide, ?_⟩
  rw [hdesc]
  refine ⟨Or.inl rfl, hf.1, hf.2, ?_⟩
  have hle := Nat.div_le_self start frameSize
  simp only
  omega

/-- An image below 1 MiB is never handed out. -/
theorem neverHandedOut_iff_low : ∃ p, physInitFromHandoff (imageHandoff 0x80000) = some p ∧
    NeverHandedOut p (imageFrames 0x80000) := by
  obtain ⟨p, hp⟩ : ∃ p, physInitFromHandoff (imageHandoff 0x80000) = some p := ⟨_, rfl⟩
  have himage := reported_imageHandoff (show 0x80000 < 2 ^ 32 by decide) (by decide +kernel)
  refine ⟨p, hp, (neverHandedOut_iff _ p _ hp himage).mpr fun f hf => Or.inl (Or.inl ?_)⟩
  have hlast : 0x80000 / frameSize + 16 = 144 := by decide
  have h2 := hf.2
  omega

/-- The first frame of an image at 1 MiB is the first frame that is handed out. -/
theorem image_handed_out : ∃ p, physInitFromHandoff (imageHandoff 0x100000) = some p ∧
    Reported (imageHandoff 0x100000) (imageFrames 0x100000) ∧
      ¬ NeverHandedOut p (imageFrames 0x100000) := by
  obtain ⟨p, hp⟩ : ∃ p, physInitFromHandoff (imageHandoff 0x100000) = some p := ⟨_, rfl⟩
  have hfirst : (physInitFromHandoff (imageHandoff 0x100000)).map
      (fun p => (physAllocFrames 1 p).1) = some 0x100000 := by
    decide +kernel
  rw [hp, Option.map_some] at hfirst
  refine ⟨p, hp, reported_imageHandoff (by decide) (by decide +kernel), fun hnever => ?_⟩
  have hrun := (AllocRun.start : AllocRun p p []).allocFrames 1
  rw [Option.some.inj hfirst, returned, if_neg (by decide)] at hrun
  exact hnever _ _ hrun _ List.mem_cons_self 256 (by simp [imageFrames, frameSize]) (by decide)

end Xasmos.Kernel
