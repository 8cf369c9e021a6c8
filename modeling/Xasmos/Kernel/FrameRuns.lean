import Xasmos.Kernel.Boot

/-!
# Reservations and runs of the frame allocator

`phys_reserve_range` rounds the first frame down and the number of frames up, each on its own.
For a range that starts inside a frame the two roundings can leave out the last frame the range
touches.  `reserve_covers_iff` says when that frame is free after the call, and after the start
of the kernel when a frame of the framebuffer can be handed out.

`FrameRun` adds the reservations to the runs of the allocator, and keeps every range that was
ever returned, so a range may be freed more than once.  In every state of a run the counters
count the bits and both allocations are first fit (`FrameRun.allocLaw`).

## Main definitions

* `Touches`, `ReachesLast`, `Reserved` — what a range touches, what a reservation reaches, and what
  it should do.
* `FrameRun`, `AllocLaw`.
-/

namespace Xasmos.Kernel

open Bytes

variable {R : ℕ → Prop} {a addr g hi lo n size : ℕ} {out : ℕ × PhysBitmap} {p p₀ q : PhysBitmap}

/-! ## Reservations -/

/-- Frame `g` has a byte of the range. -/
def Touches (addr size g : ℕ) : Prop := addr < (g + 1) * frameSize ∧ g * frameSize < addr + size ∧
    size ≠ 0

/-- The last frame of the range. -/
def lastFrame (addr size : ℕ) : ℕ := (addr + size - 1) / frameSize

/-- The frames that are reserved reach the last frame of the range. -/
def ReachesLast (addr size : ℕ) : Prop :=
  size = 0 ∨ lastFrame addr size < addr / frameSize + (size + frameSize - 1) / frameSize

/-- No frame of the range is free any more, no other frame changed, and the counters still count
the bits. -/
structure Reserved (p : PhysBitmap) (addr size : ℕ) (q : PhysBitmap) : Prop where
  covered : ∀ g < p.totalFrames, Touches addr size g → q.isFree g = false
  others : ∀ g, ¬ Touches addr size g → q.isFree g = p.isFree g
  counted : Counted q

section Reserve

/-- The frames of a range are those from its first to its last. -/
theorem touches_iff :
    Touches addr size g ↔ size ≠ 0 ∧ addr / frameSize ≤ g ∧ g ≤ lastFrame addr size := by
  simp only [Touches, lastFrame, frameSize]
  omega

/-- Without wrapping, `phys_reserve_range` reserves the pages of the size, from the first frame
on. -/
theorem reserves_iff (hlt : addr + size < 2 ^ 64 - 4096) : Reserves addr size g ↔
    size ≠ 0 ∧ addr / frameSize ≤ g ∧
      g < addr / frameSize + (size + frameSize - 1) / frameSize := by
  have hpages : (size + frameSize - 1) % 2 ^ 64 = size + frameSize - 1 :=
    Nat.mod_eq_of_lt (by rw [frameSize]; omega)
  have hlast : (addr / frameSize + (size + frameSize - 1) / frameSize) % 2 ^ 64 =
      addr / frameSize + (size + frameSize - 1) / frameSize :=
      Nat.mod_eq_of_lt (by rw [frameSize]; omega)
  rw [Reserves, hpages, hlast]

/-- What is reserved is touched, and only the last frame may be left out. -/
theorem touches_of_reserves (hlt : addr + size < 2 ^ 64 - 4096) (h : Reserves addr size g) :
    Touches addr size g := by
  rw [reserves_iff hlt] at h
  rw [touches_iff]
  simp only [lastFrame, frameSize] at h ⊢
  omega

theorem reserves_or_last (hlt : addr + size < 2 ^ 64 - 4096) (h : Touches addr size g) :
    Reserves addr size g ∨ ¬ ReachesLast addr size ∧ g = lastFrame addr size := by
  rw [touches_iff] at h
  rw [reserves_iff hlt]
  simp only [ReachesLast, lastFrame, frameSize] at h ⊢
  omega

theorem not_reserves_last (hlt : addr + size < 2 ^ 64 - 4096) (hc : ¬ ReachesLast addr size) :
    Touches addr size (lastFrame addr size) ∧ ¬ Reserves addr size (lastFrame addr size) := by
  rw [touches_iff, reserves_iff hlt]
  simp only [ReachesLast, lastFrame, frameSize] at hc ⊢
  omega

theorem isFree_physReserveRange (h : Counted p) (hg : g < p.totalFrames) :
    (physReserveRange addr size p).isFree g = true ↔ p.isFree g = true ∧
      ¬ Reserves addr size g := by
  rw [physReserveRange, (markRangeUsed_spec h addr size).2.2, Bool.and_eq_true, Bool.not_eq_true',
    decide_eq_false_iff_not, Reserves]
  simp only [hg, and_true]

/-- A reservation reserves its whole range exactly if it reaches the last frame, or that frame
is not there to be handed out. -/
theorem reserved_iff (h : Counted p) (hlt : addr + size < 2 ^ 64 - 4096) :
    Reserved p addr size (physReserveRange addr size p) ↔
      ReachesLast addr size ∨ p.totalFrames ≤ lastFrame addr size ∨
        p.isFree (lastFrame addr size) = false := by
  obtain ⟨hcount, _, hbits⟩ := markRangeUsed_spec h addr size
  constructor
  · intro hr
    by_contra hno
    rw [not_or, not_or, Nat.not_le, Bool.not_eq_false] at hno
    obtain ⟨htouch, hres⟩ := not_reserves_last hlt hno.1
    have hfree := (isFree_physReserveRange h hno.2.1).mpr ⟨hno.2.2, hres⟩
    rw [hr.covered _ hno.2.1 htouch] at hfree
    cases hfree
  · intro hor
    refine ⟨fun g hg htouch => ?_, fun g hno => ?_, hcount⟩
    · rw [Bool.eq_false_iff, ne_eq, isFree_physReserveRange h hg]
      rintro ⟨hfree, hres⟩
      rcases reserves_or_last hlt htouch with hin | ⟨hc, rfl⟩
      · exact hres hin
      · rcases hor with h1 | h1 | h1
        · exact hc h1
        · omega
        · rw [h1] at hfree
          cases hfree
    · have hres : ¬ Reserves addr size g := fun hr => hno (touches_of_reserves hlt hr)
      rw [physReserveRange, hbits, decide_eq_false fun hr => hres ⟨hr.1, hr.2.1, hr.2.2.1⟩]
      simp

end Reserve

/-! ## The reservations of the start -/

/-- Frame `g` is touched by the first MiB or by the framebuffer. -/
def XeretHandoff.Kept (hand : XeretHandoff) (g : ℕ) : Prop :=
  Touches 0 0x100000 g ∨ hand.fb.base ≠ 0 ∧ hand.fb.height ≠ 0 ∧
    Touches hand.fb.base hand.fb.bytes g

section Start

variable {hand : XeretHandoff}

theorem touches_firstMiB (g : ℕ) : Touches 0 0x100000 g ↔ g < 256 := by
  simp only [Touches, frameSize]
  omega

/-- Frames are never handed out exactly if none of them is free at the start. -/
theorem neverHandedOut_iff_used (hinit : physInitFromHandoff hand = some p) (S : Set ℕ) :
    NeverHandedOut p S ↔ ∀ f ∈ S, p.isFree f = false := by
  obtain ⟨hc, hmax, hfree⟩ := physInitFromHandoff_spec hinit
  have h0 := physInitFromHandoff_zero hinit
  constructor
  · intro hnever f hf
    by_contra hno
    rw [Bool.not_eq_false] at hno
    obtain ⟨q, held, hrun, hmem⟩ := AllocRun.start.reaches h0 hmax hc hno ((hfree f).mp hno).1
    refine hnever q held hrun _ hmem f hf ?_
    rw [Nat.mul_div_cancel f (by decide)]
    omega
  · intro hall q held hrun r hr f hf hin
    obtain ⟨_, a, ha, _, hwas⟩ := (hrun.fromStart hc h0 hmax).held r hr
    rw [ha, Nat.mul_div_cancel a (by decide)] at hin
    have hff := hwas f hin.1 hin.2
    rw [hall f hf] at hff
    cases hff

/-- The memory map gives frame `g` to the allocator. -/
def XeretHandoff.Freed (hand : XeretHandoff) (g : ℕ) : Prop := ∃ i < hand.descCount,
    (hand.desc i).Frees g

/-- The last frame of the framebuffer is not free after the start. -/
def XeretHandoff.FbSafe (hand : XeretHandoff) (frames : ℕ) : Prop :=
  hand.fb.base = 0 ∨ hand.fb.height = 0 ∨ ReachesLast hand.fb.base hand.fb.bytes ∨
    lastFrame hand.fb.base hand.fb.bytes < 256 ∨ frames ≤ lastFrame hand.fb.base hand.fb.bytes ∨
    ¬ hand.Freed (lastFrame hand.fb.base hand.fb.bytes)

theorem kept_used_iff (hinit : physInitFromHandoff hand = some p)
    (hlt : hand.fb.base + hand.fb.bytes < 2 ^ 64 - 4096) :
    (∀ g, hand.Kept g → p.isFree g = false) ↔ hand.FbSafe p.totalFrames := by
  obtain ⟨_, _, hfree⟩ := physInitFromHandoff_spec hinit
  constructor
  · intro hall
    by_contra hno
    simp only [XeretHandoff.FbSafe, not_or, Nat.not_le, Nat.not_lt, not_not] at hno
    obtain ⟨hbase, hheight, hcov, hlow, hin, hfreed⟩ := hno
    obtain ⟨htouch, hres⟩ := not_reserves_last hlt hcov
    have hff := (hfree _).mpr ⟨hin, hfreed, fun hr => by
      rcases hr with h1 | ⟨_, _, h1⟩
      · omega
      · exact hres h1⟩
    rw [hall _ (Or.inr ⟨hbase, hheight, htouch⟩)] at hff
    cases hff
  · intro hsafe g hkept
    rw [Bool.eq_false_iff, ne_eq, hfree]
    rintro ⟨hin, hfreed, hres⟩
    apply hres
    rcases hkept with h1 | ⟨hbase, hheight, htouch⟩
    · exact Or.inl ((touches_firstMiB g).mp h1)
    rcases reserves_or_last hlt htouch with h1 | ⟨hcov, rfl⟩
    · exact Or.inr ⟨hbase, hheight, h1⟩
    · rcases hsafe with h1 | h1 | h1 | h1 | h1 | h1
      · exact absurd h1 hbase
      · exact absurd h1 hheight
      · exact absurd h1 hcov
      · exact Or.inl h1
      · omega
      · exact absurd hfreed h1

/-- **When a reservation reserves its range**: exactly if the frames it counts reach the last
frame, or that frame is not managed, or was not free.  After the start the frames of the first
MiB and of the framebuffer are never handed out exactly if that holds of the framebuffer. -/
theorem reserve_covers_iff {p : PhysBitmap} {addr size : ℕ} (hc : Counted p)
    (hlt : addr + size < 2 ^ 64 - 4096) :
    (Reserved p addr size (physReserveRange addr size p) ↔
      ReachesLast addr size ∨ p.totalFrames ≤ lastFrame addr size ∨
        p.isFree (lastFrame addr size) = false) ∧
    ∀ (hand : XeretHandoff) (q : PhysBitmap), physInitFromHandoff hand = some q →
      hand.fb.base + hand.fb.bytes < 2 ^ 64 - 4096 →
      (NeverHandedOut q {g | hand.Kept g} ↔ hand.FbSafe q.totalFrames) := by
  refine ⟨reserved_iff hc hlt, fun hand q hinit hfb => ?_⟩
  rw [neverHandedOut_iff_used hinit, ← kept_used_iff hinit hfb]
  rfl

/-- Two frames of memory, both free. -/
def twoFrames : PhysBitmap := ⟨2, 2, 0, fun _ => 3⟩

theorem counted_twoFrames : Counted twoFrames := ⟨by decide, rfl⟩

/-- A range that starts on a frame is reserved. -/
theorem reserve_covers_aligned :
    Reserved twoFrames 4096 4096 (physReserveRange 4096 4096 twoFrames) :=
  (reserve_covers_iff counted_twoFrames (by decide)).1.mpr (Or.inl (Or.inr (by decide)))

/-- A range of one frame's size from the middle of frame 0 touches frame 1, which stays free. -/
theorem reserve_misses_last : Counted twoFrames ∧ Touches 2048 4096 1 ∧ 1 < twoFrames.totalFrames ∧
    (physReserveRange 2048 4096 twoFrames).isFree 1 = true := by
  refine ⟨counted_twoFrames, by simp only [Touches, frameSize]; decide, by decide, by decide⟩

end Start

/-! ## Runs -/

/-- The states reached from `p₀` by allocations, reservations and frees, each with the ranges that
an allocation ever returned. -/
inductive FrameRun (p₀ : PhysBitmap) : PhysBitmap → List (ℕ × ℕ) → Prop where
  | start : FrameRun p₀ p₀ []
  | allocFrames {p : PhysBitmap} {ranges : List (ℕ × ℕ)} (n : ℕ) (h : FrameRun p₀ p ranges) :
      FrameRun p₀ (physAllocFrames n p).2 (returned (physAllocFrames n p).1 n ranges)
  | allocHuge {p : PhysBitmap} {ranges : List (ℕ × ℕ)} (h : FrameRun p₀ p ranges) :
      FrameRun p₀ (physAllocHuge p).2 (returned (physAllocHuge p).1 framesPerHuge ranges)
  | freeFrames {p : PhysBitmap} {ranges : List (ℕ × ℕ)} {addr n : ℕ} (h : FrameRun p₀ p ranges)
      (hmem : (addr, n) ∈ ranges) : FrameRun p₀ (physFreeFrames addr n p) ranges
  | reserve {p : PhysBitmap} {ranges : List (ℕ × ℕ)} (addr size : ℕ) (h : FrameRun p₀ p ranges) :
      FrameRun p₀ (physReserveRange addr size p) ranges

/-- The answer of an allocation of `n` frames among the runs `R`: 0 if there is none and then
nothing changed, or else the lowest one, which was free and is taken. -/
structure FirstFit (p : PhysBitmap) (n : ℕ) (R : ℕ → Prop) (out : ℕ × PhysBitmap) : Prop where
  zero_iff : out.1 = 0 ↔ ∀ a, ¬ R a
  unchanged : out.1 = 0 → out.2 = p
  lowest : out.1 ≠ 0 → ∃ a, out.1 = a * frameSize ∧ R a ∧ (∀ b, R b → a ≤ b) ∧ TookRun p a n out.2

/-- What holds in a state with the ranges that were returned so far. -/
structure AllocLaw (p : PhysBitmap) (ranges : List (ℕ × ℕ)) : Prop where
  counted : Counted p
  frames : ∀ n, 1 ≤ n → FirstFit p n (FreeRun p n) (physAllocFrames n p)
  huge : FirstFit p framesPerHuge (FreeHuge p) (physAllocHuge p)
  free : ∀ a n, (a * frameSize, n) ∈ ranges → GaveRun p a n (physFreeFrames (a * frameSize) n p)
  twice : ∀ a n, (a * frameSize, n) ∈ ranges → (∀ f, a ≤ f → f < a + n → p.isFree f = true) →
    physFreeFrames (a * frameSize) n p = p
  ranges : ∀ r ∈ ranges, ∃ a, r.1 = a * frameSize ∧ 0 < r.2 ∧ a + r.2 ≤ p.totalFrames

/-- What a run keeps: the counters count the bits, frame 0 is not free, and the ranges that were
returned lie in memory after frame 0. -/
structure FrameInv (p₀ p : PhysBitmap) (ranges : List (ℕ × ℕ)) : Prop where
  counted : Counted p
  total : p.totalFrames = p₀.totalFrames
  zero : p.isFree 0 = false
  ranges : ∀ r ∈ ranges, ∃ a, 0 < a ∧ r.1 = a * frameSize ∧ 0 < r.2 ∧ a + r.2 ≤ p₀.totalFrames

section Runs

variable {ranges : List (ℕ × ℕ)}

/-- The two outcomes of an allocation are a first fit. -/
theorem FirstFit.of_cases
    (h : (out.1 = 0 ∧ out.2 = p ∧ ∀ a, ¬ R a) ∨
      ∃ a, 0 < a ∧ out.1 = a * frameSize ∧ R a ∧ TookRun p a n out.2 ∧ ∀ b, R b → a ≤ b) :
    FirstFit p n R out := by
  rcases h with ⟨h1, h2, h3⟩ | ⟨a, ha, h1, hR, h2, h3⟩
  · exact ⟨⟨fun _ => h3, fun _ => h1⟩, fun _ => h2, fun hne => absurd h1 hne⟩
  · have hne : out.1 ≠ 0 := by
      rw [h1]
      exact Nat.mul_ne_zero (by omega) (by decide)
    exact ⟨⟨fun h0 => absurd h0 hne, fun hno => absurd hR (hno a)⟩, fun h0 => absurd h0 hne,
      fun _ => ⟨a, h1, hR, h3, h2⟩⟩

theorem Counted.firstFit_frames (h : Counted p) (h0 : p.isFree 0 = false) (hn : 0 < n) :
    FirstFit p n (FreeRun p n) (physAllocFrames n p) := by
  apply FirstFit.of_cases
  rcases physAllocFrames_spec h h0 hn with h1 | ⟨a, ha, h1, h2, h3⟩
  · exact Or.inl h1
  · exact Or.inr ⟨a, ha, h1, h2.run, h2, h3⟩

theorem Counted.firstFit_huge (h : Counted p) (h0 : p.isFree 0 = false) :
    FirstFit p framesPerHuge (FreeHuge p) (physAllocHuge p) := by
  apply FirstFit.of_cases
  rcases physAllocHuge_spec h h0 with h1 | ⟨a, ha, h1, hmod, h2, h3⟩
  · exact Or.inl h1
  · exact Or.inr ⟨a, ha, h1, ⟨hmod, h2.run⟩, h2, h3⟩

/-- An allocation that is a first fit keeps the invariant. -/
theorem FrameInv.allocated (h : FrameInv p₀ p ranges) (hn : 0 < n) (hfit : FirstFit p n R out) :
    FrameInv p₀ out.2 (returned out.1 n ranges) := by
  by_cases h0 : out.1 = 0
  · rw [hfit.unchanged h0, returned, if_pos h0]
    exact h
  · obtain ⟨a, ha, _, _, htook⟩ := hfit.lowest h0
    have hpos : 0 < a := by
      by_contra hz
      have ha0 : a = 0 := by omega
      rw [ha0] at ha
      exact h0 (by rw [ha, Nat.zero_mul])
    rw [returned, if_neg h0]
    refine ⟨htook.counted, htook.total.trans h.total, ?_, fun r hr => ?_⟩
    · rw [htook.isFree, h.zero, Bool.false_and]
    · rcases List.mem_cons.mp hr with rfl | hr
      · exact ⟨a, hpos, ha, hn, h.total ▸ htook.run.1⟩
      · exact h.ranges r hr

theorem FrameInv.gave (h : FrameInv p₀ p ranges) (hmax : p₀.totalFrames ≤ bitmapMaxFrames)
    (hmem : (a * frameSize, n) ∈ ranges) : GaveRun p a n (physFreeFrames (a * frameSize) n p) := by
  obtain ⟨b, _, hb, hn, hle⟩ := h.ranges _ hmem
  have hab : a = b := Nat.eq_of_mul_eq_mul_right (by decide) hb
  subst hab
  have hlt : p.totalFrames < 2 ^ 64 := by
    have h1 := h.total
    rw [bitmapMaxFrames] at hmax
    omega
  exact physFreeFrames_spec h.counted hn (h.total ▸ hle) hlt

/-- Frames that are free are left alone. -/
theorem loop_freeFrame_of_free (h : ∀ f, lo ≤ f → f < hi → p.isFree f = true) :
    loop lo hi freeFrame p = p := by
  rcases Nat.le_total hi lo with hn | hn
  · exact loop_of_le _ _ hn
  · refine loop_induct (fun _ q => q = p) hn rfl ?_
    rintro k q h1 h2 rfl
    rw [freeFrame, if_pos (h k h1 h2)]

/-- Freeing a range whose frames are free changes nothing. -/
theorem physFreeFrames_of_free (hlt : a + n < 2 ^ 64)
    (h : ∀ f, a ≤ f → f < a + n → p.isFree f = true) : physFreeFrames (a * frameSize) n p = p := by
  rw [physFreeFrames, and_frameMask, shiftRight_frameShift, Nat.mul_mod_left,
    Nat.mul_div_cancel _ (by decide)]
  split
  · rfl
  · simp only [Nat.mod_eq_of_lt hlt]
    split
    · rfl
    · exact loop_freeFrame_of_free h

/-- One step keeps the invariant, whichever it is. -/
theorem FrameRun.inv (hc : Counted p₀) (h0 : p₀.isFree 0 = false)
    (hmax : p₀.totalFrames ≤ bitmapMaxFrames) (h : FrameRun p₀ p ranges) :
    FrameInv p₀ p ranges := by
  induction h with
  | start => exact ⟨hc, rfl, h0, by simp⟩
  | @allocFrames p ranges n _ ih =>
    by_cases hn : n = 0
    · simpa [physAllocFrames, hn, returned] using ih
    · exact ih.allocated (Nat.pos_of_ne_zero hn)
        (ih.counted.firstFit_frames ih.zero (Nat.pos_of_ne_zero hn))
  | allocHuge _ ih => exact ih.allocated (by decide) (ih.counted.firstFit_huge ih.zero)
  | @freeFrames p ranges addr n _ hmem ih =>
    obtain ⟨a, ha, haddr, _, _⟩ := ih.ranges _ hmem
    simp only at haddr
    subst haddr
    have hg := ih.gave hmax hmem
    refine ⟨hg.counted, hg.total.trans ih.total, ?_, ih.ranges⟩
    rw [hg.isFree, ih.zero, Bool.false_or, decide_eq_false_iff_not]
    omega
  | @reserve p ranges addr size _ ih =>
    obtain ⟨h1, h2, h3⟩ := markRangeUsed_spec ih.counted addr size
    refine ⟨h1, h2.trans ih.total, ?_, ih.ranges⟩
    rw [physReserveRange, h3, ih.zero, Bool.false_and]

/-- **Frame allocation is sound and complete** in every state reached from the start. -/
theorem FrameRun.allocLaw (hand : XeretHandoff) (p₀ p : PhysBitmap) (ranges : List (ℕ × ℕ))
    (hinit : physInitFromHandoff hand = some p₀) (h : FrameRun p₀ p ranges) :
    AllocLaw p ranges := by
  obtain ⟨hc, hmax, _⟩ := physInitFromHandoff_spec hinit
  have hinv := h.inv hc (physInitFromHandoff_zero hinit) hmax
  refine ⟨hinv.counted, fun n hn => hinv.counted.firstFit_frames hinv.zero hn,
    hinv.counted.firstFit_huge hinv.zero,
    fun a n hmem => hinv.gave hmax hmem, fun a n hmem hfree => ?_, fun r hr => ?_⟩
  · obtain ⟨b, _, hb, _, hle⟩ := hinv.ranges _ hmem
    have hab : a = b := Nat.eq_of_mul_eq_mul_right (by decide) hb
    subst hab
    rw [bitmapMaxFrames] at hmax
    exact physFreeFrames_of_free (by simp only at hle; omega) hfree
  · obtain ⟨a, _, ha, hn, hle⟩ := hinv.ranges r hr
    exact ⟨a, ha, hn, hinv.total ▸ hle⟩

/-- The law after an allocation, a free and a reservation on a machine of 272 frames. -/
theorem FrameRun.allocLaw_image : ∃ p₀, physInitFromHandoff (imageHandoff 0x100000) = some p₀ ∧
    ∃ p, FrameRun p₀ p [(0x100000, 2)] ∧ AllocLaw p [(0x100000, 2)] := by
  obtain ⟨p₀, hp⟩ : ∃ p, physInitFromHandoff (imageHandoff 0x100000) = some p := ⟨_, rfl⟩
  have hfirst : (physInitFromHandoff (imageHandoff 0x100000)).map
      (fun p => (physAllocFrames 2 p).1) = some 0x100000 := by
    decide +kernel
  rw [hp, Option.map_some] at hfirst
  have hrun := (FrameRun.start : FrameRun p₀ p₀ []).allocFrames 2
  rw [Option.some.inj hfirst, returned, if_neg (by decide)] at hrun
  have hend := (hrun.freeFrames List.mem_cons_self).reserve 0x100800 4096
  exact ⟨p₀, hp, _, hend, FrameRun.allocLaw _ _ _ _ hp hend⟩

end Runs

end Xasmos.Kernel
