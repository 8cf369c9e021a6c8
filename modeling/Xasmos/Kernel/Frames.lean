import Xasmos.Lib.Bits
import Xasmos.Lib.Loop
import Xasmos.Lib.Sums

/-!
# Physical frames

The frame allocator keeps one bit for each 4 KiB frame of memory, set when the frame is
free, and two counters.  `physAllocFrames` is first fit over single frames,
`physAllocHuge` is first fit over the 2 MiB blocks.

`Counted` says that the counters count the bits.  The specifications below say which run
an allocation returns (`physAllocFrames_spec`, `physAllocHuge_spec`) and what is free
afterwards (`isFree_clearRun`, `physFreeFrames_spec`, `markRangeUsed_spec`).
-/

namespace Xasmos.Kernel

open Bytes

variable {a f g hi lo n : ℕ}

/-- log₂ of the size of a frame. -/
def frameShift : ℕ := 12

/-- The size of a frame. -/
def frameSize : ℕ := 4096

/-- Frames of a 2 MiB block. -/
def framesPerHuge : ℕ := 512

/-- Frames the bitmap has room for: 128 GiB. -/
def bitmapMaxFrames : ℕ := 33554432

/-- The frame bitmap. -/
structure PhysBitmap where
  totalFrames : ℕ
  freeFrames : ℕ
  usedFrames : ℕ
  /-- One bit for each frame, set if it is free. -/
  bits : Bytes

variable {p q : PhysBitmap}

/-- `bit_test` -/
def PhysBitmap.isFree (p : PhysBitmap) (f : ℕ) : Bool := bitOf p.bits f

/-! ## The allocator -/

/-- One turn of the loops that free frames. -/
def freeFrame (f : ℕ) (p : PhysBitmap) : PhysBitmap :=
  if p.isFree f then p
  else { p with
    bits := bitPut p.bits f true, freeFrames := p.freeFrames + 1
    usedFrames := if 0 < p.usedFrames then p.usedFrames - 1 else p.usedFrames }

/-- One turn of the loop that reserves frames. -/
def useFrame (f : ℕ) (p : PhysBitmap) : PhysBitmap :=
  if p.isFree f then { p with
    bits := bitPut p.bits f false, usedFrames := p.usedFrames + 1
    freeFrames := if 0 < p.freeFrames then p.freeFrames - 1 else p.freeFrames }
  else p

def markRangeFree (start pages : ℕ) (p : PhysBitmap) : PhysBitmap :=
  if pages = 0 then p
  else
    let f := start >>> frameShift
    let last := (f + pages) % 2 ^ 64
    loop f (if p.totalFrames < last then p.totalFrames else last) freeFrame p

def markRangeUsed (start bytes : ℕ) (p : PhysBitmap) : PhysBitmap :=
  if bytes = 0 then p
  else
    let f := start >>> frameShift
    let pages := ((bytes + frameSize - 1) % 2 ^ 64) >>> frameShift
    let last := (f + pages) % 2 ^ 64
    loop f (if p.totalFrames < last then p.totalFrames else last) useFrame p

/-- `phys_reserve_range` -/
def physReserveRange (addr size : ℕ) (p : PhysBitmap) : PhysBitmap := markRangeUsed addr size p

/-- The frames `start`, …, `start + n - 1` are taken. -/
def clearRun (start n : ℕ) (p : PhysBitmap) : PhysBitmap :=
  { p with
    bits := loop start (start + n) (fun i b => bitPut b i false) p.bits
    freeFrames := p.freeFrames - n, usedFrames := p.usedFrames + n }

/-- The scan of `phys_alloc_frames` for `n` frames, at frame `f` with `k` frames left, when the
last `run` frames, from `start` on, were free. -/
def scanFrames (p : PhysBitmap) (n : ℕ) : ℕ → ℕ → ℕ → ℕ → Option ℕ
  | 0, _, _, _ => none
  | k + 1, f, start, run =>
    if p.isFree f then
      let start := if run = 0 then f else start
      if run + 1 = n then some start else scanFrames p n k (f + 1) start (run + 1)
    else scanFrames p n k (f + 1) start 0

/-- `phys_alloc_frames`; the address 0 is the failure. -/
def physAllocFrames (n : ℕ) (p : PhysBitmap) : ℕ × PhysBitmap :=
  if n = 0 then (0, p)
  else if p.freeFrames < n then (0, p)
  else
    match scanFrames p n p.totalFrames 0 0 0 with
    | none => (0, p)
    | some start => (start <<< frameShift, clearRun start n p)

/-- `phys_free_frames` -/
def physFreeFrames (addr n : ℕ) (p : PhysBitmap) : PhysBitmap :=
  if n = 0 ∨ addr &&& (frameSize - 1) ≠ 0 then p
  else
    let f := addr >>> frameShift
    if p.totalFrames < (f + n) % 2 ^ 64 then p else loop f ((f + n) % 2 ^ 64) freeFrame p

/-- The scan of `phys_alloc_huge` at frame `f`; the loop counter only grows, so `totalFrames`
turns are enough. -/
def scanHuge (p : PhysBitmap) : ℕ → ℕ → ℕ → ℕ → Option ℕ
  | 0, _, _, _ => none
  | k + 1, f, run, start =>
    if p.totalFrames ≤ f then none
    else
      let run := if f &&& (framesPerHuge - 1) = 0 then 0 else run
      let start := if f &&& (framesPerHuge - 1) = 0 then f else start
      if p.isFree f then
        if run + 1 = framesPerHuge then some start else scanHuge p k (f + 1) (run + 1) start
      else
        let f := if f &&& (framesPerHuge - 1) ≠ framesPerHuge - 1 then
          f ||| (framesPerHuge - 1) else f
        scanHuge p k (f + 1) 0 start

/-- `phys_alloc_huge` -/
def physAllocHuge (p : PhysBitmap) : ℕ × PhysBitmap :=
  match scanHuge p p.totalFrames 0 0 0 with
  | none => (0, p)
  | some start => (start <<< frameShift, clearRun start framesPerHuge p)

/-! ## What is free -/

/-- The counters count the bits. -/
structure Counted (p : PhysBitmap) : Prop where
  free_eq : p.freeFrames = Nat.count (fun f => p.isFree f = true) p.totalFrames
  add_eq : p.freeFrames + p.usedFrames = p.totalFrames

/-- The frames `a`, …, `a + n - 1` exist and are free. -/
def FreeRun (p : PhysBitmap) (n a : ℕ) : Prop :=
  a + n ≤ p.totalFrames ∧ ∀ f, a ≤ f → f < a + n → p.isFree f = true

section Loops

@[simp] theorem totalFrames_freeFrame : (freeFrame f p).totalFrames = p.totalFrames := by
  unfold freeFrame; split <;> rfl

@[simp] theorem totalFrames_useFrame : (useFrame f p).totalFrames = p.totalFrames := by
  unfold useFrame; split <;> rfl

theorem totalFrames_physAllocFrames (n : ℕ) (p : PhysBitmap) :
    (physAllocFrames n p).2.totalFrames = p.totalFrames := by
  unfold physAllocFrames
  split_ifs
  · rfl
  · rfl
  · cases scanFrames p n p.totalFrames 0 0 0 <;> rfl

theorem totalFrames_physFreeFrames (addr n : ℕ) (p : PhysBitmap) :
    (physFreeFrames addr n p).totalFrames = p.totalFrames := by
  unfold physFreeFrames
  split_ifs
  · rfl
  · simp only
    split_ifs
    · rfl
    · exact loop_keeps (fun q : PhysBitmap => q.totalFrames = p.totalFrames) rfl
        fun _ _ h => by rw [totalFrames_freeFrame, h]

theorem isFree_freeFrame : (freeFrame f p).isFree g = (p.isFree g || decide (g = f)) := by
  by_cases hf : p.isFree f = true
  · rw [freeFrame, if_pos hf]
    by_cases hg : g = f <;> simp [hg, hf]
  · rw [freeFrame, if_neg hf]
    by_cases hg : g = f <;> simp [PhysBitmap.isFree, bitOf_bitPut, hg]

theorem isFree_useFrame : (useFrame f p).isFree g = (p.isFree g && !decide (g = f)) := by
  by_cases hf : p.isFree f = true
  · rw [useFrame, if_pos hf]
    by_cases hg : g = f <;> simp [PhysBitmap.isFree, bitOf_bitPut, hg]
  · rw [useFrame, if_neg hf]
    by_cases hg : g = f <;> simp [hg, hf]

theorem Counted.freeFrame (h : Counted p) (hf : f < p.totalFrames) : Counted (freeFrame f p) := by
  by_cases hfree : p.isFree f = true
  · rwa [Kernel.freeFrame, if_pos hfree]
  -- the frame that becomes free is the difference of the two counts
  have hcount := count_add_length (p := fun g => p.isFree g = true)
    (q := fun g => (Kernel.freeFrame f p).isFree g = true)
    (n := p.totalFrames) (List.nodup_singleton f) (by simp [hf, isFree_freeFrame])
    (fun g _ => by by_cases hg : g = f <;> simp [isFree_freeFrame, hg, hfree])
  have hle := Nat.count_le (p := fun g => (Kernel.freeFrame f p).isFree g = true)
    (n := p.totalFrames)
  rw [List.length_singleton] at hcount
  have hused : 0 < p.usedFrames := by
    have h1 := h.free_eq
    have h2 := h.add_eq
    omega
  constructor
  · rw [totalFrames_freeFrame, ← hcount, ← h.free_eq, Kernel.freeFrame, if_neg hfree]
  · rw [totalFrames_freeFrame, ← h.add_eq]
    simp only [Kernel.freeFrame, if_neg hfree, if_pos hused]
    omega

theorem Counted.useFrame (h : Counted p) (hf : f < p.totalFrames) : Counted (useFrame f p) := by
  by_cases hfree : p.isFree f = true
  · have hcount := count_add_length (p := fun g => (Kernel.useFrame f p).isFree g = true)
      (q := fun g => p.isFree g = true)
      (n := p.totalFrames) (List.nodup_singleton f) (by simp [hf, hfree])
      (fun g _ => by simp [isFree_useFrame])
    rw [List.length_singleton, ← h.free_eq] at hcount
    have hpos : 0 < p.freeFrames := by omega
    constructor
    · have hfew : (Kernel.useFrame f p).freeFrames = p.freeFrames - 1 := by
        simp [Kernel.useFrame, hfree, hpos]
      rw [totalFrames_useFrame, hfew]
      omega
    · rw [totalFrames_useFrame, ← h.add_eq]
      simp only [Kernel.useFrame, if_pos hfree, if_pos hpos]
      omega
  · rwa [Kernel.useFrame, if_neg hfree]

/-- What a loop of `freeFrame` leaves. -/
theorem loop_freeFrame (h : Counted p) (hle : hi ≤ p.totalFrames) :
    Counted (loop lo hi freeFrame p) ∧ (loop lo hi freeFrame p).totalFrames = p.totalFrames ∧
      ∀ g, (loop lo hi freeFrame p).isFree g = (p.isFree g || decide (lo ≤ g ∧ g < hi)) := by
  rcases Nat.le_total hi lo with hn | hn
  · rw [loop_of_le _ _ hn]
    refine ⟨h, rfl, fun g => ?_⟩
    have hno : ¬ (lo ≤ g ∧ g < hi) := by omega
    simp [hno]
  · refine loop_induct (fun k q => Counted q ∧ q.totalFrames = p.totalFrames ∧
      ∀ g, q.isFree g = (p.isFree g || decide (lo ≤ g ∧ g < k))) hn ⟨h, rfl, fun g => ?_⟩
        fun k q hk1 hk2 hq => ?_
    · have hno : ¬ (lo ≤ g ∧ g < lo) := by omega
      simp [hno]
    · obtain ⟨hc, ht, hb⟩ := hq
      refine ⟨hc.freeFrame (by omega), by rw [totalFrames_freeFrame, ht], fun g => ?_⟩
      rw [isFree_freeFrame, hb, Bool.or_assoc, ← Bool.decide_or]
      congr 2
      exact propext (by omega)

/-- What a loop of `useFrame` leaves. -/
theorem loop_useFrame (h : Counted p) (hle : hi ≤ p.totalFrames) :
    Counted (loop lo hi useFrame p) ∧ (loop lo hi useFrame p).totalFrames = p.totalFrames ∧
      ∀ g, (loop lo hi useFrame p).isFree g = (p.isFree g && !decide (lo ≤ g ∧ g < hi)) := by
  rcases Nat.le_total hi lo with hn | hn
  · rw [loop_of_le _ _ hn]
    refine ⟨h, rfl, fun g => ?_⟩
    have hno : ¬ (lo ≤ g ∧ g < hi) := by omega
    simp [hno]
  · refine loop_induct (fun k q => Counted q ∧ q.totalFrames = p.totalFrames ∧
      ∀ g, q.isFree g = (p.isFree g && !decide (lo ≤ g ∧ g < k))) hn ⟨h, rfl, fun g => ?_⟩
        fun k q hk1 hk2 hq => ?_
    · have hno : ¬ (lo ≤ g ∧ g < lo) := by omega
      simp [hno]
    · obtain ⟨hc, ht, hb⟩ := hq
      refine ⟨hc.useFrame (by omega), by rw [totalFrames_useFrame, ht], fun g => ?_⟩
      rw [isFree_useFrame, hb, Bool.and_assoc, ← Bool.not_or, ← Bool.decide_or]
      congr 3
      exact propext (by omega)

/-- The frames of a run that is taken are used; the others are as before. -/
theorem isFree_clearRun (start n : ℕ) (p : PhysBitmap) :
    (clearRun start n p).isFree g = (p.isFree g && !decide (start ≤ g ∧ g < start + n)) := by
  have h := loop_induct (s := p.bits) (f := fun i b => bitPut b i false)
    (fun k b => bitOf b g = (p.isFree g && !decide (start ≤ g ∧ g < k))) (Nat.le_add_right start n)
    (by
      have hno : ¬ (start ≤ g ∧ g < start) := by omega
      simp [hno, PhysBitmap.isFree])
    (fun k b hk1 hk2 hb => by
      rw [bitOf_bitPut, hb]
      by_cases hg : g = k
      · simp [hg, hk1]
      · have hiff : g < k + 1 ↔ g < k := by omega
        simp [hg, hiff])
  exact h

theorem Counted.count_clearRun (h : Counted p) (hrun : FreeRun p n f) :
    Nat.count (fun g => (Kernel.clearRun f n p).isFree g = true) p.totalFrames + n =
      p.freeFrames := by
  have hcount := count_add_length (p := fun g => (Kernel.clearRun f n p).isFree g = true)
    (q := fun g => p.isFree g = true)
    (n := p.totalFrames) (X := List.range' f n) List.nodup_range'
    (fun g hg => by
      obtain ⟨h1, h2⟩ := List.mem_range'_1.mp hg
      exact ⟨by have := hrun.1; omega, hrun.2 g h1 h2⟩)
    (fun g _ => by
      rw [isFree_clearRun, List.mem_range'_1, Bool.and_eq_true, Bool.not_eq_true',
        decide_eq_false_iff_not])
  rwa [List.length_range', ← h.free_eq] at hcount

/-- A run of free frames is at most as long as the number of free frames. -/
theorem Counted.le_freeFrames (h : Counted p) (hrun : FreeRun p n f) : n ≤ p.freeFrames := by
  have hcount := h.count_clearRun hrun
  omega

theorem Counted.clearRun (h : Counted p) (hrun : FreeRun p n f) : Counted (clearRun f n p) := by
  have hcount := h.count_clearRun hrun
  have hadd := h.add_eq
  constructor
  · simp only [Kernel.clearRun] at hcount ⊢
    omega
  · simp only [Kernel.clearRun]
    omega

end Loops

/-! ## The scans -/

section Scans

/-- The answer of a scan is the lowest run that qualifies. -/
def Lowest (R : ℕ → Prop) : Option ℕ → Prop
  | none => ∀ a, ¬ R a
  | some a => R a ∧ ∀ b, R b → a ≤ b

/-- The scan for `n` frames: the last `run` frames are free, and no run starts before them. -/
theorem scanFrames_lowest (k f start run : ℕ) (hk : f + k = p.totalFrames) (hrun : run < n)
    (hle : run ≤ f) (hfree : ∀ j, f - run ≤ j → j < f → p.isFree j = true)
    (hstart : run ≠ 0 → start = f - run) (hno : ∀ a, FreeRun p n a → f - run ≤ a) :
    Lowest (FreeRun p n) (scanFrames p n k f start run) := by
  induction k generalizing f start run with
  | zero =>
    intro a ha
    have h1 := hno a ha
    have h2 := ha.1
    omega
  | succ k ih =>
    rw [scanFrames]
    by_cases hf : p.isFree f = true
    · rw [if_pos hf]
      have hs : (if run = 0 then f else start) = f - run := by
        by_cases h0 : run = 0
        · simp [h0]
        · rw [if_neg h0, hstart h0]
      have hfree' : ∀ j, f - run ≤ j → j < f + 1 → p.isFree j = true := by
        intro j h1 h2
        by_cases hj : j = f
        · rw [hj]; exact hf
        · exact hfree j h1 (by omega)
      simp only [hs]
      by_cases hn : run + 1 = n
      · rw [if_pos hn]
        refine ⟨⟨by omega, fun j h1 h2 => hfree' j h1 (by omega)⟩, hno⟩
      · rw [if_neg hn]
        have hsub : f + 1 - (run + 1) = f - run := by omega
        refine ih (f + 1) _ (run + 1) (by omega) (by omega) (by omega) ?_ (fun _ => hsub.symm) ?_
        · rw [hsub]; exact hfree'
        · rw [hsub]; exact hno
    · rw [if_neg hf]
      refine ih (f + 1) start 0 (by omega) (by omega) (Nat.zero_le _) (fun j h1 h2 => by omega)
        (fun h0 => absurd rfl h0) fun a ha => ?_
      -- a run from before `f` would hold `f`, which is used
      have h1 := hno a ha
      by_contra hlt
      exact hf (ha.2 f (by omega) (by omega))

theorem scanFrames_spec (hn : 0 < n) : Lowest (FreeRun p n) (scanFrames p n p.totalFrames 0 0 0) :=
  scanFrames_lowest _ 0 0 0 (Nat.zero_add _) hn (Nat.zero_le _) (fun j h1 h2 => by omega)
    (fun h0 => absurd rfl h0) fun a _ => Nat.zero_le a

/-- The 2 MiB block at frame `a` exists and is free. -/
def FreeHuge (p : PhysBitmap) (a : ℕ) : Prop := a % framesPerHuge = 0 ∧ FreeRun p framesPerHuge a

theorem and_hugeMask (f : ℕ) : f &&& (framesPerHuge - 1) = f % framesPerHuge :=
  Nat.and_two_pow_sub_one_eq_mod f 9

theorem or_hugeMask (f : ℕ) :
    f ||| (framesPerHuge - 1) = f - f % framesPerHuge + (framesPerHuge - 1) := by
  have h9 : framesPerHuge = 2 ^ 9 := rfl
  have hdiv := Nat.div_add_mod f (2 ^ 9)
  have hsplit : f - f % 2 ^ 9 = 2 ^ 9 * (f / 2 ^ 9) := by omega
  rw [h9, hsplit, Nat.two_pow_add_eq_or_of_lt (by decide)]
  apply Nat.eq_of_testBit_eq
  intro i
  rw [Nat.testBit_or, Nat.testBit_or, Nat.testBit_two_pow_mul, Nat.testBit_div_two_pow,
    Nat.testBit_two_pow_sub_one]
  by_cases hi : i < 9
  · simp [hi]
  · have hge : 9 ≤ i := by omega
    simp [hi, hge]

/-- The scan for a block: it is at the start of a block, or the block was free so far. -/
theorem scanHuge_lowest (k f run start : ℕ) (hk : p.totalFrames ≤ f + k)
    (hin : f % framesPerHuge ≠ 0 → run = f % framesPerHuge ∧ start = f - f % framesPerHuge ∧
      ∀ j, f - f % framesPerHuge ≤ j → j < f → p.isFree j = true)
    (hno : ∀ a, FreeHuge p a → f - f % framesPerHuge ≤ a) :
    Lowest (FreeHuge p) (scanHuge p k f run start) := by
  have h512 : framesPerHuge = 512 := rfl
  -- at the end of memory no block fits that was not seen
  have hend : p.totalFrames ≤ f → ∀ a, ¬ FreeHuge p a := by
    intro hf a ha
    have h1 := hno a ha
    have h2 := ha.2.1
    have h3 := ha.1
    rw [h512] at h1 h2 h3
    omega
  induction k generalizing f run start with
  | zero => exact hend (by omega)
  | succ k ih =>
    rw [scanHuge]
    by_cases hf : p.totalFrames ≤ f
    · rw [if_pos hf]; exact hend hf
    rw [if_neg hf]
    have hr : (if f &&& (framesPerHuge - 1) = 0 then 0 else run) = f % framesPerHuge := by
      rw [and_hugeMask]
      by_cases h0 : f % framesPerHuge = 0
      · simp [h0]
      · rw [if_neg h0, (hin h0).1]
    have hs : (if f &&& (framesPerHuge - 1) = 0 then f else start) = f - f % framesPerHuge := by
      rw [and_hugeMask]
      by_cases h0 : f % framesPerHuge = 0
      · simp [h0]
      · rw [if_neg h0, (hin h0).2.1]
    have hfree : ∀ j, f - f % framesPerHuge ≤ j → j < f → p.isFree j = true := by
      intro j h1 h2
      by_cases h0 : f % framesPerHuge = 0
      · omega
      · exact (hin h0).2.2 j h1 h2
    simp only [hr, hs]
    by_cases hfr : p.isFree f = true
    · rw [if_pos hfr]
      have hfree' : ∀ j, f - f % framesPerHuge ≤ j → j < f + 1 → p.isFree j = true := by
        intro j h1 h2
        by_cases hj : j = f
        · rw [hj]; exact hfr
        · exact hfree j h1 (by omega)
      by_cases hlast : f % framesPerHuge + 1 = framesPerHuge
      · rw [if_pos hlast]
        have hlt : f - f % framesPerHuge + framesPerHuge = f + 1 := by
          have hmod := Nat.mod_le f framesPerHuge
          omega
        refine ⟨⟨?_, ?_, fun j h1 h2 => hfree' j h1 (hlt ▸ h2)⟩, hno⟩
        · rw [h512]; omega
        · omega
      · rw [if_neg hlast]
        rw [h512] at hlast hfree' hno ⊢
        have hm : (f + 1) % 512 = f % 512 + 1 := by omega
        have hsub : f + 1 - (f + 1) % 512 = f - f % 512 := by omega
        refine ih (f + 1) _ _ (by omega) (fun _ => ?_) ?_ ?_
        · rw [h512, hsub]
          exact ⟨hm.symm, rfl, hfree'⟩
        · rw [h512, hsub]; exact hno
        · intro hge a ha
          have h1 := hno a ha
          have h2 := ha.2.1
          have h3 := ha.1
          rw [h512] at h2 h3
          omega
    · rw [if_neg hfr]
      have hjump : (if f &&& (framesPerHuge - 1) ≠ framesPerHuge - 1 then
          f ||| (framesPerHuge - 1) else f) + 1 = f - f % framesPerHuge + framesPerHuge := by
        rw [and_hugeMask, or_hugeMask, h512]
        split <;> omega
      rw [hjump]
      -- the block of `f` is not free, so the next candidate is the next block
      have hnext : ∀ a, FreeHuge p a → f - f % framesPerHuge + framesPerHuge ≤ a := by
        intro a ha
        have h1 := hno a ha
        have h3 := ha.1
        by_contra hlt
        have heq : a = f - f % framesPerHuge := by
          rw [h512] at h1 h3 hlt ⊢
          omega
        exact hfr (ha.2.2 f (by omega) (by rw [heq, h512]; omega))
      have hmod : (f - f % framesPerHuge + framesPerHuge) % framesPerHuge = 0 := by rw [h512]; omega
      refine ih _ _ _ (by rw [h512]; omega) (fun h0 => absurd hmod h0) ?_ ?_
      · rw [hmod]; exact hnext
      · intro hge a ha
        have h1 := hnext a ha
        have h2 := ha.2.1
        omega

theorem scanHuge_spec : Lowest (FreeHuge p) (scanHuge p p.totalFrames 0 0 0) :=
  scanHuge_lowest _ 0 0 0 (by omega) (fun h0 => absurd (Nat.zero_mod _) h0) fun a _ => Nat.zero_le a

end Scans

/-! ## Specifications -/

section Specs

/-- `q` is `p` with the run of `n` frames at `a` taken. -/
structure TookRun (p : PhysBitmap) (a n : ℕ) (q : PhysBitmap) : Prop where
  run : FreeRun p n a
  total : q.totalFrames = p.totalFrames
  isFree : ∀ g, q.isFree g = (p.isFree g && !decide (a ≤ g ∧ g < a + n))
  counted : Counted q

theorem Counted.took (h : Counted p) (hrun : FreeRun p n a) :
    TookRun p a n (Kernel.clearRun a n p) :=
  ⟨hrun, rfl, fun _ => isFree_clearRun a n p, h.clearRun hrun⟩

theorem TookRun.free_add (hp : Counted p) (h : TookRun p a n q) :
    q.freeFrames + n = p.freeFrames := by
  have hcount := hp.count_clearRun h.run
  simp only [isFree_clearRun] at hcount
  rw [h.counted.free_eq, h.total]
  simp only [h.isFree]
  exact hcount

/-- The counter is 0 if no frame is free. -/
theorem Counted.free_eq_zero (h : Counted p) (hno : ∀ a, ¬ FreeRun p 1 a) : p.freeFrames = 0 := by
  rw [h.free_eq, Nat.count_iff_forall_not]
  intro f hf hfree
  refine hno f ⟨by omega, fun g h1 h2 => ?_⟩
  have hg : g = f := by omega
  rwa [hg]

theorem shiftLeft_frameShift (a : ℕ) : a <<< frameShift = a * frameSize := Nat.shiftLeft_eq a 12

theorem shiftRight_frameShift (a : ℕ) :
    a >>> frameShift = a / frameSize := Nat.shiftRight_eq_div_pow a 12

theorem and_frameMask (a : ℕ) :
    a &&& (frameSize - 1) = a % frameSize := Nat.and_two_pow_sub_one_eq_mod a 12

/-- **`phys_alloc_frames` takes the lowest run of `n` free frames**, or fails if there is none. -/
theorem physAllocFrames_spec (h : Counted p) (h0 : p.isFree 0 = false) (hn : 0 < n) :
    ((physAllocFrames n p).1 = 0 ∧ (physAllocFrames n p).2 = p ∧ ∀ a, ¬ FreeRun p n a) ∨
      ∃ a, 0 < a ∧ (physAllocFrames n p).1 = a * frameSize ∧ TookRun p a n (physAllocFrames n p).2 ∧
        ∀ b, FreeRun p n b → a ≤ b := by
  rw [physAllocFrames, if_neg (by omega)]
  by_cases hfew : p.freeFrames < n
  · rw [if_pos hfew]
    refine Or.inl ⟨rfl, rfl, fun a ha => ?_⟩
    have hle := h.le_freeFrames ha
    omega
  rw [if_neg hfew]
  have hscan := scanFrames_spec (p := p) hn
  cases hs : scanFrames p n p.totalFrames 0 0 0 with
  | none =>
    rw [hs] at hscan
    exact Or.inl ⟨rfl, rfl, hscan⟩
  | some a =>
    rw [hs] at hscan
    obtain ⟨hrun, hlow⟩ := hscan
    refine Or.inr ⟨a, ?_, shiftLeft_frameShift a, h.took hrun, hlow⟩
    by_contra hz
    have ha : a = 0 := by omega
    have hfree := hrun.2 0 (by omega) (by omega)
    rw [h0] at hfree
    exact absurd hfree (by simp)

/-- **`phys_alloc_huge` takes the lowest free 2 MiB block**, or fails if there is none. -/
theorem physAllocHuge_spec (h : Counted p) (h0 : p.isFree 0 = false) :
    ((physAllocHuge p).1 = 0 ∧ (physAllocHuge p).2 = p ∧ ∀ a, ¬ FreeHuge p a) ∨
      ∃ a, 0 < a ∧ (physAllocHuge p).1 = a * frameSize ∧ a % framesPerHuge = 0 ∧
        TookRun p a framesPerHuge (physAllocHuge p).2 ∧ ∀ b, FreeHuge p b → a ≤ b := by
  have hscan := scanHuge_spec (p := p)
  unfold physAllocHuge
  cases hs : scanHuge p p.totalFrames 0 0 0 with
  | none =>
    rw [hs] at hscan
    exact Or.inl ⟨rfl, rfl, hscan⟩
  | some a =>
    rw [hs] at hscan
    obtain ⟨⟨hmod, hrun⟩, hlow⟩ := hscan
    refine Or.inr ⟨a, ?_, shiftLeft_frameShift a, hmod, h.took hrun, hlow⟩
    by_contra hz
    have ha : a = 0 := by omega
    have hfree := hrun.2 0 (by omega) (by rw [ha]; decide)
    rw [h0] at hfree
    exact absurd hfree (by simp)

/-- `q` is `p` with the frames `a`, …, `a + n - 1` free. -/
structure GaveRun (p : PhysBitmap) (a n : ℕ) (q : PhysBitmap) : Prop where
  total : q.totalFrames = p.totalFrames
  isFree : ∀ g, q.isFree g = (p.isFree g || decide (a ≤ g ∧ g < a + n))
  counted : Counted q

/-- **`phys_free_frames` frees the frames it names**, if they are frames of the memory. -/
theorem physFreeFrames_spec (h : Counted p) (hn : 0 < n) (hle : a + n ≤ p.totalFrames)
    (hmax : p.totalFrames < 2 ^ 64) : GaveRun p a n (physFreeFrames (a * frameSize) n p) := by
  have hpos : 0 < frameSize := by decide
  have hmod : (a + n) % 2 ^ 64 = a + n := Nat.mod_eq_of_lt (by omega)
  rw [physFreeFrames, and_frameMask, shiftRight_frameShift, Nat.mul_mod_left,
    Nat.mul_div_cancel _ hpos, if_neg (by omega)]
  simp only [hmod]
  rw [if_neg (by omega)]
  obtain ⟨h1, h2, h3⟩ := loop_freeFrame h hle
  exact ⟨h2, h3, h1⟩

/-- What `mark_range_free` frees. -/
theorem markRangeFree_spec (h : Counted p) (start pages : ℕ) :
    Counted (markRangeFree start pages p) ∧ (markRangeFree start pages p).totalFrames =
      p.totalFrames ∧
      ∀ g, (markRangeFree start pages p).isFree g = (p.isFree g ||
        decide (pages ≠ 0 ∧ start / frameSize ≤ g ∧ g < (start / frameSize + pages) % 2 ^ 64 ∧
            g < p.totalFrames)) := by
  unfold markRangeFree
  by_cases h0 : pages = 0
  · simp [h0, h]
  rw [if_neg h0]
  simp only [shiftRight_frameShift]
  generalize (start / frameSize + pages) % 2 ^ 64 = last
  generalize start / frameSize = first
  have hle : (if p.totalFrames < last then p.totalFrames else last) ≤ p.totalFrames := by
    split <;> omega
  obtain ⟨h1, h2, h3⟩ := loop_freeFrame h hle
  refine ⟨h1, h2, fun g => ?_⟩
  rw [h3]
  congr 2
  refine propext ?_
  split <;> omega

/-- What `mark_range_used` reserves. -/
theorem markRangeUsed_spec (h : Counted p) (start bytes : ℕ) :
    Counted (markRangeUsed start bytes p) ∧ (markRangeUsed start bytes p).totalFrames =
      p.totalFrames ∧
      ∀ g, (markRangeUsed start bytes p).isFree g = (p.isFree g &&
        !decide (bytes ≠ 0 ∧ start / frameSize ≤ g ∧
          g < (start / frameSize + (bytes + frameSize - 1) % 2 ^ 64 / frameSize) % 2 ^ 64 ∧
            g < p.totalFrames)) := by
  unfold markRangeUsed
  by_cases h0 : bytes = 0
  · simp [h0, h]
  rw [if_neg h0]
  simp only [shiftRight_frameShift]
  generalize (start / frameSize + (bytes + frameSize - 1) % 2 ^ 64 / frameSize) % 2 ^ 64 = last
  generalize start / frameSize = first
  have hle : (if p.totalFrames < last then p.totalFrames else last) ≤ p.totalFrames := by
    split <;> omega
  obtain ⟨h1, h2, h3⟩ := loop_useFrame h hle
  refine ⟨h1, h2, fun g => ?_⟩
  rw [h3]
  congr 3
  refine propext ?_
  split <;> omega

end Specs

end Xasmos.Kernel
