import Xasmos.Kernel.Identity

/-!
# The window for devices

`xpt_map_uncached` maps a range of a device at the next free address of the window, page by page,
and moves the next free address at the end.  It takes the frames of the tables it needs one at a
time and undoes nothing when there is none left.

If the tables of its first page cannot be had, or those of all its pages can, nothing is left
behind.  In between, the pages that were mapped stay at the next free address, and every later
call finds them there and fails (`MmioRun.law_iff`).

## Main definitions

* `windowAt` — the entry of a page of the window; `PagesMapped` — what the loop does.
* `lacking` — the tables that the next pages need; `RunsOut`.
* `MmioRun`, `MmioLaw`.
-/

namespace Xasmos.Kernel

open Radix Prog

variable {P P' : Finset (List ℕ)}
  {a c extraBase extraSize f i j k m n o p p' phys physEnd r size : ℕ} {s s' s'' t : Xeret}
  {π σ : List ℕ}

/-! ## Pages of the window -/

/-- The pages of the window. -/
def windowPages : ℕ := 2 ^ 27

/-- The path to the table with the page `p` of the window. -/
def windowPath (p : ℕ) : List ℕ := [xptMmioPml4, p / 262144, p / 512 % 512]

/-- The entry of the page `p` of the window. -/
def windowAt (s : Xeret) (r p : ℕ) : Option ℕ := leafAt s r (windowPath p) (p % 512)

/-- The entry that shows frame `f`. -/
def deviceEntry (f : ℕ) : ℕ := f * frameSize ||| uncachedFlags

section Pages

theorem kernelPath_page (hp : p < windowPages) : KernelPath (windowPath p) := by
  have h512 : xptEnts = 512 := rfl
  rw [windowPages] at hp
  refine ⟨fun i hi => ?_, fun i hi => ?_⟩
  · simp only [windowPath, List.mem_cons, List.not_mem_nil, or_false] at hi
    rcases hi with rfl | rfl | rfl
    · decide
    · omega
    · omega
  · simp only [windowPath, List.head?_cons, Option.some.injEq] at hi
    exact Or.inr ⟨hi.symm, by simp [windowPath]⟩

theorem lastLevel_page (p : ℕ) : LastLevel (windowPath p) := Or.inr ⟨rfl, rfl⟩

/-- The pages of two tables are different pages. -/
theorem windowPath_inj (h : windowPath p' = windowPath p ∧ p' % 512 = p % 512) : p' = p := by
  obtain ⟨h1, h2⟩ := h
  simp only [windowPath, List.cons.injEq, and_true, true_and] at h1
  omega

/-! The indices the code computes from an address of the window. -/

theorem and_511 (a : ℕ) : a &&& 0x1FF = a % 512 := Nat.and_two_pow_sub_one_eq_mod a 9

theorem windowIndex_39 (hp : p < windowPages) (ho : o < frameSize) :
    (xptMmioVa + p * frameSize + o) >>> 39 &&& 0x1FF = xptMmioPml4 := by
  rw [windowPages] at hp
  rw [frameSize] at ho ⊢
  rw [and_511, Nat.shiftRight_eq_div_pow, xptMmioVa, xptMmioPml4]
  omega

theorem windowIndex_30 (hp : p < windowPages) (ho : o < frameSize) :
    (xptMmioVa + p * frameSize + o) >>> 30 &&& 0x1FF = p / 262144 := by
  rw [windowPages] at hp
  rw [frameSize] at ho ⊢
  rw [and_511, Nat.shiftRight_eq_div_pow, xptMmioVa]
  omega

theorem windowIndex_21 (ho : o < frameSize) :
    (xptMmioVa + p * frameSize + o) >>> 21 &&& 0x1FF = p / 512 % 512 := by
  rw [frameSize] at ho ⊢
  rw [and_511, Nat.shiftRight_eq_div_pow, xptMmioVa]
  omega

theorem windowIndex_12 (ho : o < frameSize) :
    (xptMmioVa + p * frameSize + o) >>> 12 &&& 0x1FF = p % 512 := by
  rw [frameSize] at ho ⊢
  rw [and_511, Nat.shiftRight_eq_div_pow, xptMmioVa]
  omega

/-- **`xpt_attributes`** of an address in the window. -/
theorem attributes_page (h : KernelTree s r) (hroot : s.pml4Phys = r * frameSize) (hr : 0 < r)
    (hp : p < windowPages) (ho : o < frameSize) :
    xptAttributes s (xptMmioVa + p * frameSize + o) = windowAt s r p := by
  have hne : s.pml4Phys ≠ 0 := by
    rw [hroot]
    exact Nat.mul_ne_zero (by omega) (by decide)
  have hdiv : s.pml4Phys / frameSize = r := by rw [hroot, Nat.mul_div_cancel r (by decide)]
  simp only [xptAttributes, if_neg hne, hdiv, windowIndex_39 hp ho, windowIndex_30 hp ho,
    windowIndex_21 ho, windowIndex_12 ho, windowAt, leafAt, windowPath, walk]
  by_cases h1 : entry s r xptMmioPml4 &&& xptPresent = 0
  · simp [kid, h1]
  -- from here on the tables of the path are named
  generalize ht1 : (entry s r xptMmioPml4 &&& xptAddrMask) / frameSize = t1
  have hk1 : kid s r xptMmioPml4 = some t1 := kid_eq_some.mpr ⟨h1, ht1⟩
  by_cases h2 : entry s t1 (p / 262144) &&& xptPresent = 0
  · simp [kid, h1, h2, ht1]
  generalize ht2 : (entry s t1 (p / 262144) &&& xptAddrMask) / frameSize = t2
  have hk2 : kid s t1 (p / 262144) = some t2 := kid_eq_some.mpr ⟨h2, ht2⟩
  by_cases h3 : entry s t2 (p / 512 % 512) &&& xptPresent = 0
  · simp [kid, h1, h2, h3, ht1, ht2]
  -- an entry above the last level is a link to a table, not a page of 2 MiB
  have hw : walk (kid s) r [xptMmioPml4, p / 262144] = some t2 := by simp [walk, hk1, hk2]
  obtain ⟨c, _, hc⟩ := h.upper [xptMmioPml4, p / 262144] (p / 512 % 512) t2
    (kernelPath_page hp) hw h3
  have hhuge : entry s t2 (p / 512 % 512) &&& xptHuge = 0 := by
    rw [hc, entry_flag _ _ (by decide)]
    decide
  generalize ht3 : (entry s t2 (p / 512 % 512) &&& xptAddrMask) / frameSize = t3
  have hk3 : kid s t2 (p / 512 % 512) = some t3 := kid_eq_some.mpr ⟨h3, ht3⟩
  simp [hk1, hk2, hk3, h1, h2, h3, hhuge]

/-- Above the window nothing is mapped. -/
theorem attributes_above (h : KernelTree s r) (hroot : s.pml4Phys = r * frameSize)
    (ha : xptMmioVa + pml4Span ≤ a) (hlt : a < 2 ^ 64) : xptAttributes s a = none := by
  have hdiv : s.pml4Phys / frameSize = r := by rw [hroot, Nat.mul_div_cancel r (by decide)]
  have hidx : xptMmioPml4 < a >>> 39 &&& 0x1FF ∧ a >>> 39 &&& 0x1FF < 512 := by
    rw [xptMmioVa, pml4Span] at ha
    rw [and_511, Nat.shiftRight_eq_div_pow, xptMmioPml4]
    omega
  have habs := h.absent (a >>> 39 &&& 0x1FF) hidx.2 (by omega) (by omega)
  rw [xptAttributes]
  split
  · rfl
  · simp [hdiv, habs]

end Pages

/-! ## The loop -/

/-- The tables of the pages `n`, …, `n + k - 1`, below the one of the window. -/
def windowTables (n k : ℕ) : Finset (List ℕ) :=
  (Finset.range k).biUnion fun i => {[xptMmioPml4, (n + i) / 262144], windowPath (n + i)}

/-- `s'` is `s` with the pages `n`, …, `n + k - 1` showing the frames from `f` on. -/
structure PagesMapped (s : Xeret) (r n f k : ℕ) (s' : Xeret) : Prop where
  tree : KernelTree s' r
  window : walk (kid s') r [xptMmioPml4] = walk (kid s) r [xptMmioPml4]
  root : s'.pml4Phys = s.pml4Phys
  next : s'.mmioNext = s.mmioNext
  page : ∀ p < windowPages,
    windowAt s' r p = if n ≤ p ∧ p < n + k then some (deviceEntry (f + (p - n))) else windowAt s r p

section Loop

variable {t : ℕ}

theorem mem_windowTables :
    σ ∈ windowTables n k ↔ ∃ i < k,
      (σ = [xptMmioPml4, (n + i) / 262144] ∨ σ = windowPath (n + i)) := by
  simp [windowTables]

theorem windowTables_subset (h : k ≤ j) : windowTables n k ⊆ windowTables n j := by
  intro σ hσ
  obtain ⟨i, hi, hor⟩ := mem_windowTables.mp hσ
  exact mem_windowTables.mpr ⟨i, by omega, hor⟩

theorem kernelPath_upper (hp : p < windowPages) : KernelPath [xptMmioPml4, p / 262144] :=
  KernelPath.init (i := p / 512 % 512) (kernelPath_page hp)

theorem kernelPath_windowTables (h : n + k ≤ windowPages) :
    ∀ σ ∈ windowTables n k, KernelPath σ := by
  intro σ hσ
  obtain ⟨i, hi, rfl | rfl⟩ := mem_windowTables.mp hσ
  · exact kernelPath_upper (by omega)
  · exact kernelPath_page (by omega)

theorem missing_mono (h : P ⊆ P') : missing s r P ≤ missing s r P' :=
  Finset.card_le_card (Finset.filter_subset_filter _ h)

theorem PagesMapped.refl (h : KernelTree s r) : PagesMapped s r n f 0 s := by
  refine ⟨h, rfl, rfl, rfl, fun p _ => ?_⟩
  rw [if_neg (by omega)]

theorem PagesMapped.snoc (h1 : PagesMapped s r n f k s')
    (h2 : PagesMapped s' r (n + k) (f + k) 1 s'') : PagesMapped s r n f (k + 1) s'' := by
  refine ⟨h2.tree, h2.window.trans h1.window, h2.root.trans h1.root, h2.next.trans h1.next,
    fun p hp => ?_⟩
  rw [h2.page p hp, h1.page p hp]
  by_cases hlast : p = n + k
  · rw [if_pos (by omega), if_pos (by omega)]
    congr 2
    omega
  · rw [if_neg (by omega)]
    exact if_congr (by omega) rfl rfl

/-- A failed step after `k` pages leaves `k` pages. -/
theorem PagesMapped.stop (h1 : PagesMapped s r n f k s')
    (h2 : PagesMapped s' r (n + k) (f + k) 0 s'') : PagesMapped s r n f k s'' := by
  refine ⟨h2.tree, h2.window.trans h1.window, h2.root.trans h1.root, h2.next.trans h1.next,
    fun p hp => ?_⟩
  rw [h2.page p hp, if_neg (by omega)]
  exact h1.page p hp

/-- The tables of the pages that were mapped are there. -/
theorem PagesMapped.missing_eq_zero (h : PagesMapped s r n f k s') (hle : n + k ≤ windowPages) :
    missing s' r (windowTables n k) = 0 := by
  rw [missing, Finset.card_eq_zero, Finset.filter_eq_empty_iff]
  intro σ hσ
  obtain ⟨i, hi, hor⟩ := mem_windowTables.mp hσ
  have hpage := h.page (n + i) (by omega)
  rw [if_pos (by omega), windowAt, leafAt] at hpage
  obtain ⟨t, hw, _⟩ := Option.bind_eq_some_iff.mp hpage
  rcases hor with rfl | rfl
  · obtain ⟨m, hm, _⟩ := exists_walk_of_snoc (π := [xptMmioPml4, (n + i) / 262144]) hw
    rw [hm]
    simp
  · rw [hw]
    simp

theorem deviceEntry_lt (hf : f < 2 ^ 40) : deviceEntry f < 2 ^ 64 := entry_lt hf (by decide)

theorem deviceEntry_addr (hf : f < 2 ^ 40) :
    deviceEntry f &&& xptAddrMask = f * frameSize := entry_addr hf (by decide)

theorem deviceEntry_flag (f : ℕ) (hm : m < frameSize) : deviceEntry f &&& m = uncachedFlags &&& m :=
  entry_flag _ _ hm

/-- A new table shows no page. -/
theorem Stepped.pagesMapped (h : KernelTree s r) (hs : Stepped s r π i c s')
    (hne : [xptMmioPml4] ≠ π ++ [i]) : PagesMapped s r n f 0 s' := by
  have hfixed : s'.pml4Phys = s.pml4Phys ∧ s'.mmioNext = s.mmioNext := by
    rcases hs with ⟨_, rfl⟩ | ⟨t, q, _, rfl⟩
    · exact ⟨rfl, rfl⟩
    · exact ⟨rfl, rfl⟩
  refine ⟨hs.kernelTree h, hs.walk_of_ne ⟨by decide, by decide⟩ hne, hfixed.1, hfixed.2,
    fun p hp => ?_⟩
  rw [if_neg (by omega)]
  exact hs.leafAt_eq (kernelPath_page hp) (lastLevel_page p) _

/-- **One turn of the loop.** -/
theorem wp_mapUncachedPage (h : KernelTree s r) (ht : walk (kid s) r [xptMmioPml4] = some t)
    (hp : p < windowPages) (hf : f < 2 ^ 40) (hclear : windowAt s r p = none) :
    (mapUncachedPage (t * frameSize) (xptMmioVa + p * frameSize) (f * frameSize)).wp
      (fun _ s' => PagesMapped s r p f 1 s' ∧ ∀ P, (∀ σ ∈ P, KernelPath σ) → windowTables p 1 ⊆ P →
        Paid s r P s')
      (fun _ s' => PagesMapped s r p f 0 s' ∧
        ∀ P, (∀ σ ∈ P, KernelPath σ) → windowTables p 1 ⊆ P → s.phys.freeFrames < missing s r P)
          s := by
  have hz : (0 : ℕ) < frameSize := by decide
  have hpath := kernelPath_page hp
  have hlast := lastLevel_page p
  have hm1 : [xptMmioPml4, p / 262144] ∈ windowTables p 1 :=
    mem_windowTables.mpr ⟨0, Nat.one_pos, Or.inl rfl⟩
  have hm2 : windowPath p ∈ windowTables p 1 := mem_windowTables.mpr ⟨0, Nat.one_pos, Or.inr rfl⟩
  have h30 := windowIndex_30 (o := 0) hp hz
  have h21 := windowIndex_21 (p := p) (o := 0) hz
  have h12 := windowIndex_12 (p := p) (o := 0) hz
  rw [Nat.add_zero] at h30 h21 h12
  simp only [mapUncachedPage, wp_bind, h30, h21, h12]
  refine wp_mono (wp_nextLevel_kernel (π := [xptMmioPml4]) h (kernelPath_upper hp) ht)
    (fun a1 s1 _ h1 => ?_)
    fun _ s1 _ he => ?_
  swap
  · obtain ⟨_, rfl, hnone, hno⟩ := he
    refine ⟨PagesMapped.refl h, fun P _ hP => ?_⟩
    rw [h.counted.free_eq_zero hno]
    exact missing_pos (hP hm1) hnone
  obtain ⟨f1, rfl, h1⟩ := h1
  have ht1 := h1.kernelTree h
  have hk1 : PagesMapped s r p f 0 s1 := h1.pagesMapped h (by simp)
  rw [wp_bind]
  refine wp_mono (wp_nextLevel_kernel (π := [xptMmioPml4, p / 262144]) ht1 hpath h1.walk_self)
    (fun a2 s2 _ h2 => ?_)
    fun _ s2 _ he => ?_
  swap
  · obtain ⟨_, rfl, hnone, hno⟩ := he
    refine ⟨hk1, fun P hP hsub => (h1.paid hP (hsub hm1)).short ?_⟩
    rw [ht1.counted.free_eq_zero hno]
    exact missing_pos (hsub hm2) hnone
  obtain ⟨f2, rfl, h2⟩ := h2
  have ht2 := h2.kernelTree ht1
  have hk2 : PagesMapped s r p f 0 s2 := hk1.stop (h2.pagesMapped ht1 (by simp))
  have hw : walk (kid s2) r (windowPath p) = some f2 := h2.walk_self
  have hempty : entry s2 f2 (p % 512) &&& xptPresent = 0 := by
    have hpage := hk2.page p hp
    rw [if_neg (by omega), hclear, windowAt, leafAt, hw, Option.bind_some] at hpage
    by_contra hno
    rw [if_neg hno] at hpage
    cases hpage
  have hent : f * frameSize ||| uncachedFlags = deviceEntry f := rfl
  simp only [wp_bind, wp_get, wp_failIf, wp_modify, Nat.mul_div_cancel f2 hz,
    frame_and_addrMask hf, hent]
  refine ⟨fun hno => absurd hempty hno,
    fun _ => ⟨⟨ht2.setLeaf hpath hlast hw _ _, ?_, hk2.root, hk2.next, fun q hq => ?_⟩,
    fun P hP hsub => ?_⟩⟩
  · rw [ht2.walk_setEntry hpath hlast hw _ _ ⟨by decide, by decide⟩]
    exact hk2.window
  · have hpres : deviceEntry f &&& xptPresent ≠ 0 := by
      rw [deviceEntry_flag f (by decide)]
      decide
    have hold := hk2.page q hq
    rw [if_neg (by omega)] at hold
    rw [windowAt, ht2.leafAt_setEntry hpath hlast hw (deviceEntry_lt hf) hpres (kernelPath_page hq)]
    by_cases heq : q = p
    · subst heq
      rw [if_pos ⟨rfl, rfl⟩, if_pos (by omega), Nat.sub_self, Nat.add_zero]
    · rw [if_neg fun hno => heq (windowPath_inj hno), if_neg (by omega)]
      exact hold
  · exact ((h1.paid hP (hsub hm1)).trans (h2.paid hP (hsub hm2))).trans
      (ht2.paid_setLeaf hP hpath hlast hw _ _)

/-- **The loop** maps all pages, or it stops at the page whose tables cannot be had. -/
theorem wp_mapUncachedPages (h : KernelTree s r) (ht : walk (kid s) r [xptMmioPml4] = some t)
    (hle : n + m ≤ windowPages) (hf : f + m ≤ 2 ^ 40)
    (hclear : ∀ p, n ≤ p → p < windowPages → windowAt s r p = none) :
    (Prog.iterate m (fun i _ => mapUncachedPage (t * frameSize)
      (xptMmioVa + n * frameSize + i * frameSize)
        (f * frameSize + i * frameSize)) () : KProg Unit).wp
      (fun _ s' => PagesMapped s r n f m s' ∧ missing s r (windowTables n m) ≤ s.phys.freeFrames)
      (fun _ s' => ∃ k < m, PagesMapped s r n f k s' ∧
        missing s r (windowTables n k) ≤ s.phys.freeFrames ∧
        s.phys.freeFrames < missing s r (windowTables n (k + 1))) s := by
  -- every frame that was taken is a table of the pages so far
  have hpaid : ∀ k s', k ≤ m → PagesMapped s r n f k s' →
      (∀ P, (∀ σ ∈ P, KernelPath σ) → windowTables n k ⊆ P → Paid s r P s') →
      missing s r (windowTables n k) ≤ s.phys.freeFrames := by
    intro k s' hk hmap hP
    have hp := hP _ (kernelPath_windowTables (by omega)) subset_rfl
    rw [Paid, hmap.missing_eq_zero (by omega)] at hp
    omega
  refine wp_mono (wp_iterate (fun k _ s' => PagesMapped s r n f k s' ∧
    ∀ P, (∀ σ ∈ P, KernelPath σ) → windowTables n k ⊆ P → Paid s r P s')
      ⟨PagesMapped.refl h, fun _ _ _ => Paid.refl⟩
    fun k _ s1 hk hI => ?_) (fun _ s' _ hs => ⟨hs.1, hpaid m s' le_rfl hs.1 hs.2⟩)
      fun _ _ _ he => he
  have hva : xptMmioVa + n * frameSize + k * frameSize = xptMmioVa + (n + k) * frameSize := by
    rw [Nat.add_mul]
    omega
  have hpa : f * frameSize + k * frameSize = (f + k) * frameSize := (Nat.add_mul _ _ _).symm
  have hnone : windowAt s1 r (n + k) = none := by
    rw [hI.1.page (n + k) (by omega), if_neg (by omega)]
    exact hclear _ (by omega) (by omega)
  have hsub : windowTables (n + k) 1 ⊆ windowTables n (k + 1) := by
    intro σ hσ
    obtain ⟨i, hi, hor⟩ := mem_windowTables.mp hσ
    obtain rfl : i = 0 := by omega
    exact mem_windowTables.mpr ⟨k, by omega, hor⟩
  rw [hva, hpa]
  refine wp_mono (wp_mapUncachedPage hI.1.tree (hI.1.window.trans ht) (by omega) (by omega) hnone)
    (fun _ s2 _ hs => ?_)
    fun _ s2 _ he => ?_
  · exact ⟨hI.1.snoc hs.1,
      fun P hP hall => (hI.2 P hP ((windowTables_subset (by omega)).trans hall)).trans
      (hs.2 P hP (hsub.trans hall))⟩
  · refine ⟨k, hk, hI.1.stop he.1, hpaid k s1 (by omega) hI.1 hI.2, ?_⟩
    have hP := kernelPath_windowTables (n := n) (k := k + 1) (by omega)
    exact (hI.2 _ hP (windowTables_subset (by omega))).short (he.2 _ hP hsub)

end Loop

/-! ## Calls -/

/-- The pages a range touches. -/
def mmioPages (phys size : ℕ) : ℕ := (phys + size + frameSize - 1) / frameSize - phys / frameSize

/-- The arguments are accepted and the pages fit into the window. -/
def Accepts (s : Xeret) (phys size : ℕ) : Prop :=
  size ≠ 0 ∧ mmioPages phys size ≤ xptMmioMaxPages ∧ s.mmioNext + mmioPages phys size * frameSize ≤
    xptMmioVa + pml4Span

/-- The number of tables that the next `k` pages of the window need and that are not there. -/
def lacking (s : Xeret) (k : ℕ) : ℕ :=
  missing s (s.pml4Phys / frameSize) (windowTables ((s.mmioNext - xptMmioVa) / frameSize) k)

/-- A call that runs out of frames in the middle: there are frames for its first page, but not for
all. -/
def RunsOut (s : Xeret) (phys size : ℕ) : Prop :=
  Accepts s phys size ∧ lacking s 1 ≤ s.phys.freeFrames ∧
    s.phys.freeFrames < lacking s (mmioPages phys size)

/-- The window with `n` pages in use. -/
structure MmioInv (s : Xeret) (r n : ℕ) : Prop where
  tree : KernelTree s r
  root : s.pml4Phys = r * frameSize
  pos : 0 < r
  window : ∃ t, walk (kid s) r [xptMmioPml4] = some t
  next : s.mmioNext = xptMmioVa + n * frameSize
  le : n ≤ windowPages
  clear : ∀ p, n ≤ p → p < windowPages → windowAt s r p = none

section Call

theorem MmioInv.lacking_eq (h : MmioInv s r n) (k : ℕ) :
    lacking s k = missing s r (windowTables n k) := by
  have hroot : s.pml4Phys / frameSize = r := by rw [h.root, Nat.mul_div_cancel r (by decide)]
  have hnext : (s.mmioNext - xptMmioVa) / frameSize = n := by
    rw [h.next, Nat.add_sub_cancel_left, Nat.mul_div_cancel n (by decide)]
  rw [lacking, hroot, hnext]

theorem MmioInv.accepts_iff (h : MmioInv s r n) : Accepts s phys size ↔
    size ≠ 0 ∧ mmioPages phys size ≤ xptMmioMaxPages ∧ n + mmioPages phys size ≤ windowPages := by
  rw [Accepts, h.next, pml4Span, windowPages, frameSize]
  omega

theorem MmioInv.of_pagesMapped (h : MmioInv s r n) (hmap : PagesMapped s r n f k s') :
    KernelTree s' r ∧ s'.pml4Phys = r * frameSize ∧
      (∃ t, walk (kid s') r [xptMmioPml4] = some t) := by
  refine ⟨hmap.tree, hmap.root.trans h.root, ?_⟩
  rw [hmap.window]
  exact h.window

/-- **`xpt_map_uncached`**: all pages are mapped, or the arguments are refused, or the tables of
some page cannot be had. -/
theorem wp_xptMapUncached (h : MmioInv s r n) (hmax : phys + size ≤ 2 ^ 52) :
    (xptMapUncached phys size).wp
      (fun v s' => Accepts s phys size ∧ lacking s (mmioPages phys size) ≤ s.phys.freeFrames ∧
        v = xptMmioVa + n * frameSize + phys % frameSize ∧
        ∃ t, PagesMapped s r n (phys / frameSize) (mmioPages phys size) t ∧
          s' = { t with mmioNext := xptMmioVa + (n + mmioPages phys size) * frameSize })
      (fun _ s' => ¬ Accepts s phys size ∧ s' = s ∨ Accepts s phys size ∧ ∃ k < mmioPages phys size,
        PagesMapped s r n (phys / frameSize) k s' ∧ lacking s k ≤ s.phys.freeFrames ∧
          s.phys.freeFrames < lacking s (k + 1)) s := by
  have hne : s.pml4Phys ≠ 0 := by
    rw [h.root]
    exact Nat.mul_ne_zero (by have := h.pos; omega) (by decide)
  have hdiv : s.pml4Phys / frameSize = r := by rw [h.root, Nat.mul_div_cancel r (by decide)]
  have hsum : (phys + size) % 2 ^ 64 = phys + size := Nat.mod_eq_of_lt (by omega)
  have hpages : (alignUp
      (phys + size) frameSize + 2 ^ 64 - alignDown phys frameSize) % 2 ^ 64 / frameSize =
        mmioPages phys size := by
    rw [alignUp, alignDown, mmioPages, frameSize]
    omega
  have hle := h.le
  simp only [xptMapUncached, wp_bind, wp_get, wp_failIf, hsum, hpages, hdiv]
  refine ⟨fun hno => Or.inl ⟨fun hacc => ?_, trivial⟩,
      fun hargs => ⟨fun hno => absurd hno (by omega), fun _ =>
    ⟨fun hno => Or.inl ⟨fun hacc => ?_, trivial⟩,
      fun hmany => ⟨fun hno => Or.inl ⟨fun hacc => ?_, trivial⟩, fun hfit => ?_⟩⟩⟩⟩
  · exact hno.elim hne hacc.1
  · have hpos : mmioPages phys size ≠ 0 := by
      have hs := hacc.1
      rw [mmioPages, frameSize]
      omega
    exact hno.elim hpos (fun hlt => absurd hacc.2.1 (by omega))
  · have hroom := (h.accepts_iff.mp hacc).2.2
    rw [h.next, pml4Span, xptMmioVa, frameSize] at hno
    rw [windowPages] at hroom
    omega
  have hacc : Accepts s phys size := by
    rw [h.accepts_iff]
    rw [h.next, pml4Span, xptMmioVa, frameSize] at hfit
    rw [windowPages]
    rw [windowPages] at hle
    exact ⟨fun h0 => hargs (Or.inr h0), by omega, by rw [xptMmioMaxPages] at hmany; omega⟩
  have hroom := (h.accepts_iff.mp hacc).2.2
  obtain ⟨t, ht⟩ := h.window
  have hpdpt : entry s r xptMmioPml4 &&& xptAddrMask = t * frameSize := by
    have hkid : kid s r xptMmioPml4 = some t := by simpa [walk] using ht
    obtain ⟨hpres, hkid⟩ := kid_eq_some.mp hkid
    obtain ⟨c, hc, hent⟩ := h.tree.upper [] xptMmioPml4 r ⟨by decide, by decide⟩ rfl hpres
    rw [hent, entry_addr hc (by decide)] at hkid ⊢
    rw [← hkid, Nat.mul_div_cancel c (by decide)]
  rw [hpdpt, h.next]
  have hframes : phys / frameSize + mmioPages phys size ≤ 2 ^ 40 := by
    rw [mmioPages, frameSize]
    omega
  refine wp_mono (wp_mapUncachedPages (f := phys / frameSize) h.tree ht hroom hframes h.clear)
    (fun _ s1 _ h1 => ?_) fun _ s1 _ he => ?_
  · simp only [wp_bind, wp_modify, wp_pure]
    refine ⟨hacc, ?_, ?_, s1, h1.1, ?_⟩
    · rw [h.lacking_eq]
      exact h1.2
    · have hoff : phys - alignDown phys frameSize = phys % frameSize := by
        rw [alignDown, frameSize]
        omega
      rw [hoff]
    · rw [Nat.add_mul, ← Nat.add_assoc]
  · obtain ⟨k, hk, hmap, hlow, hhigh⟩ := he
    rw [← h.lacking_eq] at hlow hhigh
    exact Or.inr ⟨hacc, k, hk, hmap, hlow, hhigh⟩

end Call

/-! ## Runs -/

/-- A range of a device and its address in the window. -/
structure Grant where
  virt : ℕ
  phys : ℕ
  size : ℕ

variable {g : Grant}

/-- The pages of a range. -/
def Grant.first (g : Grant) : ℕ := g.virt / frameSize

def Grant.last (g : Grant) : ℕ := (g.virt + g.size - 1) / frameSize

/-- The range is in the window, and its pages show the pages of the device, uncached and not
executable. -/
structure Shows (s : Xeret) (g : Grant) : Prop where
  lower : xptMmioVa ≤ g.virt
  upper : g.virt + g.size ≤ xptMmioVa + pml4Span
  offset : g.virt % frameSize = g.phys % frameSize
  page : ∀ o < g.size, ∃ e, xptAttributes s (g.virt + o) = some e ∧
    e &&& xptAddrMask = (g.phys + o) / frameSize * frameSize ∧ e &&& xptUc = xptUc ∧ e &&& xptNx ≠ 0

/-- Two ranges have no page in common. -/
def Apart (g g' : Grant) : Prop := g.last < g'.first ∨ g'.last < g.first

/-- What holds between the calls: the ranges that were returned, and nothing is mapped from the next
free address on, so that a call that fits and has frames for its tables succeeds. -/
structure MmioLaw (s : Xeret) (gs : List Grant) : Prop where
  shows : ∀ g ∈ gs, Shows s g
  apart : gs.Pairwise Apart
  clear : ∀ a, s.mmioNext ≤ a → a < 2 ^ 64 → xptAttributes s a = none
  succeeds : ∀ phys size, phys + size ≤ 2 ^ 52 → Accepts s phys size →
    lacking s (mmioPages phys size) ≤ s.phys.freeFrames →
    ∃ v s', (xptMapUncached phys size).run s = (.ok v, s')

/-- The state after a call, and the ranges returned so far. -/
def called (phys size : ℕ) (s : Xeret) (gs : List Grant) : Xeret × List Grant :=
  match (xptMapUncached phys size).run s with
  | (.ok v, s') => (s', ⟨v, phys, size⟩ :: gs)
  | (.error _, s') => (s', gs)

/-- What the rest of the kernel can do: take and give frames and write to them, but not to those of
the page table. -/
structure Elsewhere (s s' : Xeret) : Prop where
  pml4Phys : s'.pml4Phys = s.pml4Phys
  mmioNext : s'.mmioNext = s.mmioNext
  total : s'.phys.totalFrames = s.phys.totalFrames
  counted : Counted s'.phys
  zero : s'.phys.isFree 0 = false
  used : ∀ π f, KernelPath π → walk (kid s) (s.pml4Phys / frameSize) π = some f →
    s'.phys.isFree f = false
  mem : ∀ π f, KernelPath π → walk (kid s) (s.pml4Phys / frameSize) π = some f → s'.mem f = s.mem f

/-- The runs after `xpt_init_identity` in which no call runs out of frames in the middle. -/
inductive MmioRun : Xeret → List Grant → Prop
  | start {s₀ s : Xeret} {hasNx : Bool} {physEnd extraBase extraSize : ℕ} (hc : Counted s₀.phys)
      (hmax : s₀.phys.totalFrames ≤ bitmapMaxFrames) (h0 : s₀.phys.isFree 0 = false)
        (hbase : extraBase < 2 ^ 64)
      (hsize : extraSize < 2 ^ 64)
        (hrun : (xptInitIdentity hasNx physEnd extraBase extraSize).run s₀ = (.ok (), s)) :
        MmioRun s []
  | call {s : Xeret} {gs : List Grant} {phys size : ℕ} (h : MmioRun s gs)
    (hmax : phys + size ≤ 2 ^ 52)
      (hno : ¬ RunsOut s phys size) : MmioRun (called phys size s gs).1 (called phys size s gs).2
  | elsewhere {s s' : Xeret} {gs : List Grant} (h : MmioRun s gs) (he : Elsewhere s s') :
    MmioRun s' gs

/-- A range that was returned, by its pages: they are below page `n`. -/
structure Granted (s : Xeret) (r n : ℕ) (g : Grant) : Prop where
  fits : g.phys + g.size ≤ 2 ^ 52
  pos : g.size ≠ 0
  pages : ∃ p, g.virt = xptMmioVa + p * frameSize + g.phys % frameSize ∧
    p + mmioPages g.phys g.size ≤ n ∧
    ∀ i < mmioPages g.phys g.size,
    windowAt s r (p + i) = some (deviceEntry (g.phys / frameSize + i))

/-- The invariant of the runs. -/
structure MmioRunInv (s : Xeret) (gs : List Grant) (r n : ℕ) : Prop extends MmioInv s r n where
  granted : ∀ g ∈ gs, Granted s r n g
  apart : gs.Pairwise Apart

section Law

variable {gs : List Grant}

theorem lacking_mono (h : j ≤ k) : lacking s j ≤ lacking s k := missing_mono (windowTables_subset h)

/-- Pages that are kept keep the ranges. -/
theorem Granted.mono (hg : Granted s r n g) (hle : n ≤ windowPages) (hnm : n ≤ m)
    (hpage : ∀ p < n, p < windowPages → windowAt s' r p = windowAt s r p) : Granted s' r m g := by
  obtain ⟨p, hvirt, hbelow, hshow⟩ := hg.pages
  refine ⟨hg.fits, hg.pos, p, hvirt, by omega, fun i hi => ?_⟩
  rw [hpage (p + i) (by omega) (by omega)]
  exact hshow i hi

theorem Granted.shows (h : MmioInv s r n) (hg : Granted s r n g) : Shows s g := by
  obtain ⟨p, hvirt, hbelow, hshow⟩ := hg.pages
  have hle := h.le
  have hfits := hg.fits
  have hroom : xptMmioVa + p * frameSize + g.phys % frameSize + g.size ≤ xptMmioVa + pml4Span := by
    rw [mmioPages, frameSize] at hbelow
    rw [windowPages] at hle
    rw [pml4Span, frameSize]
    omega
  refine ⟨by omega, hvirt ▸ hroom, ?_, fun o ho => ?_⟩
  · rw [hvirt, xptMmioVa, frameSize]
    omega
  · -- the byte is in page `i` of the range
    obtain ⟨i, hi⟩ : ∃ i, i = (g.phys % frameSize + o) / frameSize := ⟨_, rfl⟩
    have hlt : i < mmioPages g.phys g.size := by
      rw [mmioPages, frameSize]
      rw [frameSize] at hi
      omega
    have hframe : g.phys / frameSize + i = (g.phys + o) / frameSize := by
      rw [frameSize] at hi ⊢
      omega
    have haddr : g.virt + o =
        xptMmioVa + (p + i) * frameSize + (g.phys % frameSize + o) % frameSize := by
      rw [hvirt]
      rw [frameSize] at hi ⊢
      omega
    have hsmall : (g.phys + o) / frameSize < 2 ^ 40 := by
      rw [frameSize]
      omega
    refine ⟨deviceEntry ((g.phys + o) / frameSize), ?_, deviceEntry_addr hsmall, ?_, ?_⟩
    · rw [haddr, attributes_page h.tree h.root h.pos (by omega) (Nat.mod_lt _ (by decide)),
        hshow i hlt, hframe]
    · rw [deviceEntry_flag _ (by decide)]
      decide
    · rw [deviceEntry, Nat.and_or_distrib_right]
      intro hzero
      exact absurd (Nat.or_eq_zero_iff.mp hzero).2 (by decide)

/-- Nothing is mapped from the next free address on. -/
theorem MmioInv.attributes_clear (h : MmioInv s r n) (ha : s.mmioNext ≤ a) (hlt : a < 2 ^ 64) :
    xptAttributes s a = none := by
  by_cases habove : xptMmioVa + pml4Span ≤ a
  · exact attributes_above h.tree h.root habove hlt
  · have hle := h.le
    rw [h.next] at ha
    have haddr : a = xptMmioVa + (a - xptMmioVa) / frameSize * frameSize +
        (a - xptMmioVa) % frameSize := by
      rw [frameSize] at ha ⊢
      omega
    have hpage : n ≤ (a - xptMmioVa) / frameSize ∧ (a - xptMmioVa) / frameSize < windowPages := by
      rw [pml4Span] at habove
      rw [windowPages]
      rw [frameSize] at ha ⊢
      omega
    rw [haddr, attributes_page h.tree h.root h.pos hpage.2 (Nat.mod_lt _ (by decide))]
    exact h.clear _ hpage.1 hpage.2

/-- **The invariant gives the law.** -/
theorem MmioRunInv.law (h : MmioRunInv s gs r n) : MmioLaw s gs := by
  refine ⟨fun g hg => (h.granted g hg).shows h.toMmioInv, h.apart,
    fun a ha hlt => h.attributes_clear ha hlt, fun phys size hmax hacc hfree => ?_⟩
  have hwp := wp_xptMapUncached h.toMmioInv hmax
  rw [Prog.wp] at hwp
  cases hrun : (xptMapUncached phys size).run s with
  | mk res s' =>
    rw [hrun] at hwp
    cases res with
    | ok v => exact ⟨v, s', rfl⟩
    | error e =>
      rcases hwp with ⟨hno, _⟩ | ⟨_, k, hk, _, _, hshort⟩
      · exact absurd hacc hno
      · have hmono : lacking s (k + 1) ≤ lacking s (mmioPages phys size) := lacking_mono (by omega)
        omega

/-- What a call can do. -/
theorem MmioInv.called_cases (h : MmioInv s r n) (gs : List Grant) (hmax : phys + size ≤ 2 ^ 52) :
    (Accepts s phys size ∧ lacking s (mmioPages phys size) ≤ s.phys.freeFrames ∧
      ∃ t, PagesMapped s r n (phys / frameSize) (mmioPages phys size) t ∧
        called phys size s gs =
          ({ t with mmioNext := xptMmioVa + (n + mmioPages phys size) * frameSize },
          ⟨xptMmioVa + n * frameSize + phys % frameSize, phys, size⟩ :: gs)) ∨
    (¬ Accepts s phys size ∧ called phys size s gs = (s, gs)) ∨
    Accepts s phys size ∧ ∃ k t, k < mmioPages phys size ∧
      PagesMapped s r n (phys / frameSize) k t ∧
      lacking s k ≤ s.phys.freeFrames ∧ s.phys.freeFrames < lacking s (k + 1) ∧
        called phys size s gs = (t, gs) := by
  have hwp := wp_xptMapUncached h hmax
  rw [Prog.wp] at hwp
  rw [called]
  cases hrun : (xptMapUncached phys size).run s with
  | mk res s' =>
    rw [hrun] at hwp
    cases res with
    | ok v =>
      obtain ⟨hacc, hfree, rfl, t, hmap, rfl⟩ := hwp
      exact Or.inl ⟨hacc, hfree, t, hmap, rfl⟩
    | error e =>
      rcases hwp with ⟨hno, rfl⟩ | ⟨hacc, k, hk, hmap, h1, h2⟩
      · exact Or.inr (Or.inl ⟨hno, rfl⟩)
      · exact Or.inr (Or.inr ⟨hacc, k, s', hk, hmap, h1, h2, rfl⟩)

/-- A call that maps all its pages. -/
theorem MmioRunInv.granted_call (h : MmioRunInv s gs r n) (hmax : phys + size ≤ 2 ^ 52)
    (hacc : Accepts s phys size)
    (hmap : PagesMapped s r n (phys / frameSize) (mmioPages phys size) t) :
    MmioRunInv { t with mmioNext := xptMmioVa + (n + mmioPages phys size) * frameSize }
      (⟨xptMmioVa + n * frameSize + phys % frameSize, phys, size⟩ :: gs) r
      (n + mmioPages phys size) := by
  obtain ⟨hsize, _, hroom⟩ := h.accepts_iff.mp hacc
  have hle := h.le
  have hpage : ∀ p < windowPages,
    windowAt { t with mmioNext := xptMmioVa + (n + mmioPages phys size) * frameSize } r p =
      if n ≤ p ∧ p < n + mmioPages phys size then some
        (deviceEntry (phys / frameSize + (p - n))) else windowAt s r p := hmap.page
  obtain ⟨htree, hroot, hwin⟩ := h.of_pagesMapped hmap
  refine ⟨⟨⟨htree.counted, htree.total_le, htree.zero, htree.used, htree.unique, htree.upper,
    htree.absent, htree.lt⟩, hroot, h.pos, hwin, rfl, hroom, fun p h1 h2 => ?_⟩, fun g hg => ?_, ?_⟩
  · rw [hpage p h2, if_neg (by omega)]
    exact h.clear p (by omega) h2
  · rcases List.mem_cons.mp hg with rfl | hold
    · refine ⟨hmax, hsize, n, rfl, le_rfl, fun i hi => ?_⟩
      change windowAt _ r (n + i) = some (deviceEntry (phys / frameSize + i))
      have hi' : i < mmioPages phys size := hi
      rw [hpage (n + i) (by omega), if_pos (by omega), Nat.add_sub_cancel_left]
    · refine (h.granted g hold).mono hle (by omega) fun p h1 h2 => ?_
      rw [hpage p h2, if_neg (by omega)]
  · refine List.Pairwise.cons (fun g hg => Or.inr ?_) h.apart
    obtain ⟨p, hvirt, hbelow, _⟩ := (h.granted g hg).pages
    have hpos := (h.granted g hg).pos
    rw [Grant.last, Grant.first, hvirt]
    change _ < (xptMmioVa + n * frameSize + phys % frameSize) / frameSize
    rw [mmioPages, frameSize] at hbelow
    rw [xptMmioVa, frameSize]
    omega

/-- A call that fails before its first page. -/
theorem MmioRunInv.failed_call (h : MmioRunInv s gs r n) (hmap : PagesMapped s r n f 0 t) :
    MmioRunInv t gs r n := by
  have hpage : ∀ p < windowPages, windowAt t r p = windowAt s r p := by
    intro p hp
    rw [hmap.page p hp, if_neg (by omega)]
  obtain ⟨htree, hroot, hwin⟩ := h.of_pagesMapped hmap
  refine ⟨⟨htree, hroot, h.pos, hwin, hmap.next.trans h.next, h.le, fun p h1 h2 => ?_⟩,
    fun g hg => ?_, h.apart⟩
  · rw [hpage p h2]
    exact h.clear p h1 h2
  · exact (h.granted g hg).mono h.le le_rfl fun p _ hp => hpage p hp

theorem MmioRunInv.call (h : MmioRunInv s gs r n) (hmax : phys + size ≤ 2 ^ 52)
    (hno : ¬ RunsOut s phys size) :
    ∃ n', MmioRunInv (called phys size s gs).1 (called phys size s gs).2 r n' := by
  rcases h.called_cases gs hmax with ⟨hacc, _, t, hmap, heq⟩ | ⟨_, heq⟩ | ⟨hacc, k, t, hk, hmap,
    hlow, hhigh, heq⟩
  · rw [heq]
    exact ⟨_, h.granted_call hmax hacc hmap⟩
  · rw [heq]
    exact ⟨n, h⟩
  · -- it stops at its first page, or it runs out of frames in the middle
    have hzero : k = 0 := by
      by_contra hpos
      have h1 : lacking s 1 ≤ lacking s k := lacking_mono (by omega)
      have h2 : lacking s (k + 1) ≤ lacking s (mmioPages phys size) := lacking_mono (by omega)
      exact hno ⟨hacc, by omega, by omega⟩
    subst hzero
    rw [heq]
    exact ⟨n, h.failed_call hmap⟩

/-- **A call that runs out of frames in the middle leaves a page at the next free address.** -/
theorem MmioInv.left_behind (h : MmioInv s r n) (gs : List Grant) (hmax : phys + size ≤ 2 ^ 52)
    (hout : RunsOut s phys size) :
    ∃ t, called phys size s gs = (t, gs) ∧ t.mmioNext = s.mmioNext ∧
      xptAttributes t t.mmioNext = some (deviceEntry (phys / frameSize)) := by
  obtain ⟨hacc, hfirst, hall⟩ := hout
  have hroom := (h.accepts_iff.mp hacc).2.2
  rcases h.called_cases gs hmax with ⟨_, hfree, _⟩ | ⟨hno, _⟩ | ⟨_, k, t, hk, hmap, hlow,
    hhigh, heq⟩
  · omega
  · exact absurd hacc hno
  · have hpos : 0 < k := by
      by_contra hz
      obtain rfl : k = 0 := by omega
      rw [Nat.zero_add] at hhigh
      omega
    obtain ⟨htree, hroot, _⟩ := h.of_pagesMapped hmap
    have hattr := attributes_page (p := n) htree hroot h.pos (by omega)
      (show 0 < frameSize by decide)
    refine ⟨t, heq, hmap.next, ?_⟩
    rw [hmap.next, h.next, ← Nat.add_zero (xptMmioVa + n * frameSize), hattr,
      hmap.page n (by omega), if_pos (by omega),
      Nat.sub_self, Nat.add_zero]

theorem MmioInv.not_law (h : MmioInv s r n) (hmax : phys + size ≤ 2 ^ 52)
    (hout : RunsOut s phys size) :
    ¬ MmioLaw (called phys size s gs).1 (called phys size s gs).2 := by
  obtain ⟨t, heq, hnext, hattr⟩ := h.left_behind gs hmax hout
  have hlt : t.mmioNext < 2 ^ 64 := by
    have hle := h.le
    rw [windowPages] at hle
    rw [hnext, h.next, xptMmioVa, frameSize]
    omega
  intro hlaw
  rw [heq] at hlaw
  have hnone := hlaw.clear t.mmioNext le_rfl hlt
  rw [hattr] at hnone
  cases hnone

theorem KernelMap.mmioRunInv (h : KernelMap s r physEnd extraBase extraSize) :
    MmioRunInv s [] r 0 := by
  refine ⟨⟨h.tree, h.root, h.pos, h.window, ?_, Nat.zero_le _, fun p _ hp => ?_⟩, fun g hg => ?_,
    List.Pairwise.nil⟩
  · rw [h.next, Nat.zero_mul, Nat.add_zero]
  · have hidx : p / 262144 < xptEnts := by
      rw [windowPages] at hp
      rw [xptEnts]
      omega
    have hnone : walk (kid s) r (windowPath p) = none := by
      change walk (kid s) r ([xptMmioPml4, p / 262144] ++ [p / 512 % 512]) = none
      rw [walk_snoc, h.empty _ hidx, Option.bind_none]
    rw [windowAt, leafAt, hnone, Option.bind_none]
  · cases hg

/-- The rest of the kernel keeps the page table. -/
theorem Elsewhere.walk_eq (hroot : s.pml4Phys / frameSize = r) (he : Elsewhere s s')
    (hσ : KernelPath σ) : walk (kid s') r σ = walk (kid s) r σ := by
  refine walk_eq_of_agree kernelPath_prefixClosed hσ fun ρ k t hρ ht => kid_congr (entry_congr ?_)
  rw [← hroot] at ht
  exact he.mem ρ t hρ.init ht

theorem Elsewhere.kernelTree (h : KernelTree s r) (hroot : s.pml4Phys / frameSize = r)
    (he : Elsewhere s s') : KernelTree s' r := by
  have hwalk : ∀ {σ}, KernelPath σ → walk (kid s') r σ = walk (kid s) r σ :=
    fun hσ => he.walk_eq hroot hσ
  have hent : ∀ π f i, KernelPath π → walk (kid s) r π = some f → entry s' f i = entry s f i := by
    intro π f i hπ hw
    rw [← hroot] at hw
    exact entry_congr (he.mem π f hπ hw)
  refine ⟨he.counted, he.total.symm ▸ h.total_le, he.zero, fun π f hπ hw => ?_,
    fun π π' f hπ hπ' hw hw' => ?_,
    fun π i t hπ hw hpres => ?_, fun i hi h0 hm => ?_, fun π f hπ hw => ?_⟩
  · rw [hwalk hπ, ← hroot] at hw
    exact he.used π f hπ hw
  · rw [hwalk hπ] at hw
    rw [hwalk hπ'] at hw'
    exact h.unique π π' f hπ hπ' hw hw'
  · rw [hwalk hπ.init] at hw
    rw [hent π t i hπ.init hw] at hpres ⊢
    exact h.upper π i t hπ hw hpres
  · rw [hent [] r i kernelPath_nil rfl]
    exact h.absent i hi h0 hm
  · rw [hwalk hπ] at hw
    rw [he.total]
    exact h.lt π f hπ hw

theorem Elsewhere.windowAt_eq (hroot : s.pml4Phys / frameSize = r) (he : Elsewhere s s')
    (hp : p < windowPages) : windowAt s' r p = windowAt s r p := by
  have hpath := kernelPath_page hp
  rw [windowAt, windowAt, leafAt, leafAt, he.walk_eq hroot hpath]
  cases hw : walk (kid s) r (windowPath p) with
  | none => rw [Option.bind_none, Option.bind_none]
  | some t =>
    rw [← hroot] at hw
    have hent : entry s' t (p % 512) = entry s t (p % 512) := entry_congr (he.mem _ t hpath hw)
    rw [Option.bind_some, Option.bind_some, hent]

theorem MmioRunInv.elsewhere (h : MmioRunInv s gs r n) (he : Elsewhere s s') :
    MmioRunInv s' gs r n := by
  have hroot : s.pml4Phys / frameSize = r := by rw [h.root, Nat.mul_div_cancel r (by decide)]
  refine ⟨⟨he.kernelTree h.tree hroot, he.pml4Phys.trans h.root, h.pos, ?_,
    he.mmioNext.trans h.next, h.le, fun p h1 h2 => ?_⟩, fun g hg => ?_, h.apart⟩
  · rw [he.walk_eq hroot ⟨by decide, by decide⟩]
    exact h.window
  · rw [he.windowAt_eq hroot h2]
    exact h.clear p h1 h2
  · exact (h.granted g hg).mono h.le le_rfl fun p _ hp => he.windowAt_eq hroot hp

theorem MmioRun.inv (h : MmioRun s gs) : ∃ r n, MmioRunInv s gs r n := by
  induction h with
  | @start s₀ s hasNx physEnd extraBase extraSize hc hmax h0 hbase hsize hrun =>
    have hwp := wp_xptInitIdentity hasNx physEnd hc hmax h0 hbase hsize
    rw [Prog.wp, hrun] at hwp
    obtain ⟨_, _, r, _, hmap⟩ := hwp
    exact ⟨r, 0, hmap.mmioRunInv⟩
  | call _ hmax hno ih =>
    obtain ⟨r, n, hinv⟩ := ih
    exact ⟨r, hinv.call hmax hno⟩
  | elsewhere _ he ih =>
    obtain ⟨r, n, hinv⟩ := ih
    exact ⟨r, n, hinv.elsewhere he⟩

/-- **The window survives failures that are not in the middle.**  In every state of a run whose
calls do not run out of frames in the middle the law holds; one more call keeps it exactly if that
call does not either. -/
theorem MmioRun.law_iff (h : MmioRun s gs) : MmioLaw s gs ∧ ∀ phys size, phys + size ≤ 2 ^ 52 →
    (MmioLaw (called phys size s gs).1 (called phys size s gs).2 ↔ ¬ RunsOut s phys size) := by
  obtain ⟨r, n, hinv⟩ := h.inv
  refine ⟨hinv.law, fun phys size hmax => ⟨fun hlaw hout => hinv.not_law hmax hout hlaw,
    fun hno => ?_⟩⟩
  obtain ⟨n', hafter⟩ := hinv.call hmax hno
  exact hafter.law

/-- Others can take frames until `k` are left. -/
theorem MmioRun.spend (h : MmioRun s gs) (hk : k ≤ s.phys.freeFrames) :
    ∃ p, MmioRun { s with phys := p } gs ∧ p.freeFrames = k := by
  obtain ⟨d, hd⟩ : ∃ d, s.phys.freeFrames = k + d := ⟨s.phys.freeFrames - k, by omega⟩
  clear hk
  induction d generalizing s with
  | zero => exact ⟨s.phys, h, hd⟩
  | succ d ih =>
    obtain ⟨r, n, hinv⟩ := h.inv
    have hcounted := hinv.tree.counted
    have hfree : ∃ a, FreeRun s.phys 1 a := by
      by_contra hno
      have hzero := hcounted.free_eq_zero fun a ha => hno ⟨a, ha⟩
      omega
    obtain ⟨a, ha⟩ := hfree
    have htook := hcounted.took ha
    have hroot : s.pml4Phys / frameSize = r := by rw [hinv.root, Nat.mul_div_cancel r (by decide)]
    have helse : Elsewhere s { s with phys := clearRun a 1 s.phys } := by
      refine ⟨rfl, rfl, htook.total, htook.counted, ?_, fun π f hπ hw => ?_, fun _ _ _ _ => rfl⟩
      · change (clearRun a 1 s.phys).isFree 0 = false
        rw [htook.isFree, hinv.tree.zero, Bool.false_and]
      · change (clearRun a 1 s.phys).isFree f = false
        rw [hroot] at hw
        rw [htook.isFree, hinv.tree.used π f hπ hw, Bool.false_and]
    have hless : (clearRun a 1 s.phys).freeFrames = k + d := by
      have hadd := htook.free_add hcounted
      omega
    obtain ⟨p, hrun, hp⟩ := ih (h.elsewhere helse) hless
    exact ⟨p, hrun, hp⟩

end Law

/-- A kernel that has made its map, and has frames left. -/
theorem exists_mmioRun :
    ∃ s r, MmioRun s [] ∧ 508 ≤ s.phys.freeFrames ∧ KernelMap s r 0x200000 0 0 := by
  have hok : ¬ Refuses true 0x200000 0 0 := by
    rw [Refuses]
    decide
  obtain ⟨s, hrun, hfree, r, _, hmap⟩ :=
    exists_xptInitIdentity counted_bootXeret (by decide) (by decide) (by decide) (by decide)
      (by decide) hok
  refine ⟨s, r, MmioRun.start counted_bootXeret (by decide) (by decide) (by decide)
    (by decide) hrun, ?_, hmap⟩
  have h1023 : bootXeret.phys.freeFrames = 1023 := rfl
  omega

theorem card_windowTables_le (n k : ℕ) : (windowTables n k).card ≤ k * 2 := by
  refine (Finset.card_biUnion_le_card_mul _ _ 2 fun i _ => Finset.card_le_two).trans ?_
  rw [Finset.card_range]

/-- The four pages of a device. -/
theorem MmioRun.law_four_pages :
    ∃ s, MmioRun s [] ∧ MmioLaw (called 0xFEB00000 0x4000 s []).1 (called 0xFEB00000 0x4000 s
      []).2 := by
  obtain ⟨s, r, hrun, hfree, _⟩ := exists_mmioRun
  refine ⟨s, hrun, (hrun.law_iff.2 0xFEB00000 0x4000 (by decide)).mpr fun hout => ?_⟩
  have hle : lacking s (mmioPages 0xFEB00000 0x4000) ≤ 8 :=
    (Finset.card_filter_le _ _).trans (card_windowTables_le _ 4)
  have hlt := hout.2.2
  omega

/-- With two frames left, a request of 513 pages fails at the second table and leaves 512 pages. -/
theorem mmio_left_behind :
    ∃ s t, MmioRun s [] ∧ Accepts s 0 0x201000 ∧ called 0 0x201000 s [] = (t, []) ∧
    xptAttributes t t.mmioNext = some (deviceEntry 0) := by
  obtain ⟨s, r, hrun, hfree, hmap⟩ := exists_mmioRun
  obtain ⟨p, hspent, htwo⟩ := hrun.spend (k := 2) (by omega)
  obtain ⟨r', n, hinv⟩ := hspent.inv
  have hroot : s.pml4Phys / frameSize = r := by rw [hmap.root, Nat.mul_div_cancel r (by decide)]
  have hnext : (s.mmioNext - xptMmioVa) / frameSize = 0 := by
    rw [hmap.next, Nat.sub_self]
    rfl
  have hpages : mmioPages 0 0x201000 = 513 := by decide
  have hacc : Accepts { s with phys := p } 0 0x201000 := by
    refine ⟨by decide, by rw [hpages]; decide, ?_⟩
    change s.mmioNext + _ ≤ _
    rw [hmap.next, hpages]
    decide
  have hfirst : lacking { s with phys := p } 1 ≤ 2 :=
    (Finset.card_filter_le _ _).trans (card_windowTables_le _ 1)
  -- the tables of the 513 pages are three, and none is there
  have hthree : 3 ≤ lacking { s with phys := p } (mmioPages 0 0x201000) := by
    have hnone : ∀ ρ, walk (kid s) r ([xptMmioPml4, 0] ++ ρ) = none := by
      intro ρ
      rw [walk_append, hmap.empty 0 (by decide), Option.bind_none]
    have hsub : ({[xptMmioPml4, 0], [xptMmioPml4, 0, 0], [xptMmioPml4, 0, 1]} : Finset (List ℕ)) ⊆
        (windowTables 0 513).filter fun π => walk (kid s) r π = none := by
      intro σ hσ
      rw [Finset.mem_filter, mem_windowTables]
      simp only [Finset.mem_insert, Finset.mem_singleton] at hσ
      rcases hσ with rfl | rfl | rfl
      · exact ⟨⟨0, by omega, Or.inl rfl⟩, hnone []⟩
      · exact ⟨⟨0, by omega, Or.inr rfl⟩, hnone [0]⟩
      · exact ⟨⟨512, by omega, Or.inr rfl⟩, hnone [1]⟩
    rw [hpages]
    change 3 ≤ missing s (s.pml4Phys / frameSize)
      (windowTables ((s.mmioNext - xptMmioVa) / frameSize) 513)
    rw [hroot, hnext]
    exact Finset.card_le_card hsub
  have hout : RunsOut { s with phys := p } 0 0x201000 := by
    refine ⟨hacc, ?_, ?_⟩
    · change _ ≤ p.freeFrames
      omega
    · change p.freeFrames < _
      omega
  obtain ⟨t, heq, _, hattr⟩ := hinv.left_behind [] (by decide) hout
  exact ⟨_, t, hspent, hacc, heq, hattr⟩

end Xasmos.Kernel
