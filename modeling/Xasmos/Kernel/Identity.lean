import Xasmos.Kernel.KernelTree
import Xasmos.Kernel.Spaces
import Xasmos.Kernel.TokenRun

/-!
# The identity map of the kernel

`xpt_init_identity` maps the device window, the framebuffer and the memory in four passes of
2 MiB pages, where the first mapping of a page wins.  `mapHuge` is given by what it does to the
flat view `hugeAt` (`wp_mapHuge`), so the four passes compose to one table of pages, `KernelMap`.

The size of the memory is rounded up to 2 MiB in 64 bits.  For a size in the last 2 MiB of that
range the rounded size is 0: the check of the size passes and no memory above 4 GiB is mapped.
`identityMap_iff` says that the map is the identity exactly for the other sizes.

## Main definitions

* `hugeAt` — the entry of a 2 MiB page; `HugeFilled` — what a pass does.
* `KernelMap` — the page table after the start; `IdentityMap` — what the kernel relies on.
-/

namespace Xasmos.Kernel

open Radix Prog

variable {M N : ℕ → Prop} {a e extraBase extraSize f fl i last m physEnd q q' r start t : ℕ}
  {s s' s'' s1 s2 s3 s4 s5 : Xeret}

/-! ## Pages of 2 MiB -/

/-- The entry of the 2 MiB page `q` of the identity map. -/
def hugeAt (s : Xeret) (r q : ℕ) : Option ℕ := leafAt s r [0, q / 512] (q % 512)

/-- The entry `map_huge` makes for page `q`. -/
def hugeEntry (q fl : ℕ) : ℕ := (q * hugeSize &&& xptHugeMask) ||| fl ||| xptHuge

section Huge

theorem kernelPath_huge (hq : q < 2 ^ 18) : KernelPath [0, q / 512] := by
  have h512 : xptEnts = 512 := rfl
  refine ⟨fun i hi => ?_, fun i hi => ?_⟩
  · simp only [List.mem_cons, List.not_mem_nil, or_false] at hi
    rcases hi with rfl | rfl <;> omega
  · simp only [List.head?_cons, Option.some.injEq] at hi
    exact Or.inl ⟨hi.symm, by simp⟩

theorem lastLevel_huge (q : ℕ) : LastLevel [0, q / 512] := Or.inl ⟨rfl, rfl⟩

theorem kernelPath_window (hi : i < xptEnts) : KernelPath [xptMmioPml4, i] := by
  refine ⟨fun j hj => ?_, fun j hj => ?_⟩
  · simp only [List.mem_cons, List.not_mem_nil, or_false] at hj
    rcases hj with rfl | rfl
    · decide
    · exact hi
  · simp only [List.head?_cons, Option.some.injEq] at hj
    exact Or.inr ⟨hj.symm, by simp⟩

theorem kernelPath_zero : KernelPath [0] :=
  KernelPath.init (i := 0 / 512) (kernelPath_huge (q := 0) (by decide))

/-! The indices the code computes from an address. -/

theorem hugeIndex_39 (ha : a / hugeSize < 2 ^ 18) : a >>> 39 &&& 0x1FF = 0 := by
  have hdiv : a >>> 39 = 0 := by
    rw [hugeSize] at ha
    rw [Nat.shiftRight_eq_div_pow]
    omega
  rw [hdiv, Nat.zero_and]

theorem hugeIndex_30 (ha : a / hugeSize < 2 ^ 18) : a >>> 30 &&& 0x1FF = a / hugeSize / 512 := by
  have hdiv : a >>> 30 = a / hugeSize / 512 := by
    rw [Nat.shiftRight_eq_div_pow, hugeSize]
    omega
  rw [hdiv]
  exact (Nat.and_two_pow_sub_one_eq_mod _ 9).trans (Nat.mod_eq_of_lt (by omega))

theorem hugeIndex_21 (a : ℕ) : a >>> 21 &&& 0x1FF = a / hugeSize % 512 := by
  have hdiv : a >>> 21 = a / hugeSize := by rw [Nat.shiftRight_eq_div_pow, hugeSize]
  rw [hdiv]
  exact Nat.and_two_pow_sub_one_eq_mod _ 9

/-- The pages of two tables are different pages. -/
theorem huge_inj (h : [0, q' / 512] = [0, q / 512] ∧ q' % 512 = q % 512) : q' = q := by
  obtain ⟨h1, h2⟩ := h
  simp only [List.cons.injEq, and_true, true_and] at h1
  omega

theorem huge_and_mask (hq : q < 2 ^ 18) : q * hugeSize &&& xptHugeMask = q * hugeSize := by
  have hmask : xptHugeMask = (2 ^ 31 - 1) <<< 21 := by decide
  have hshift : q * hugeSize = q <<< 21 := (Nat.shiftLeft_eq q 21).symm
  rw [hmask, hshift, ← Nat.shiftLeft_and_distrib, Nat.and_two_pow_sub_one_eq_mod,
    Nat.mod_eq_of_lt (by omega)]

theorem hugeEntry_eq (hq : q < 2 ^ 18) :
    hugeEntry q fl = q * 512 * frameSize ||| (fl ||| xptHuge) := by
  have hsize : q * hugeSize = q * 512 * frameSize := by
    simp only [hugeSize, frameSize]
    omega
  rw [hugeEntry, huge_and_mask hq, hsize, Nat.or_assoc]

theorem hugeEntry_lt (hq : q < 2 ^ 18) (hfl : fl < frameSize) : hugeEntry q fl < 2 ^ 64 := by
  rw [hugeEntry_eq hq]
  refine entry_lt (by omega) (Nat.or_lt_two_pow ?_ (by decide))
  exact lt_trans hfl (by decide)

/-- A flag of the entry of a page. -/
theorem hugeEntry_flag (hq : q < 2 ^ 18) (hm : m < frameSize) :
    hugeEntry q fl &&& m = (fl ||| xptHuge) &&& m := by
  rw [hugeEntry_eq hq]
  exact entry_flag _ _ hm

/-- The address of the entry of a page. -/
theorem hugeEntry_addr (hq : q < 2 ^ 18) (hfl : (fl ||| xptHuge) &&& xptHugeMask = 0) :
    hugeEntry q fl &&& xptHugeMask = q * hugeSize := by
  rw [hugeEntry, huge_and_mask hq, Nat.or_assoc, Nat.and_or_distrib_right, huge_and_mask hq, hfl,
    Nat.or_zero]

end Huge

/-! ## Reading the map -/

section Read

theorem kid_eq_some : kid s f i = some t ↔
    entry s f i &&& xptPresent ≠ 0 ∧ (entry s f i &&& xptAddrMask) / frameSize = t := by
  rw [kid]
  split <;> simp_all

/-- **`xpt_translate` and `xpt_attributes`** of an address in a 2 MiB page. -/
theorem read_huge (hpml4 : s.pml4Phys = r * frameSize) (hr : r ≠ 0) (ha : a / hugeSize < 2 ^ 18)
    (he : hugeAt s r (a / hugeSize) = some e) (hhuge : e &&& xptHuge ≠ 0)
    (haddr : e &&& xptHugeMask = a / hugeSize * hugeSize) :
    xptTranslate s a = some a ∧ xptAttributes s a = some e := by
  have hne : s.pml4Phys ≠ 0 := by
    rw [hpml4]
    exact Nat.mul_ne_zero hr (by decide)
  have hroot : s.pml4Phys / frameSize = r := by rw [hpml4, Nat.mul_div_cancel r (by decide)]
  rw [hugeAt, leafAt] at he
  obtain ⟨t, hw, hleaf⟩ := Option.bind_eq_some_iff.mp he
  simp only [walk, Option.bind_eq_some_iff, kid_eq_some, Option.some.injEq] at hw
  obtain ⟨t1, ⟨h1, ht1⟩, t2, ⟨h2, ht2⟩, rfl⟩ := hw
  by_cases h3 : entry s t2 (a / hugeSize % 512) &&& xptPresent = 0
  · rw [if_pos h3] at hleaf
    cases hleaf
  rw [if_neg h3, Option.some.injEq] at hleaf
  have hjoin : (a / hugeSize * hugeSize) ||| (a &&& (hugeSize - 1)) = a := by
    have hmod : a &&& (hugeSize - 1) = a % hugeSize := Nat.and_two_pow_sub_one_eq_mod a 21
    have hlt : a % hugeSize < 2 ^ 21 := Nat.mod_lt a (by decide)
    have hmul : a / hugeSize * hugeSize = 2 ^ 21 * (a / hugeSize) := Nat.mul_comm _ _
    rw [hmod, hmul, ← Nat.two_pow_add_eq_or_of_lt hlt]
    exact Nat.div_add_mod a hugeSize
  simp only [xptTranslate, xptAttributes, if_neg hne, hroot, hugeIndex_39 ha, hugeIndex_30 ha,
    hugeIndex_21, if_neg h1, ht1, if_neg h2, ht2, hleaf]
  rw [hleaf] at h3
  rw [if_neg (by simp [h3, hhuge]), if_neg h3, if_neg hhuge, haddr, hjoin]
  exact ⟨rfl, rfl⟩

end Read

/-! ## The passes -/

/-- The body of the loop of `map_huge`, at the address `a`. -/
def hugeTurn (pml4 flags a : ℕ) : KProg Unit := do
  let pdpt ← nextLevel pml4 (a >>> 39 &&& 0x1FF) xptKernelRw
  let pd ← nextLevel pdpt (a >>> 30 &&& 0x1FF) xptKernelRw
  let idx := a >>> 21 &&& 0x1FF
  let s ← Prog.get
  if entry s (pd / frameSize) idx &&& xptPresent = 0 then
    Prog.modify (setEntry (pd / frameSize) idx (a &&& xptHugeMask ||| flags ||| xptHuge))
      fun _ => rfl
  else pure ()

theorem mapHuge_eq (pml4 start last flags : ℕ) : mapHuge pml4 start last flags =
    Prog.iterate ((last + hugeSize - 1) / hugeSize - start / hugeSize)
      (fun k _ => hugeTurn pml4 flags ((start / hugeSize + k) * hugeSize)) () := by
  have hcount : (last + hugeSize - 1 - alignDown start hugeSize) / hugeSize =
      (last + hugeSize - 1) / hugeSize - start / hugeSize := by
    rw [alignDown, Nat.mul_comm, Nat.sub_mul_div]
  have haddr : ∀ k, (start / hugeSize + k) * hugeSize = alignDown start hugeSize + k * hugeSize :=
    fun k => Nat.add_mul _ _ _
  simp only [haddr, ← hcount]
  rfl

/-- The pages from `start` to `last`. -/
def HugeRange (start last q : ℕ) : Prop := start / hugeSize ≤ q ∧
    q < (last + hugeSize - 1) / hugeSize

instance (start last : ℕ) : DecidablePred (HugeRange start last) :=
  fun _ => inferInstanceAs (Decidable (_ ∧ _))

/-- `s'` is `s` with the absent pages among `N` mapped to themselves. -/
structure HugeFilled (s : Xeret) (r : ℕ) (N : ℕ → Prop) [DecidablePred N] (fl : ℕ) (s' : Xeret) :
    Prop where
  tree : KernelTree s' r
  huge : ∀ q < 2 ^ 18,
    hugeAt s' r q = (hugeAt s r q).or (if N q then some (hugeEntry q fl) else none)
  window : ∀ σ, KernelPath σ → σ.head? = some xptMmioPml4 → walk (kid s') r σ = walk (kid s) r σ

section Pass

variable {P : Finset (List ℕ)} [DecidablePred M] [DecidablePred N]

theorem HugeFilled.refl (h : KernelTree s r) (hN : ∀ q, ¬ N q) : HugeFilled s r N fl s := by
  refine ⟨h, fun q _ => ?_, fun _ _ _ => rfl⟩
  rw [if_neg (hN q), Option.or_none]

theorem HugeFilled.congr (h : HugeFilled s r M fl s') (hiff : ∀ q, M q ↔ N q) :
    HugeFilled s r N fl s' := by
  refine ⟨h.tree, fun q hq => ?_, h.window⟩
  rw [h.huge q hq]
  congr 1
  exact if_congr (hiff q) rfl rfl

theorem HugeFilled.trans (h1 : HugeFilled s r M fl s') (h2 : HugeFilled s' r N fl s'') :
    HugeFilled s r (fun q => M q ∨ N q) fl s'' := by
  refine ⟨h2.tree, fun q hq => ?_, fun σ hσ hh => (h2.window σ hσ hh).trans (h1.window σ hσ hh)⟩
  rw [h2.huge q hq, h1.huge q hq, Option.or_assoc]
  congr 1
  by_cases hM : M q
  · simp [hM]
  · simp [hM]

/-- One turn of `map_huge`. -/
theorem wp_hugeTurn (h : KernelTree s r) (hq : q < 2 ^ 18) (hfl : fl < frameSize)
    (hpres : fl &&& xptPresent ≠ 0) (hP : ∀ σ ∈ P, KernelPath σ) (hzero : [0] ∈ P)
    (hmem : [0, q / 512] ∈ P) :
    (hugeTurn (r * frameSize) fl (q * hugeSize)).wp (fun _ s' => HugeFilled s r (· = q) fl s' ∧
      Paid s r P s')
      (fun _ _ => s.phys.freeFrames < missing s r P) s := by
  have hdiv : q * hugeSize / hugeSize = q := Nat.mul_div_cancel q (by decide)
  have hpath := kernelPath_huge hq
  have hlast := lastLevel_huge q
  rw [hugeTurn]
  simp only [hugeIndex_39 (hdiv.symm ▸ hq), hugeIndex_30 (hdiv.symm ▸ hq), hugeIndex_21, hdiv,
    wp_bind]
  refine wp_mono (wp_nextLevel_paid (π := []) h hP hzero rfl) (fun a1 s1 _ h1 => ?_)
    fun _ _ _ he => he.2
  obtain ⟨f1, rfl, h1, hp1⟩ := h1
  have ht1 := h1.kernelTree h
  rw [wp_bind]
  refine wp_mono (wp_nextLevel_paid (π := [0]) ht1 hP hmem h1.walk_self) (fun a2 s2 _ h2 => ?_)
    fun _ _ _ he => hp1.short he.2
  obtain ⟨f2, rfl, h2, hp2⟩ := h2
  have ht2 := h2.kernelTree ht1
  have hw : walk (kid s2) r [0, q / 512] = some f2 := h2.walk_self
  have hsame : ∀ σ j, KernelPath σ → LastLevel σ → leafAt s2 r σ j = leafAt s r σ j :=
    fun σ j hσ hl => (h2.leafAt_eq hσ hl j).trans (h1.leafAt_eq hσ hl j)
  have hwin : ∀ σ, KernelPath σ → σ.head? = some xptMmioPml4 →
      walk (kid s2) r σ = walk (kid s) r σ := by
    intro σ hσ hhead
    rw [h2.walk_of_ne hσ, h1.walk_of_ne hσ]
    · rintro rfl
      exact absurd (Option.some.inj hhead) (by decide)
    · rintro rfl
      exact absurd (Option.some.inj hhead) (by decide)
  have hcur : hugeAt s r q =
      if entry s2 f2 (q % 512) &&& xptPresent = 0 then none else some (entry s2 f2 (q % 512)) := by
    rw [hugeAt, ← hsame _ _ hpath hlast, leafAt, hw, Option.bind_some]
  simp only [wp_bind, wp_get, wp_ite, wp_modify, wp_pure,
    Nat.mul_div_cancel f2 (show 0 < frameSize by decide)]
  constructor
  · intro hempty
    rw [if_pos hempty] at hcur
    have hv : hugeEntry q fl &&& xptPresent ≠ 0 := by
      rw [hugeEntry_flag hq (by decide), Nat.and_or_distrib_right]
      intro h0
      exact hpres (Nat.or_eq_zero_iff.mp h0).1
    have hset := fun σ hσ k => ht2.leafAt_setEntry (j := q % 512) hpath hlast hw
      (hugeEntry_lt hq hfl) hv (σ := σ) hσ k
    refine ⟨⟨ht2.setLeaf hpath hlast hw _ _, fun q' hq' => ?_, fun σ hσ hhead => ?_⟩,
      (hp1.trans hp2).trans (ht2.paid_setLeaf hP hpath hlast hw _ _)⟩
    · rw [hugeAt, ← hugeEntry, hset _ (kernelPath_huge hq'), hsame _ _ (kernelPath_huge hq')
        (lastLevel_huge q'), ← hugeAt]
      by_cases heq : q' = q
      · subst heq
        rw [if_pos ⟨rfl, rfl⟩, if_pos rfl, hcur, Option.none_or]
      · rw [if_neg fun hno => heq (huge_inj hno), if_neg heq, Option.or_none]
    · rw [ht2.walk_setEntry hpath hlast hw _ _ hσ]
      exact hwin σ hσ hhead
  · intro hfull
    rw [if_neg hfull] at hcur
    refine ⟨⟨ht2, fun q' hq' => ?_, hwin⟩, hp1.trans hp2⟩
    rw [hugeAt, hsame _ _ (kernelPath_huge hq') (lastLevel_huge q'), ← hugeAt]
    by_cases heq : q' = q
    · subst heq
      rw [hcur, Option.some_or]
    · rw [if_neg heq, Option.or_none]

/-- **`map_huge`** maps the absent pages of its range, or there are fewer free frames than missing
tables. -/
theorem wp_mapHuge (h : KernelTree s r) (hspan : last ≤ pml4Span) (hfl : fl < frameSize)
    (hpres : fl &&& xptPresent ≠ 0) (hP : ∀ σ ∈ P, KernelPath σ)
    (hmem : ∀ q < 2 ^ 18, [0] ∈ P ∧ [0, q / 512] ∈ P) :
    (mapHuge (r * frameSize) start last fl).wp
      (fun _ s' => HugeFilled s r (HugeRange start last) fl s' ∧ Paid s r P s')
      (fun _ _ => s.phys.freeFrames < missing s r P) s := by
  have hhi : (last + hugeSize - 1) / hugeSize ≤ 2 ^ 18 := by
    rw [pml4Span] at hspan
    rw [hugeSize]
    omega
  rw [mapHuge_eq]
  -- after `k` turns the first `k` pages are mapped
  refine wp_mono (wp_iterate
    (fun k _ s' => HugeFilled s r (fun q => start / hugeSize ≤ q ∧ q < start / hugeSize + k) fl s' ∧
      Paid s r P s')
    ⟨HugeFilled.refl h fun q => by omega, Paid.refl⟩ fun k _ s1 hk hI => ?_) (fun _ s' _ hs => ?_)
      fun _ _ _ he => he
  · obtain ⟨h0, h1⟩ := hmem (start / hugeSize + k) (by omega)
    refine wp_mono (wp_hugeTurn hI.1.tree (by omega) hfl hpres hP h0 h1) (fun _ s2 _ hs => ?_)
      fun _ _ _ he => hI.2.short he
    exact ⟨(hI.1.trans hs.1).congr fun q => by omega, hI.2.trans hs.2⟩
  · refine ⟨hs.1.congr fun q => ?_, hs.2⟩
    rw [HugeRange]
    omega

/-- A pass that is made only if `c`, and what comes after it. -/
theorem wp_mapHuge_if {c : Prop} [Decidable c] {k : KProg Unit} {Q : Unit → Xeret → Prop}
    {E : XasError → Xeret → Prop} (h : KernelTree s r) (hspan : c → last ≤ pml4Span)
    (hfl : fl < frameSize) (hpres : fl &&& xptPresent ≠ 0) (hP : ∀ σ ∈ P, KernelPath σ)
    (hmem : ∀ q < 2 ^ 18, [0] ∈ P ∧ [0, q / 512] ∈ P)
    (hk : ∀ s', HugeFilled s r (fun q => c ∧ HugeRange start last q) fl s' → Paid s r P s' →
      k.wp Q E s')
    (hE : s.phys.freeFrames < missing s r P → ∀ e s', E e s') :
    (if c then do
      mapHuge (r * frameSize) start last fl
      k
    else k).wp Q E s := by
  by_cases hc : c
  · rw [if_pos hc, wp_bind]
    refine wp_mono (wp_mapHuge h (hspan hc) hfl hpres hP hmem) (fun _ s' _ hs => ?_)
      fun e s' _ he => hE he e s'
    exact hk s' (hs.1.congr fun q => by simp [hc]) hs.2
  · rw [if_neg hc]
    exact hk s (HugeFilled.refl h fun q hq => hc hq.1) Paid.refl

end Pass

/-! ## The map -/

section Map

/-- The pages of devices: the window below 4 GiB and the framebuffer. -/
def DevicePage (extraBase extraSize q : ℕ) : Prop :=
  HugeRange xptMmioBase fourGib q ∨ extraSize ≠ 0 ∧ HugeRange extraBase (extraBase + extraSize) q

instance : DecidablePred (DevicePage extraBase extraSize) :=
  fun _ => inferInstanceAs (Decidable (_ ∨ _))

/-- The pages of memory, below the window and above 4 GiB. -/
def MemoryPage (physEnd q : ℕ) : Prop :=
  HugeRange 0 (alignUp (if physEnd < xptMmioBase then physEnd else xptMmioBase) hugeSize) q ∨
    fourGib < physEnd ∧ HugeRange fourGib (alignUp physEnd hugeSize) q

instance : DecidablePred (MemoryPage physEnd) := fun _ => inferInstanceAs (Decidable (_ ∨ _))

def memoryFlags : ℕ := xptKernelRw ||| xptGlobal

def deviceFlags : ℕ := xptKernelRw ||| xptGlobal ||| xptUc

/-- The page table after the start: a page is that of a device, or of memory, or absent, and the
window for devices is empty. -/
structure KernelMap (s : Xeret) (r physEnd extraBase extraSize : ℕ) : Prop where
  tree : KernelTree s r
  root : s.pml4Phys = r * frameSize
  pos : 0 < r
  next : s.mmioNext = xptMmioVa
  huge : ∀ q < 2 ^ 18, hugeAt s r q =
    if DevicePage extraBase extraSize q then some (hugeEntry q deviceFlags)
    else if MemoryPage physEnd q then some (hugeEntry q memoryFlags) else none
  window : ∃ f, walk (kid s) r [xptMmioPml4] = some f
  empty : ∀ i < xptEnts, walk (kid s) r [xptMmioPml4, i] = none

/-- A table without entries is a page table without pages. -/
theorem kernelTree_root {c : ℕ} {p : PhysBitmap} (hmax : s.phys.totalFrames ≤ bitmapMaxFrames)
    (h0 : s.phys.isFree 0 = false) (htook : TookRun s.phys c 1 p) :
    KernelTree (zeroFrames (c * frameSize) 1 { s with phys := p }) c ∧
      ∀ π, π ≠ [] → walk (kid (zeroFrames (c * frameSize) 1 { s with phys := p })) c π = none := by
  have hzero : ∀ i, entry (zeroFrames (c * frameSize) 1 { s with phys := p }) c i = 0 := by
    intro i
    apply entry_of_zero
    simp [zeroFrames, Nat.mul_div_cancel c (show 0 < frameSize by decide)]
  have hnone : ∀ π, π ≠ [] → walk (kid (zeroFrames (c * frameSize) 1 { s with phys := p })) c π =
      none := by
    intro π hπ
    cases π with
    | nil => exact absurd rfl hπ
    | cons i is => simp [walk, kid, hzero]
  have hnil : ∀ π f, walk (kid (zeroFrames (c * frameSize) 1 { s with phys := p })) c π = some f →
      π = [] ∧ f = c := by
    intro π f hw
    by_cases hπ : π = []
    · subst hπ
      exact ⟨rfl, (Option.some.inj hw).symm⟩
    · rw [hnone π hπ] at hw
      cases hw
  refine ⟨⟨htook.counted, htook.total.symm ▸ hmax, ?_, fun π f _ hw => ?_,
    fun π π' f _ _ hw hw' => ?_,
    fun π i t _ hw hpres => ?_, fun i _ _ _ => by rw [hzero, Nat.zero_and], fun π f _ hw => ?_⟩,
      hnone⟩
  · change p.isFree 0 = false
    rw [htook.isFree, h0, Bool.false_and]
  · rw [(hnil π f hw).2]
    change p.isFree c = false
    simp [htook.isFree]
  · rw [(hnil π f hw).1, (hnil π' f hw').1]
  · rw [(hnil π t hw).2, hzero, Nat.zero_and] at hpres
    exact absurd rfl hpres
  · rw [(hnil π f hw).2]
    exact lt_of_lt_of_eq (Nat.lt_of_succ_le htook.run.1) htook.total.symm

/-- The arguments `xpt_init_identity` refuses. -/
def Refuses (hasNx : Bool) (physEnd extraBase extraSize : ℕ) : Prop :=
  physEnd = 0 ∨ pml4Span < alignUp physEnd hugeSize ∨
    (extraSize ≠ 0 ∧ (pml4Span < (extraBase + extraSize) % 2 ^ 64 ∨
      (extraBase + extraSize) % 2 ^ 64 < extraBase)) ∨ hasNx = false

/-- Both kinds of flags make an entry that is present and that says nothing about its address. -/
theorem flags_ok : memoryFlags < frameSize ∧ memoryFlags &&& xptPresent ≠ 0 ∧
    deviceFlags < frameSize ∧ deviceFlags &&& xptPresent ≠ 0 := by decide

/-- The passes, from an empty page table. -/
theorem KernelMap.of_passes (hr : 0 < r) (hempty : ∀ π, π ≠ [] → walk (kid s) r π = none)
    (h1 : HugeFilled s r (HugeRange xptMmioBase fourGib) deviceFlags s1)
    (h2 : HugeFilled s1 r (fun q => extraSize ≠ 0 ∧ HugeRange extraBase (extraBase + extraSize) q)
      deviceFlags s2)
    (h3 : HugeFilled s2 r
      (HugeRange 0 (alignUp (if physEnd < xptMmioBase then physEnd else xptMmioBase) hugeSize))
      memoryFlags s3)
    (h4 : HugeFilled s3 r (fun q => fourGib < physEnd ∧
      HugeRange fourGib (alignUp physEnd hugeSize) q) memoryFlags s4)
    (h5 : Stepped s4 r [] xptMmioPml4 f s5) :
    KernelMap { s5 with pml4Phys := r * frameSize, mmioNext := xptMmioVa } r physEnd extraBase
      extraSize := by
  have hnone : ∀ σ j, LastLevel σ → leafAt s r σ j = none := by
    intro σ j hσ
    rw [leafAt, hempty σ, Option.bind_none]
    rintro rfl
    rcases hσ with h | h <;> simp at h
  have hdev : HugeFilled s r (DevicePage extraBase extraSize) deviceFlags s2 := h1.trans h2
  have hmem : HugeFilled s2 r (MemoryPage physEnd) memoryFlags s4 := h3.trans h4
  have htree := h5.kernelTree h4.tree
  refine ⟨⟨htree.counted, htree.total_le, htree.zero, htree.used, htree.unique, htree.upper,
    htree.absent, htree.lt⟩, rfl, hr, rfl, fun q hq => ?_, ⟨f, h5.walk_self⟩, fun i hi => ?_⟩
  · have hpage : hugeAt s5 r q = hugeAt s4 r q :=
      h5.leafAt_eq (kernelPath_huge hq) (lastLevel_huge q) _
    change hugeAt s5 r q = _
    rw [hpage, hmem.huge q hq, hdev.huge q hq, hugeAt, hnone _ _ (lastLevel_huge q), Option.none_or]
    by_cases hd : DevicePage extraBase extraSize q
    · rw [if_pos hd, if_pos hd, Option.some_or]
    · rw [if_neg hd, if_neg hd, Option.none_or]
  · have hpath := kernelPath_window hi
    have hold : walk (kid s5) r [xptMmioPml4, i] = walk (kid s4) r [xptMmioPml4, i] :=
      h5.walk_of_ne hpath (by simp)
    change walk (kid s5) r _ = none
    rw [hold, hmem.window _ hpath rfl, hdev.window _ hpath rfl, hempty _ (by simp)]

theorem alignUp_low_le (physEnd : ℕ) :
    alignUp (if physEnd < xptMmioBase then physEnd else xptMmioBase) hugeSize ≤ pml4Span := by
  have hlow : (if physEnd < xptMmioBase then physEnd else xptMmioBase) ≤ xptMmioBase := by
    split <;> omega
  rw [xptMmioBase] at hlow
  rw [alignUp, xptMmioBase, hugeSize, pml4Span]
  omega

/-- The tables the map can need below its root. -/
def identityTables : Finset (List ℕ) :=
  insert [xptMmioPml4] (insert [0] ((Finset.range 512).image fun i => [0, i]))

theorem card_identityTables : identityTables.card ≤ 514 := by
  have h1 := Finset.card_insert_le [xptMmioPml4]
    (insert [0] ((Finset.range 512).image fun i => [0, i]))
  have h2 := Finset.card_insert_le [0] ((Finset.range 512).image fun i => [0, i])
  have h3 : ((Finset.range 512).image fun i => [0, i]).card ≤ 512 := by
    simpa using Finset.card_image_le (s := Finset.range 512) (f := fun i => [0, i])
  rw [identityTables]
  omega

theorem mem_identityTables (hq : q < 2 ^ 18) :
    [0] ∈ identityTables ∧ [0, q / 512] ∈ identityTables := by
  have hlt : q / 512 < 512 := by omega
  simp [identityTables, hlt]

theorem kernelPath_identityTables : ∀ σ ∈ identityTables, KernelPath σ := by
  intro σ hσ
  simp only [identityTables, Finset.mem_insert, Finset.mem_image, Finset.mem_range] at hσ
  rcases hσ with rfl | rfl | ⟨i, hi, rfl⟩
  · exact ⟨by decide, by decide⟩
  · exact kernelPath_zero
  · have hpath := kernelPath_huge (q := i * 512) (by omega)
    rwa [Nat.mul_div_cancel i (by decide)] at hpath

/-- **`xpt_init_identity`** makes the map, or refuses its arguments, or has too few frames. -/
theorem wp_xptInitIdentity (hasNx : Bool) (physEnd : ℕ) (hc : Counted s.phys)
    (hmax : s.phys.totalFrames ≤ bitmapMaxFrames) (h0 : s.phys.isFree 0 = false)
    (hbase : extraBase < 2 ^ 64) (hsize : extraSize < 2 ^ 64) :
    (xptInitIdentity hasNx physEnd extraBase extraSize).wp
      (fun _ s' => ¬ Refuses hasNx physEnd extraBase extraSize ∧
        s.phys.freeFrames ≤ s'.phys.freeFrames + 515 ∧
        ∃ r < s.phys.totalFrames, KernelMap s' r physEnd extraBase extraSize)
      (fun _ _ => Refuses hasNx physEnd extraBase extraSize ∨ s.phys.freeFrames ≤ 514) s := by
  rw [xptInitIdentity]
  simp only [wp_bind, wp_failIf]
  refine ⟨fun h => Or.inl (Or.inl h), fun hpos => ⟨fun h => Or.inl (Or.inr (Or.inl h)), fun hend =>
    ⟨fun h => Or.inl (Or.inr (Or.inr (Or.inl h))),
      fun hextra => ⟨fun h => Or.inl (Or.inr (Or.inr (Or.inr h))), fun hnx => ?_⟩⟩⟩⟩
  have hok : ¬ Refuses hasNx physEnd extraBase extraSize := by
    rintro (h | h | h | h)
    · exact hpos h
    · exact hend h
    · exact hextra h
    · exact hnx h
  have hlast : extraSize ≠ 0 → extraBase + extraSize ≤ pml4Span := by
    intro hne
    have hfit : ¬ (pml4Span < (extraBase + extraSize) % 2 ^ 64 ∨
      (extraBase + extraSize) % 2 ^ 64 < extraBase) := fun h => hextra ⟨hne, h⟩
    rw [pml4Span] at hfit ⊢
    omega
  obtain ⟨hm1, hm2, hd1, hd2⟩ := flags_ok
  have hP := kernelPath_identityTables
  have hmem : ∀ q < 2 ^ 18, [0] ∈ identityTables ∧ [0, q / 512] ∈ identityTables :=
    fun q => mem_identityTables
  refine wp_mono (wp_allocZeroTable_counted hc h0) (fun addr s1 _ hs => ?_) fun e s' _ he => ?_
  swap
  · right
    rw [hc.free_eq_zero he.2.2]
    exact Nat.zero_le _
  obtain ⟨r, p, rfl, hr, htook, rfl⟩ := hs
  obtain ⟨htree, hempty⟩ := kernelTree_root hmax h0 htook
  have hfree : p.freeFrames + 1 = s.phys.freeFrames := htook.free_add hc
  generalize hs1 : zeroFrames (r * frameSize) 1 { s with phys := p } = s1 at htree hempty ⊢
  have hphys : s1.phys = p := by rw [← hs1]; rfl
  have hcard : missing s1 r identityTables ≤ identityTables.card := Finset.card_filter_le _ _
  have h514 := card_identityTables
  -- too few frames at any later step are too few frames here
  have hshort : s1.phys.freeFrames < missing s1 r identityTables → s.phys.freeFrames ≤ 514 := by
    intro hlt
    rw [hphys] at hlt
    omega
  rw [wp_bind]
  refine wp_mono (wp_mapHuge htree (by decide) hd1 hd2 hP hmem) (fun _ s2 _ h2 => ?_)
    fun _ _ _ he => Or.inr (hshort he)
  refine wp_mapHuge_if h2.1.tree hlast hd1 hd2 hP hmem (fun s3 h3 hp3 => ?_) fun he _ _ => Or.inr
    (hshort (h2.2.short he))
  replace hp3 := h2.2.trans hp3
  rw [wp_bind]
  refine wp_mono (wp_mapHuge h3.tree (alignUp_low_le physEnd) hm1 hm2 hP hmem) (fun _ s4 _ h4 => ?_)
    fun _ _ _ he => Or.inr (hshort (hp3.short he))
  have hp4 := hp3.trans h4.2
  refine wp_mapHuge_if h4.1.tree (fun _ => Nat.le_of_not_lt hend) hm1 hm2 hP hmem
    (fun s5 h5 hp5 => ?_)
    fun he _ _ => Or.inr (hshort (hp4.short he))
  replace hp5 := hp4.trans hp5
  rw [wp_bind]
  refine wp_mono (wp_nextLevel_paid (π := []) h5.tree hP (Finset.mem_insert_self _ _) rfl)
    (fun addr s6 _ h6 => ?_)
    fun _ _ _ he => Or.inr (hshort (hp5.short he.2))
  obtain ⟨f, _, hstep, hp6⟩ := h6
  have hpaid := hp5.trans hp6
  rw [Paid, hphys] at hpaid
  simp only [wp_modify]
  exact ⟨hok, by omega, r, htook.run.1, KernelMap.of_passes hr hempty h2.1 h3 h4.1 h5 hstep⟩

end Map

/-! ## What the kernel relies on -/

/-- The addresses of the device window and of the framebuffer. -/
def DeviceAddr (extraBase extraSize a : ℕ) : Prop :=
  xptMmioBase ≤ a ∧ a < fourGib ∨ extraBase ≤ a ∧ a < extraBase + extraSize

/-- Memory and devices are mapped to themselves, for the kernel only, and devices uncached; the user
half is empty, so no address space is refused for it. -/
structure IdentityMap (s : Xeret) (physEnd extraBase extraSize : ℕ) : Prop where
  translate : ∀ a, a < physEnd ∨ DeviceAddr extraBase extraSize a → xptTranslate s a = some a
  supervisor : ∀ a, a < physEnd ∨ DeviceAddr extraBase extraSize a →
    ∃ e, xptAttributes s a = some e ∧ e &&& xptUser = 0
  uncached : ∀ a, DeviceAddr extraBase extraSize a → ∃ e, xptAttributes s a = some e ∧
    e &&& xptUc = xptUc
  absent : ∀ i, 1 ≤ i → i < xptKernelHalf → entry s (s.pml4Phys / frameSize) i &&& xptPresent = 0
  creates : ∀ a owner s', owner ≠ ownerKernel → (xasCreate a owner).run s ≠ (.error .arg, s')

section Identity

variable {hasNx : Bool}

theorem devicePage_of_addr (h : DeviceAddr extraBase extraSize a) :
    DevicePage extraBase extraSize (a / hugeSize) := by
  rcases h with h | h
  · left
    simp only [HugeRange, xptMmioBase, fourGib, hugeSize] at h ⊢
    omega
  · right
    simp only [HugeRange, hugeSize] at h ⊢
    omega

/-- Below the last 2 MiB of the 64 bits the size is rounded up. -/
theorem alignUp_hugeSize (h : physEnd ≤ 2 ^ 64 - 2 ^ 21) : physEnd ≤ alignUp physEnd hugeSize := by
  rw [alignUp, hugeSize]
  omega

theorem memoryPage_of_addr (h : physEnd ≤ 2 ^ 64 - 2 ^ 21) (ha : a < physEnd)
    (hdev : ¬ DeviceAddr extraBase extraSize a) : MemoryPage physEnd (a / hugeSize) := by
  by_cases hlow : a < xptMmioBase
  · left
    have hround : a < alignUp (if physEnd < xptMmioBase then physEnd else xptMmioBase)
        hugeSize := by
      refine lt_of_lt_of_le ?_ (alignUp_hugeSize ?_)
      · split <;> omega
      · rw [xptMmioBase]
        split <;> omega
    generalize alignUp (if physEnd < xptMmioBase then physEnd else xptMmioBase) hugeSize =
      e at hround ⊢
    rw [HugeRange, hugeSize]
    omega
  · right
    have hhigh : fourGib ≤ a := by
      by_contra hno
      exact hdev (Or.inl ⟨by omega, by omega⟩)
    have hround : a < alignUp physEnd hugeSize := lt_of_lt_of_le ha (alignUp_hugeSize h)
    refine ⟨by omega, ?_⟩
    generalize alignUp physEnd hugeSize = e at hround ⊢
    rw [fourGib] at hhigh
    rw [HugeRange, fourGib, hugeSize]
    omega

/-- An address in memory or of a device is in the first 512 GiB. -/
theorem lt_span_of_addr (hok : ¬ Refuses hasNx physEnd extraBase extraSize)
    (hbase : extraBase < 2 ^ 64) (hsize : extraSize < 2 ^ 64) (h : physEnd ≤ 2 ^ 64 - 2 ^ 21)
    (ha : a < physEnd ∨ DeviceAddr extraBase extraSize a) : a / hugeSize < 2 ^ 18 := by
  simp only [Refuses, not_or, not_and, not_lt, pml4Span] at hok
  obtain ⟨_, hend, hextra, _⟩ := hok
  rw [hugeSize]
  rcases ha with ha | ha | ha
  · have hround := alignUp_hugeSize h
    omega
  · rw [fourGib] at ha
    omega
  · have hfit := hextra (by omega)
    omega

theorem KernelMap.read_device (h : KernelMap s r physEnd extraBase extraSize)
    (ha : a / hugeSize < 2 ^ 18) (hdev : DevicePage extraBase extraSize (a / hugeSize)) :
    xptTranslate s a = some a ∧
      xptAttributes s a = some (hugeEntry (a / hugeSize) deviceFlags) := by
  refine read_huge h.root (by have := h.pos; omega) ha ?_ ?_ (hugeEntry_addr ha (by decide))
  · rw [h.huge _ ha, if_pos hdev]
  · rw [hugeEntry_flag ha (by decide)]
    decide

theorem KernelMap.read_memory (h : KernelMap s r physEnd extraBase extraSize)
    (ha : a / hugeSize < 2 ^ 18) (hdev : ¬ DevicePage extraBase extraSize (a / hugeSize))
    (hmem : MemoryPage physEnd (a / hugeSize)) :
    xptTranslate s a = some a ∧
      xptAttributes s a = some (hugeEntry (a / hugeSize) memoryFlags) := by
  refine read_huge h.root (by have := h.pos; omega) ha ?_ ?_ (hugeEntry_addr ha (by decide))
  · rw [h.huge _ ha, if_neg hdev, if_pos hmem]
  · rw [hugeEntry_flag ha (by decide)]
    decide

theorem KernelMap.absent (h : KernelMap s r physEnd extraBase extraSize) (h1 : 1 ≤ i)
    (hi : i < xptKernelHalf) : entry s (s.pml4Phys / frameSize) i &&& xptPresent = 0 := by
  rw [h.root, Nat.mul_div_cancel r (by decide)]
  refine h.tree.absent i ?_ (by omega) ?_
  · exact lt_trans hi (by decide)
  · rintro rfl
    exact absurd hi (by decide)

/-- The address of the second entry of the root is not mapped. -/
theorem KernelMap.translate_span (h : KernelMap s r physEnd extraBase extraSize) :
    xptTranslate s pml4Span = none := by
  have habs : entry s (s.pml4Phys / frameSize) (pml4Span >>> 39 &&& 0x1FF) &&& xptPresent = 0 :=
    h.absent (by decide) (by decide)
  rw [xptTranslate]
  split
  · rfl
  · simp only [habs, if_true]

/-- **`xas_create`** does not refuse the map of the kernel. -/
theorem KernelMap.creates (h : KernelMap s r physEnd extraBase extraSize) {owner : OwnerId}
    (howner : owner ≠ ownerKernel) :
    (xasCreate a owner).wp (fun _ _ => True) (fun e _ => e ≠ .arg) s := by
  have hroot : s.pml4Phys ≠ 0 := by
    rw [h.root]
    exact Nat.mul_ne_zero (by have := h.pos; omega) (by decide)
  simp only [xasCreate, wp_bind, wp_get, wp_failIf]
  refine ⟨fun hno => absurd hno (by simp [hroot, howner]), fun _ => ?_⟩
  refine wp_mono (wp_allocZeroTable_counted h.tree.counted h.tree.zero) (fun addr s1 _ hs => ?_)
    fun e _ _ he => ?_
  · obtain ⟨c, p, rfl, _, htook, rfl⟩ := hs
    -- the new table is not the root, so the root has the same entries
    have hne : r ≠ c := by
      rintro rfl
      have hused := h.tree.used [] r kernelPath_nil rfl
      rw [htook.run.2 r le_rfl (by omega)] at hused
      cases hused
    have hdiv : s.pml4Phys / frameSize = r := by rw [h.root, Nat.mul_div_cancel r (by decide)]
    have hent : ∀ i, entry (zeroFrames (c * frameSize) 1 { s with phys := p }) r i =
        entry s r i := fun i =>
      entry_congr ((NewRoot.fresh (s := s) (c := c) (p := p)).mem r hne)
    have hcdiv : c * frameSize / frameSize = c := Nat.mul_div_cancel c (by decide)
    simp only [wp_bind, wp_get, wp_ite, hcdiv]
    refine ⟨fun hany => ?_, fun _ => ?_⟩
    · obtain ⟨i, hi, hpres⟩ := List.any_eq_true.mp hany
      obtain ⟨h1, h2⟩ := List.mem_range'_1.mp hi
      have habs := h.absent h1 (show i < xptKernelHalf by rw [xptKernelHalf] at h2 ⊢; omega)
      have hpml4 : (zeroFrames (c * frameSize) 1 { s with phys := p }).pml4Phys / frameSize =
        r := hdiv
      rw [hdiv] at habs
      rw [hpml4, hent, habs] at hpres
      simp at hpres
    · simp only [wp_bind, wp_modify]
      refine wp_mono (wp_iterate (E := fun _ _ => False) (fun _ _ _ => True) trivial
        fun n _ t _ _ => ?_)
        (fun _ _ _ _ => trivial) fun _ _ _ hf => hf.elim
      simp only [wp_bind, wp_get, wp_modify]
  · rw [he.1]
    decide

/-- **`xpt_init_identity` makes the identity map**, for each size of the memory that can be rounded
up to 2 MiB in 64 bits, and for no other. -/
theorem identityMap_iff (hc : Counted s.phys) (hmax : s.phys.totalFrames ≤ bitmapMaxFrames)
    (h0 : s.phys.isFree 0 = false) (hbase : extraBase < 2 ^ 64) (hsize : extraSize < 2 ^ 64)
    (hrun : (xptInitIdentity hasNx physEnd extraBase extraSize).run s = (.ok (), s')) :
    IdentityMap s' physEnd extraBase extraSize ↔ physEnd ≤ 2 ^ 64 - 2 ^ 21 := by
  have hwp := wp_xptInitIdentity hasNx physEnd hc hmax h0 hbase hsize
  rw [Prog.wp, hrun] at hwp
  obtain ⟨hok, _, r, _, h⟩ := hwp
  constructor
  · intro hid
    by_contra hbig
    have hlt : pml4Span < physEnd := by
      rw [pml4Span]
      omega
    have hsome := hid.translate pml4Span (Or.inl hlt)
    rw [h.translate_span] at hsome
    cases hsome
  · intro hle
    have hdev : ∀ a, DeviceAddr extraBase extraSize a →
        xptTranslate s' a = some a ∧
          xptAttributes s' a = some (hugeEntry (a / hugeSize) deviceFlags) := fun a ha =>
      h.read_device (lt_span_of_addr hok hbase hsize hle (Or.inr ha)) (devicePage_of_addr ha)
    have hread : ∀ a, a < physEnd ∨ DeviceAddr extraBase extraSize a → a / hugeSize < 2 ^ 18 ∧
      xptTranslate s' a = some a ∧
        ∃ fl, (fl = deviceFlags ∨ fl = memoryFlags) ∧
          xptAttributes s' a = some (hugeEntry (a / hugeSize) fl) := by
      intro a ha
      have hspan := lt_span_of_addr hok hbase hsize hle ha
      by_cases hpage : DevicePage extraBase extraSize (a / hugeSize)
      · obtain ⟨h1, h2⟩ := h.read_device hspan hpage
        exact ⟨hspan, h1, deviceFlags, Or.inl rfl, h2⟩
      · have hno : ¬ DeviceAddr extraBase extraSize a := fun hd => hpage (devicePage_of_addr hd)
        obtain ⟨h1, h2⟩ := h.read_memory hspan hpage
          (memoryPage_of_addr hle (ha.resolve_right hno) hno)
        exact ⟨hspan, h1, memoryFlags, Or.inr rfl, h2⟩
    refine ⟨fun a ha => (hread a ha).2.1, fun a ha => ?_, fun a ha => ?_,
      fun i h1 hi => h.absent h1 hi, fun a owner s2 hne hfail => ?_⟩
    · obtain ⟨hspan, _, fl, hfl, hattr⟩ := hread a ha
      refine ⟨_, hattr, ?_⟩
      rw [hugeEntry_flag hspan (by decide)]
      rcases hfl with rfl | rfl <;> decide
    · obtain ⟨hspan, _⟩ := hread a (Or.inr ha)
      refine ⟨_, (hdev a ha).2, ?_⟩
      rw [hugeEntry_flag hspan (by decide)]
      decide
    · have hwp := h.creates (a := a) hne
      rw [Prog.wp, hfail] at hwp
      exact hwp rfl

/-- With frames for all tables, only the arguments can be refused. -/
theorem exists_xptInitIdentity (hc : Counted s.phys) (hmax : s.phys.totalFrames ≤ bitmapMaxFrames)
    (h0 : s.phys.isFree 0 = false) (hbase : extraBase < 2 ^ 64) (hsize : extraSize < 2 ^ 64)
    (hmany : 514 < s.phys.freeFrames) (hok : ¬ Refuses hasNx physEnd extraBase extraSize) :
    ∃ s', (xptInitIdentity hasNx physEnd extraBase extraSize).run s = (.ok (), s') ∧
      s.phys.freeFrames ≤ s'.phys.freeFrames + 515 ∧ ∃ r < s.phys.totalFrames,
        KernelMap s' r physEnd extraBase extraSize := by
  have hwp := wp_and (wp_run (xptInitIdentity hasNx physEnd extraBase extraSize) s)
    (wp_xptInitIdentity hasNx physEnd hc hmax h0 hbase hsize)
  rw [Prog.wp] at hwp
  cases hrun : (xptInitIdentity hasNx physEnd extraBase extraSize).run s with
  | mk res s' =>
    rw [hrun] at hwp
    cases res with
    | error e =>
      rcases hwp.2 with hno | hfew
      · exact absurd hno hok
      · omega
    | ok u => exact ⟨s', rfl, hwp.2.2⟩

end Identity

theorem counted_bootXeret : Counted bootXeret.phys := ⟨by decide +kernel, by decide⟩

/-- A machine with 1 GiB of memory and a framebuffer at 2 GiB. -/
theorem identityMap_one_gib :
    ∃ s', (xptInitIdentity true 0x40000000 0x80000000 0x800000).run bootXeret = (.ok (), s') ∧
      IdentityMap s' 0x40000000 0x80000000 0x800000 := by
  have hok : ¬ Refuses true 0x40000000 0x80000000 0x800000 := by
    rw [Refuses]
    decide
  obtain ⟨s', hrun, _⟩ := exists_xptInitIdentity counted_bootXeret (by decide) (by decide)
    (by decide) (by decide) (by decide) hok
  exact ⟨s', hrun, (identityMap_iff counted_bootXeret (by decide) (by decide) (by decide)
    (by decide) hrun).mpr (by decide)⟩

/-- A size of 2⁶⁴ - 1 is rounded up to 0 and accepted; the address 512 GiB below it is not
mapped. -/
theorem identityMap_rounds_to_zero :
    ∃ s', (xptInitIdentity true (2 ^ 64 - 1) 0 0).run bootXeret = (.ok (), s') ∧
    pml4Span < 2 ^ 64 - 1 ∧ xptTranslate s' pml4Span = none := by
  have hok : ¬ Refuses true (2 ^ 64 - 1) 0 0 := by
    rw [Refuses]
    decide
  obtain ⟨s', hrun, _, _, _, h⟩ := exists_xptInitIdentity counted_bootXeret (by decide) (by decide)
    (by decide) (by decide) (by decide) hok
  exact ⟨s', hrun, by decide, h.translate_span⟩

end Xasmos.Kernel
