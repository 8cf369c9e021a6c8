import Xasmos.Kernel.Boot
import Xasmos.Kernel.Identity

/-!
# The start of the kernel

`kernel_main` takes the frames over from the firmware, empties the ledger and makes the page
table of the kernel.  Nothing is known of the content of memory at that time.  From then on
the frames that are in use stay with the kernel: they are the frames `bootFrames` of every later
state.

## Main results

* `Booted.kinv` — the kernel starts in a state that satisfies the invariant.
* `exists_booted` — a machine on which it starts.
-/

namespace Xasmos.Kernel

open Bytes Radix Prog

/-- The kernel before it makes its page table. -/
def coldXeret (p : PhysBitmap) (mem : ℕ → Bytes) : Xeret :=
  ⟨p, emptyLedger, 0, fun _ => ⟨0, 0, 0, 0, 0, false⟩, mem, fun _ => ⟨0, 0, false⟩,
    fun _ => ⟨0, 0, false⟩, 0⟩

/-- The states in which the kernel is ready: `phys_init_from_handoff`, `xtok_init` and
`xpt_init_identity` have returned. -/
inductive Booted : Xeret → Prop where
  | start {hand : XeretHandoff} {p : PhysBitmap} {mem : ℕ → Bytes} {hasNx : Bool}
    {physEnd extraBase extraSize : ℕ} {s : Xeret}
      (hphys : physInitFromHandoff hand = some p) (hbase : extraBase < 2 ^ 64)
      (hsize : extraSize < 2 ^ 64)
      (hrun : (xptInitIdentity hasNx physEnd extraBase extraSize).run (coldXeret p mem) =
        (.ok (), s)) : Booted s

/-- The frames that are in use in `s`. -/
def bootFrames (s : Xeret) (f : ℕ) : Prop := f < s.phys.totalFrames ∧ s.phys.isFree f = false

/-! ## What making the page table leaves alone -/

/-- Frames were taken and memory was written. -/
structure OnlyTakes (s s' : Xeret) : Prop where
  ledger : s'.ledger = s.ledger
  maps : s'.maps = s.maps
  quota : s'.quota = s.quota
  spaces : s'.spaces = s.spaces
  free : ∀ f, s'.phys.isFree f = true → s.phys.isFree f = true

section OnlyTakes

variable {s t : Xeret}

theorem isFree_of_physAllocFrames {n f : ℕ} {p : PhysBitmap}
    (h : (physAllocFrames n p).2.isFree f = true) : p.isFree f = true := by
  rw [physAllocFrames] at h
  split_ifs at h
  · exact h
  · exact h
  · cases hscan : scanFrames p n p.totalFrames 0 0 0 with
    | none => simpa [hscan] using h
    | some start =>
      simp only [hscan, isFree_clearRun, Bool.and_eq_true] at h
      exact h.1

theorem OnlyTakes.setEntry (h : OnlyTakes s t) (f i v : ℕ) : OnlyTakes s (setEntry f i v t) :=
  ⟨h.ledger, h.maps, h.quota, h.spaces, h.free⟩

theorem preserves_allocZeroTable : allocZeroTable.Preserves (OnlyTakes s) := by
  rw [allocZeroTable]
  refine Preserves.get fun t h => ?_
  have halloc : OnlyTakes s { t with phys := (physAllocFrames 1 t.phys).2 } :=
    ⟨h.ledger, h.maps, h.quota, h.spaces, fun f hf => h.free f (isFree_of_physAllocFrames hf)⟩
  simp only [wp_bind, wp_modify, wp_failIf]
  exact ⟨fun _ => halloc, fun _ => ⟨halloc.ledger, halloc.maps, halloc.quota, halloc.spaces,
    halloc.free⟩⟩

theorem preserves_nextLevel (table idx flags : ℕ) :
    (nextLevel table idx flags).Preserves (OnlyTakes s) := by
  rw [nextLevel]
  refine Preserves.bind Preserves.get_self fun _ => Preserves.ite ?_ (Preserves.pure _)
  refine preserves_allocZeroTable.bind fun _ => Preserves.bind ?_ fun _ => Preserves.pure _
  exact Preserves.modify fun _ h => h.setEntry _ _ _

theorem preserves_hugeTurn (pml4 flags a : ℕ) :
    (hugeTurn pml4 flags a).Preserves (OnlyTakes s) := by
  rw [hugeTurn]
  refine (preserves_nextLevel _ _ _).bind fun _ => (preserves_nextLevel _ _ _).bind fun _ => ?_
  refine Preserves.bind Preserves.get_self fun _ => Preserves.ite ?_ (Preserves.pure _)
  exact Preserves.modify fun _ h => h.setEntry _ _ _

theorem preserves_mapHuge (pml4 start last flags : ℕ) :
    (mapHuge pml4 start last flags).Preserves (OnlyTakes s) := by
  rw [mapHuge_eq]
  exact Preserves.iterate fun _ _ => preserves_hugeTurn _ _ _

theorem preserves_xptInitIdentity (hasNx : Bool) (physEnd extraBase extraSize : ℕ) :
    (xptInitIdentity hasNx physEnd extraBase extraSize).Preserves (OnlyTakes s) := by
  have hlast : ∀ (pml4 : ℕ), (do
      let _ ← nextLevel pml4 xptMmioPml4 xptKernelRw
      Prog.modify (fun s => { s with pml4Phys := pml4, mmioNext := xptMmioVa }) fun _ => rfl :
        KProg Unit).Preserves (OnlyTakes s) :=
    fun pml4 => (preserves_nextLevel _ _ _).bind fun _ =>
      Preserves.modify fun _ h => ⟨h.ledger, h.maps, h.quota, h.spaces, h.free⟩
  rw [xptInitIdentity]
  refine (Preserves.failIf _ _).bind fun _ => (Preserves.failIf _ _).bind fun _ =>
    (Preserves.failIf _ _).bind fun _ => (Preserves.failIf _ _).bind
        fun _ => preserves_allocZeroTable.bind fun pml4 =>
    (preserves_mapHuge _ _ _ _).bind fun _ => ?_
  -- each optional region is followed by the rest of the function
  have hrest : (do
      mapHuge pml4 0 (alignUp (if physEnd < xptMmioBase then physEnd else xptMmioBase) hugeSize)
        (xptKernelRw ||| xptGlobal)
      if fourGib < physEnd then do
        mapHuge pml4 fourGib (alignUp physEnd hugeSize) (xptKernelRw ||| xptGlobal)
        let _ ← nextLevel pml4 xptMmioPml4 xptKernelRw
        Prog.modify (fun s => { s with pml4Phys := pml4, mmioNext := xptMmioVa }) fun _ => rfl
      else do
        let _ ← nextLevel pml4 xptMmioPml4 xptKernelRw
        Prog.modify (fun s => { s with pml4Phys := pml4, mmioNext := xptMmioVa }) fun _ => rfl :
          KProg Unit).Preserves (OnlyTakes s) :=
    (preserves_mapHuge _ _ _ _).bind fun _ => Preserves.ite
      ((preserves_mapHuge _ _ _ _).bind fun _ => hlast pml4) (hlast pml4)
  exact Preserves.ite ((preserves_mapHuge _ _ _ _).bind fun _ => hrest) hrest

end OnlyTakes

/-! ## The invariant at the start -/

theorem tokensOk_emptyLedger : TokensOk emptyLedger := by
  refine ⟨?_, ?_, ?_, ?_⟩
  all_goals simp [emptyLedger, GensOk]

section Booted

variable {s : Xeret}

/-- With nothing but the frames of the kernel in use, the invariant holds. -/
theorem KInv.of_boot {r : ℕ} (hc : Counted s.phys) (hmax : s.phys.totalFrames ≤ bitmapMaxFrames)
    (hfree : ∀ f, s.phys.isFree f = true → f < s.phys.totalFrames) (h0 : s.phys.isFree 0 = false)
    (hledger : s.ledger = emptyLedger) (hmaps : ∀ i, (s.maps i).live = false)
    (hspaces : ∀ a, (s.spaces a).live = false) (hroot : s.pml4Phys = r * frameSize) (hpos : 0 < r)
    (hlt : r < s.phys.totalFrames) (hused : s.phys.isFree r = false)
    (habsent : ∀ i, 1 ≤ i → i < xptKernelHalf → entry s r i &&& xptPresent = 0) :
    KInv (bootFrames s) s := by
  have hnoRoot : ∀ r', ¬ IsRoot s r' := by
    rintro r' ⟨a, ha, _⟩
    rw [hspaces a] at ha
    cases ha
  have hnoToken : ∀ k, (s.ledger.table k).live = false := fun k => by rw [hledger]; rfl
  have huses : ∀ f u, Uses (bootFrames s) s f u → u = .boot ∧ bootFrames s f := by
    intro f u hu
    cases u with
    | boot => exact ⟨rfl, hu⟩
    | token k =>
      have hlive := TokenFrame.live hu
      rw [hnoToken k] at hlive
      cases hlive
    | table r' π => exact absurd (TableFrame.root hu) (hnoRoot r')
  have hnoRec : ∀ i, ¬ LiveRec s i := by
    rintro i ⟨_, hi⟩
    rw [hmaps i] at hi
    cases hi
  have hframes : FramesOk (bootFrames s) s :=
    { counted := hc
      total_le := hmax
      free_lt := hfree
      boot_zero := ⟨by omega, h0⟩
      used := fun f u hu => (huses f u hu).2
      unique := fun f u u' hu hu' => (huses f u hu).1.trans (huses f u' hu').1.symm
      exact := fun f hf hnf => ⟨.boot, hf, hnf⟩ }
  have htrees : TreesOk s :=
    { space := fun a ha => by rw [hspaces a] at ha; cases ha
      space_inj := fun a _ ha => by rw [hspaces a] at ha; cases ha
      upper := fun r' _ _ _ hr' => absurd hr' (hnoRoot r') }
  refine { hframes, htrees with tokens := ?_, kernel := ?_, mapped := ?_ }
  · rw [hledger]
    exact tokensOk_emptyLedger
  · exact ⟨r, hroot, ⟨hlt, hused⟩, by omega, habsent⟩
  · refine ⟨fun i hi => absurd hi (hnoRec i), fun i _ _ _ hi => absurd hi (hnoRec i),
      fun r' _ _ hr' => absurd hr' (hnoRoot r'), fun k tok hk => ?_⟩
    have hlive := hk.live
    rw [hnoToken k] at hlive
    cases hlive

/-- **The kernel starts in a state that satisfies the invariant.** -/
theorem Booted.kinv (h : Booted s) : KInv (bootFrames s) s := by
  cases h with
  | @start hand p mem hasNx physEnd extraBase extraSize _ hphys hbase hsize hrun =>
    obtain ⟨hc, hmax, hfree⟩ := physInitFromHandoff_spec hphys
    have h0 := physInitFromHandoff_zero hphys
    have hwp := wp_and (wp_xptInitIdentity
      (s := coldXeret p mem) hasNx physEnd hc hmax h0 hbase hsize)
      (preserves_xptInitIdentity hasNx physEnd extraBase extraSize (coldXeret p mem)
        ⟨rfl, rfl, rfl, rfl, fun _ hf => hf⟩)
    have htotal : s.phys.totalFrames = p.totalFrames := by
      have hle := (xptInitIdentity hasNx physEnd extraBase extraSize).le_run (coldXeret p mem)
      rw [hrun] at hle
      exact hle
    obtain ⟨⟨_, _, r, hlt, hmap⟩, htakes⟩ := hwp.ok hrun
    have hroot : s.pml4Phys / frameSize = r := by rw [hmap.root, Nat.mul_div_cancel r (by decide)]
    refine KInv.of_boot hmap.tree.counted hmap.tree.total_le
      (fun f hf => ?_) hmap.tree.zero htakes.ledger (fun i => ?_) (fun a => ?_)
      hmap.root hmap.pos (htotal ▸ hlt) (hmap.tree.used [] r kernelPath_nil rfl) fun i h1 hi =>
      hroot ▸ hmap.absent h1 hi
    · rw [htotal]
      exact ((hfree f).mp (htakes.free f hf)).1
    · rw [htakes.maps]
      rfl
    · rw [htakes.spaces]
      rfl

/-- What starts with the page table made: no token, no mapping and no address space. -/
theorem Booted.cold (h : Booted s) : ∃ p mem, OnlyTakes (coldXeret p mem) s := by
  cases h with
  | @start hand p mem hasNx physEnd extraBase extraSize _ hphys hbase hsize hrun =>
    have hwp := preserves_xptInitIdentity hasNx physEnd extraBase extraSize (coldXeret p mem)
      ⟨rfl, rfl, rfl, rfl, fun _ hf => hf⟩
    exact ⟨p, mem, hwp.ok hrun⟩

theorem Booted.not_live (h : Booted s) (a : ℕ) : (s.spaces a).live = false := by
  obtain ⟨p, mem, hcold⟩ := h.cold
  rw [hcold.spaces]
  rfl

end Booted

/-! ## A machine -/

/-- A machine with 4 MiB of memory, all of it free above the first MiB. -/
def smallHandoff : XeretHandoff where
  magic := handoffMagic
  fb := ⟨0, 0, 0⟩
  mmapAddr := 4096
  mmap := putLE 8 (putLE 8 (putLE 4 (fun _ => 0) 0 7) 8 0x100000) 24 768
  mmapSize := 48
  mmapDescSize := 48
  physEnd := 0x400000

theorem desc_smallHandoff :
    smallHandoff.desc 0 = ⟨.conventionalMemory, 0x100000, 768⟩ := by decide +kernel

theorem total_smallHandoff {p : PhysBitmap} (h : physInitFromHandoff smallHandoff = some p) :
    p.totalFrames = 1024 :=
  (physInitFromHandoff_full h).2.1.trans (by decide)

theorem isFree_smallHandoff {p : PhysBitmap} (h : physInitFromHandoff smallHandoff = some p) {g : ℕ}
    (h1 : 256 ≤ g) (h2 : g < 1024) : p.isFree g = true := by
  have htotal := total_smallHandoff h
  obtain ⟨_, _, hfree⟩ := physInitFromHandoff_spec h
  refine (hfree g).mpr ⟨by omega, ⟨0, by decide, ?_⟩, ?_⟩
  · rw [desc_smallHandoff, MemoryDescriptor.Frees]
    exact ⟨rfl, by decide, h1, h2⟩
  · rintro (hlow | ⟨hbase, _⟩)
    · omega
    · exact hbase rfl

/-- The kernel starts on that machine, and hundreds of frames are left. -/
theorem exists_booted : ∃ s, Booted s ∧ s.phys.totalFrames = 1024 ∧ 253 ≤ s.phys.freeFrames := by
  obtain ⟨p, hp⟩ : ∃ p, physInitFromHandoff smallHandoff = some p := ⟨_, rfl⟩
  have htotal := total_smallHandoff hp
  obtain ⟨hc, hmax, _⟩ := physInitFromHandoff_spec hp
  have hfree : 768 ≤ p.freeFrames := by
    rw [hc.free_eq, htotal, Nat.count_eq_card_filter_range]
    have hsub : Finset.Ico 256 1024 ⊆ (Finset.range 1024).filter fun f => p.isFree f = true := by
      intro g hg
      rw [Finset.mem_Ico] at hg
      exact Finset.mem_filter.mpr ⟨Finset.mem_range.mpr hg.2, isFree_smallHandoff hp hg.1 hg.2⟩
    exact (Nat.card_Ico 256 1024).symm.le.trans (Finset.card_le_card hsub)
  have hok : ¬ Refuses true 0x400000 0 0 := by
    rw [Refuses]
    decide
  have hmany : 514 < (coldXeret p fun _ _ => 0).phys.freeFrames := lt_of_lt_of_le (by decide) hfree
  obtain ⟨s, hrun, hleft, _⟩ := exists_xptInitIdentity (s := coldXeret p fun _ _ => 0) hc hmax
    (physInitFromHandoff_zero hp)
    (by decide) (by decide) hmany hok
  refine ⟨s, .start hp (by decide) (by decide) hrun, ?_, ?_⟩
  · have hle := (xptInitIdentity true 0x400000 0 0).le_run (coldXeret p fun _ _ => 0)
    rw [hrun] at hle
    exact Eq.trans hle htotal
  · have hcold : (coldXeret p fun _ _ => 0).phys.freeFrames = p.freeFrames := rfl
    omega

end Xasmos.Kernel
