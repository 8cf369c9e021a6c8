import Xasmos.Kernel.Run

/-!
# Two processes

The results about runs are of interest where owners hold something.  Here is such a run: two
address spaces are made, each for an owner of its own, and each owner gets a token of one page,
which is mapped.  Every call of the run succeeds, for a reason that is stated for any state in
which there is room (`KInv.alloc_one`, `KInv.not_refused`).

## Main results

* `exists_newProcess` — one address space, and nothing else.
* `exists_tenants` — two owners with tokens and mapped pages, one of them with a quota.
-/
namespace Xasmos.Kernel

open Exb
open Function (update_self update_of_ne)

variable {B P : ℕ → Prop} {a c i k n : ℕ} {s s' s₀ t : Xeret}

/-! ## Calls that succeed -/

section Calls

variable {tok : XToken}

theorem freeSlot_ne_none {L : Ledger} (hk : k < tableSlots) (hfree : (L.table k).live = false) :
    freeSlot L ≠ none := by
  rw [freeSlot, ne_eq, Option.map_eq_none_iff, List.find?_eq_none]
  intro hall
  have hmod : L.nextHint % tableSlots < tableSlots := Nat.mod_lt _ (by decide)
  -- the scan starts at the hint and comes to every slot
  have hround : (L.nextHint + (k + (tableSlots - L.nextHint % tableSlots)) % tableSlots) %
      tableSlots = k := by
    simp only [tableSlots] at *
    omega
  refine hall ((k + (tableSlots - L.nextHint % tableSlots)) % tableSlots)
    (List.mem_range.mpr (Nat.mod_lt _ (by decide))) ?_
  rw [hround, hfree]
  rfl

/-- A page that is asked for is found, where a slot and a frame are free. -/
theorem KInv.alloc_one (h : KInv B s) (owner : OwnerId) (rights : UInt32) (hk : k < tableSlots)
    (hslot : (s.ledger.table k).live = false) (hframe : 0 < s.phys.freeFrames) :
    ∃ k b, (xtokAllocRam owner 1 rights s).1 = packToken k (s.ledger.table k).generation ∧
      (xtokAllocRam owner 1 rights s).1 ≠ tokenInvalid ∧
      Allocated s owner 1 rights k b (xtokAllocRam owner 1 rights s).2 := by
  rcases xtokAllocRam_spec h.toLayout owner 1 rights with ⟨hno, -⟩ | hsome
  · exfalso
    rcases physAllocFrames_spec h.counted h.isFree_zero Nat.one_pos with ⟨-, -, hfull⟩ | ⟨b, hb,
      h1, -, -⟩
    · have hzero := h.counted.free_eq_zero hfull
      omega
    · have hne : b * frameSize ≠ 0 := Nat.mul_ne_zero (by omega) (by decide)
      obtain ⟨j, hj⟩ := Option.ne_none_iff_exists'.mp (freeSlot_ne_none hk hslot)
      obtain ⟨hpos, hgen⟩ := h.tokens.gens j
      have hj32 : j < 2 ^ 32 := lt_trans (freeSlot_spec hj).1 (by decide)
      refine packToken_ne_invalid hj32 hgen hpos (Eq.trans ?_ hno)
      simp [xtokAllocRam, h1, hne, sealFrames, zeroFrames, sealRam, hj]
  · exact hsome

/-- A token of one page is ready to be mapped for reading and execution. -/
structure Ready (s : Xeret) (a : ℕ) (tok : XToken) (k : ℕ) : Prop where
  space : (s.spaces a).live = true
  held : Held s.ledger tok k
  owner : (s.ledger.table k).ownerId = (s.spaces a).ownerId
  one : (s.ledger.table k).nFrames = 1
  rights : (s.ledger.table k).rights = segRights 5
  unmapped : (s.ledger.table k).mapCount = 0
  noRecord : ∀ i, LiveRec s i → (s.maps i).owner ≠ (s.spaces a).ownerId
  record : ∃ i < maxMaps, (s.maps i).live = false
  free : 3 ≤ s.phys.freeFrames

theorem KInv.not_barred (h : KInv B t) (hr : Ready t a tok k) :
    ¬ MapBarred t a userBase tok (segPerms 5) := by
  intro hno
  cases hno with
  | space hno => simp [hr.space] at hno
  | perms hno | wx hno | align hno | range hno => revert hno; decide
  | count hno =>
    have hempty : mapsOf (t.spaces a).ownerId t = [] := by
      refine List.filter_eq_nil_iff.mpr fun i hi hlive => ?_
      rw [Bool.and_eq_true, beq_iff_eq] at hlive
      exact hr.noRecord i ⟨List.mem_range.mp hi, hlive.1⟩ hlive.2
    rw [hempty] at hno
    cases hno
  | token hno =>
    have hkind := (h.tokens.token k hr.held.live).2.2
    have hneed : segRights 5 &&& rightsFor (segPerms 5) = rightsFor (segPerms 5) := by decide
    simp [xtokMapAcquire, (lookupLive_eq_some_iff h.tokens.gens).mpr hr.held, hkind, hr.unmapped,
      hr.owner, hr.rights, hneed] at hno
  | size hk hno =>
    obtain rfl := hr.held.slot_unique h.tokens.gens hk
    rw [hr.one] at hno
    revert hno
    decide
  | records hno =>
    obtain ⟨i, hi, hdead⟩ := hr.record
    have hlive := List.find?_eq_none.mp hno i (List.mem_range.mpr hi)
    simp [hdead] at hlive

/-- The first mapping of an owner can be made. -/
theorem KInv.not_refused (h : KInv B t) (hr : Ready t a tok k) :
    ¬ MapRefused t a userBase tok (segPerms 5) := by
  intro hno
  cases hno with
  | barred hno => exact h.not_barred hr hno
  | @present r p k' j hvirt hf hj hno =>
    -- a page that is present has a record of the owner
    obtain ⟨e, he⟩ := Option.ne_none_iff_exists'.mp hno
    obtain ⟨i, hi, hcover⟩ := h.mapped.covered r (p + j) e ⟨a, hf.space, hf.root⟩
      (hf.userPage hj) he
    obtain ⟨b, r', p', k'', perms, hm⟩ := h.mapped.record i hi
    obtain ⟨rfl, -, -⟩ := hm.covers_iff.mp hcover
    obtain rfl := h.space_inj b a hm.space hf.space (hm.root.trans hf.root.symm)
    exact hr.noRecord i hi hm.owner.symm
  | frames hk hno =>
    obtain rfl := hr.held.slot_unique h.tokens.gens hk
    have hfree := hr.free
    rw [hr.one] at hno
    omega

/-- A call of `xas_create` succeeds where a frame is left. -/
theorem KernelRun.create (h : KernelRun s₀ s) (hdead : (s.spaces a).live = false) {owner : OwnerId}
    (howner : owner ≠ ownerKernel) (hfree : 0 < s.phys.freeFrames) :
    ∃ c s', KernelRun s₀ s' ∧ Created (bootFrames s₀) s a owner c s' := by
  have hwp := wp_xasCreate h.kinv hdead owner
  have hstep : KernelRun s₀ ((xasCreate a owner).run s).2 := .step h (.create hdead owner)
  cases hrun : (xasCreate a owner).run s with
  | mk res t =>
    rw [hrun] at hstep
    cases res with
    | ok u =>
      obtain ⟨c, hc⟩ := hwp.ok hrun
      exact ⟨c, t, hstep, hc⟩
    | error e =>
      obtain ⟨-, ho | hnone⟩ := hwp.error hrun
      · exact absurd ho howner
      · omega

end Calls

/-! ## One address space -/

/-- In `s` there is one address space, which was just made for owner 7, and nothing else. -/
structure NewProcess (B : ℕ → Prop) (s : Xeret) (c : ℕ) : Prop where
  inv : KInv B s
  space : s.spaces 0 = ⟨c * frameSize, 7, true⟩
  alone : ∀ a, a ≠ 0 → (s.spaces a).live = false
  ledger : s.ledger = emptyLedger
  noRecord : ∀ i, (s.maps i).live = false
  noQuota : ∀ i, (s.quota i).isSet = false
  tables : ∀ r π f, TableFrame s r π f → r = c ∧ π = []
  total : s.phys.totalFrames = 1024
  free : 252 ≤ s.phys.freeFrames

theorem Created.newProcess (hs : Booted s) (hc : Created (bootFrames s) s 0 7 c s')
    (htotal : s.phys.totalFrames = 1024) (hfree : 253 ≤ s.phys.freeFrames) :
    NewProcess (bootFrames s) s' c := by
  obtain ⟨p, mem, hcold⟩ := hs.cold
  have hcount := hc.took.free_add hs.kinv.counted
  refine ⟨hc.inv, by simp [hc.spaces], fun a ha => ?_, hc.ledger.trans hcold.ledger,
    fun i => ?_, fun i => ?_, fun r π f hf => ?_, hc.took.total.trans htotal, by omega⟩
  · rw [hc.spaces, update_of_ne ha, hs.not_live]
  · rw [hc.maps, hcold.maps]
    rfl
  · rw [hc.quota, hcold.quota]
    rfl
  · rcases (hc.uses f (.table r π)).mp hf with hold | ⟨-, heq⟩
    · -- there was no root before
      obtain ⟨b, hb, -⟩ := TableFrame.root hold
      rw [hs.not_live b] at hb
      cases hb
    · injection heq with hr hπ
      exact ⟨hr, hπ⟩

theorem exists_newProcess : ∃ s₀ s c, KernelRun s₀ s ∧ NewProcess (bootFrames s₀) s c := by
  obtain ⟨s, hs, htotal, hfree⟩ := exists_booted
  obtain ⟨c, t, hrun, hc⟩ := KernelRun.create (.start hs) (hs.not_live 0)
    (by decide : (7 : OwnerId) ≠ ownerKernel)
    (by omega)
  exact ⟨s, t, c, hrun, hc.newProcess hs htotal hfree⟩

/-! ## Two owners -/

/-- Address space `a` is live, belongs to `o` and shows the frames of a token of `o`. -/
structure Tenant (s : Xeret) (a : ℕ) (o : OwnerId) : Prop where
  live : (s.spaces a).live = true
  owner : (s.spaces a).ownerId = o
  maps : ∃ i r p k perms, LiveRec s i ∧ MapsToken s (s.maps i) a r p k perms

/-- Since `s` a token was made in slot `k` and mapped by record `i`, for address space `a`. -/
structure Served (s : Xeret) (a i k : ℕ) (s' : Xeret) : Prop where
  spaces : s'.spaces = s.spaces
  live : LiveRec s' i
  fresh : (s.maps i).live = false
  root : (s'.maps i).asPml4 = (s.spaces a).pml4Phys
  owner : (s'.maps i).owner = (s.spaces a).ownerId
  maps : ∀ j, j ≠ i → s'.maps j = s.maps j
  slots : ∀ j, j ≠ k → (s'.ledger.table j).live = (s.ledger.table j).live
  free : s.phys.freeFrames ≤ s'.phys.freeFrames + 4

section Tenants

theorem KInv.tenant (h : KInv B s) (ha : (s.spaces a).live = true) (hi : LiveRec s i)
    (hroot : (s.maps i).asPml4 = (s.spaces a).pml4Phys) : Tenant s a (s.spaces a).ownerId := by
  obtain ⟨b, r, p, k, perms, hm⟩ := h.mapped.record i hi
  obtain rfl := h.space_inj b a hm.space ha (hm.root.trans (hm.asPml4.symm.trans hroot))
  exact ⟨ha, rfl, i, r, p, k, perms, hi, hm⟩

/-- **An owner without a mapping gets one**: a token is made and mapped. -/
theorem KernelRun.serve (h : KernelRun s₀ s) (ha : (s.spaces a).live = true) (hk : k < tableSlots)
    (hslot : (s.ledger.table k).live = false) (hi : i < maxMaps) (hdead : (s.maps i).live = false)
    (hnone : ∀ j, LiveRec s j → (s.maps j).owner ≠ (s.spaces a).ownerId)
    (hfree : 4 ≤ s.phys.freeFrames) : ∃ i k s', KernelRun s₀ s' ∧ Served s a i k s' := by
  obtain ⟨j, b, htok, -, halloc⟩ := h.kinv.alloc_one (s.spaces a).ownerId (segRights 5) hk hslot
    (by omega)
  have hrun : KernelRun s₀ (xtokAllocRam (s.spaces a).ownerId 1 (segRights 5) s).2 :=
    .step h (.allocRam _ 1 _)
  revert htok halloc hrun
  generalize xtokAllocRam (s.spaces a).ownerId 1 (segRights 5) s = r
  intro htok halloc hrun
  have hcount := halloc.took.free_add h.kinv.counted
  have hentry : r.2.ledger.table j = sealed (s.spaces a).ownerId (b * frameSize) 1 (segRights 5)
      (s.ledger.table j) := by
    simp [halloc.ledger, sealSlot]
  have hlive : ∀ n, LiveRec r.2 n → LiveRec s n := fun n hn => ⟨hn.lt, halloc.maps ▸ hn.live⟩
  have hready : Ready r.2 a r.1 j := by
    refine ⟨by rw [halloc.spaces]; exact ha, ?_, by rw [hentry, halloc.spaces]; rfl,
      by rw [hentry]; rfl,
      by rw [hentry]; rfl, ?_, fun n hn => ?_, ⟨i, hi, by rw [halloc.maps]; exact hdead⟩, by omega⟩
    · rw [halloc.ledger, htok]
      exact (held_sealSlot halloc.slot_lt halloc.free).mpr (Or.inr ⟨rfl, rfl⟩)
    · rw [hentry]
      exact h.kinv.tokens.unmapped j halloc.free
    · rw [halloc.maps, halloc.spaces]
      exact hnone n (hlive n hn)
  have hwp := wp_xasMap hrun.kinv a userBase r.1 (segPerms 5)
  have hstep : KernelRun s₀ ((xasMap a userBase r.1 (segPerms 5)).run r.2).2 :=
    .step hrun (.map a userBase r.1 _)
  cases hmap : (xasMap a userBase r.1 (segPerms 5)).run r.2 with
  | mk res t =>
    rw [hmap] at hstep
    cases res with
    | error e => exact absurd (hwp.error hmap).2.1 (hrun.kinv.not_refused hready)
    | ok u =>
      obtain ⟨r', p, k', n, -, hm⟩ := hwp.ok hmap
      obtain rfl := hready.held.slot_unique hrun.kinv.tokens.gens hm.fits.held
      have htaken := hm.taken
      have hrec : t.maps n = newRec r.2 a (p * frameSize) r.1 (r.2.ledger.table j).nFrames := by
        rw [hm.maps, update_self]
      rw [hready.one] at htaken
      refine ⟨n, j, t, hstep, hm.spaces.trans halloc.spaces, ⟨hm.lt, by rw [hrec]; rfl⟩, ?_, ?_, ?_,
        fun m hn => ?_, fun m hn => ?_, by omega⟩
      · rw [← halloc.maps]
        exact hm.free
      · rw [hrec, newRec, halloc.spaces]
      · rw [hrec, newRec, halloc.spaces]
      · rw [hm.maps, update_of_ne hn, halloc.maps]
      · rw [hm.tokens.table m, halloc.ledger]
        simp [sealSlot, hn]

/-- A free place beside one that was taken. -/
theorem exists_other (hn : 1 < n) (h : ∀ j, j ≠ i → P j) : ∃ j < n, P j := by
  by_cases hi : i = 0
  · exact ⟨1, hn, h 1 (by omega)⟩
  · exact ⟨0, by omega, h 0 (by omega)⟩

/-- **Two owners**, each with a token that is mapped, and a quota of the first. -/
theorem exists_tenants :
    ∃ s₀ s, KernelRun s₀ s ∧ Tenant s 0 7 ∧ Tenant s 1 8 ∧ quotaOf 7 s = (2, 2) := by
  obtain ⟨s₀, s₁, c, hrun₁, hnew⟩ := exists_newProcess
  obtain ⟨c', s₂, hrun₂, hc⟩ := hrun₁.create (hnew.alone 1 (by decide))
    (by decide : (8 : OwnerId) ≠ ownerKernel)
    (by have := hnew.free; omega)
  have hfree₂ := hc.took.free_add hrun₁.kinv.counted
  have hspace₀ : s₂.spaces 0 = ⟨c * frameSize, 7, true⟩ := by
    rw [hc.spaces, update_of_ne (by decide), hnew.space]
  have hspace₁ : s₂.spaces 1 = ⟨c' * frameSize, 8, true⟩ := by rw [hc.spaces, update_self]
  have hmaps₂ : ∀ i, (s₂.maps i).live = false := fun i => by rw [hc.maps, hnew.noRecord]
  have hslots₂ : ∀ k, (s₂.ledger.table k).live = false :=
    fun k => by rw [hc.ledger, hnew.ledger]; rfl
  obtain ⟨i, k, s₃, hrun₃, hs₃⟩ := hrun₂.serve (a := 0) (k := 0) (i := 0) (by rw [hspace₀])
    (by decide) (hslots₂ 0)
    (by decide) (hmaps₂ 0) (fun j hj => absurd hj.live (by simp [hmaps₂]))
    (by have := hnew.free; omega)
  obtain ⟨k', hk', hslot⟩ := exists_other (n := tableSlots) (by decide) fun j hj =>
    (hs₃.slots j hj).trans (hslots₂ j)
  obtain ⟨i', hi', hdead⟩ := exists_other (n := maxMaps) (by decide) fun j hj =>
    (congrArg MapRec.live (hs₃.maps j hj)).trans (hmaps₂ j)
  have hother : ∀ j, LiveRec s₃ j → (s₃.maps j).owner ≠ (s₃.spaces 1).ownerId := by
    intro j hj
    by_cases hji : j = i
    · simp [hji, hs₃.owner, hs₃.spaces, hspace₀, hspace₁]
    · have hlive := hj.live
      rw [hs₃.maps j hji, hmaps₂] at hlive
      cases hlive
  obtain ⟨i₁, k₁, s₄, hrun₄, hs₄⟩ :=
    hrun₃.serve (a := 1) (by rw [hs₃.spaces, hspace₁]) hk' hslot hi' hdead hother
    (by have := hnew.free; have := hs₃.free; omega)
  -- the record of the first owner is still there
  have hne : i ≠ i₁ := by
    rintro rfl
    have hlive := hs₃.live.live
    rw [hs₄.fresh] at hlive
    cases hlive
  have hrec : s₄.maps i = s₃.maps i := hs₄.maps i hne
  have hspaces : s₄.spaces = s₂.spaces := hs₄.spaces.trans hs₃.spaces
  have hquota : KernelRun s₀ (xprocSetQuota 7 2 2 s₄).2 := .step hrun₄ (.setQuota 7 2 2)
  have hset : (xprocSetQuota 7 2 2 s₄).2 =
      { s₄ with quota := Function.update s₄.quota (7 : OwnerId).toNat ⟨2, 2, true⟩ } := rfl
  have h0 := hquota.kinv.tenant (a := 0) (i := i) (by rw [hset, hspaces, hspace₀])
    ⟨hs₃.live.lt, by rw [hset, hrec]; exact hs₃.live.live⟩ (by rw [hset, hrec, hs₃.root, hspaces])
  have h1 := hquota.kinv.tenant (a := 1) (i := i₁) (by rw [hset, hspaces, hspace₁])
    ⟨hs₄.live.lt, by rw [hset]; exact hs₄.live.live⟩ (by rw [hset, hs₄.root, hs₄.spaces])
  refine ⟨s₀, _, hquota, ?_, ?_, ?_⟩
  · have howner : ((xprocSetQuota 7 2 2 s₄).2.spaces 0).ownerId = 7 := by
      rw [hset, hspaces, hspace₀]
    rwa [howner] at h0
  · have howner : ((xprocSetQuota 7 2 2 s₄).2.spaces 1).ownerId = 8 := by
      rw [hset, hspaces, hspace₁]
    rwa [howner] at h1
  · have hmax : 7 < ownerMax := by decide
    simp [hset, quotaOf, hmax]

end Tenants

end Xasmos.Kernel
