import Xasmos.Kernel.Tenants

/-!
# The user half as a flat map

The four levels of the tables of an address space stand for one partial function: the entry of
each page, which is what `walk_pte` finds. Seen this way, `xas_map`, `xas_unmap` and
`xas_revoke_token` are updates of that function at the pages of one token, and a call that fails is
no update at all. The records of the mappings and the counts in the ledger follow the same function.

## Main definitions

* `leafEntry` — the entry of the page of an address, if it is present.

## Main results

* `KernelRun.flat_map` — what the calls do to the functions of all address spaces.
* `KernelRun.map_counts` — records, counts and entries agree, so a token that is mapped is never
  released.
-/
namespace Xasmos.Kernel

open Radix

variable {B D : ℕ → Prop} {a i j k p r va : ℕ} {s s' : Xeret}

/-- The entry of the page at `va`, as `walk_pte` finds it, if it is present. -/
def leafEntry (s : Xeret) (pml4 va : ℕ) : Option ℕ :=
  (walkPte s pml4 va).bind
    fun pte => if entry s pte.1 pte.2 &&& xptPresent = 0 then none else some (entry s pte.1 pte.2)

/-- An address of the user half. -/
def UserAddr (va : ℕ) : Prop := userBase ≤ va ∧ va < userTop

section Leaf

theorem userAddr_iff : UserAddr va ↔ UserPage (va / frameSize) := by
  simp only [UserAddr, UserPage, userBase, userTop, frameSize]
  omega

/-- An address is walked by its page. -/
theorem walkPte_page (s : Xeret) (pml4 va : ℕ) :
    walkPte s pml4 va = walkPte s pml4 (va / frameSize * frameSize) := by
  have hpage : (va / frameSize * frameSize) >>> 12 = va >>> 12 := by
    rw [Nat.shiftRight_eq_div_pow, Nat.shiftRight_eq_div_pow]
    exact Nat.mul_div_cancel _ (by decide)
  have hshift : ∀ n, 12 ≤ n → va >>> n = (va / frameSize * frameSize) >>> n := by
    intro n hn
    obtain ⟨m, rfl⟩ := Nat.exists_eq_add_of_le hn
    rw [Nat.shiftRight_add, Nat.shiftRight_add, hpage]
  rw [walkPte, walkPte, hshift 39 (by decide), hshift 30 (by decide), hshift 21 (by decide),
    hshift 12 (by decide)]

theorem leafEntry_eq (h : TreesOk s) (hr : IsRoot s r) (hva : UserAddr va) :
    leafEntry s (r * frameSize) va = pteAt s r (va / frameSize) := by
  rw [leafEntry, walkPte_page, walkPte_eq h hr (userAddr_iff.mp hva), pteAt]
  cases walk (kid s) r (pathOf (va / frameSize)) <;> rfl

/-- The entries of a live address space. -/
theorem TreesOk.exists_root (h : TreesOk s) (ha : (s.spaces a).live = true) :
    ∃ r, (s.spaces a).pml4Phys = r * frameSize ∧ IsRoot s r ∧
      ∀ va, UserAddr va → leafEntry s (s.spaces a).pml4Phys va = pteAt s r (va / frameSize) := by
  obtain ⟨r, hroot⟩ := (h.space a ha).1
  refine ⟨r, hroot, ⟨a, ha, hroot⟩, fun va hva => ?_⟩
  rw [hroot]
  exact leafEntry_eq h ⟨a, ha, hroot⟩ hva

end Leaf

/-! ## The calls as updates -/

/-- The part of every page table that is the kernel's: its own tables, and the entries of each root
outside the user half. -/
structure KernelHalfKept (B : ℕ → Prop) (s s' : Xeret) : Prop where
  pml4Phys : s'.pml4Phys = s.pml4Phys
  boot : SameBoot B s s'
  entries : ∀ a i, (s.spaces a).live = true → ¬ (1 ≤ i ∧ i < xptKernelHalf) →
    entry s' ((s.spaces a).pml4Phys / frameSize) i = entry s ((s.spaces a).pml4Phys / frameSize) i

/-- In `s'` the entry of address `va` of the address space `b` is `g b va`; the half of the kernel
is as in `s`. -/
structure Updates (B : ℕ → Prop) (s : Xeret) (g : ℕ → ℕ → Option ℕ) (s' : Xeret) : Prop where
  spaces : s'.spaces = s.spaces
  leaf : ∀ b va, (s.spaces b).live = true → UserAddr va →
    leafEntry s' (s.spaces b).pml4Phys va = g b va
  kernel : KernelHalfKept B s s'

/-- The address `va` of the root `pml4` is in the mapping. -/
structure MapRec.Within (m : MapRec) (pml4 va : ℕ) : Prop where
  root : m.asPml4 = pml4
  le : m.virt ≤ va
  lt : va < m.virt + m.pages * frameSize

open Classical in
/-- **The calls on a flat map.** -/
structure FlatMap (B : ℕ → Prop) (s : Xeret) : Prop where
  map_ok : ∀ a virt tok perms s', (xasMap a virt tok perms).run s = (.ok (), s') →
    ∃ k, Held s.ledger tok k ∧
    (∀ i < (s.ledger.table k).nFrames, UserAddr (virt + i * frameSize) ∧
      leafEntry s (s.spaces a).pml4Phys (virt + i * frameSize) = none) ∧
    Updates B s (fun b va =>
      if b = a ∧ virt ≤ va ∧ va < virt + (s.ledger.table k).nFrames * frameSize then
        some ((s.ledger.table k).phys + (va - virt) / frameSize * frameSize ||| leafFlags perms)
      else leafEntry s (s.spaces b).pml4Phys va) s'
  map_error : ∀ a virt tok perms e s', (xasMap a virt tok perms).run s = (.error e, s') →
    Updates B s (fun b va => leafEntry s (s.spaces b).pml4Phys va) s'
  unmap_ok : ∀ a virt s', (xasUnmap a virt).run s = (.ok (), s') → ∃ i, LiveRec s i ∧
    (s.maps i).virt = virt ∧
    (s.maps i).asPml4 = (s.spaces a).pml4Phys ∧
    Updates B s (fun b va =>
      if (s.maps i).Within (s.spaces b).pml4Phys va then none else leafEntry s
        (s.spaces b).pml4Phys va) s'
  unmap_error : ∀ a virt e s', (xasUnmap a virt).run s = (.error e, s') → s' = s
  revoke : ∀ tok, Updates B s (fun b va =>
    if ∃ i, LiveRec s i ∧ (s.maps i).tok = tok ∧
      (s.maps i).Within (s.spaces b).pml4Phys va then none
    else leafEntry s (s.spaces b).pml4Phys va) (xasRevokeToken tok s).2

section Updates

variable {g : ℕ → ℕ → Option ℕ}

theorem SameHalf.kernelHalfKept (h : SameHalf s s') (hs : TreesOk s)
    (hpml4 : s'.pml4Phys = s.pml4Phys) (hboot : SameBoot B s s') : KernelHalfKept B s s' := by
  refine ⟨hpml4, hboot, fun a i ha hi => ?_⟩
  obtain ⟨r, hroot⟩ := (hs.space a ha).1
  rw [hroot, Nat.mul_div_cancel r (by decide)]
  exact h r i ⟨a, ha, hroot⟩ hi

/-- An update is read off from the entries by page. -/
theorem Updates.of_pteAt (h : TreesOk s) (h' : TreesOk s') (hspaces : s'.spaces = s.spaces)
    (hk : KernelHalfKept B s s')
    (hleaf : ∀ b r va, (s.spaces b).live = true → (s.spaces b).pml4Phys = r * frameSize →
      IsRoot s r → UserAddr va →
      pteAt s' r (va / frameSize) = g b va) : Updates B s g s' := by
  refine ⟨hspaces, fun b va hb hva => ?_, hk⟩
  obtain ⟨r, hroot, hisRoot, -⟩ := h.exists_root hb
  rw [← hleaf b r va hb hroot hisRoot hva, hroot]
  exact leafEntry_eq h' ⟨b, by rw [hspaces]; exact hb, by rw [hspaces]; exact hroot⟩ hva

/-- A mapping of pages covers addresses. -/
theorem within_iff {m : MapRec} (hvirt : m.virt = p * frameSize) :
    m.Within (r * frameSize) va ↔ Covers m r (va / frameSize) := by
  have hpage : p * frameSize ≤ va / frameSize * frameSize ∧
    va / frameSize * frameSize < p * frameSize + m.pages * frameSize ↔
      p * frameSize ≤ va ∧ va < p * frameSize + m.pages * frameSize := by
    simp only [frameSize]
    omega
  constructor
  · rintro ⟨hroot, hle, hlt⟩
    rw [hvirt] at hle hlt
    obtain ⟨hle', hlt'⟩ := hpage.mpr ⟨hle, hlt⟩
    exact ⟨hroot, by rwa [hvirt], by rwa [hvirt]⟩
  · rintro ⟨hroot, hle, hlt⟩
    rw [hvirt] at hle hlt
    obtain ⟨hle', hlt'⟩ := hpage.mp ⟨hle, hlt⟩
    exact ⟨hroot, by rwa [hvirt], by rwa [hvirt]⟩

/-- A mapping that is made. -/
theorem Mapped.updates {tok : XToken} {perms : UInt32} (h : KInv B s)
    (hm : Mapped B s a r p tok perms k i s') :
    Updates B s (fun b va =>
      if b = a ∧ p * frameSize ≤ va ∧
        va < p * frameSize + (s.ledger.table k).nFrames * frameSize then
        some ((s.ledger.table k).phys + (va - p * frameSize) / frameSize * frameSize |||
          leafFlags perms)
      else leafEntry s (s.spaces b).pml4Phys va) s' := by
  apply Updates.of_pteAt h.toTreesOk hm.inv.toTreesOk hm.spaces
    (hm.half.kernelHalfKept h.toTreesOk hm.pml4Phys hm.sameBoot)
  intro b r' va hb hr' hisRoot hva
  have hsame : r' = r ↔ b = a := by
    constructor
    · rintro rfl
      exact h.space_inj b a hb hm.fits.space (hr'.trans hm.fits.root.symm)
    · rintro rfl
      exact Nat.eq_of_mul_eq_mul_right (by decide) (hr'.symm.trans hm.fits.root)
  have hrange : p ≤ va / frameSize ∧ va / frameSize < p + (s.ledger.table k).nFrames ↔
      p * frameSize ≤ va ∧ va < p * frameSize + (s.ledger.table k).nFrames * frameSize := by
    simp only [frameSize]
    omega
  rw [hm.pteAt_eq r' _ hisRoot (userAddr_iff.mp hva)]
  simp only [hsame, hrange]
  split
  next hin =>
    obtain ⟨c, hc⟩ := (h.tokens.token k hm.fits.held.live).1
    have hpage : (va - p * frameSize) / frameSize = va / frameSize - p := by
      simp only [frameSize]
      omega
    rw [hpage, hc, Nat.mul_div_cancel c (by decide), Nat.add_mul]
  next => rw [hr', leafEntry_eq h.toTreesOk hisRoot hva]

/-- Records that are dropped. -/
theorem Dropped.updates (h : KInv B s) (hd : Dropped B s D s') (hD : ∀ i, D i → LiveRec s i)
    (hgone : ∀ b va, (s.spaces b).live = true → UserAddr va →
      (∃ i, D i ∧ (s.maps i).Within (s.spaces b).pml4Phys va) → g b va = none)
    (hkept : ∀ b va, (s.spaces b).live = true → UserAddr va →
      (¬ ∃ i, D i ∧ (s.maps i).Within (s.spaces b).pml4Phys va) →
      g b va = leafEntry s (s.spaces b).pml4Phys va) : Updates B s g s' := by
  apply Updates.of_pteAt h.toTreesOk hd.inv.toTreesOk hd.spaces
    (hd.half.kernelHalfKept h.toTreesOk hd.pml4Phys hd.sameBoot)
  intro b r va hb hr hisRoot hva
  have hcover : ∀ i, D i →
      ((s.maps i).Within (s.spaces b).pml4Phys va ↔ Covers (s.maps i) r (va / frameSize)) := by
    intro i hi
    obtain ⟨_, _, p, _, _, hm⟩ := h.mapped.record i (hD i hi)
    rw [hr]
    exact within_iff hm.virt
  by_cases hin : ∃ i, D i ∧ (s.maps i).Within (s.spaces b).pml4Phys va
  · rw [hgone b va hb hva hin]
    obtain ⟨i, hi, hw⟩ := hin
    exact hd.gone i r _ hi hisRoot (userAddr_iff.mp hva) ((hcover i hi).mp hw)
  · rw [hkept b va hb hva hin, hr, leafEntry_eq h.toTreesOk hisRoot hva]
    exact hd.kept r _ hisRoot (userAddr_iff.mp hva) fun i hi hc => hin ⟨i, hi, (hcover i hi).mpr hc⟩

/-- **The calls on a flat map**, in a state that keeps the invariant. -/
theorem KInv.flatMap (h : KInv B s) : FlatMap B s := by
  constructor
  · intro a virt tok perms s' hrun
    obtain ⟨r, p, k, i, rfl, hm⟩ := (wp_xasMap h a virt tok perms).ok hrun
    refine ⟨k, hm.fits.held, fun j hj => ?_, hm.updates h⟩
    have haddr : UserAddr (p * frameSize + j * frameSize) := by
      rw [userAddr_iff, ← Nat.add_mul, Nat.mul_div_cancel _ (by decide)]
      exact hm.fits.userPage hj
    refine ⟨haddr, ?_⟩
    rw [hm.fits.root, leafEntry_eq h.toTreesOk ⟨a, hm.fits.space, hm.fits.root⟩ haddr,
      ← Nat.add_mul, Nat.mul_div_cancel _ (by decide)]
    exact hm.absent j hj
  · intro a virt tok perms e s' hrun
    obtain ⟨⟨hedit, hpages⟩, -⟩ := (wp_xasMap h a virt tok perms).error hrun
    apply Updates.of_pteAt h.toTreesOk hedit.layout.toTreesOk hedit.spaces
      (hedit.half.kernelHalfKept h.toTreesOk hedit.pml4Phys hedit.sameBoot)
    intro b r va _ hr hisRoot hva
    rw [hr, leafEntry_eq h.toTreesOk hisRoot hva]
    exact hpages r _ hisRoot (userAddr_iff.mp hva)
  · intro a virt s' hrun
    obtain ⟨i, hi, _, hroot, hvirt, hd⟩ := (wp_xasUnmap h a virt).ok hrun
    refine ⟨i, hi, hvirt, hroot, hd.updates h (fun j hj => hj ▸ hi) (fun b va _ _ hw => ?_)
      fun b va _ _ hw => ?_⟩
    · obtain ⟨_, rfl, hw⟩ := hw
      exact if_pos hw
    · exact if_neg fun hc => hw ⟨i, rfl, hc⟩
  · intro a virt e s' hrun
    exact ((wp_xasUnmap h a virt).error hrun).1
  · intro tok
    refine (xasRevokeToken_spec h tok).1.updates h (fun i hi => hi.1) (fun b va _ _ hw => ?_)
      fun b va _ _ hw => ?_
    · obtain ⟨i, hi, hw⟩ := hw
      exact if_pos ⟨i, hi.1, hi.2, hw⟩
    · exact if_neg fun hc => hw (hc.elim fun i hi => ⟨i, ⟨hi.1, hi.2.1⟩, hi.2.2⟩)

end Updates

/-- Counts, records and entries agree, and a token that is mapped cannot be released. -/
structure MapCounts (s : Xeret) : Prop where
  count : ∀ k tok, Held s.ledger tok k → (s.ledger.table k).mapCount = recordsOf s tok
  record : ∀ i, LiveRec s i → ∃ k, Held s.ledger (s.maps i).tok k ∧
    (s.maps i).pages = (s.ledger.table k).nFrames ∧
    ∀ j < (s.ledger.table k).nFrames, ∃ e,
    leafEntry s (s.maps i).asPml4 ((s.maps i).virt + j * frameSize) = some e ∧
      e &&& xptAddrMask = (s.ledger.table k).phys + j * frameSize
  unique : ∀ i j, LiveRec s i → LiveRec s j → (s.maps i).asPml4 = (s.maps j).asPml4 →
    (s.maps i).virt = (s.maps j).virt → i = j
  kept : ∀ i owner, LiveRec s i → (∃ e, xtokRelease (s.maps i).tok s = (.error e, s)) ∧
    (∃ e, xtokReleaseOwned (s.maps i).tok owner s = (.error e, s)) ∧
      ∃ e, xtokReclaim (s.maps i).tok s = (.error e, s)
  revoked : ∀ k tok, Held s.ledger tok k → (xtokReclaim tok (xasRevokeToken tok s).2).1 = .ok ()

section Counts

theorem leafFlags_and_addrMask (perms : UInt32) : leafFlags perms &&& xptAddrMask = 0 := by
  unfold leafFlags
  split_ifs <;> decide

/-- The frames of a token have addresses that an entry can hold. -/
theorem Layout.frame_lt (h : Layout B s) (hk : k < tableSlots)
    (hlive : (s.ledger.table k).live = true) (hj : j < (s.ledger.table k).nFrames) :
    (s.ledger.table k).phys / frameSize + j < 2 ^ 40 := by
  have := h.token_le hk hlive
  have := h.total_lt
  omega

/-- No call releases a token that a record names. -/
theorem KInv.releaseImpl_named (h : KInv B s) (hi : LiveRec s i) (checkRight checkOwner : Bool)
    (owner : OwnerId) :
    ∃ e, Kernel.releaseImpl (s.maps i).tok checkRight checkOwner owner s = (.error e, s) := by
  rcases releaseImpl_spec h.toLayout (s.maps i).tok checkRight checkOwner owner with he | ⟨k, hk,
    -, -, hr⟩
  · exact he
  · have hpos := MapsOk.recordsOf_pos hi
    rw [← h.mapped.count k _ hk, hr.unmapped] at hpos
    exact absurd hpos (Nat.lt_irrefl 0)

theorem KInv.mapCounts (h : KInv B s) : MapCounts s := by
  constructor
  · exact h.mapped.count
  · intro i hi
    obtain ⟨a, r, p, k, perms, hm⟩ := h.mapped.record i hi
    refine ⟨k, hm.held, hm.frames.symm, fun j hj => ?_⟩
    rw [hm.frames] at hj
    obtain ⟨c, hc⟩ := (h.tokens.token k hm.held.live).1
    have hlt := h.frame_lt hm.held.slot_lt hm.held.live (hm.frames ▸ hj)
    have haddr : UserAddr (p * frameSize + j * frameSize) := by
      rw [userAddr_iff, ← Nat.add_mul, Nat.mul_div_cancel _ (by decide)]
      exact hm.userPage hj
    refine ⟨_, ?_, entry_addr hlt (leafFlags_and_addrMask perms) |>.trans ?_⟩
    · rw [hm.asPml4, hm.virt, leafEntry_eq h.toTreesOk hm.isRoot haddr, ← Nat.add_mul,
        Nat.mul_div_cancel _ (by decide)]
      exact hm.pages j hj
    · rw [hc, Nat.mul_div_cancel c (by decide), Nat.add_mul]
  · exact fun i j hi hj => h.record_unique hi hj
  · intro i owner hi
    refine ⟨?_, h.releaseImpl_named hi true true owner, h.releaseImpl_named hi false false 0⟩
    obtain ⟨e, he⟩ := h.releaseImpl_named hi true false 0
    rw [xtokRelease, he]
    exact ⟨_, rfl⟩
  · intro k tok hk
    obtain ⟨hd, -, hcount⟩ := xasRevokeToken_spec h tok
    have hk' := hd.tokens.held_iff.mpr hk
    exact (releaseImpl_ok hd.inv.toLayout hk' false false (by simp) (by simp) (hcount k hk)).1

end Counts

/-- **Map counts and mapping records agree** in every state that a run reaches. -/
theorem KernelRun.map_counts {s₀ s : Xeret} (h : KernelRun s₀ s) : MapCounts s := h.kinv.mapCounts

theorem KernelRun.map_counts_tenants :
    ∃ s₀ s, KernelRun s₀ s ∧ Tenant s 0 7 ∧ Tenant s 1 8 ∧ MapCounts s := by
  obtain ⟨s₀, s, hrun, h0, h1, -⟩ := exists_tenants
  exact ⟨s₀, s, hrun, h0, h1, KernelRun.map_counts hrun⟩

end Xasmos.Kernel
