import Xasmos.Kernel.Isolation

/-!
# What an owner can hold, and what it leaves

The quota of an owner is checked twice: by `sys_alloc`, for one token, and by the loader, once for
all the parts of a program.  A process ends with `xproc_reap`, which gives back all that was taken
for it.

## Main results

* `KernelRun.quotas` — no call ends above the quota of its owner.
* `KernelRun.reaped` — after `xproc_reap` no frame belongs to the process.
-/

namespace Xasmos.Kernel

open Exb

/-! ## Quotas -/

/-- A call for `o` was charged to `o`: it ends within the quota if it succeeds, and with nothing
changed if it fails. -/
structure Charged (o : OwnerId) (ok : Prop) (s s' : Xeret) : Prop where
  within : ok → WithinQuota o s'
  failed : ¬ ok → xtokOwnerUsage o s' = xtokOwnerUsage o s
  others : ∀ o', o' ≠ o → xtokOwnerUsage o' s' = xtokOwnerUsage o' s

/-- The result of a load and the state after it. -/
def loaded (a : ℕ) (owner : OwnerId) (mem : ℕ → Bytes) (size : ℕ) (out : ExbInfo) (s : Xeret) :
    Except XLoadError XLoadResult × Xeret :=
  let load := (xloadExb amd64 a owner mem size out).run ⟨s, [], []⟩
  (load.1, load.2.st)

/-- Every call is charged to its owner, and both checks are those of the sums. -/
structure QuotasBind (s : Xeret) : Prop where
  alloc : ∀ a f, Charged (s.spaces a).ownerId ((sysAlloc a f s).1.rax = 0) s (sysAlloc a f s).2
  load : ∀ a owner mem size out, Charged owner (∃ r, (loaded a owner mem size out s).1 = .ok r) s
    (loaded a owner mem size out s).2
  allocSum : ∀ (n : UInt64) (quota used : UInt64 × UInt32), allocAllowed n quota used = true ↔
    used.2.toNat + 1 ≤ quota.2.toNat ∧ used.1.toNat + n.toNat ≤ quota.1.toNat
  loadSum : ∀ owner frames tokens, xlbQuotaOk owner frames tokens s = true ↔
    (xtokOwnerUsage owner s).1.toNat + frames.toNat ≤ (quotaOf owner s).1.toNat ∧
      (xtokOwnerUsage owner s).2.toNat + tokens.toNat ≤ (quotaOf owner s).2.toNat

theorem xlbQuotaOk_iff (owner : OwnerId) (frames : UInt64) (tokens : UInt32) (s : Xeret) :
    xlbQuotaOk owner frames tokens s = true ↔
      (xtokOwnerUsage owner s).1.toNat + frames.toNat ≤ (quotaOf owner s).1.toNat ∧
        (xtokOwnerUsage owner s).2.toNat + tokens.toNat ≤ (quotaOf owner s).2.toNat := by
  simp only [xlbQuotaOk]
  generalize xtokOwnerUsage owner s = used
  generalize quotaOf owner s = max
  have hsub : used.1.toNat ≤ max.1.toNat →
      (max.1 - used.1).toNat = max.1.toNat - used.1.toNat := fun hle =>
    UInt64.toNat_sub_of_le _ _ (UInt64.le_iff_toNat_le.mpr hle)
  have hsub' : used.2.toNat ≤ max.2.toNat →
      (max.2 - used.2).toNat = max.2.toNat - used.2.toNat := fun hle =>
    UInt32.toNat_sub_of_le _ _ (UInt32.le_iff_toNat_le.mpr hle)
  split_ifs with h1 h2 h3 <;> simp only [gt_iff_lt, UInt64.lt_iff_toNat_lt,
    UInt32.lt_iff_toNat_lt] at *
  · simp only [false_iff]
    omega
  · rw [hsub (by omega)] at h2
    simp only [false_iff]
    omega
  · rw [hsub' (by omega)] at h3
    simp only [false_iff]
    omega
  · rw [hsub (by omega)] at h2
    rw [hsub' (by omega)] at h3
    simp only [true_iff]
    omega

section Load

variable {B : ℕ → Prop} {s s' : Xeret} {a size : ℕ} {owner : OwnerId} {info : ExbInfo}
  {D : List (XToken × Part)}

/-- A program that was loaded is within the quota. -/
theorem Lent.withinQuota (hl : Lent B s a owner D D s') (h : KInv B s) (hsafe : InfoSafe size info)
    (hok : quotaPassed amd64 owner info s)
    (hD : D.map Prod.snd = infoParts (infoSegs info) info.stackBytes) : WithinQuota owner s' := by
  simp only [quotaPassed, amd64] at hok
  rw [xlbQuotaOk_iff] at hok
  obtain ⟨h1, h2⟩ := hok
  rw [hsafe.toNat_request.1] at h1
  rw [hsafe.toNat_request.2] at h2
  obtain ⟨h3, h4⟩ := h.toLayout.toNat_usage owner
  obtain ⟨h5, h6⟩ := hl.inv.toLayout.toNat_usage owner
  have hsum : (D.map fun d => d.2.pages).sum = info.imagePages + info.stackBytes / page := by
    rw [← hsafe.sum_pages, ← hD, List.map_map]
    rfl
  have hlen : D.length = info.segCount + 1 := by
    rw [← length_infoParts, ← hD, List.length_map]
  rw [hl.tokens.frames, if_pos rfl, hsum] at h5
  rw [hl.tokens.count, if_pos rfl, hlen] at h6
  have hquota : quotaOf owner s' = quotaOf owner s := by rw [quotaOf, quotaOf, hl.quota]
  rw [WithinQuota, hquota, UInt64.le_iff_toNat_le, UInt32.le_iff_toNat_le]
  omega

theorem Lent.usage_eq {T M : List (XToken × Part)} (hl : Lent B s a owner T M s') {o : OwnerId}
    (ho : T = [] ∨ o ≠ owner) : xtokOwnerUsage o s' = xtokOwnerUsage o s := by
  have hframes := hl.tokens.frames o
  have hcount := hl.tokens.count o
  rcases ho with rfl | ho
  · exact usage_congr (by simpa using hframes) (by simpa using hcount)
  · rw [if_neg (Ne.symm ho), Nat.add_zero] at hframes hcount
    exact usage_congr hframes hcount

theorem KInv.charged_load (h : KInv B s) (a : ℕ) (owner : OwnerId) (mem : ℕ → Bytes) (size : ℕ)
    (out : ExbInfo) :
    Charged owner (∃ r, (loaded a owner mem size out s).1 = .ok r) s
      (loaded a owner mem size out s).2 := by
  have hwp := wp_xloadExb_amd64 h a owner mem size out
  cases hrun : (xloadExb amd64 a owner mem size out).run ⟨s, [], []⟩ with
  | mk res t =>
    cases res with
    | ok r =>
      obtain ⟨info, D, hparsed, -, hok, hD, hl⟩ := hwp.ok hrun
      simp only [loaded, hrun]
      exact ⟨fun _ => hl.withinQuota h hparsed.safe hok hD, fun hno => absurd ⟨r, rfl⟩ hno,
        fun o ho => hl.usage_eq (Or.inr ho)⟩
    | error e =>
      have hl := hwp.error hrun
      simp only [loaded, hrun]
      exact ⟨fun hyes => by
        simp at hyes, fun _ => hl.usage_eq (Or.inl rfl), fun o _ => hl.usage_eq (Or.inl rfl)⟩

end Load

/-- **Quotas bind** in every state that a run reaches. -/
theorem KernelRun.quotas {s₀ s : Xeret} (h : KernelRun s₀ s) : QuotasBind s where
  alloc a f := by
    obtain ⟨hok, hfail, hothers⟩ := sysAlloc_usage h.kinv a f
    exact ⟨hok, hfail, hothers⟩
  load a owner mem size out := h.kinv.charged_load a owner mem size out
  allocSum := allocAllowed_iff
  loadSum owner frames tokens := xlbQuotaOk_iff owner frames tokens s

theorem KernelRun.quotas_tenants :
    ∃ s₀ s, KernelRun s₀ s ∧ Tenant s 0 7 ∧ Tenant s 1 8 ∧ quotaOf 7 s = (2, 2) ∧
    QuotasBind s := by
  obtain ⟨s₀, s, hrun, h0, h1, hquota⟩ := exists_tenants
  exact ⟨s₀, s, hrun, h0, h1, hquota, KernelRun.quotas hrun⟩

/-! ## The end of a process -/

/-- **A process leaves nothing behind.**  After `xproc_reap` a frame that is not free was in use at
the start, is a frame of a token of another owner or a table of another address space. -/
theorem KernelRun.reaped {s₀ s : Xeret} (h : KernelRun s₀ s) {a : ℕ}
    (hlive : (s.spaces a).live = true) {fuel : ℕ} (hfuel : tableSlots < fuel) :
    ∃ r s', (s.spaces a).pml4Phys = r * frameSize ∧
      xprocReap fuel a s = some (usedTokens (s.spaces a).ownerId s.ledger, s') ∧
      Reaped (bootFrames s₀) s a r (s.spaces a).ownerId s' ∧
      ∀ f < s'.phys.totalFrames, s'.phys.isFree f = false → bootFrames s₀ f ∨
        (∃ k, TokenFrame s'.ledger k f ∧ (s'.ledger.table k).ownerId ≠ (s.spaces a).ownerId) ∨
        ∃ b r' π, b ≠ a ∧ (s'.spaces b).live = true ∧ (s'.spaces b).pml4Phys = r' * frameSize ∧
          TableFrame s' r' π f := by
  have hslots := length_ownerSlots_le (s.spaces a).ownerId s.ledger
  obtain ⟨r, s', hroot, hrun, hr⟩ := xprocReap_spec h.kinv hlive (hslots.trans_lt hfuel)
  rw [length_ownerSlots] at hrun
  refine ⟨r, s', hroot, hrun, hr, fun f hf hused => ?_⟩
  obtain ⟨u, hu⟩ := hr.others.inv.exact f hf hused
  cases u with
  | boot => exact Or.inl hu
  | token k =>
    refine Or.inr (Or.inl ⟨k, hu, fun ho => ?_⟩)
    have hmem : k ∈ ownerSlots (s.spaces a).ownerId s'.ledger :=
      mem_ownerSlots.mpr ⟨hu.1, TokenFrame.live hu, ho⟩
    rw [hr.noTokens] at hmem
    cases hmem
  | table r' π =>
    obtain ⟨b, hb, hbroot⟩ := TableFrame.root hu
    refine Or.inr (Or.inr ⟨b, r', π, ?_, hb, hbroot, hu⟩)
    rintro rfl
    rw [hr.closed] at hb
    cases hb

theorem KernelRun.reaped_tenant : ∃ s₀ s r s', KernelRun s₀ s ∧ Tenant s 0 7 ∧ Tenant s 1 8 ∧
    (s.spaces 0).pml4Phys = r * frameSize ∧
      xprocReap (tableSlots + 1) 0 s = some (usedTokens 7 s.ledger, s') ∧
    Reaped (bootFrames s₀) s 0 r 7 s' := by
  obtain ⟨s₀, s, hrun, h0, h1, -⟩ := exists_tenants
  obtain ⟨r, s', hroot, hreap, hr, -⟩ := KernelRun.reaped hrun h0.live (Nat.lt_succ_self tableSlots)
  rw [h0.owner] at hreap hr
  exact ⟨s₀, s, r, s', hrun, h0, h1, hroot, hreap, hr⟩

end Xasmos.Kernel
