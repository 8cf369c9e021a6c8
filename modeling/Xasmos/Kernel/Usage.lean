import Xasmos.Kernel.Reap
import Xasmos.Lib.Sums
import Mathlib.Algebra.Order.BigOperators.Group.Finset
import Mathlib.Data.Finset.Card

/-!
# What an owner holds

The quota of an owner limits the frames and the tokens it holds, as `xtok_owner_usage`
counts them.  The counts are sums over the ledger; an allocation adds its part, a release
takes it away, and nothing else moves them.  The frames of all tokens of an owner are
distinct frames of the memory, so the 64-bit sum of the code never wraps.

## Main results

* `allocAllowed_iff` — the test of `sys_alloc` compares sums, without overflow.
* `sysAlloc_usage` — a call that succeeds ends within the quota, one that fails changes no usage.
-/

namespace Xasmos.Kernel

variable {B : ℕ → Prop} {L L' : Ledger} {a f k n : ℕ} {o owner : OwnerId} {rights : UInt32}
  {s s' : Xeret}

/-- The part of an entry in what `o` holds, measured by `g`. -/
def share (o : OwnerId) (g : XTokenEntry → ℕ) (e : XTokenEntry) : ℕ :=
  if e.live = true ∧ e.ownerId = o then g e else 0

/-- What `o` holds, measured by `g`. -/
def held (o : OwnerId) (g : XTokenEntry → ℕ) (L : Ledger) : ℕ := ∑ k ∈ Finset.range tableSlots,
    share o g (L.table k)

/-- The frames of the tokens of `o`. -/
def usedFrames (o : OwnerId) (L : Ledger) : ℕ := held o XTokenEntry.nFrames L

/-- The tokens of `o`. -/
def usedTokens (o : OwnerId) (L : Ledger) : ℕ := held o (fun _ => 1) L

section Sums

variable {g : XTokenEntry → ℕ}

theorem sum_filter_range (p : ℕ → Bool) (f : ℕ → ℕ) (n : ℕ) :
    (((List.range n).filter p).map f).sum = ∑ k ∈ Finset.range n,
      if p k = true then f k else 0 := by
  induction n with
  | zero => rfl
  | succ n ih =>
    rw [List.range_succ, List.filter_append, List.map_append, List.sum_append, ih,
      Finset.sum_range_succ]
    by_cases hp : p n = true <;> simp [hp]

theorem sum_ownerSlots (o : OwnerId) (g : XTokenEntry → ℕ) (L : Ledger) :
    ((ownerSlots o L).map fun k => g (L.table k)).sum = held o g L := by
  rw [ownerSlots, sum_filter_range, held]
  refine Finset.sum_congr rfl fun k _ => ?_
  simp [share]

theorem length_ownerSlots (o : OwnerId) (L : Ledger) :
    (ownerSlots o L).length = usedTokens o L := by
  rw [usedTokens, ← sum_ownerSlots]
  simp

/-- A change of one slot. -/
theorem held_update {e : XTokenEntry} (hk : k < tableSlots)
    (hL : L'.table = Function.update L.table k e) :
    held o g L' + share o g (L.table k) = held o g L + share o g e := by
  rw [held, held, hL]
  exact sum_update_add L.table e (fun _ e => share o g e) hk

theorem held_sameTokens (h : SameTokens L L') (hg : ∀ e c, g { e with mapCount := c } = g e) :
    held o g L' = held o g L := by
  refine Finset.sum_congr rfl fun k _ => ?_
  rw [h.table k, share, share, hg]

end Sums

/-! ## Tokens that come and go -/

section Change

theorem Allocated.held_eq (h : Allocated s owner n rights k a s') (g : XTokenEntry → ℕ) :
    held o g s'.ledger = held o g s.ledger +
      share o g (sealed owner (a * frameSize) n rights (s.ledger.table k)) := by
  have htable : s'.ledger.table = Function.update s.ledger.table k
      (sealed owner (a * frameSize) n rights (s.ledger.table k)) := by
    rw [h.ledger]
    rfl
  have hup := held_update (o := o) (g := g) h.slot_lt htable
  have hzero : share o g (s.ledger.table k) = 0 := if_neg (by simp [h.free])
  omega

theorem Allocated.usedFrames_eq (h : Allocated s owner n rights k a s') :
    usedFrames o s'.ledger = usedFrames o s.ledger + if owner = o then n else 0 := by
  rw [usedFrames, h.held_eq]
  by_cases ho : owner = o <;> simp [share, sealed, usedFrames, ho]

theorem Allocated.usedTokens_eq (h : Allocated s owner n rights k a s') :
    usedTokens o s'.ledger = usedTokens o s.ledger + if owner = o then 1 else 0 := by
  rw [usedTokens, h.held_eq]
  by_cases ho : owner = o <;> simp [share, sealed, usedTokens, ho]

theorem Released.held_eq (h : Released s k s') (g : XTokenEntry → ℕ) :
    held o g s'.ledger + share o g (s.ledger.table k) = held o g s.ledger := by
  have htable : s'.ledger.table = Function.update s.ledger.table k
      (retired (s.ledger.table k)) := by
    rw [h.ledger]
    rfl
  have hup := held_update (o := o) (g := g) h.slot_lt htable
  have hzero : share o g (retired (s.ledger.table k)) = 0 := if_neg (by simp [retired])
  omega

/-- The frames of slot `k`, if its token belongs to the owner. -/
def ownedFrames (o : OwnerId) (L : Ledger) (k : ℕ) : Finset ℕ :=
  if (L.table k).live = true ∧ (L.table k).ownerId = o then
    Finset.Ico ((L.table k).phys / frameSize) ((L.table k).phys / frameSize + (L.table k).nFrames)
  else ∅

theorem Layout.uses_of_mem_ownedFrames (h : Layout B s) (hf : f ∈ ownedFrames o s.ledger k) :
    Uses B s f (.token k) := by
  rw [ownedFrames] at hf
  split_ifs at hf with hown
  · obtain ⟨h1, h2⟩ := Finset.mem_Ico.mp hf
    exact ⟨h.tokens.slot_lt k hown.1, hown.1, h1, h2⟩
  · exact absurd hf (Finset.notMem_empty f)

theorem card_ownedFrames (L : Ledger) :
    (ownedFrames o L k).card = share o XTokenEntry.nFrames (L.table k) := by
  rw [ownedFrames, share]
  split_ifs with hown
  · rw [Nat.card_Ico, Nat.add_sub_cancel_left]
  · rfl

/-- The frames of the tokens of one owner are distinct frames of the memory. -/
theorem Layout.usedFrames_le (h : Layout B s) (o : OwnerId) :
    usedFrames o s.ledger ≤ s.phys.totalFrames := by
  have hle := sum_card_le (m := s.phys.totalFrames) tableSlots (ownedFrames o s.ledger)
      (fun j k f hj hk => ?_) fun k f hf =>
    (h.used f _ (h.uses_of_mem_ownedFrames hf)).1
  · simp only [card_ownedFrames] at hle
    exact hle
  · have huse := h.unique f _ _ (h.uses_of_mem_ownedFrames hj) (h.uses_of_mem_ownedFrames hk)
    injection huse

theorem usedTokens_le (o : OwnerId) (L : Ledger) : usedTokens o L ≤ tableSlots := by
  rw [← length_ownerSlots, ownerSlots]
  exact (List.length_filter_le _ _).trans (by rw [List.length_range])

/-- `xtok_owner_usage` counts without wrapping. -/
theorem Layout.toNat_usage (h : Layout B s) (o : OwnerId) :
    (xtokOwnerUsage o s).1.toNat = usedFrames o s.ledger ∧
      (xtokOwnerUsage o s).2.toNat = usedTokens o s.ledger := by
  have h1 := h.usedFrames_le o
  have h2 := h.total_lt
  have h3 := usedTokens_le o s.ledger
  rw [tableSlots] at h3
  have hsum : ((ownerSlots o s.ledger).map fun k => (s.ledger.table k).nFrames).sum =
    usedFrames o s.ledger := sum_ownerSlots _ _ _
  rw [xtokOwnerUsage, hsum, length_ownerSlots]
  exact ⟨UInt64.toNat_ofNat_of_lt' (by rw [UInt64.size]; omega), UInt32.toNat_ofNat_of_lt'
    (by rw [UInt32.size]; omega)⟩

/-- The usage of an owner depends on its frames and tokens only. -/
theorem usage_congr (hf : usedFrames o s'.ledger = usedFrames o s.ledger)
    (ht : usedTokens o s'.ledger = usedTokens o s.ledger) :
    xtokOwnerUsage o s' = xtokOwnerUsage o s := by
  have hsum : ∀ t : Xeret, ((ownerSlots o t.ledger).map fun k => (t.ledger.table k).nFrames).sum =
      usedFrames o t.ledger :=
    fun t => sum_ownerSlots _ _ _
  rw [xtokOwnerUsage, xtokOwnerUsage, hsum, hsum, length_ownerSlots, length_ownerSlots, hf, ht]

end Change

/-! ## The quota -/

/-- The owner is within its quota. -/
def WithinQuota (o : OwnerId) (s : Xeret) : Prop :=
  (xtokOwnerUsage o s).1 ≤ (quotaOf o s).1 ∧ (xtokOwnerUsage o s).2 ≤ (quotaOf o s).2

/-- **The test of `sys_alloc` never overflows**, for any 64-bit request and any quota. -/
theorem allocAllowed_iff (n : UInt64) (quota used : UInt64 × UInt32) :
    allocAllowed n quota used = true ↔ used.2.toNat + 1 ≤ quota.2.toNat ∧
      used.1.toNat + n.toNat ≤ quota.1.toNat := by
  have hsub : n.toNat ≤ quota.1.toNat → (quota.1 - n).toNat = quota.1.toNat - n.toNat := fun hle =>
    UInt64.toNat_sub_of_le _ _ (UInt64.le_iff_toNat_le.mpr hle)
  simp only [allocAllowed, Bool.not_eq_true', Bool.or_eq_false_iff, decide_eq_false_iff_not,
    ge_iff_le, gt_iff_lt, UInt32.le_iff_toNat_le, UInt64.lt_iff_toNat_lt]
  constructor
  · rintro ⟨h1, h2, h3⟩
    rw [hsub (by omega)] at h3
    omega
  · rintro ⟨h1, h2⟩
    refine ⟨by omega, by omega, ?_⟩
    rw [hsub (by omega)]
    omega

section Alloc

theorem Quiet.usage_eq (h : Quiet s s') (o : OwnerId) :
    xtokOwnerUsage o s' = xtokOwnerUsage o s := by
  rw [xtokOwnerUsage, xtokOwnerUsage, h.ledger]

/-- An allocation does not change what others hold. -/
theorem Allocated.usage_eq (h : Allocated s owner n rights k a s') (ho : o ≠ owner) :
    xtokOwnerUsage o s' = xtokOwnerUsage o s := by
  refine usage_congr ?_ ?_
  · rw [h.usedFrames_eq, if_neg (Ne.symm ho), Nat.add_zero]
  · rw [h.usedTokens_eq, if_neg (Ne.symm ho), Nat.add_zero]

/-- **An allocation that was allowed ends within the quota.** -/
theorem Allocated.withinQuota (ha : Allocated s owner n rights k a s') (h : KInv B s) {m : UInt64}
    (hn : m.toNat = n) (hok : allocAllowed m (quotaOf owner s) (xtokOwnerUsage owner s) = true) :
    WithinQuota owner s' := by
  obtain ⟨h1, h2⟩ := (allocAllowed_iff _ _ _).mp hok
  obtain ⟨h3, h4⟩ := h.toLayout.toNat_usage owner
  obtain ⟨h5, h6⟩ := (h.allocated ha).toLayout.toNat_usage owner
  rw [ha.usedFrames_eq, if_pos rfl] at h5
  rw [ha.usedTokens_eq, if_pos rfl] at h6
  have hquota : quotaOf owner s' = quotaOf owner s := by rw [quotaOf, quotaOf, ha.quota]
  rw [WithinQuota, hquota, UInt64.le_iff_toNat_le, UInt32.le_iff_toNat_le]
  omega

/-- **`sys_alloc`** allocates what is allowed, or does nothing. -/
theorem sysAlloc_spec (h : KInv B s) (a : ℕ) (f : ExcFrame) :
    ((sysAlloc a f s).1.rax ≠ 0 ∧ Quiet s (sysAlloc a f s).2) ∨
      ((sysAlloc a f s).1.rax = 0 ∧
        allocAllowed f.rdi (quotaOf (s.spaces a).ownerId s)
          (xtokOwnerUsage (s.spaces a).ownerId s) = true ∧
        ∃ k b, Allocated s (s.spaces a).ownerId f.rdi.toNat f.rsi.toUInt32 k b
          (sysAlloc a f s).2) := by
  have hspec := xtokAllocRam_spec h.toLayout (s.spaces a).ownerId f.rdi.toNat f.rsi.toUInt32
  have hquiet : Quiet s s := Quiet.refl h.counted
  simp only [sysAlloc]
  split_ifs with h1 h2 h3 h4
  · exact Or.inl ⟨by simp [ret, SysStatus.code], hquiet⟩
  · exact Or.inl ⟨by simp [ret, SysStatus.code], hquiet⟩
  · exact Or.inl ⟨by simp [ret, SysStatus.code], hquiet⟩
  · rcases hspec with ⟨_, hq⟩ | ⟨k, b, _, hne, _⟩
    · exact Or.inl ⟨by simp [ret, SysStatus.code], hq⟩
    · exact absurd h4 hne
  · rcases hspec with ⟨hinv, _⟩ | ⟨k, b, _, _, ha⟩
    · exact absurd hinv h4
    · exact Or.inr ⟨rfl, by simpa using h3, k, b, ha⟩

/-- **`sys_alloc` and the quota.**  A call that succeeds ends within it, a call that fails changes
no usage, and the usage of others is never changed. -/
theorem sysAlloc_usage (h : KInv B s) (a : ℕ) (f : ExcFrame) :
    ((sysAlloc a f s).1.rax = 0 → WithinQuota (s.spaces a).ownerId (sysAlloc a f s).2) ∧
      ((sysAlloc a f s).1.rax ≠ 0 → xtokOwnerUsage (s.spaces a).ownerId (sysAlloc a f s).2 =
        xtokOwnerUsage (s.spaces a).ownerId s) ∧
      ∀ o, o ≠ (s.spaces a).ownerId → xtokOwnerUsage o (sysAlloc a f s).2 = xtokOwnerUsage o s := by
  rcases sysAlloc_spec h a f with ⟨hrax, hq⟩ | ⟨hrax, hok, k, b, ha⟩
  · exact ⟨fun h0 => absurd h0 hrax, fun _ => hq.usage_eq _, fun o _ => hq.usage_eq o⟩
  · exact ⟨fun _ => ha.withinQuota h rfl hok, fun hne => absurd hrax hne,
      fun o ho => ha.usage_eq ho⟩

end Alloc

end Xasmos.Kernel
