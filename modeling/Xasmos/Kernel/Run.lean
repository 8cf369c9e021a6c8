import Xasmos.Kernel.LoadAmd64
import Xasmos.Kernel.Start

/-!
# Runs of the kernel

A step is one call of the resource interface with any arguments: of the token ledger, of the address
spaces, of the system calls, of the loader and of the reaper. A process may also write to the frames
of a token at any time. Every state that a run reaches from a booted machine keeps the invariant,
with the frames that were taken at boot as the frames of the kernel.
-/
namespace Xasmos.Kernel

open Exb Prog

variable {B : ℕ → Prop} {s₀ s s' : Xeret}

/-- One call of the kernel, with any arguments. An address space is created only in a slot that is
not in use, so each live one is the result of one `xas_create`. -/
inductive KernelStep (s : Xeret) : Xeret → Prop where
  | allocRam (owner : OwnerId) (n : UInt64) (rights : UInt32) :
    KernelStep s (xtokAllocRam owner n.toNat rights s).2
  | allocRamHuge (owner : OwnerId) (rights : UInt32) :
    KernelStep s (xtokAllocRamHuge owner rights s).2
  | release (tok : XToken) : KernelStep s (xtokRelease tok s).2
  | releaseOwned (tok : XToken) (owner : OwnerId) : KernelStep s (xtokReleaseOwned tok owner s).2
  | reclaim (tok : XToken) : KernelStep s (xtokReclaim tok s).2
  | create {a : ℕ} (hdead : (s.spaces a).live = false) (owner : OwnerId) :
    KernelStep s ((xasCreate a owner).run s).2
  | map (a virt : ℕ) (tok : XToken) (perms : UInt32) :
    KernelStep s ((xasMap a virt tok perms).run s).2
  | unmap (a virt : ℕ) : KernelStep s ((xasUnmap a virt).run s).2
  | revoke (tok : XToken) : KernelStep s (xasRevokeToken tok s).2
  | destroy (a : ℕ) : KernelStep s (xasDestroy a s)
  | reap {a fuel n : ℕ} {s' : Xeret} (hfuel : tableSlots < fuel)
    (hreap : xprocReap fuel a s = some (n, s')) : KernelStep s s'
  | setQuota (owner : OwnerId) (maxFrames : UInt64) (maxTokens : UInt32) :
    KernelStep s (xprocSetQuota owner maxFrames maxTokens s).2
  | resource (a : ℕ) (f : ExcFrame) : KernelStep s (xsysResource a f s).2
  | load (a : ℕ) (owner : OwnerId) (mem : ℕ → Bytes) (size : ℕ) (out : ExbInfo) :
      KernelStep s ((xloadExb amd64 a owner mem size out).run ⟨s, [], []⟩).2.st
  | store {k f : ℕ} (hf : TokenFrame s.ledger k f) (v : Bytes) :
    KernelStep s { s with mem := Function.update s.mem f v }

/-- A run of the kernel from a booted machine. -/
inductive KernelRun (s₀ : Xeret) : Xeret → Prop where
  | start (h : Booted s₀) : KernelRun s₀ s₀
  | step {s s' : Xeret} (h : KernelRun s₀ s) (hs : KernelStep s s') : KernelRun s₀ s'

/-! ## What one step keeps -/

/-- The page table of the kernel, and the frames it was started with. -/
structure BootKept (B : ℕ → Prop) (s s' : Xeret) : Prop where
  pml4Phys : s'.pml4Phys = s.pml4Phys
  boot : SameBoot B s s'
  total : s'.phys.totalFrames = s.phys.totalFrames

theorem BootKept.refl : BootKept B s s := ⟨rfl, fun _ _ => rfl, rfl⟩

/-- A call keeps the invariant and does not touch the frames of the kernel. -/
structure Carried (B : ℕ → Prop) (s s' : Xeret) : Prop extends BootKept B s s' where
  inv : KInv B s'

theorem KInv.carried (h : KInv B s) : Carried B s s := ⟨.refl, h⟩

theorem KInv.alloc {owner : OwnerId} {n : ℕ} {rights : UInt32} {r : XToken × Xeret} (h : KInv B s)
    (hr : AllocSpec s owner n rights r) : Carried B s r.2 := by
  rcases hr with ⟨_, hq⟩ | ⟨k, a, _, _, ha⟩
  · exact ⟨⟨hq.pml4Phys, hq.sameBoot h.toFramesOk, hq.total⟩, h.quiet hq⟩
  · exact ⟨⟨ha.pml4Phys, ha.sameBoot h.toFramesOk, ha.took.total⟩, h.allocated ha⟩

theorem KInv.releaseImpl (h : KInv B s) (tok : XToken) (checkRight checkOwner : Bool)
    (owner : OwnerId) : Carried B s (releaseImpl tok checkRight checkOwner owner s).2 := by
  rcases releaseImpl_spec h.toLayout tok checkRight checkOwner owner with ⟨e, he⟩ | ⟨k, _, _, _, hr⟩
  · rw [he]
    exact h.carried
  · exact ⟨⟨hr.pml4Phys, hr.sameBoot, hr.gave.total⟩, h.released hr⟩

theorem KInv.create {a : ℕ} (h : KInv B s) (hdead : (s.spaces a).live = false) (owner : OwnerId) :
    Carried B s ((xasCreate a owner).run s).2 := by
  apply Prog.wp.state
  apply wp_mono (wp_xasCreate h hdead owner)
  · intro _ s' hle ⟨c, hc⟩
    exact ⟨⟨hc.pml4Phys, hc.sameBoot h.toFramesOk, hle⟩, hc.inv⟩
  · intro _ s' _ he
    rw [he.1]
    exact h.carried

theorem KInv.map (h : KInv B s) (a virt : ℕ) (tok : XToken) (perms : UInt32) :
    Carried B s ((xasMap a virt tok perms).run s).2 := by
  apply Prog.wp.state
  apply wp_mono (wp_xasMap h a virt tok perms)
  · intro _ s' hle ⟨r, p, k, i, _, hm⟩
    exact ⟨⟨hm.pml4Phys, hm.sameBoot, hle⟩, hm.inv⟩
  · intro _ s' hle he
    exact ⟨⟨he.1.1.pml4Phys, he.1.1.sameBoot, hle⟩, h.edit he.1.1 he.1.2⟩

theorem Dropped.carried {D : ℕ → Prop} (h : Dropped B s D s') : Carried B s s' :=
  ⟨⟨h.pml4Phys, h.sameBoot, by rw [h.phys]⟩, h.inv⟩

theorem KInv.unmap (h : KInv B s) (a virt : ℕ) : Carried B s ((xasUnmap a virt).run s).2 := by
  apply Prog.wp.state
  apply wp_mono (wp_xasUnmap h a virt)
  · intro _ s' _ ⟨i, _, _, _, _, hd⟩
    exact hd.carried
  · intro _ s' _ he
    rw [he.1]
    exact h.carried

theorem KInv.destroy (h : KInv B s) (a : ℕ) : Carried B s (xasDestroy a s) := by
  by_cases hlive : (s.spaces a).live = true
  · obtain ⟨r, _, hd⟩ := xasDestroy_spec h hlive
    exact ⟨⟨hd.pml4Phys, fun f hf => hd.mem f .boot hf fun _ => by simp, hd.total⟩, hd.inv⟩
  · rw [Bool.not_eq_true] at hlive
    rw [xasDestroy, if_pos hlive]
    exact h.carried

theorem length_ownerSlots_le (o : OwnerId) (L : Ledger) : (ownerSlots o L).length ≤ tableSlots := by
  rw [length_ownerSlots]
  exact usedTokens_le o L

theorem KInv.reap (h : KInv B s) {a fuel n : ℕ} (hfuel : tableSlots < fuel)
    (hreap : xprocReap fuel a s = some (n, s')) : Carried B s s' := by
  by_cases hlive : (s.spaces a).live = true
  · obtain ⟨r, t, _, ht, hr⟩ :=
      xprocReap_spec h hlive (lt_of_le_of_lt (length_ownerSlots_le _ _) hfuel)
    simp only [hreap, Option.some.injEq, Prod.mk.injEq] at ht
    rw [ht.2]
    exact ⟨⟨hr.others.pml4Phys, fun f hf => (hr.others.kept f .boot hf id).2, hr.others.total⟩,
      hr.others.inv⟩
  · rw [Bool.not_eq_true] at hlive
    simp only [xprocReap, hlive, if_true, Option.some.injEq, Prod.mk.injEq] at hreap
    rw [← hreap.2]
    exact h.carried

/-- The quotas are no part of the invariant. -/
theorem KInv.setQuota (h : KInv B s) (owner : OwnerId) (maxFrames : UInt64) (maxTokens : UInt32) :
    Carried B s (xprocSetQuota owner maxFrames maxTokens s).2 := by
  unfold xprocSetQuota
  split
  · exact h.carried
  · have hsame : SameTables s
        { s with quota := Function.update s.quota owner.toNat ⟨maxFrames, maxTokens, true⟩ } :=
      ⟨rfl, fun _ _ _ _ => rfl⟩
    refine ⟨⟨rfl, fun _ _ => rfl, rfl⟩, ?_⟩
    exact ⟨⟨h.toFramesOk.congr h.counted rfl (fun _ => rfl) fun _ _ => hsame.uses_iff
      fun _ => Iff.rfl, hsame.treesOk h.toTreesOk, h.tokens, h.kernel⟩,
      h.mapped.congr rfl rfl hsame.samePages (fun _ _ _ hk => ⟨hk, rfl⟩) h.mapped.count⟩

theorem KInv.resource (h : KInv B s) (a : ℕ) (f : ExcFrame) :
    Carried B s (xsysResource a f s).2 := by
  unfold xsysResource
  split_ifs with h1 h2 h3 h4 h5
  · rcases sysAlloc_spec h a f with ⟨_, hq⟩ | ⟨_, _, k, b, ha⟩
    · exact ⟨⟨hq.pml4Phys, hq.sameBoot h.toFramesOk, hq.total⟩, h.quiet hq⟩
    · exact ⟨⟨ha.pml4Phys, ha.sameBoot h.toFramesOk, ha.took.total⟩, h.allocated ha⟩
  · unfold sysMap
    split
    · exact h.carried
    · exact h.map a _ _ _
  · exact h.unmap a _
  · exact h.releaseImpl _ _ _ _
  · exact h.carried
  · exact h.carried

theorem KInv.load (h : KInv B s) (a : ℕ) (owner : OwnerId) (mem : ℕ → Bytes) (size : ℕ)
    (out : ExbInfo) : Carried B s ((xloadExb amd64 a owner mem size out).run ⟨s, [], []⟩).2.st := by
  apply Prog.wp.state (P := fun t : LoadSt Xeret => Carried B s t.st)
  apply wp_mono (wp_xloadExb_amd64 h a owner mem size out)
  · intro _ t _ ⟨info, D, _, _, _, _, hl⟩
    exact ⟨⟨hl.pml4Phys, hl.boot, hl.total⟩, hl.inv⟩
  · intro _ t _ hl
    exact ⟨⟨hl.pml4Phys, hl.boot, hl.total⟩, hl.inv⟩

/-- **Every call keeps the invariant** and the frames of the kernel, whatever its arguments and
whether it fails or not. -/
theorem KernelStep.carried (hs : KernelStep s s') (h : KInv B s) : Carried B s s' := by
  cases hs with
  | allocRam owner n rights => exact h.alloc (xtokAllocRam_spec h.toLayout owner n.toNat rights)
  | allocRamHuge owner rights => exact h.alloc (xtokAllocRamHuge_spec h.toLayout owner rights)
  | release tok => exact h.releaseImpl tok true false 0
  | releaseOwned tok owner => exact h.releaseImpl tok true true owner
  | reclaim tok => exact h.releaseImpl tok false false 0
  | create hdead owner => exact h.create hdead owner
  | map a virt tok perms => exact h.map a virt tok perms
  | unmap a virt => exact h.unmap a virt
  | revoke tok => exact (xasRevokeToken_spec h tok).1.carried
  | destroy a => exact h.destroy a
  | reap hfuel hreap => exact h.reap hfuel hreap
  | setQuota owner maxFrames maxTokens => exact h.setQuota owner maxFrames maxTokens
  | resource a f => exact h.resource a f
  | load a owner mem size out => exact h.load a owner mem size out
  | store hf v =>
    refine ⟨⟨rfl, fun g hg => Function.update_of_ne ?_ _ _, rfl⟩, h.store hf v⟩
    rintro rfl
    cases h.unique _ _ _ (show Uses B s _ .boot from hg) (show Uses B s _ (.token _) from hf)

/-- The invariant holds of every state that a run reaches. -/
theorem KernelRun.kinv (h : KernelRun s₀ s) : KInv (bootFrames s₀) s := by
  induction h with
  | start h => exact h.kinv
  | step _ hs ih => exact (hs.carried ih).inv

end Xasmos.Kernel
