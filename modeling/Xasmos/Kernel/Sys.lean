import Xasmos.Kernel.Spaces

/-!
# Resource system calls

The functions of `sys.c`.  A program asks for memory by five calls; every argument comes
in a register, and the owner is the owner of the address space the program runs in.

A token that belongs to someone else and a token that never existed get the same answer:
`xsysResource_foreign` is this statement for two states that a program cannot tell apart.

## Main definitions

* `xsysResource` — the five calls.
* `xprocSetQuota`, `quotaOf` — the limits of an owner.
* `xprocReap` — the end of a process.
-/

namespace Xasmos.Kernel

open Prog

/-! ## Quotas -/

/-- `XOWNER_MAX` -/
def ownerMax : ℕ := 64

/-- `g_def_frames` -/
def defFrames : UInt64 := 2048

/-- `g_def_tokens` -/
def defTokens : UInt32 := 256

/-- `xproc_set_quota`; the result is whether the owner has a quota of its own. -/
def xprocSetQuota (owner : OwnerId) (maxFrames : UInt64) (maxTokens : UInt32) (s : Xeret) :
    Bool × Xeret :=
  if owner = ownerKernel ∨ ownerMax ≤ owner.toNat then (false, s)
  else (true, { s with quota := Function.update s.quota owner.toNat ⟨maxFrames, maxTokens, true⟩ })

/-- `quota_of`, which `xproc_quota_get` exports: the frames and the tokens an owner may hold. -/
def quotaOf (owner : OwnerId) (s : Xeret) : UInt64 × UInt32 :=
  if owner.toNat < ownerMax ∧ (s.quota owner.toNat).isSet then ((s.quota owner.toNat).frames,
    (s.quota owner.toNat).tokens)
  else (defFrames, defTokens)

/-! ## The calls -/

/-- The registers of a system call. -/
structure ExcFrame where
  rax : UInt64
  rdi : UInt64
  rsi : UInt64
  rdx : UInt64
  deriving DecidableEq

/-- The status codes `XERR_*`. -/
inductive SysStatus where
  | ok
  | nosys
  | inval
  | nomem
  | badtoken
  | perm
  | busy
  | range
  | nomap
  deriving DecidableEq

/-- The value that is returned in `rax`. -/
def SysStatus.code : SysStatus → UInt64
  | .ok => 0
  | .nosys => -1
  | .inval => -2
  | .nomem => -3
  | .badtoken => -4
  | .perm => -5
  | .busy => -6
  | .range => -7
  | .nomap => -8

/-- `ret` -/
def ret (f : ExcFrame) (status : SysStatus) : ExcFrame := { f with rax := status.code }

/-- `map_xas_err` -/
def mapXasErr : Except XasError Unit → SysStatus
  | .ok () => .ok
  | .error .arg => .inval
  | .error .wx => .perm
  | .error .range => .range
  | .error .token => .badtoken
  | .error .owner => .badtoken
  | .error .rights => .perm
  | .error .busy => .busy
  | .error .nomem => .nomem
  | .error .notMapped => .nomap

/-- `XSYS_USER_RIGHTS` -/
def userRights : UInt32 := rightRead ||| rightWrite ||| rightExecute ||| rightMap ||| rightRelease

/-- The quota test of `sys_alloc` for `n` frames and one token, in the arithmetic of the machine. -/
def allocAllowed (n : UInt64) (quota used : UInt64 × UInt32) : Bool :=
  !(decide (used.2 ≥ quota.2) || (decide (n > quota.1) || decide (used.1 > quota.1 - n)))

/-- `sys_alloc` -/
def sysAlloc (a : ℕ) (f : ExcFrame) (s : Xeret) : ExcFrame × Xeret :=
  let n := f.rdi
  let rights := f.rsi
  let f := { f with rdx := 0 }
  let owner := (s.spaces a).ownerId
  if n = 0 ∨ rights = 0 then (ret f .inval, s)
  else if rights &&& ~~~userRights.toUInt64 ≠ 0 then (ret f .perm, s)
  else if allocAllowed n (quotaOf owner s) (xtokOwnerUsage owner s) = false then (ret f .nomem, s)
  else
    let alloc := xtokAllocRam owner n.toNat rights.toUInt32 s
    if alloc.1 = tokenInvalid then (ret f .nomem, alloc.2)
    else (ret { f with rdx := alloc.1 } .ok, alloc.2)

/-- `sys_map` -/
def sysMap (a : ℕ) (f : ExcFrame) (s : Xeret) : ExcFrame × Xeret :=
  if 0xFFFFFFFF < f.rdx.toNat then (ret f .inval, s)
  else
    let map := (xasMap a f.rsi.toNat f.rdi f.rdx.toUInt32).run s
    (ret f (mapXasErr map.1), map.2)

/-- `sys_unmap` -/
def sysUnmap (a : ℕ) (f : ExcFrame) (s : Xeret) : ExcFrame × Xeret :=
  let unmap := (xasUnmap a f.rdi.toNat).run s
  (ret f (mapXasErr unmap.1), unmap.2)

/-- `sys_free` -/
def sysFree (a : ℕ) (f : ExcFrame) (s : Xeret) : ExcFrame × Xeret :=
  let release := xtokReleaseOwned f.rdi (s.spaces a).ownerId s
  (ret f (match release.1 with
    | .ok () => .ok
    | .error .busy => .busy
    | .error .rights => .perm
    | .error .stale => .badtoken), release.2)

/-- `sys_info`: the usage and the limits of the owner. -/
def sysInfo (a : ℕ) (f : ExcFrame) (s : Xeret) : ExcFrame × Xeret :=
  let quota := quotaOf (s.spaces a).ownerId s
  let used := xtokOwnerUsage (s.spaces a).ownerId s
  (match f.rdi with
    | 0 => { f with rax := used.1 }
    | 1 => { f with rax := quota.1 }
    | 2 => { f with rax := used.2.toUInt64 }
    | 3 => { f with rax := quota.2.toUInt64 }
    | _ => ret f .inval, s)

/-! The numbers of the calls. -/

def xsysAlloc : UInt64 := 4
def xsysMap : UInt64 := 5
def xsysUnmap : UInt64 := 6
def xsysFree : UInt64 := 7
def xsysInfo : UInt64 := 8

/-- `xsys_resource` for the program that runs in the address space `a`. -/
def xsysResource (a : ℕ) (f : ExcFrame) (s : Xeret) : ExcFrame × Xeret :=
  if f.rax = xsysAlloc then sysAlloc a f s
  else if f.rax = xsysMap then sysMap a f s
  else if f.rax = xsysUnmap then sysUnmap a f s
  else if f.rax = xsysFree then sysFree a f s
  else if f.rax = xsysInfo then sysInfo a f s
  else (ret f .nosys, s)

/-! ## The end of a process -/

/-- One turn of the inner loop of `xproc_reap`: the token is unmapped everywhere, then reclaimed. -/
def reapToken (r : ℕ × Xeret) (tok : XToken) : ℕ × Xeret :=
  let reclaim := xtokReclaim tok (xasRevokeToken tok r.2).2
  (match reclaim.1 with
    | .ok () => r.1 + 1
    | .error _ => r.1, reclaim.2)

/-- The outer loop of `xproc_reap`, for at most `fuel` turns. -/
def reapLoop (owner : OwnerId) : ℕ → ℕ → Xeret → Option (ℕ × Xeret)
  | 0, _, _ => none
  | fuel + 1, total, s =>
    let list := xtokOwnerTokens owner 64 s
    if list.length = 0 then some (total, s)
    else
      let pass := list.foldl reapToken (0, s)
      -- never spin on a stuck token
      if pass.1 = 0 then some (total, pass.2) else reapLoop owner fuel (total + pass.1) pass.2

/-- `xproc_reap`: the number of tokens that were reclaimed; `none` if the loop needs more turns than
`fuel`. -/
def xprocReap (fuel a : ℕ) (s : Xeret) : Option (ℕ × Xeret) :=
  if (s.spaces a).live = false then some (0, s)
  else (reapLoop (s.spaces a).ownerId fuel 0 s).map fun r => (r.1, xasDestroy a r.2)

/-! ## What a program can learn about tokens -/

/-- The ledger entry of a live token of the owner. -/
def ownToken (o : OwnerId) (s : Xeret) (tok : XToken) : Option XTokenEntry :=
  (lookupLive s.ledger tok).bind
    fun k => if (s.ledger.table k).ownerId = o then some (s.ledger.table k) else none

/-- The live mapping records of the owner. -/
def ownRecords (o : OwnerId) (s : Xeret) : List MapRec := (mapsOf o s).map s.maps

/-- The states agree on what the owner holds; of what others hold nothing is said. -/
structure SameView (o : OwnerId) (s₁ s₂ : Xeret) : Prop where
  tokens : ∀ tok, ownToken o s₁ tok = ownToken o s₂ tok
  records : (ownRecords o s₁).Perm (ownRecords o s₂)
  quota : quotaOf o s₁ = quotaOf o s₂

/-- What `xas_map` answers for a token that is not the caller's, with `mine` records of the
caller. -/
def foreignMap (live : Bool) (mine virt : ℕ) (perms : UInt32) : SysStatus :=
  if live = false then .inval
  else if perms = 0 ∨ perms &&& ~~~(permR ||| permW ||| permX) ≠ 0 then .inval
  else if perms &&& permW ≠ 0 ∧ perms &&& permX ≠ 0 then .perm
  else if virt &&& (frameSize - 1) ≠ 0 then .range
  else if virt < userBase ∨ userTop ≤ virt then .range
  else if maxMapsPerOwner ≤ mine then .nomem
  else .badtoken

section Foreign

variable {s : Xeret} {a : ℕ} {tok : XToken}

theorem xtokMapAcquire_foreign {o : OwnerId} (h : ownToken o s tok = none) (need : UInt32) :
    ∃ e, xtokMapAcquire tok o need s = (.error e, s) ∧
      mapXasErr (.error (mapErr e)) = .badtoken := by
  unfold ownToken at h
  unfold xtokMapAcquire
  cases hl : lookupLive s.ledger tok with
  | none => exact ⟨.stale, rfl, rfl⟩
  | some k =>
    rw [hl, Option.bind_some] at h
    have howner : (s.ledger.table k).ownerId ≠ o := by
      intro heq
      rw [if_pos heq] at h
      exact absurd h (by simp)
    simp only
    by_cases hkind : (s.ledger.table k).kind ≠ .ram
    · exact ⟨.kind, by rw [if_pos hkind], rfl⟩
    · exact ⟨.owner, by rw [if_neg hkind, if_pos howner], rfl⟩

/-- A token that is not the caller's is refused by `xas_map`, with an answer that does not depend on
it. -/
theorem wp_xasMap_foreign (h : ownToken (s.spaces a).ownerId s tok = none) (virt : ℕ)
    (perms : UInt32) :
    (xasMap a virt tok perms).wp (fun _ _ => False)
      (fun e s' => s' = s ∧ mapXasErr (.error e) =
        foreignMap (s.spaces a).live (mapsOf (s.spaces a).ownerId s).length virt perms) s := by
  obtain ⟨e, hacq, hcode⟩ := xtokMapAcquire_foreign h (rightsFor perms)
  simp only [xasMap, wp_bind, wp_get, wp_failIf]
  refine ⟨fun h1 => ⟨trivial, by rw [foreignMap, if_pos h1]; rfl⟩, fun h1 =>
    ⟨fun h2 => ⟨trivial, by rw [foreignMap, if_neg h1, if_pos h2]; rfl⟩, fun h2 =>
    ⟨fun h3 => ⟨trivial, by rw [foreignMap, if_neg h1, if_neg h2, if_pos h3]; rfl⟩, fun h3 =>
    ⟨fun h4 => ⟨trivial, by rw [foreignMap, if_neg h1, if_neg h2, if_neg h3, if_pos h4]; rfl⟩,
    fun h4 => ⟨fun h5 => ⟨trivial, by
      rw [foreignMap, if_neg h1, if_neg h2, if_neg h3, if_neg h4, if_pos h5]; rfl⟩, fun h5 =>
    ⟨fun h6 => ⟨trivial, by
      rw [foreignMap, if_neg h1, if_neg h2, if_neg h3, if_neg h4, if_neg h5, if_pos h6]; rfl⟩,
        fun h6 => ?_⟩⟩⟩⟩⟩⟩
  unfold Prog.wp mapAcquire
  simp only [hacq]
  refine ⟨rfl, ?_⟩
  rw [foreignMap, if_neg h1, if_neg h2, if_neg h3, if_neg h4, if_neg h5, if_neg h6]
  exact hcode

theorem sysMap_foreign (f : ExcFrame) (h : ownToken (s.spaces a).ownerId s f.rdi = none) :
    sysMap a f s = (ret f (if 0xFFFFFFFF < f.rdx.toNat then .inval else
      foreignMap (s.spaces a).live (mapsOf (s.spaces a).ownerId s).length f.rsi.toNat
        f.rdx.toUInt32), s) := by
  have hwp := wp_xasMap_foreign h f.rsi.toNat f.rdx.toUInt32
  rw [sysMap]
  by_cases hbig : 0xFFFFFFFF < f.rdx.toNat
  · rw [if_pos hbig, if_pos hbig]
  · rw [if_neg hbig, if_neg hbig]
    cases hrun : (xasMap a f.rsi.toNat f.rdi f.rdx.toUInt32).run s with
    | mk r s' =>
      cases r with
      | ok u => exact (hwp.ok hrun).elim
      | error e =>
        obtain ⟨rfl, hcode⟩ := hwp.error hrun
        simp only [hcode]

theorem sysFree_foreign (f : ExcFrame) (h : ownToken (s.spaces a).ownerId s f.rdi = none) :
    sysFree a f s = (ret f .badtoken, s) := by
  have hrel : xtokReleaseOwned f.rdi (s.spaces a).ownerId s = (.error .stale, s) := by
    unfold ownToken at h
    unfold xtokReleaseOwned releaseImpl
    cases hl : lookupLive s.ledger f.rdi with
    | none => rfl
    | some k =>
      rw [hl, Option.bind_some] at h
      have howner : (s.ledger.table k).ownerId ≠ (s.spaces a).ownerId := by
        intro heq
        rw [if_pos heq] at h
        exact absurd h (by simp)
      simp only
      rw [if_pos ⟨trivial, howner⟩]
  rw [sysFree, hrel]

theorem SameView.mine {o : OwnerId} {s₁ s₂ : Xeret} (h : SameView o s₁ s₂) :
    (mapsOf o s₁).length = (mapsOf o s₂).length := by
  have hlen := h.records.length_eq
  rwa [ownRecords, ownRecords, List.length_map, List.length_map] at hlen

end Foreign

/-- **Tokens of others cannot be probed.**  In two states that agree on what the caller holds,
mapping or freeing a value that is not a live token of the caller gives the same registers and
changes nothing. -/
theorem xsysResource_foreign (o : OwnerId) (s₁ s₂ : Xeret) (hview : SameView o s₁ s₂) (a : ℕ)
    (howner₁ : (s₁.spaces a).ownerId = o) (howner₂ : (s₂.spaces a).ownerId = o)
    (hlive : (s₁.spaces a).live = (s₂.spaces a).live) (f : ExcFrame)
    (hcall : f.rax = xsysMap ∨ f.rax = xsysFree) (htok₁ : ownToken o s₁ f.rdi = none)
    (htok₂ : ownToken o s₂ f.rdi = none) :
    (xsysResource a f s₁).1 = (xsysResource a f s₂).1 ∧ (xsysResource a f s₁).2 = s₁ ∧
      (xsysResource a f s₂).2 = s₂ := by
  subst howner₁
  have htok₂' : ownToken (s₂.spaces a).ownerId s₂ f.rdi = none := by rwa [howner₂]
  unfold xsysResource
  rcases hcall with hcall | hcall
  · rw [hcall, if_neg (by decide), if_pos rfl, if_neg (by decide), if_pos rfl,
      sysMap_foreign f htok₁, sysMap_foreign f htok₂', howner₂, hview.mine, hlive]
    exact ⟨rfl, rfl, rfl⟩
  · rw [hcall, if_neg (by decide), if_neg (by decide), if_neg (by decide), if_pos rfl,
      if_neg (by decide), if_neg (by decide),
      if_neg (by decide), if_pos rfl, sysFree_foreign f htok₁, sysFree_foreign f htok₂']
    exact ⟨rfl, rfl, rfl⟩

/-- A state in which a program of owner 5 runs in the address space 0 and nothing is mapped. -/
def idle (L : Ledger) : Xeret :=
  ⟨⟨0, 0, 0, fun _ => 0⟩, L, 0, fun _ => ⟨0, 0, 0, 0, 0, false⟩, fun _ _ => 0,
    fun _ => ⟨0, 0, false⟩, fun _ => ⟨0, 5, true⟩, 0⟩

/-- A live token of owner 7, and a token that never existed. -/
theorem xsysResource_foreign_free :
    (xsysResource 0 ⟨xsysFree, packToken 0 1, 0, 0⟩
      (idle (sealSlot 0 7 0x100000 1 userRights emptyLedger))).1 =
        (xsysResource 0 ⟨xsysFree, packToken 0 1, 0, 0⟩ (idle emptyLedger)).1 ∧
      (xsysResource 0 ⟨xsysFree, packToken 0 1, 0, 0⟩
        (idle (sealSlot 0 7 0x100000 1 userRights emptyLedger))).2 =
        idle (sealSlot 0 7 0x100000 1 userRights emptyLedger) ∧
      (xsysResource 0 ⟨xsysFree, packToken 0 1, 0, 0⟩ (idle emptyLedger)).2 = idle emptyLedger := by
  have hnone : ∀ tok, ownToken 5 (idle emptyLedger) tok = none := by
    intro tok
    have hdead : ∀ k, (emptyLedger.table k).ownerId ≠ 5 := fun k => by simp [emptyLedger]
    rw [ownToken]
    cases lookupLive (idle emptyLedger).ledger tok with
    | none => rfl
    | some k =>
      rw [Option.bind_some,
        if_neg (show ((idle emptyLedger).ledger.table k).ownerId ≠ 5 from hdead k)]
  have hother : ∀ tok, ownToken 5 (idle (sealSlot 0 7 0x100000 1 userRights emptyLedger)) tok =
      none := by
    intro tok
    rw [ownToken]
    cases lookupLive (idle (sealSlot 0 7 0x100000 1 userRights emptyLedger)).ledger tok with
    | none => rfl
    | some k =>
      by_cases hk : k = 0 <;> simp [idle, sealSlot, sealed, emptyLedger, hk]
  have hrecords : ownRecords 5 (idle (sealSlot 0 7 0x100000 1 userRights emptyLedger)) =
      ownRecords 5 (idle emptyLedger) := by
    simp only [ownRecords, mapsOf, idle]
  have hview : SameView 5 (idle (sealSlot 0 7 0x100000 1 userRights emptyLedger))
      (idle emptyLedger) := by
    refine ⟨fun tok => by rw [hnone, hother], ?_, rfl⟩
    rw [hrecords]
  exact xsysResource_foreign 5 _ _ hview 0 rfl rfl rfl _ (Or.inr rfl) (hother _) (hnone _)

end Xasmos.Kernel
