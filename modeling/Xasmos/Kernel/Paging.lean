import Xasmos.Kernel.Ledger
import Xasmos.Lib.Prog

/-!
# Page tables and address spaces

The page tables are four levels of 512-entry tables in memory.  Each address space has a
root of its own; its user half, the entries 1 to 255 of the root, is built page by page
by `xasMap`, and the other entries are copied from the page table of the kernel.

This module has the functions of `paging.c`.  A function that returns an error code is a
`Prog`: what it changed before it failed stays changed.

## Main definitions

* `entry`, `setEntry` — a 64-bit entry of the table in a frame.
* `nextLevel`, `walkPte`, `mapPage`, `unmapPages`.
* `xptInitIdentity`, `xptTranslate`, `xptAttributes`, `xptMapUncached`, `xasCreate`, `xasMap`,
  `xasUnmap`, `xasRevokeToken`, `xasDestroy`.
-/

namespace Xasmos.Kernel

open Bytes
open Function (update)

/-! Bits of an entry. -/

def xptPresent : ℕ := 1
def xptWrite : ℕ := 2
def xptUser : ℕ := 4
def xptPwt : ℕ := 8
def xptPcd : ℕ := 16
def xptHuge : ℕ := 128
def xptGlobal : ℕ := 256
def xptNx : ℕ := 2 ^ 63

/-- `XPT_KERNEL_RW` -/
def xptKernelRw : ℕ := xptPresent ||| xptWrite

/-- `XPT_UC` -/
def xptUc : ℕ := xptPcd ||| xptPwt

/-- `XPT_UPPER`: the flags of the upper levels of a user mapping. -/
def xptUpper : ℕ := xptPresent ||| xptWrite ||| xptUser

def xptAddrMask : ℕ := 0x000FFFFFFFFFF000
def xptHugeMask : ℕ := 0x000FFFFFFFE00000

/-- `XPT_ENTS` -/
def xptEnts : ℕ := 512

/-- The size of a huge page. -/
def hugeSize : ℕ := 2097152

def fourGib : ℕ := 0x100000000

/-- `PML4_SPAN`: what one entry of the root covers. -/
def pml4Span : ℕ := 2 ^ 39

/-- `XPT_KERNEL_HALF` -/
def xptKernelHalf : ℕ := 256

/-- `XPT_MMIO_PML4` -/
def xptMmioPml4 : ℕ := 384

/-- `XPT_MMIO_BASE`: the device window below 4 GiB. -/
def xptMmioBase : ℕ := 0xC0000000

/-- `XPT_MMIO_VA`: the address of the window that `xptMapUncached` fills. -/
def xptMmioVa : ℕ := 0xFFFFC00000000000

/-- `XPT_MMIO_MAX_PAGES`: the pages of one call. -/
def xptMmioMaxPages : ℕ := 4096

/-- `XAS_USER_BASE` -/
def userBase : ℕ := 0x0000008000000000

/-- `XAS_USER_TOP` -/
def userTop : ℕ := 0x0000800000000000

/-- `XAS_MAX_MAPS_PER_OWNER` -/
def maxMapsPerOwner : ℕ := 64

/-! Permissions that `xas_map` is asked for. -/

def permR : UInt32 := 1
def permW : UInt32 := 2
def permX : UInt32 := 4

/-- The failures of the `xas_*` functions. -/
inductive XasError where
  | arg
  | wx
  | range
  | token
  | owner
  | rights
  | busy
  | nomem
  | notMapped
  deriving DecidableEq

/-- The number of frames never changes after the start. -/
instance : Preorder Xeret where
  le s s' := s'.phys.totalFrames = s.phys.totalFrames
  le_refl _ := rfl
  le_trans _ _ _ h h' := h'.trans h

/-- A function of the kernel that may fail. -/
abbrev KProg := Prog XasError Xeret

/-! ## Tables in memory -/

/-- Entry `i` of the table in frame `f`. -/
def entry (s : Xeret) (f i : ℕ) : ℕ := getLE 8 (s.mem f) (8 * i)

/-- Entry `i` of the table in frame `f` becomes `v`. -/
def setEntry (f i v : ℕ) (s : Xeret) : Xeret :=
  { s with mem := update s.mem f (putLE 8 (s.mem f) (8 * i) v) }

/-- `alloc_zero_table`: the address of a fresh table. -/
def allocZeroTable : KProg ℕ := do
  let s ← Prog.get
  let alloc := physAllocFrames 1 s.phys
  Prog.modify (fun s => { s with phys := (physAllocFrames 1 s.phys).2 })
    fun s => totalFrames_physAllocFrames 1 s.phys
  Prog.failIf (alloc.1 = 0) .nomem
  Prog.modify (zeroFrames alloc.1 1) fun _ => rfl
  pure alloc.1

/-- `next_level`: the address of the table that entry `idx` of `table` points to, made if the
entry is absent. -/
def nextLevel (table idx flags : ℕ) : KProg ℕ := do
  let s ← Prog.get
  let e := entry s (table / frameSize) idx
  if e &&& xptPresent = 0 then do
    let phys ← allocZeroTable
    Prog.modify (setEntry (table / frameSize) idx (phys ||| flags)) fun _ => rfl
    pure phys
  else pure (e &&& xptAddrMask)

/-! ## The page table of the kernel -/

/-- `align_down` -/
def alignDown (v a : ℕ) : ℕ := v / a * a

/-- `align_up` -/
def alignUp (v a : ℕ) : ℕ := (v + a - 1) % 2 ^ 64 / a * a

/-- `map_huge`: identity mappings of 2 MiB; an entry that is present is left alone. -/
def mapHuge (pml4 start last flags : ℕ) : KProg Unit :=
  let first := alignDown start hugeSize
  Prog.iterate ((last + hugeSize - 1 - first) / hugeSize) (fun k _ => do
    let a := first + k * hugeSize
    let pdpt ← nextLevel pml4 (a >>> 39 &&& 0x1FF) xptKernelRw
    let pd ← nextLevel pdpt (a >>> 30 &&& 0x1FF) xptKernelRw
    let idx := a >>> 21 &&& 0x1FF
    let s ← Prog.get
    if entry s (pd / frameSize) idx &&& xptPresent = 0 then
      Prog.modify (setEntry (pd / frameSize) idx (a &&& xptHugeMask ||| flags ||| xptHuge))
        fun _ => rfl
    else pure ()) ()

/-- `xpt_init_identity` on a processor that has NX or not. -/
def xptInitIdentity (hasNx : Bool) (physEnd extraBase extraSize : ℕ) : KProg Unit := do
  Prog.failIf (physEnd = 0) .arg
  Prog.failIf (pml4Span < alignUp physEnd hugeSize) .arg
  Prog.failIf (extraSize ≠ 0 ∧ (pml4Span < (extraBase + extraSize) % 2 ^ 64 ∨
    (extraBase + extraSize) % 2 ^ 64 < extraBase)) .arg
  Prog.failIf (hasNx = false) .arg
  let pml4 ← allocZeroTable
  -- the uncached regions come first: the first mapping wins
  mapHuge pml4 xptMmioBase fourGib (xptKernelRw ||| xptGlobal ||| xptUc)
  if extraSize ≠ 0 then
    mapHuge pml4 extraBase (extraBase + extraSize) (xptKernelRw ||| xptGlobal ||| xptUc)
  else pure ()
  mapHuge pml4 0 (alignUp (if physEnd < xptMmioBase then physEnd else xptMmioBase) hugeSize)
    (xptKernelRw ||| xptGlobal)
  if fourGib < physEnd then
    mapHuge pml4 fourGib (alignUp physEnd hugeSize) (xptKernelRw ||| xptGlobal)
  else pure ()
  -- the table of the device window, shared by all address spaces
  let _ ← nextLevel pml4 xptMmioPml4 xptKernelRw
  Prog.modify (fun s => { s with pml4Phys := pml4, mmioNext := xptMmioVa }) fun _ => rfl

/-- `xpt_translate` -/
def xptTranslate (s : Xeret) (virt : ℕ) : Option ℕ :=
  if s.pml4Phys = 0 then none
  else
    let e := entry s (s.pml4Phys / frameSize) (virt >>> 39 &&& 0x1FF)
    if e &&& xptPresent = 0 then none
    else
      let e := entry s ((e &&& xptAddrMask) / frameSize) (virt >>> 30 &&& 0x1FF)
      if e &&& xptPresent = 0 then none
      else
        let e := entry s ((e &&& xptAddrMask) / frameSize) (virt >>> 21 &&& 0x1FF)
        if e &&& xptPresent = 0 ∨ e &&& xptHuge = 0 then none
        else some ((e &&& xptHugeMask) ||| (virt &&& (hugeSize - 1)))

/-- `xpt_attributes`: the entry of a 2 MiB or of a 4 KiB page. -/
def xptAttributes (s : Xeret) (virt : ℕ) : Option ℕ :=
  if s.pml4Phys = 0 then none
  else
    let e := entry s (s.pml4Phys / frameSize) (virt >>> 39 &&& 0x1FF)
    if e &&& xptPresent = 0 then none
    else
      let e := entry s ((e &&& xptAddrMask) / frameSize) (virt >>> 30 &&& 0x1FF)
      if e &&& xptPresent = 0 then none
      else
        let e := entry s ((e &&& xptAddrMask) / frameSize) (virt >>> 21 &&& 0x1FF)
        if e &&& xptPresent = 0 then none
        else if e &&& xptHuge = 0 then
          let e := entry s ((e &&& xptAddrMask) / frameSize) (virt >>> 12 &&& 0x1FF)
          if e &&& xptPresent = 0 then none else some e
        else some e

/-- The flags of a page of a device. -/
def uncachedFlags : ℕ := xptKernelRw ||| xptGlobal ||| xptUc ||| xptNx

/-- One turn of the loop of `xpt_map_uncached`: the page at `va` of the window with the table `pdpt`
shows the frame at `pa`. -/
def mapUncachedPage (pdpt va pa : ℕ) : KProg Unit := do
  let pd ← nextLevel pdpt (va >>> 30 &&& 0x1FF) xptKernelRw
  let pt ← nextLevel pd (va >>> 21 &&& 0x1FF) xptKernelRw
  let idx := va >>> 12 &&& 0x1FF
  let s ← Prog.get
  Prog.failIf (entry s (pt / frameSize) idx &&& xptPresent ≠ 0) .busy
  Prog.modify (setEntry (pt / frameSize) idx ((pa &&& xptAddrMask) ||| uncachedFlags)) fun _ => rfl

/-- `xpt_map_uncached`: the address of `phys` in the window; every failure is -1.  What was mapped
before a failure stays mapped. -/
def xptMapUncached (phys size : ℕ) : KProg ℕ := do
  let s ← Prog.get
  Prog.failIf (s.pml4Phys = 0 ∨ size = 0) .arg
  let start := alignDown phys frameSize
  Prog.failIf ((phys + size) % 2 ^ 64 < phys) .arg
  let last := alignUp ((phys + size) % 2 ^ 64) frameSize
  let pages := (last + 2 ^ 64 - start) % 2 ^ 64 / frameSize
  Prog.failIf (pages = 0 ∨ xptMmioMaxPages < pages) .arg
  let base := s.mmioNext
  Prog.failIf ((base + pages * frameSize) % 2 ^ 64 < base ∨
    xptMmioVa + pml4Span < (base + pages * frameSize) % 2 ^ 64) .range
  let pdpt := entry s (s.pml4Phys / frameSize) xptMmioPml4 &&& xptAddrMask
  Prog.iterate pages (fun i _ => mapUncachedPage pdpt (base + i * frameSize)
    (start + i * frameSize)) ()
  Prog.modify (fun s => { s with mmioNext := base + pages * frameSize }) fun _ => rfl
  pure (base + (phys - start))

/-! ## User mappings -/

/-- `walk_pte`: the frame and the index of the entry of the page at `va`, if every upper level is
present. -/
def walkPte (s : Xeret) (pml4 va : ℕ) : Option (ℕ × ℕ) :=
  let e := entry s (pml4 / frameSize) (va >>> 39 &&& 0x1FF)
  if e &&& xptPresent = 0 then none
  else
    let e := entry s ((e &&& xptAddrMask) / frameSize) (va >>> 30 &&& 0x1FF)
    if e &&& xptPresent = 0 then none
    else
      let e := entry s ((e &&& xptAddrMask) / frameSize) (va >>> 21 &&& 0x1FF)
      if e &&& xptPresent = 0 ∨ e &&& xptHuge ≠ 0 then none
      else some ((e &&& xptAddrMask) / frameSize, va >>> 12 &&& 0x1FF)

/-- `map_page` -/
def mapPage (pml4 va pa leaf : ℕ) : KProg Unit := do
  let pdpt ← nextLevel pml4 (va >>> 39 &&& 0x1FF) xptUpper
  let pd ← nextLevel pdpt (va >>> 30 &&& 0x1FF) xptUpper
  let pt ← nextLevel pd (va >>> 21 &&& 0x1FF) xptUpper
  let idx := va >>> 12 &&& 0x1FF
  let s ← Prog.get
  Prog.failIf (entry s (pt / frameSize) idx &&& xptPresent ≠ 0) .busy
  Prog.modify (setEntry (pt / frameSize) idx (pa &&& xptAddrMask ||| leaf)) fun _ => rfl

/-- One turn of the loop of `unmap_pages`: the page at `va` is absent. -/
def unmapPage (pml4 va : ℕ) (s : Xeret) : Xeret :=
  match walkPte s pml4 va with
  | none => s
  | some pte => if entry s pte.1 pte.2 &&& xptPresent ≠ 0 then setEntry pte.1 pte.2 0 s else s

/-- `unmap_pages` -/
def unmapPages (pml4 va pages : ℕ) (s : Xeret) : Xeret :=
  loop 0 pages (fun i => unmapPage pml4 (va + i * frameSize)) s

/-- Mapping record `i` is no longer live. -/
def clearRecord (i : ℕ) (s : Xeret) : Xeret :=
  { s with maps := update s.maps i { s.maps i with live := false } }

/-- `drop_record` -/
def dropRecord (i : ℕ) (s : Xeret) : Xeret :=
  let r := s.maps i
  clearRecord i (xtokMapRelease r.tok (unmapPages r.asPml4 r.virt r.pages s))

/-- `map_err` -/
def mapErr : MapError → XasError
  | .stale => .token
  | .kind => .token
  | .owner => .owner
  | .rights => .rights
  | .busy => .busy

/-- `xas_create` into the address space `a`. -/
def xasCreate (a : ℕ) (owner : OwnerId) : KProg Unit := do
  let s ← Prog.get
  Prog.failIf (s.pml4Phys = 0 ∨ owner = ownerKernel) .arg
  let pml4 ← allocZeroTable
  let s ← Prog.get
  let kernel := s.pml4Phys / frameSize
  -- the user half must be empty in the map of the kernel
  if (List.range' 1 (xptKernelHalf - 1)).any fun i => entry s kernel i &&& xptPresent ≠ 0 then do
    Prog.modify (fun s => { s with phys := physFreeFrames pml4 1 s.phys })
      fun s => totalFrames_physFreeFrames pml4 1 s.phys
    Prog.throw .arg
  else do
    let new := pml4 / frameSize
    Prog.modify (setEntry new 0 (entry s kernel 0)) fun _ => rfl
    Prog.iterate (xptEnts - xptKernelHalf) (fun k _ => do
      let s ← Prog.get
      Prog.modify (setEntry new (xptKernelHalf + k) (entry s kernel (xptKernelHalf + k)))
        fun _ => rfl) ()
    Prog.modify (fun s => { s with spaces := update s.spaces a ⟨pml4, owner, true⟩ }) fun _ => rfl

/-- The rights a token needs for a mapping with these permissions. -/
def rightsFor (perms : UInt32) : UInt32 :=
  let need := rightMap ||| rightRead
  let need := if perms &&& permW ≠ 0 then need ||| rightWrite else need
  if perms &&& permX ≠ 0 then need ||| rightExecute else need

/-- The flags of the entries of a mapping with these permissions. -/
def leafFlags (perms : UInt32) : ℕ :=
  let leaf := xptPresent ||| xptUser
  let leaf := if perms &&& permW ≠ 0 then leaf ||| xptWrite else leaf
  if perms &&& permX = 0 then leaf ||| xptNx else leaf

/-- The live mapping records of an owner. -/
def mapsOf (owner : OwnerId) (s : Xeret) : List ℕ :=
  (List.range maxMaps).filter fun i => (s.maps i).live && (s.maps i).owner == owner

/-- The first mapping record that is not live. -/
def freeRecord (s : Xeret) : Option ℕ := (List.range maxMaps).find? fun i => !(s.maps i).live

@[simp] theorem phys_xtokMapRelease (tok : XToken) (s : Xeret) :
    (xtokMapRelease tok s).phys = s.phys := by
  unfold xtokMapRelease
  cases lookupLive s.ledger tok with
  | none => rfl
  | some k =>
    simp only
    split_ifs <;> rfl

@[simp] theorem phys_unmapPage (pml4 va : ℕ) (s : Xeret) : (unmapPage pml4 va s).phys = s.phys := by
  unfold unmapPage
  cases walkPte s pml4 va with
  | none => rfl
  | some pte =>
    simp only
    split_ifs <;> rfl

@[simp] theorem phys_unmapPages (pml4 va pages : ℕ) (s : Xeret) :
    (unmapPages pml4 va pages s).phys = s.phys :=
  loop_keeps (fun t : Xeret => t.phys = s.phys) rfl fun _ _ h => by rw [phys_unmapPage, h]

@[simp] theorem phys_dropRecord (i : ℕ) (s : Xeret) : (dropRecord i s).phys = s.phys := by
  simp [dropRecord, clearRecord]

@[simp] theorem phys_xtokMapAcquire (tok : XToken) (caller : OwnerId) (need : UInt32) (s : Xeret) :
    (xtokMapAcquire tok caller need s).2.phys = s.phys := by
  unfold xtokMapAcquire
  cases lookupLive s.ledger tok with
  | none => rfl
  | some k =>
    simp only
    split_ifs <;> rfl

/-- `xtok_map_acquire` in `xas_map`, with the errors that become of its own. -/
def mapAcquire (tok : XToken) (caller : OwnerId) (need : UInt32) : KProg (ℕ × ℕ) where
  run s := ((xtokMapAcquire tok caller need s).1.mapError mapErr,
    (xtokMapAcquire tok caller need s).2)
  le_run s := by simp [LE.le]

/-- `xtok_map_release` in `xas_map`. -/
def mapRelease (tok : XToken) : KProg Unit :=
  Prog.modify (xtokMapRelease tok) fun s => by simp [LE.le]

/-- `xas_map` -/
def xasMap (a virt : ℕ) (tok : XToken) (perms : UInt32) : KProg Unit := do
  let s ← Prog.get
  let as := s.spaces a
  Prog.failIf (as.live = false) .arg
  Prog.failIf (perms = 0 ∨ perms &&& ~~~(permR ||| permW ||| permX) ≠ 0) .arg
  Prog.failIf (perms &&& permW ≠ 0 ∧ perms &&& permX ≠ 0) .wx
  Prog.failIf (virt &&& (frameSize - 1) ≠ 0) .range
  Prog.failIf (virt < userBase ∨ userTop ≤ virt) .range
  Prog.failIf (maxMapsPerOwner ≤ (mapsOf as.ownerId s).length) .nomem
  let ram ← mapAcquire tok as.ownerId (rightsFor perms)
  if ram.2 = 0 ∨ (userTop - virt) / frameSize < ram.2 then do
    mapRelease tok
    Prog.throw .range
  else do
    let s ← Prog.get
    match freeRecord s with
    | none => do
      mapRelease tok
      Prog.throw .nomem
    | some i => do
      Prog.iterate ram.2 (fun k _ =>
        -- a failure rolls back this call only
        (mapPage as.pml4Phys (virt + k * frameSize) (ram.1 + k * frameSize)
          (leafFlags perms)).onError
          (fun s => xtokMapRelease tok (unmapPages as.pml4Phys virt k s))
          fun s => by simp [LE.le]) ()
      Prog.modify (fun s => { s with
        maps := update s.maps i ⟨as.pml4Phys, as.ownerId, virt, tok, ram.2, true⟩ }) fun _ => rfl

/-- `xas_unmap` -/
def xasUnmap (a virt : ℕ) : KProg Unit := do
  let s ← Prog.get
  let as := s.spaces a
  Prog.failIf (as.live = false) .arg
  match (List.range maxMaps).find? fun i =>
      (s.maps i).live && (s.maps i).asPml4 == as.pml4Phys && (s.maps i).virt == virt with
  | none => Prog.throw .notMapped
  | some i => Prog.modify (dropRecord i) fun s => by simp [LE.le]

/-- The live records that satisfy `c` are dropped and counted. -/
def dropRecords (c : MapRec → Bool) (s : Xeret) : ℕ × Xeret :=
  loop 0 maxMaps (fun i e =>
    if (e.2.maps i).live && c (e.2.maps i) then (e.1 + 1, dropRecord i e.2) else e) (0, s)

/-- `xas_revoke_token`: the number of mappings that are removed. -/
def xasRevokeToken (tok : XToken) (s : Xeret) : ℕ × Xeret := dropRecords (fun r => r.tok == tok) s

/-- The entry is present. -/
def isPresent (e : ℕ) : Bool := e &&& xptPresent != 0

/-- The frames of the tables in entries `lo`, …, `hi - 1` of table `f` are handed to `each`, then
freed. -/
def freeTables (mem : Xeret) (f lo hi : ℕ) (each : ℕ → PhysBitmap → PhysBitmap) (p : PhysBitmap) :
    PhysBitmap :=
  loop lo hi (fun i p =>
    let e := entry mem f i
    if isPresent e then
      physFreeFrames (e &&& xptAddrMask) 1 (each ((e &&& xptAddrMask) / frameSize) p)
    else p) p

/-- `xas_destroy`; only the tables of the user half are freed. -/
def xasDestroy (a : ℕ) (s : Xeret) : Xeret :=
  let as := s.spaces a
  if as.live = false then s
  else
    let s := (dropRecords (fun r => r.asPml4 == as.pml4Phys) s).2
    let phys := freeTables s (as.pml4Phys / frameSize) 1 xptKernelHalf
      (fun pdpt => freeTables s pdpt 0 xptEnts
        (fun pd => freeTables s pd 0 xptEnts fun _ p => p)) s.phys
    { s with
      phys := physFreeFrames as.pml4Phys 1 phys
      spaces := update s.spaces a { as with live := false } }

end Xasmos.Kernel
