import Xasmos.Exfs.Ops

/-!
# Commit, format and mount

The life cycle of a volume, in the order the source fixes: a commit writes the chain
blocks of changed files, releases the deferred blocks, flushes the map, writes the
inode table and, last, the superblock of the new generation.
-/

namespace Xasmos.Exfs

open Bytes

/-! ## Commit -/

/-- Run `x`; a failure marks the volume broken and is reported as `err`. -/
def orBreak {α : Type} (err : ExfsError) (x : FsProg α) : FsProg α := do
  match ← Prog.attempt x with
  | .ok a => pure a
  | .error _ => do
    modV fun v => { v with broken := true }
    Prog.throw err

/-- Step 0: the chain blocks the changed files need. -/
def commitNeed (v : Vol) : ℕ :=
  ((List.range inodes).map fun i =>
    if (v.files i).used && (v.files i).dirty then chainNeed (v.files i).n else 0).sum

/-- A changed file with more chain blocks than a record can name. -/
def tooLong (v : Vol) : Bool :=
  (List.range inodes).any fun i =>
    (v.files i).used && (v.files i).dirty && decide (maxChain < chainNeed (v.files i).n)

/-- Step 1 for inode `i`: take its chain blocks. -/
def takeChain (i n : ℕ) : FsProg Unit :=
  Prog.iterate n (fun k _ => do
    let e ← takeExtent 1
    if e.len ≠ 1 then do
      modV fun v => { v with broken := true }
      Prog.throw .enospc
    else modV fun v => setFile v i { v.files i with
      chain := Function.update (v.files i).chain k e.start }) ()

/-- Step 1 for inode `i`: write its chain blocks. -/
def writeChain (i n : ℕ) : FsProg Unit :=
  Prog.iterate n (fun k _ => do
    let s ← Prog.get
    orBreak .eio (blkPut ((s.v.files i).chain k)
      (chainPage (exts s.v i) (chainOf (s.v.files i)) k))) ()

/-- Step 1: chain blocks of the changed files, from free blocks only. -/
def commitChains : FsProg Unit :=
  Prog.iterate inodes (fun i _ => do
    let s ← Prog.get
    if (s.v.files i).used && (s.v.files i).dirty then do
      let n := chainNeed (s.v.files i).n
      takeChain i n
      modV fun v => setFile v i { v.files i with nchain := n }
      writeChain i n
    else pure ()) ()

/-- Step 4: the inode table, into the area of generation `gen`. -/
def writeItab (gen : ℕ) : FsProg Unit := do
  let s ← Prog.get
  let itab : Bytes := fun p => inodeEncode s.v (p / inodeBytes) (p % inodeBytes)
  Prog.iterate itabBlocks (fun b _ => do
    orBreak .eio (blkPut (itabArea gen + b) fun j => itab (b * blockBytes + j))) ()

/-- The fields of step 5. -/
def commitFields (v : Vol) (gen : ℕ) : SbFields where
  gen := gen
  itab := itabArea gen
  nitab := itabBlocks
  ninodes := inodes
  total := v.total
  ngroups := v.gm.ngroups
  slot := (gmapExport v.gm).1
  free := (gmapExport v.gm).2

/-- Step 5: the superblock of generation `gen`, the commit point. -/
def writeSb (gen : ℕ) : FsProg Unit := do
  let s ← Prog.get
  match sbEncode (commitFields s.v gen) with
  | .error _ => do
    modV fun v => { v with broken := true }
    Prog.throw .eio
  | .ok page => orBreak .eio (blkPut (gen % 2) page)

/-- Step 6: pending slots become committed. -/
def finishCommit (v : Vol) (gen : ℕ) : Vol :=
  { v with
    gm := gmapCommit v.gm
    gen := gen
    itabStart := itabArea gen
    files := fun i => if i < inodes then { v.files i with dirty := false } else v.files i
    dirty := false }

/-- `exfs_commit`. -/
def exfsCommit : FsProg Unit := do
  requireLive
  let s ← Prog.get
  if s.v.dirty = false then pure ()
  else do
    Prog.failIf (tooLong s.v = true) .enomem
    Prog.failIf (gmapFreeTotal s.v.gm < commitNeed s.v) .enospc
    commitChains
    orBreak .eio applyDeferred
    match ← onMap gmapFlush with
    | .error _ => do
      modV fun v => { v with broken := true }
      Prog.throw .eio
    | .ok _ => do
      let gen := (s.v.gen + 1) % 2 ^ 64
      writeItab gen
      writeSb gen
      modV fun v => finishCommit v gen

/-! ## Format and mount -/

/-- `geometry` of device `d`, and `gmap_init`. -/
def attach (d : ℕ) : FsProg Unit := do
  let s ← Prog.get
  let ss := (s.disks d).sectorSize
  Prog.failIf (ss = 0 ∨ blockBytes % ss ≠ 0) .enofs
  let total := (s.disks d).sectorCount * ss % 2 ^ 64 / blockBytes
  modV fun v => { v with dev := d, spb := blockBytes / ss, total := total }
  Prog.failIf (total < dataStart + 16 ∨ maxBlocks < total) .enofs
  match gmapInit s.v.gm ss total groupMax with
  | .error _ => Prog.throw .enofs
  | .ok m => modV fun v => { v with gm := m, gmDev := d }

/-- The four directories of a fresh volume: `|user`, `|root`, `|bin` and `|boot`. -/
def freshDirs : List (List UInt8) :=
  [[0x7C, 0x75, 0x73, 0x65, 0x72], [0x7C, 0x72, 0x6F, 0x6F, 0x74], [0x7C, 0x62, 0x69, 0x6E],
    [0x7C, 0x62, 0x6F, 0x6F, 0x74]]

/-- The calls of `make_node` in `exfs_format`; their results are not looked at. -/
def makeDirs : List (List UInt8) → FsProg Unit
  | [] => pure ()
  | name :: names => do
    let _ ← (Prog.attempt (makeNode name typeDir) : FsProg (Except ExfsError Unit))
    makeDirs names

/-- The record before the directories of a fresh volume are made. -/
def emptyVol (v : Vol) : Vol :=
  { v with
    files := fun i => if i < inodes then { v.files i with used := false, extOff := 0, extCap := 0 }
      else v.files i
    poolUsed := fun _ => false
    defer := []
    gen := 0
    itabStart := 0
    hint := dataStart
    broken := false
    mounted := true
    dirty := true }

/-- `exfs_format`. -/
def exfsFormat (d : ℕ) : FsProg Unit := do
  attach d
  match ← onMap gmapFormat with
  | .error _ => Prog.throw .eio
  | .ok _ => do
    modV emptyVol
    makeDirs freshDirs
    exfsCommit

/-- The superblock loop of `exfs_mount`: the newest copy that decodes, if any.  A copy
that cannot be read is skipped. -/
def bestSb : FsProg (Option SbFields) :=
  Prog.iterate 2 (fun s best => do
    match ← (Prog.attempt (blkGot s) : FsProg (Except ExfsError Bytes)) with
    | .error _ => pure best
    | .ok page =>
      match sbDecode page, best with
      | .error _, _ => pure best
      | .ok f, none => pure (some f)
      | .ok f, some b => if b.gen < f.gen then pure (some f) else pure best) none

/-- The inode table of a superblock, as one byte memory. -/
def readItab (itab : ℕ) : FsProg Bytes :=
  Prog.iterate itabBlocks (fun b acc => do
    let page ← blkGot (itab + b)
    pure fun p => if p / blockBytes = b then page (p % blockBytes) else acc p) (fun _ => 0)

/-- The checks of `exfs_mount` on the blocks of inode `i`. -/
def blocksOk (v : Vol) (i : ℕ) : Bool :=
  (chainOf (v.files i)).all (fun b => decide (dataStart ≤ b) && decide (b < v.total)) &&
  (exts v i).all fun e => decide (e.len ≠ 0) && decide (dataStart ≤ e.start) &&
    decide ((e.start + e.len) % 2 ^ 64 ≤ v.total)

/-- One turn of the inode loop of `exfs_mount`. -/
def mountInode (itab : Bytes) (i : ℕ) : FsProg Unit := do
  match ← (Prog.attempt (inodeDecode (fun j => itab (i * inodeBytes + j)) i) :
      FsProg (Except ExfsError (List ExfsExtent))) with
  | .error _ => Prog.throw .enofs
  | .ok es => do
    let s ← Prog.get
    if (s.v.files i).used then do
      let slice ← poolReserve (s.v.files i).n
      modV fun v => { v with pool := storeExts v.pool slice.1 es }
      modV fun v => setFile v i { v.files i with extOff := slice.1, extCap := slice.2 }
      let s ← Prog.get
      Prog.failIf (blocksOk s.v i = false) .enofs
    else pure ()

/-- `exfs_mount`. -/
def exfsMount (d : ℕ) : FsProg Unit := do
  modV fun v => { v with mounted := false }
  attach d
  match ← bestSb with
  | none => Prog.throw .enofs
  | some best => do
    let s ← Prog.get
    Prog.failIf (best.total ≠ s.v.total ∨ best.ngroups ≠ s.v.gm.ngroups) .enofs
    let itab ← readItab best.itab
    modV fun v => { v with
      gm := gmapImport v.gm best.slot best.free
      poolUsed := fun _ => false
      files := fun i => if i < inodes then { v.files i with extOff := 0, extCap := 0 }
        else v.files i }
    Prog.iterate inodes (fun i _ => mountInode itab i) ()
    modV fun v => { v with
      gen := best.gen, itabStart := best.itab, defer := [], hint := dataStart,
      broken := false, dirty := false, mounted := true }

/-- `exfs_unmount`. -/
def exfsUnmount : FsProg Unit := do
  let s ← Prog.get
  Prog.failIf (s.v.mounted = false) .enofs
  exfsCommit
  modV fun v => { v with mounted := false }

/-- `exfs_is_mounted`. -/
def exfsIsMounted (v : Vol) : Bool := v.mounted && !v.broken

/-- `exfs_is_used`: 1 for a used block and 0 for a free one.  A failure of the map is returned
under its own number, which is that of another failure of the filesystem. -/
def exfsIsUsed (block : ℕ) : FsProg ℤ := do
  let s ← Prog.get
  Prog.failIf (s.v.mounted = false) .enofs
  match ← onMap (gmapIsUsed block) with
  | .ok used => pure (if used then 1 else 0)
  | .error e => pure e.code

/-- `exfs_free_blocks`. -/
def exfsFreeBlocks (v : Vol) : ℕ := gmapFreeTotal v.gm

end Xasmos.Exfs
