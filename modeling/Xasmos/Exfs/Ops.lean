import Xasmos.Exfs.Inode

/-!
# The filesystem's operations

The public functions of `exfs.c`.  A pointer to a file is the index of its inode, and
every access through it looks at the record as it is at that point: reserving pool
space may move a file's slice.
-/

namespace Xasmos.Exfs

open Bytes

/-- The two checks every changing call starts with. -/
def requireLive : FsProg Unit := do
  let s ← Prog.get
  Prog.failIf (s.v.mounted = false) .enofs
  Prog.failIf (s.v.broken = true) .ebroken

/-- `find`, failing with `ENOENT`. -/
def lookup (name : CStr) : FsProg ℕ := do
  let s ← Prog.get
  match find s.v name.bytes with
  | some i => pure i
  | none => Prog.throw .enoent

/-! ## Names -/

/-- The common body of `exfs_create` and `exfs_mkdir`. -/
def newNode (name : CStr) (type : ℕ) : FsProg Unit := do
  requireLive
  let s ← Prog.get
  Prog.failIf (nameOk name.bytes = false) .einval
  Prog.failIf ((find s.v name.bytes).isSome) .eexist
  Prog.failIf (parentOk s.v name.bytes = false) .enoent
  makeNode name.bytes type

/-- `exfs_create`. -/
def exfsCreate (name : CStr) : FsProg Unit := newNode name typeFile

/-- `exfs_mkdir`. -/
def exfsMkdir (name : CStr) : FsProg Unit := newNode name typeDir

/-- `exfs_delete`. -/
def exfsDelete (name : CStr) : FsProg Unit := do
  requireLive
  let i ← lookup name
  let s ← Prog.get
  Prog.failIf ((s.v.files i).type = typeDir ∧ hasChildren s.v name.bytes = true) .enotempty
  deferFile i
  modV fun v => { setFile v i { v.files i with used := false, dirty := true } with dirty := true }

/-- `exfs_size`: the size as the `int64_t` the call returns. -/
def exfsSize (name : CStr) : FsProg ℤ := do
  let s ← Prog.get
  Prog.failIf (s.v.mounted = false) .enofs
  let i ← lookup name
  Prog.failIf ((s.v.files i).type ≠ typeFile) .eisdir
  pure (BitVec.ofNat 64 (s.v.files i).size).toInt

/-! ## Content -/

/-- `stage_add`: append a run to the list being built, merging contiguous runs. -/
def stageAdd (st : List ExfsExtent) (start len : ℕ) : Except ExfsError (List ExfsExtent) :=
  match st.getLast? with
  | some last =>
    if (last.start + last.len) % 2 ^ 64 = start ∧ last.len + len ≤ 0xFFFFFFFF then
      .ok (st.dropLast ++ [⟨last.start, last.len + len⟩])
    else if maxExt ≤ st.length then .error .enomem
    else .ok (st ++ [⟨start, len % 2 ^ 32⟩])
  | none => .ok [⟨start, len % 2 ^ 32⟩]

/-- The part of extent `e`, whose first logical block is `lpos`, inside the logical
range `[lo, hi)`: a disk run, or nothing. -/
def clip (e : ExfsExtent) (lpos lo hi : ℕ) : Option ExfsExtent :=
  let a := max lpos lo
  let b := min (lpos + e.len) hi
  if a < b then some ⟨(e.start + (a - lpos)) % 2 ^ 64, b - a⟩ else none

/-- `walk_old` in mode 0, from logical block `lpos`: append the disk runs of `[lo, hi)`. -/
def walkStage (lo hi : ℕ) : List ExfsExtent → ℕ → List ExfsExtent →
    Except ExfsError (List ExfsExtent)
  | [], _, st => .ok st
  | e :: es, lpos, st =>
    if hi ≤ lpos then .ok st
    else match clip e lpos lo hi with
      | none => walkStage lo hi es (lpos + e.len) st
      | some r => match stageAdd st r.start r.len with
        | .error err => .error err
        | .ok st => walkStage lo hi es (lpos + e.len) st

/-- `walk_old` in mode 1: hand the disk runs of `[lo, hi)` to the deferred release. -/
def walkDefer (lo hi : ℕ) : List ExfsExtent → ℕ → FsProg Unit
  | [], _ => pure ()
  | e :: es, lpos =>
    if hi ≤ lpos then pure ()
    else match clip e lpos lo hi with
      | none => walkDefer lo hi es (lpos + e.len)
      | some r => do
        deferPush r.start (r.len % 2 ^ 32)
        walkDefer lo hi es (lpos + e.len)

/-- `old_phys`: the disk block of logical block `l`. -/
def oldPhys (l : ℕ) : List ExfsExtent → ℕ → Option ℕ
  | [], _ => none
  | e :: es, lpos =>
    if l < lpos + e.len then some (e.start + (l - lpos)) else oldPhys l es (lpos + e.len)

/-- The allocation loop of `exfs_write` and `exfs_write_at`: runs that add up to `need`
blocks, at most `k` more of them. -/
def takeFresh (need : ℕ) : ℕ → ℕ → List ExfsExtent → FsProg (List ExfsExtent)
  | 0, got, fresh =>
    if got < need then do
      releaseFresh fresh
      Prog.throw .enomem
    else pure fresh
  | k + 1, got, fresh =>
    if got < need then do
      let e ← takeExtent (need - got)
      if e.len = 0 then do
        releaseFresh fresh
        Prog.throw .enospc
      else takeFresh need k (got + e.len) (fresh ++ [e])
    else pure fresh

/-- Run `x`; if it fails with any error, give the fresh blocks back and fail with `err`. -/
def orRelease {α : Type} (fresh : List ExfsExtent) (err : ExfsError) (x : FsProg α) : FsProg α := do
  match ← Prog.attempt x with
  | .ok a => pure a
  | .error _ => do
    releaseFresh fresh
    Prog.throw err

/-- As `orRelease`, also giving back a pool slice. -/
def orUndo {α : Type} (fresh : List ExfsExtent) (slice : ℕ × ℕ) (x : FsProg α) : FsProg α := do
  match ← Prog.attempt x with
  | .ok a => pure a
  | .error _ => do
    modV fun v => poolRelease v slice.1 slice.2
    releaseFresh fresh
    Prog.throw .eio

/-- The data loop of `exfs_write`: the blocks still to write, the offset in the buffer
and the bytes left. -/
def writeData (buf : Bytes) : List ℕ → ℕ → ℕ → FsProg Unit
  | [], _, _ => pure ()
  | b :: bs, o, left => do
    let n := min left blockBytes
    blkPut b fun j => if j < n then buf (o + j) else 0
    writeData buf bs (o + n) (left - n)

/-- `exfs_write`. -/
def exfsWrite (name : CStr) (buf : Bytes) (len : ℕ) : FsProg Unit := do
  requireLive
  let i ← lookup name
  let s ← Prog.get
  Prog.failIf ((s.v.files i).type ≠ typeFile) .eisdir
  let fresh ← takeFresh ((len + blockBytes - 1) % 2 ^ 64 / blockBytes) maxExt 0 []
  let s ← Prog.get
  if deferMax < s.v.defer.length + (s.v.files i).n + (s.v.files i).nchain then do
    releaseFresh fresh
    Prog.throw .enomem
  else do
    let slice ← orRelease fresh .enomem (poolReserve fresh.length)
    orUndo fresh slice (writeData buf (blocks fresh) 0 len)
    let _ ← (Prog.attempt (deferFile i) : FsProg (Except ExfsError Unit))
    modV fun v => { v with pool := storeExts v.pool slice.1 fresh }
    modV fun v => { setFile v i { v.files i with
      extOff := slice.1, extCap := slice.2, n := fresh.length, size := len, dirty := true } with
      dirty := true }

/-- The page `exfs_write_at` starts from for logical block `l`: the old block with the
bytes past the end cleared, or zeros. -/
def basePage (i l oldb off stop : ℕ) : FsProg Bytes := do
  let s ← Prog.get
  let bs := l * blockBytes
  if ¬ (off ≤ bs ∧ bs + blockBytes ≤ stop) ∧ l < oldb then
    match oldPhys l (exts s.v i) 0 with
    | none => Prog.throw .eio
    | some op => do
      let page ← blkGot op
      pure fun j => if (s.v.files i).size - bs ≤ j then 0 else page j
  else pure fun _ => 0

/-- The data loop of `exfs_write_at`: logical blocks `w0`, `w0 + 1`, … go to the fresh
blocks in order. -/
def writeRange (i : ℕ) (buf : Bytes) (off stop oldb w0 : ℕ) (fresh : List ℕ) (n : ℕ) :
    FsProg Unit :=
  Prog.iterate n (fun k _ => do
    let bs := (w0 + k) * blockBytes
    let page ← basePage i (w0 + k) oldb off stop
    blkPut (fresh.getD k 0) fun j =>
      if max off bs ≤ bs + j ∧ bs + j < min stop (bs + blockBytes) then buf (bs + j - off)
      else page j) ()

/-- The new extent list of `exfs_write_at`. -/
def stageRange (old fresh : List ExfsExtent) (w0 l1 oldb : ℕ) :
    Except ExfsError (List ExfsExtent) := do
  let st ← walkStage 0 w0 old 0 []
  let st ← fresh.foldlM (fun st e => stageAdd st e.start e.len) st
  walkStage (l1 + 1) oldb old 0 st

/-- `exfs_write_at`. -/
def exfsWriteAt (name : CStr) (off : ℕ) (buf : Bytes) (len : ℕ) : FsProg Unit := do
  requireLive
  let i ← lookup name
  let s ← Prog.get
  Prog.failIf ((s.v.files i).type ≠ typeFile) .eisdir
  if len = 0 then pure ()
  else do
    Prog.failIf ((off + len) % 2 ^ 64 < off) .einval
    let oldb := ((exts s.v i).map ExfsExtent.len).sum
    let l1 := (off + len - 1) / blockBytes
    let w0 := min (off / blockBytes) oldb
    let nfresh := l1 - w0 + 1
    Prog.failIf (gmapFreeTotal s.v.gm < nfresh) .enospc
    Prog.failIf (deferMax < s.v.defer.length + (s.v.files i).n + (s.v.files i).nchain + 1) .enomem
    let fresh ← takeFresh nfresh maxExt 0 []
    let s ← Prog.get
    match stageRange (exts s.v i) fresh w0 l1 oldb with
    | .error _ => do
      releaseFresh fresh
      Prog.throw .enomem
    | .ok st => do
      let slice ← orRelease fresh .enomem (poolReserve st.length)
      orUndo fresh slice (writeRange i buf off (off + len) oldb w0 (blocks fresh) nfresh)
      let s ← Prog.get
      let _ ← (Prog.attempt (walkDefer w0 (min (l1 + 1) oldb) (exts s.v i) 0) :
        FsProg (Except ExfsError Unit))
      let _ ← (Prog.attempt (deferChain (chainOf (s.v.files i))) : FsProg (Except ExfsError Unit))
      modV fun v => poolRelease v (v.files i).extOff (v.files i).extCap
      modV fun v => { v with pool := storeExts v.pool slice.1 st }
      modV fun v => { setFile v i { v.files i with
        extOff := slice.1, extCap := slice.2, nchain := 0, n := st.length,
        size := max (v.files i).size (off + len), dirty := true } with dirty := true }
where
  /-- Hand the chain blocks to the deferred release. -/
  deferChain : List ℕ → FsProg Unit
    | [] => pure ()
    | b :: bs => do
      deferPush b 1
      deferChain bs

/-- The first loop of `exfs_read_at`: the extent that holds logical block `l`, and the
logical block it starts at. -/
def seekExt (l : ℕ) : List ExfsExtent → ℕ → ℕ → ℕ × ℕ
  | [], i, base => (i, base)
  | e :: es, i, base => if base + e.len ≤ l then seekExt l es (i + 1) (base + e.len) else (i, base)

/-- The read loop of `exfs_read_at`, from block `k` of extent `ei`: the bytes read so far,
extended to `want` bytes.  Each turn reads at least one byte, so `want` turns suffice. -/
def readLoop (i want : ℕ) : ℕ → ℕ → ℕ → ℕ → List UInt8 → FsProg (List UInt8)
  | 0, _, _, _, done => if done.length < want then Prog.throw .eio else pure done
  | t + 1, ei, k, inblk, done =>
    if done.length < want then do
      let s ← Prog.get
      let f := s.v.files i
      if ei = f.n then Prog.throw .eio
      else do
        let e := s.v.pool (f.extOff + ei)
        let page ← blkGot (e.start + k)
        let n := min (want - done.length) (blockBytes - inblk)
        let done := done ++ (List.range n).map fun j => page (inblk + j)
        if k + 1 = e.len then readLoop i want t (ei + 1) 0 0 done
        else readLoop i want t ei (k + 1) 0 done
    else pure done

/-- `exfs_read_at`: the bytes it stores; their number is the value it returns. -/
def exfsReadAt (name : CStr) (off cap : ℕ) : FsProg (List UInt8) := do
  let s ← Prog.get
  Prog.failIf (s.v.mounted = false) .enofs
  let i ← lookup name
  let f := s.v.files i
  Prog.failIf (f.type ≠ typeFile) .eisdir
  if f.size ≤ off then pure []
  else do
    let want := min (f.size - off) cap
    let l := off / blockBytes
    let p := seekExt l (exts s.v i) 0 0
    if p.1 = f.n then Prog.throw .eio
    else readLoop i want want p.1 (l - p.2) (off % blockBytes) []

end Xasmos.Exfs
