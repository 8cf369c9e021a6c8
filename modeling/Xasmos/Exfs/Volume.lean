import Xasmos.Exfs.GroupMap

/-!
# The mounted volume

The static record `V` of `exfs.c`, the extent pool, and the lookup of names.  The
scratch buffers of the record (`page`, `itab`, `fresh`, `stage`) carry nothing from
one call to the next and are local values here.

Several devices may exist; the record holds the identity of the one in use, twice, as
the source does: in `dev`, and in the group map's own pointer `gmDev`.

The pool's bitmap is a predicate on slots and the deferred list a list; both keep the
limits of the arrays they stand for.
-/

namespace Xasmos.Exfs

open Bytes

/-! ## Constants -/

/-- `EXFS_NAME_MAX`. -/
def nameMax : ℕ := 95
/-- `EXFS_INL`. -/
def inlineExt : ℕ := 8
/-- `EXFS_IND_EXT`. -/
def indExt : ℕ := 254
/-- `EXFS_MAX_EXT`. -/
def maxExt : ℕ := 2048
/-- `EXFS_MAX_CHAIN`. -/
def maxChain : ℕ := 16
/-- `EXFS_DEFER_MAX`. -/
def deferMax : ℕ := 8192
/-- `EXFS_POOL_EXT`. -/
def poolExt : ℕ := 16384
/-- `POOL_MIN_CAP`. -/
def poolMinCap : ℕ := 8
/-- `INODE_BYTES`. -/
def inodeBytes : ℕ := 256
/-- `EXFS_TYPE_FILE`. -/
def typeFile : ℕ := 0
/-- `EXFS_TYPE_DIR`. -/
def typeDir : ℕ := 1

/-- The failures of `exfs.h` that a function here reports. -/
inductive ExfsError where
  | enoent | enospc | eio | enofs | eexist | einval | ebroken | enomem | eisdir | enotempty
  deriving DecidableEq, Repr

/-! ## State -/

/-- `ExfsExtent`: `len` contiguous blocks from `start`. -/
structure ExfsExtent where
  start : ℕ
  len : ℕ
  deriving DecidableEq, Repr, Inhabited

/-- `ExfsFile`. -/
structure ExfsFile where
  used : Bool
  type : ℕ
  size : ℕ
  name : Bytes
  n : ℕ
  extOff : ℕ
  extCap : ℕ
  nchain : ℕ
  chain : ℕ → ℕ
  dirty : Bool

/-- The record `V`. -/
structure Vol where
  dev : ℕ
  gmDev : ℕ
  spb : ℕ
  total : ℕ
  gen : ℕ
  itabStart : ℕ
  mounted : Bool
  broken : Bool
  dirty : Bool
  gm : GMap
  hint : ℕ
  files : ℕ → ExfsFile
  pool : ℕ → ExfsExtent
  poolUsed : ℕ → Bool
  defer : List ExfsExtent

/-- All devices, and the volume record. -/
structure St where
  disks : ℕ → Disk
  v : Vol

instance : Preorder St where
  le s t := ∀ i, s.disks i ≤ t.disks i
  le_refl s i := le_refl (s.disks i)
  le_trans _ _ _ h h' i := le_trans (h i) (h' i)

/-- A function of the filesystem. -/
abbrev FsProg := Prog ExfsError St

/-- The device in use. -/
def St.disk (s : St) : Disk := s.disks s.v.dev

/-- The group map and its device. -/
def St.gst (s : St) : GSt := ⟨s.v.gm, s.disks s.v.gmDev⟩

/-- Change the record in memory. -/
def modV (f : Vol → Vol) : FsProg Unit :=
  Prog.modify (fun s => { s with v := f s.v }) fun _ _ => le_refl _

/-- Replace one device by a later state of it. -/
def St.setDisk (s : St) (i : ℕ) (d : Disk) : St := { s with disks := Function.update s.disks i d }

theorem St.le_setDisk {s : St} {i : ℕ} {d : Disk} (h : s.disks i ≤ d) (v : Vol) :
    s ≤ { s.setDisk i d with v := v } := by
  intro j
  by_cases hj : j = i
  · subst hj
    simpa [St.setDisk] using h
  · simp [St.setDisk, hj]

/-- A request to device `V.dev`; any failure is `EXFS_EIO`. -/
def devIo {α : Type} (x : Prog BlkError Disk α) : FsProg α :=
  (x.mapError fun _ => ExfsError.eio).zoom St.disk (fun d s => s.setDisk s.v.dev d)
    fun s _ h => St.le_setDisk h s.v

/-- A call of the group map, with its return code. -/
def onMap {α : Type} (x : GProg α) : FsProg (Except GmapError α) :=
  (Prog.attempt x).zoom St.gst (fun t s => { s.setDisk s.v.gmDev t.disk with
    v := { s.v with gm := t.map } }) fun _ _ h => St.le_setDisk h _

/-- `blk_put`. -/
def blkPut (b : ℕ) (buf : Bytes) : FsProg Unit := do
  let s ← Prog.get
  devIo (blkWrite (b * s.v.spb % 2 ^ 64) s.v.spb buf)

/-- `blk_got`. -/
def blkGot (b : ℕ) : FsProg Bytes := do
  let s ← Prog.get
  devIo (blkRead (b * s.v.spb % 2 ^ 64) s.v.spb)

/-- Assign to inode `i`. -/
def setFile (v : Vol) (i : ℕ) (f : ExfsFile) : Vol :=
  { v with files := Function.update v.files i f }

/-! ## The extent pool -/

/-- The extent list of inode `i`: `FEXT(f)[0 .. n)`. -/
def exts (v : Vol) (i : ℕ) : List ExfsExtent :=
  (List.range (v.files i).n).map fun k => v.pool ((v.files i).extOff + k)

/-- The blocks of a list of extents, in logical order. -/
def blocks (es : List ExfsExtent) : List ℕ := es.flatMap fun e => List.range' e.start e.len

/-- `pool_mark`. -/
def poolMark (v : Vol) (off cap : ℕ) (on : Bool) : Vol :=
  { v with poolUsed := fun i => if off ≤ i ∧ i < off + cap then on else v.poolUsed i }

/-- `pool_release`. -/
def poolRelease (v : Vol) (off cap : ℕ) : Vol := poolMark v off cap false

/-- The scan of `pool_find` from slot `i`, with `k` slots to go and a free run of
length `run` behind it. -/
def poolFindFrom (u : ℕ → Bool) (cap : ℕ) : ℕ → ℕ → ℕ → Option ℕ
  | 0, _, _ => none
  | k + 1, i, run =>
    if u i then poolFindFrom u cap k (i + 1) 0
    else if run + 1 = cap then some (i + 1 - cap)
    else poolFindFrom u cap k (i + 1) (run + 1)

/-- `pool_find`: the first free run of `cap` slots. -/
def poolFind (u : ℕ → Bool) (cap : ℕ) : Option ℕ := poolFindFrom u cap poolExt 0 0

/-- One insertion of the sort in `pool_compact`; the sorted part is kept last element
first, which is the end the source scans from. -/
def insertOrder (key : ℕ → ℕ) (x : ℕ) : List ℕ → List ℕ
  | [] => [x]
  | y :: ys => if key x < key y then y :: insertOrder key x ys else x :: y :: ys

/-- The inodes that own a slice, in offset order. -/
def compactOrder (v : Vol) : List ℕ :=
  (((List.range inodes).filter fun i => (v.files i).used && decide (0 < (v.files i).extCap)).foldl
    (fun acc x => insertOrder (fun i => (v.files i).extOff) x acc) []).reverse

/-- The copy loop of `pool_compact`, one slot at a time and forward. -/
def copySlots (p : ℕ → ExfsExtent) (src dst n : ℕ) : ℕ → ExfsExtent :=
  (List.range n).foldl (fun p k => Function.update p (dst + k) (p (src + k))) p

/-- One turn of the packing loop, for inode `i`. -/
def compactStep (r : Vol × ℕ) (i : ℕ) : Vol × ℕ :=
  let f := r.1.files i
  let v :=
    if f.extOff ≠ r.2 then
      setFile { r.1 with pool := copySlots r.1.pool f.extOff r.2 f.n } i { f with extOff := r.2 }
    else r.1
  (poolMark v r.2 f.extCap true, r.2 + f.extCap)

/-- `pool_compact`. -/
def poolCompact (v : Vol) : Vol :=
  ((compactOrder v).foldl compactStep ({ v with poolUsed := fun _ => false }, 0)).1

/-- The doubling loop of `slice_cap_for`. -/
def sliceCapFrom (n : ℕ) : ℕ → ℕ → ℕ
  | 0, c => c
  | k + 1, c => if c < n then sliceCapFrom n k (c * 2) else c

/-- `slice_cap_for`.  No caller has more than `EXFS_MAX_EXT` extents; above `2 ^ 31` of them the
capacity of the source would wrap. -/
def sliceCapFor (n : ℕ) : ℕ := sliceCapFrom n 29 poolMinCap

/-- `pool_reserve`: offset and capacity of a slice for `n` extents. -/
def poolReserve (n : ℕ) : FsProg (ℕ × ℕ) :=
  if n = 0 then pure (0, 0)
  else do
    let cap := sliceCapFor n
    let s ← Prog.get
    match poolFind s.v.poolUsed cap with
    | some off => do
      modV fun v => poolMark v off cap true
      pure (off, cap)
    | none => do
      modV poolCompact
      let s ← Prog.get
      match poolFind s.v.poolUsed cap with
      | some off => do
        modV fun v => poolMark v off cap true
        pure (off, cap)
      | none => Prog.throw .enomem

/-- Store a list of extents in the pool from slot `off` on. -/
def storeExts (p : ℕ → ExfsExtent) (off : ℕ) (es : List ExfsExtent) : ℕ → ExfsExtent :=
  fun i => if off ≤ i ∧ i < off + es.length then es.getD (i - off) default else p i

/-! ## Free space and deferred release -/

/-- `take_extent`: a taken run of at most `need` blocks; its length is 0 when there is
no free space. -/
def takeExtent (need : ℕ) : FsProg ExfsExtent := do
  let s ← Prog.get
  match ← onMap (gmapTake s.v.hint need) with
  | .ok r => do
    modV fun v => { v with hint := r.1 + r.2 }
    pure ⟨r.1, r.2⟩
  | .error _ => pure ⟨0, 0⟩

/-- `release_fresh`: the map's answer is not looked at. -/
def releaseFresh : List ExfsExtent → FsProg Unit
  | [] => pure ()
  | e :: es => do
    let _ ← onMap (gmapRelease e.start e.len)
    releaseFresh es

/-- `defer_push`. -/
def deferPush (start len : ℕ) : FsProg Unit := do
  let s ← Prog.get
  if deferMax ≤ s.v.defer.length then Prog.throw .enomem
  else modV fun v => { v with defer := v.defer ++ [⟨start, len⟩] }

/-- The committed chain blocks of inode `i`. -/
def chainOf (f : ExfsFile) : List ℕ := (List.range f.nchain).map f.chain

/-- `defer_file`. -/
def deferFile (i : ℕ) : FsProg Unit := do
  let s ← Prog.get
  let f := s.v.files i
  if deferMax < s.v.defer.length + (f.n + f.nchain) then Prog.throw .enomem
  else do
    modV fun v => { v with defer := v.defer ++ exts v i ++ (chainOf f).map fun b => ⟨b, 1⟩ }
    modV fun v => poolRelease v f.extOff f.extCap
    modV fun v => setFile v i { f with extOff := 0, extCap := 0, n := 0, nchain := 0 }

/-- `apply_deferred`: on a failure the list is kept as it was. -/
def applyDeferred : FsProg Unit := do
  let s ← Prog.get
  releaseAll s.v.defer
  modV fun v => { v with defer := [] }
where
  /-- Release the entries in order, up to the first that fails. -/
  releaseAll : List ExfsExtent → FsProg Unit
    | [] => pure ()
    | e :: es => do
      match ← onMap (gmapRelease e.start e.len) with
      | .ok _ => releaseAll es
      | .error _ => Prog.throw .eio

/-! ## Names -/

/-- A C string the caller passes: its bytes up to the terminator. -/
structure CStr where
  bytes : List UInt8
  no_nul : ∀ c ∈ bytes, c ≠ 0
  deriving DecidableEq

/-- The separator `'|'`. -/
def pipe : UInt8 := 0x7C

/-- The comparison loop of `find`: the stored name from offset `o` against the rest of
the caller's string. -/
def nameEq (a : Bytes) : List UInt8 → ℕ → Bool
  | [], o => a o == 0
  | c :: cs, o => if a o ≠ 0 ∧ a o = c then nameEq a cs (o + 1) else a o == c

/-- `find`: the first used inode with this name. -/
def find (v : Vol) (name : List UInt8) : Option ℕ :=
  (List.range inodes).find? fun i => (v.files i).used && nameEq (v.files i).name name 0

/-- `name_ok`. -/
def nameOk (name : List UInt8) : Bool :=
  decide (name.getD 0 0 = pipe) &&
  decide (2 ≤ name.length ∧ name.length ≤ nameMax) &&
  decide (name.getD (name.length - 1) 0 ≠ pipe) &&
  (List.range' 1 (name.length - 1)).all fun i =>
    !(decide (name.getD i 0 = pipe) && decide (name.getD (i - 1) 0 = pipe))

/-- The index of the last separator; an accepted name starts with one. -/
def lastPipe (name : List UInt8) : ℕ :=
  (List.range name.length).foldl (fun last i => if name.getD i 0 = pipe then i else last) 0

/-- `parent_ok`. -/
def parentOk (v : Vol) (name : List UInt8) : Bool :=
  if lastPipe name = 0 then true
  else match find v (name.take (lastPipe name)) with
    | some p => decide ((v.files p).type = typeDir)
    | none => false

/-- The name array after a string was copied into it. -/
def copyName (old : Bytes) (name : List UInt8) : Bytes :=
  fun j => if j < name.length then name.getD j 0 else if j = name.length then 0 else old j

/-- `make_node`: take the first unused inode. -/
def makeNode (name : List UInt8) (type : ℕ) : FsProg Unit := do
  let s ← Prog.get
  match (List.range inodes).find? fun i => !(s.v.files i).used with
  | some i => modV fun v => { setFile v i { v.files i with
      used := true, type := type, size := 0, n := 0, extOff := 0, extCap := 0, nchain := 0,
      dirty := true, name := copyName (v.files i).name name } with dirty := true }
  | none => Prog.throw .enospc

/-- `has_children`. -/
def hasChildren (v : Vol) (dir : List UInt8) : Bool :=
  (List.range inodes).any fun i =>
    (v.files i).used && decide ((v.files i).name dir.length = pipe) &&
      (List.range dir.length).all fun k => decide ((v.files i).name k = dir.getD k 0)

end Xasmos.Exfs
