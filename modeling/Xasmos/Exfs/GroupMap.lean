import Xasmos.Lib.Bits
import Xasmos.Exfs.Superblock

/-!
# The group map

`gmap.c`: the free-block bitmap of a volume, cut into groups of `gb` blocks.  Each
group has two slots on the device and at most one entry in an eight-entry cache.
The committed slot of a group is never written; a dirty entry goes to the other slot,
which is then the pending one, when it is evicted or flushed.

The map's functions run on the map and the device its `dev` pointer names, so the
pointer itself is kept by the caller.
-/

namespace Xasmos.Exfs

open Bytes
open Function (update)

/-- `GMAP_CACHE`. -/
def gmapCache : ℕ := 8
/-- `GMAP_GROUP_MAX`. -/
def groupMax : ℕ := 32768
/-- `GMAP_GROUP_MIN`. -/
def groupMin : ℕ := 64

/-- `GMAP_EIO`, `GMAP_ENOSPC` and `GMAP_EUSED`. -/
inductive GmapError where
  | eio | enospc | eused
  deriving DecidableEq, Repr

/-- The number a call returns for a failure. -/
def GmapError.code : GmapError → ℤ
  | .eio => -1
  | .enospc => -2
  | .eused => -3

/-- `GMapEntry`. -/
structure GMapEntry where
  bits : Bytes
  g : ℕ
  valid : Bool
  dirty : Bool
  stamp : ℕ

/-- `GMap`, without its device pointer. -/
structure GMap where
  spb : ℕ
  total : ℕ
  gb : ℕ
  ngroups : ℕ
  slot : ℕ → ℕ
  written : ℕ → Bool
  free : ℕ → ℕ
  cache : ℕ → GMapEntry
  clock : ℕ

/-- A map and its device. -/
structure GSt where
  map : GMap
  disk : Disk

instance : Preorder GSt where
  le s t := s.disk ≤ t.disk
  le_refl s := le_refl s.disk
  le_trans a b c h h' := le_trans (show a.disk ≤ b.disk from h) h'

/-- A function of the map. -/
abbrev GProg := Prog GmapError GSt

/-- Change the map in memory. -/
def modMap (f : GMap → GMap) : GProg Unit :=
  Prog.modify (fun s => { s with map := f s.map }) fun s => le_refl s.disk

/-- A device request of the map; any failure is `GMAP_EIO`. -/
def mapIo {α : Type} (x : Prog BlkError Disk α) : GProg α :=
  (x.mapError fun _ => GmapError.eio).zoom GSt.disk (fun d s => { s with disk := d }) fun _ _ h => h

/-! ## Geometry and fresh bitmaps -/

/-- `slot_block`: block number of slot `s` of group `g`. -/
def slotBlock (m : GMap) (g s : ℕ) : ℕ := (if g = 0 then dataStart else g * m.gb) + s

/-- `valid_bits`: blocks of group `g` that lie on the volume. -/
def validBits (m : GMap) (g : ℕ) : ℕ :=
  if m.total - g * m.gb < m.gb then m.total - g * m.gb else m.gb

/-- Blocks at the start of group `g` that are never handed out. -/
def reservedBits (g : ℕ) : ℕ := if g = 0 then dataStart + 2 else 2

/-- `fresh_bits`: reserved blocks and bits past the end taken; and the free count. -/
def freshBits (m : GMap) (g : ℕ) : Bytes × ℕ :=
  (List.range m.gb).foldl
    (fun r i =>
      if validBits m g ≤ i then (bitPut r.1 i true, r.2)
      else if bitOf r.1 i then r
      else (r.1, r.2 + 1))
    ((List.range (reservedBits g)).foldl (fun b i => bitPut b i true) (fun _ => 0), 0)

/-- `gwrite`. -/
def gwrite (g s : ℕ) (bits : Bytes) : GProg Unit := do
  let st ← Prog.get
  mapIo (blkWrite (slotBlock st.map g s * st.map.spb % 2 ^ 64) st.map.spb bits)

/-- `gread`. -/
def gread (g s : ℕ) : GProg Bytes := do
  let st ← Prog.get
  mapIo (blkRead (slotBlock st.map g s * st.map.spb % 2 ^ 64) st.map.spb)

/-- Empty the cache. -/
def dropCache (m : GMap) : GMap :=
  { m with cache := fun i => { m.cache i with valid := false } }

/-- `gmap_init`, for a device with sectors of `ss` bytes. -/
def gmapInit (m : GMap) (ss total gb : ℕ) : Except GmapError GMap :=
  if gb < groupMin ∨ groupMax < gb then .error .eio
  else if gb &&& (gb - 1) ≠ 0 then .error .eio
  else if (total + gb - 1) / gb = 0 ∨ maxGroups < (total + gb - 1) / gb then .error .eio
  else if ss = 0 ∨ blockBytes % ss ≠ 0 then .error .eio
  else .ok (dropCache { m with
    spb := blockBytes / ss, total := total, gb := gb, ngroups := (total + gb - 1) / gb,
    clock := 0, slot := fun _ => 0, written := fun _ => false, free := fun _ => 0 })

/-- `gmap_format`. -/
def gmapFormat : GProg Unit := do
  let st ← Prog.get
  Prog.iterate st.map.ngroups (fun g _ => do
    let st ← Prog.get
    let fresh := freshBits st.map g
    modMap fun m => { m with free := update m.free g fresh.2 }
    gwrite g 0 fresh.1
    modMap fun m => { m with
      slot := update m.slot g 0, written := update m.written g false }) ()
  modMap dropCache

/-- `gmap_import`. -/
def gmapImport (m : GMap) (slot free : ℕ → ℕ) : GMap :=
  dropCache { m with
    slot := fun g => if g < m.ngroups then (if slot g ≠ 0 then 1 else 0) else m.slot g
    written := fun g => if g < m.ngroups then false else m.written g
    free := fun g => if g < m.ngroups then free g else m.free g }

/-! ## The cache -/

/-- `flush_one`: write the dirty entry `i` to the pending slot of its group. -/
def flushOne (i : ℕ) : GProg Unit := do
  let st ← Prog.get
  let e := st.map.cache i
  gwrite e.g (1 - st.map.slot e.g) e.bits
  modMap fun m => { m with
    written := update m.written e.g true
    cache := update m.cache i { m.cache i with dirty := false } }

/-- The cached entry of group `g`, if there is one. -/
def cacheHit (m : GMap) (g : ℕ) : Option ℕ :=
  (List.range gmapCache).find? fun i => (m.cache i).valid && (m.cache i).g == g

/-- The search of `load` for an entry to replace: the first invalid one, or else the
least recently used. -/
def victimFrom (m : GMap) : List ℕ → ℕ → ℕ
  | [], v => v
  | i :: is, v =>
    if (m.cache i).valid = false then i
    else victimFrom m is (if (m.cache i).stamp < (m.cache v).stamp then i else v)

/-- The entry `load` replaces. -/
def victim (m : GMap) : ℕ := victimFrom m (List.range gmapCache) 0

/-- The slot that holds the newest copy of group `g` outside the cache. -/
def newestSlot (m : GMap) (g : ℕ) : ℕ := if m.written g then 1 - m.slot g else m.slot g

/-- Write back entry `v` before it is replaced. -/
def evict (v : ℕ) : GProg Unit := do
  let st ← Prog.get
  if (st.map.cache v).valid && (st.map.cache v).dirty then
    match ← Prog.attempt (flushOne v) with
    | .ok _ => pure ()
    | .error _ => do
      modMap fun m => { m with cache := update m.cache v { m.cache v with valid := false } }
      Prog.throw .eio
  else pure ()

/-- `load`: the index of the cache entry of group `g`. -/
def load (g : ℕ) : GProg ℕ := do
  let st ← Prog.get
  match cacheHit st.map g with
  | some i => do
    modMap fun m => { m with
      clock := (m.clock + 1) % 2 ^ 32
      cache := update m.cache i { m.cache i with stamp := (m.clock + 1) % 2 ^ 32 } }
    pure i
  | none => do
    let v := victim st.map
    evict v
    let st ← Prog.get
    match ← Prog.attempt (gread g (newestSlot st.map g)) with
    | .error _ => do
      modMap fun m => { m with cache := update m.cache v { m.cache v with valid := false } }
      Prog.throw .eio
    | .ok bits => do
      modMap fun m => { m with
        clock := (m.clock + 1) % 2 ^ 32
        cache := update m.cache v ⟨bits, g, true, false, (m.clock + 1) % 2 ^ 32⟩ }
      pure v

/-- `gmap_flush`. -/
def gmapFlush : GProg Unit :=
  Prog.iterate gmapCache (fun i _ => do
    let st ← Prog.get
    if (st.map.cache i).valid && (st.map.cache i).dirty then flushOne i else pure ()) ()

/-- `gmap_export`: the slot and free-count tables of the superblock. -/
def gmapExport (m : GMap) : (ℕ → ℕ) × (ℕ → ℕ) :=
  (fun g => if g < m.ngroups then newestSlot m g else 0,
    fun g => if g < m.ngroups then m.free g else 0)

/-- `gmap_commit`. -/
def gmapCommit (m : GMap) : GMap :=
  { m with
    slot := fun g => if g < m.ngroups then newestSlot m g else m.slot g
    written := fun g => if g < m.ngroups then false else m.written g }

/-! ## Taking and releasing blocks -/

/-- `while (i < valid && bit_of(bits, i)) i++`, at most `k` turns. -/
def firstClear (bits : Bytes) (valid : ℕ) : ℕ → ℕ → ℕ
  | 0, i => i
  | k + 1, i => if i < valid ∧ bitOf bits i then firstClear bits valid k (i + 1) else i

/-- The loop that marks a run from `j` on, at most `k` blocks: the bitmap and the end. -/
def markRun (valid : ℕ) : ℕ → ℕ → Bytes → Bytes × ℕ
  | 0, j, bits => (bits, j)
  | k + 1, j, bits =>
    if j < valid ∧ bitOf bits j = false then markRun valid k (j + 1) (bitPut bits j true)
    else (bits, j)

/-- The group loop of `gmap_take`, with `n` turns left. -/
def takeFrom (g0 off0 need : ℕ) : ℕ → ℕ → GProg (ℕ × ℕ)
  | 0, _ => Prog.throw .enospc
  | n + 1, k => do
    let st ← Prog.get
    let g := (g0 + k) % st.map.ngroups
    if st.map.free g = 0 then takeFrom g0 off0 need n (k + 1)
    else do
      let c ← load g
      let st ← Prog.get
      let e := st.map.cache c
      let valid := validBits st.map g
      let lo := if k = 0 then off0 else 0
      let i := firstClear e.bits valid (valid - lo) lo
      if i = valid then takeFrom g0 off0 need n (k + 1)
      else do
        let run := markRun valid need i e.bits
        modMap fun m => { m with
          cache := update m.cache c { e with bits := run.1, dirty := true }
          free := update m.free g ((m.free g + 2 ^ 32 - (run.2 - i)) % 2 ^ 32) }
        pure (g * st.map.gb + i, run.2 - i)

/-- `gmap_take`: the start and length of a free run, now taken. -/
def gmapTake (hint need : ℕ) : GProg (ℕ × ℕ) := do
  Prog.failIf (need = 0) .enospc
  let st ← Prog.get
  let g0 := hint / st.map.gb % 2 ^ 32
  if st.map.ngroups ≤ g0 then takeFrom 0 0 need (st.map.ngroups + 1) 0
  else takeFrom g0 (hint % st.map.gb) need (st.map.ngroups + 1) 0

/-- One block of `gmap_release`. -/
def releaseBlock (b : ℕ) : GProg Unit := do
  let st ← Prog.get
  let g := b / st.map.gb % 2 ^ 32
  let c ← load g
  let st ← Prog.get
  let e := st.map.cache c
  Prog.failIf (bitOf e.bits (b % st.map.gb) = false) .eused
  modMap fun m => { m with
    cache := update m.cache c
      { e with bits := bitPut e.bits (b % m.gb) false, dirty := true }
    free := update m.free g ((m.free g + 1) % 2 ^ 32) }

/-- `gmap_release`. -/
def gmapRelease (start len : ℕ) : GProg Unit :=
  Prog.iterate ((start + len) % 2 ^ 64 - start) (fun k _ => releaseBlock (start + k)) ()

/-- `gmap_is_used`. -/
def gmapIsUsed (block : ℕ) : GProg Bool := do
  let st ← Prog.get
  let c ← load (block / st.map.gb % 2 ^ 32)
  let st ← Prog.get
  pure (bitOf (st.map.cache c).bits (block % st.map.gb))

/-- `gmap_free_total`. -/
def gmapFreeTotal (m : GMap) : ℕ := ((List.range m.ngroups).map m.free).sum

end Xasmos.Exfs
