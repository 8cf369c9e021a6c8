import Xasmos.Exfs.Volume

/-!
# Inode records and chain blocks

The on-disk form of a file: a 256-byte record with the first eight extents, and a
linked list of chain blocks of up to 254 extents each for the rest.
-/

namespace Xasmos.Exfs

open Bytes

/-- The extent array both an inode record and a chain block end with: 16 bytes an
entry from offset `o` on. -/
def putExts : List ExfsExtent → ℕ → Bytes → Bytes
  | [], _, p => p
  | e :: es, o, p => putExts es (o + 16) (putLE 4 (putLE 8 p o e.start) (o + 8) e.len)

/-- `cnt` entries of an extent array. -/
def getExts (p : Bytes) (o cnt : ℕ) : List ExfsExtent :=
  (List.range cnt).map fun j => ⟨getLE 8 p (o + j * 16), getLE 4 p (o + j * 16 + 8)⟩

/-- `inode_encode`: the record of inode `i`. -/
def inodeEncode (v : Vol) (i : ℕ) : Bytes :=
  let f := v.files i
  let r : Bytes := fun _ => 0
  let r := putLE 4 r 0 (if f.used then 1 else 0)
  let r := putLE 4 r 4 f.type
  let r := putLE 8 r 8 f.size
  let r : Bytes := fun j => if 16 ≤ j ∧ j < 16 + (nameMax + 1) then f.name (j - 16) else r j
  let r := putLE 8 r 112 (if f.nchain = 0 then 0 else f.chain 0)
  let r := putLE 4 r 120 (min f.n inlineExt)
  putExts ((exts v i).take inlineExt) 128 r

/-- The chain loop of `inode_decode` for inode `i`, from block `blk` and with at most `k`
chain blocks to go: the staged extents, extended. -/
def readChain (i : ℕ) : ℕ → ℕ → List ExfsExtent → FsProg (List ExfsExtent)
  | 0, blk, es => if blk = 0 then pure es else Prog.throw .enofs
  | k + 1, blk, es =>
    if blk = 0 then pure es
    else do
      let page ← blkGot blk
      let cnt := getLE 4 page 8
      if indExt < cnt ∨ maxExt < es.length + cnt then Prog.throw .enofs
      else do
        modV fun v => setFile v i { v.files i with
          n := (v.files i).n + cnt
          chain := Function.update (v.files i).chain (v.files i).nchain blk
          nchain := (v.files i).nchain + 1 }
        readChain i k (getLE 8 page 0) (es ++ getExts page 16 cnt)

/-- The fields `inode_decode` takes from the record itself. -/
def inodeHead (r : Bytes) (f : ExfsFile) : ExfsFile :=
  { f with
    used := decide (getLE 4 r 0 ≠ 0)
    type := getLE 4 r 4
    size := getLE 8 r 8
    name := fun j => if j < nameMax then r (16 + j) else if j = nameMax then 0 else f.name j
    dirty := false, nchain := 0, n := 0, extOff := 0, extCap := 0 }

/-- `inode_decode` into inode `i`: the extents it staged. -/
def inodeDecode (r : Bytes) (i : ℕ) : FsProg (List ExfsExtent) := do
  modV fun v => setFile v i (inodeHead r (v.files i))
  if getLE 4 r 0 = 0 then pure []
  else if inlineExt < getLE 4 r 120 then Prog.throw .enofs
  else do
    modV fun v => setFile v i { v.files i with n := getLE 4 r 120 }
    readChain i maxChain (getLE 8 r 112) (getExts r 128 (getLE 4 r 120))

/-- The page of chain block `k` of a file with extents `es` and chain `chain`. -/
def chainPage (es : List ExfsExtent) (chain : List ℕ) (k : ℕ) : Bytes :=
  let rest := es.drop (inlineExt + k * indExt)
  let p := putLE 8 (fun _ => 0) 0 (if k + 1 < chain.length then chain.getD (k + 1) 0 else 0)
  let p := putLE 4 p 8 (min rest.length indExt)
  putExts (rest.take indExt) 16 p

/-- Chain blocks a file with `n` extents needs. -/
def chainNeed (n : ℕ) : ℕ := if inlineExt < n then (n - inlineExt + indExt - 1) / indExt else 0

end Xasmos.Exfs
