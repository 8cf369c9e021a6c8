import Xasmos.Exfs.Mount

/-!
# Mounting reads back what the device holds

The inode table and the chain blocks carry no checksum, so a mount may meet any bytes in them.  What
a mount loads is what the content says (`MountRead`), whichever requests fail, and on a device
without faults it succeeds exactly if the content can be loaded (`exfsMount_ok_iff`).

On a device that holds a committed state `S` the volume in memory has exactly the nodes, bitmaps and
generation of `S` (`wp_exfsMount`).

## Main definitions

* `recordRead`, `TableOk` — what the content says, as a function of it.
* `Admitting` — the invariant of the inode loop; `MountRead`, `Mounted` — what a mount leaves.
-/

namespace Xasmos.Exfs

open Bytes Prog
open Function (update update_of_ne)

variable {D : Disk} {E : ExfsError → St → Prop} {S : Snap} {area b blk d i j k : ℕ}
  {c c' : ℕ → Bytes} {es rest : List ExfsExtent} {f : Node} {m : GMap} {r : Bytes}
  {s t t' t₁ t₂ y : St} {slice : ℕ × ℕ} {v w : Vol} {x : List ℕ × List ExfsExtent}

/-! ## What the content says -/

/-- An extent that `exfs_mount` accepts in a volume of `total` blocks. -/
def extentOk (total : ℕ) (e : ExfsExtent) : Bool :=
  decide (e.len ≠ 0) && decide (dataStart ≤ e.start) && decide ((e.start + e.len) % 2 ^ 64 ≤ total)

/-- The chain blocks from `blk` on and the extents after `es` that the content `c` holds, where
`inode_decode` has at most `k` chain blocks to go.  None where it stops, or where a chain block is
no data block of the volume. -/
def chainRead (total : ℕ) (c : ℕ → Bytes) :
    ℕ → ℕ → List ExfsExtent → Option (List ℕ × List ExfsExtent)
  | 0, blk, es => if blk = 0 then some ([], es) else none
  | k + 1, blk, es =>
    if blk = 0 then some ([], es)
    else if ¬ (dataStart ≤ blk ∧ blk < total) then none
    else
      let cnt := getLE 4 (c blk) 8
      if indExt < cnt ∨ maxExt < es.length + cnt then none
      else (chainRead total c k (getLE 8 (c blk) 0) (es ++ getExts (c blk) 16 cnt)).map fun x =>
        (blk :: x.1, x.2)

/-- The chain and the extents, inline and in the chain, of a used record. -/
def recordRead (total : ℕ) (c : ℕ → Bytes) (r : Bytes) : Option (List ℕ × List ExfsExtent) :=
  if inlineExt < getLE 4 r 120 then none
  else chainRead total c maxChain (getLE 8 r 112) (getExts r 128 (getLE 4 r 120))

/-- The slots of the extent pool that a record takes. -/
def recordCap (total : ℕ) (c : ℕ → Bytes) (r : Bytes) : ℕ :=
  if getLE 4 r 0 = 0 then 0 else ((recordRead total c r).map fun x => capFor x.2.length).getD 0

/-- The inode table in the blocks from `area` on decodes: every used record does, its extents pass
the checks, and the lists fit into the pool together. -/
structure TableOk (total : ℕ) (c : ℕ → Bytes) (area : ℕ) : Prop where
  record : ∀ i < inodes, getLE 4 (recordOf c area i) 0 ≠ 0 →
    ∃ x, recordRead total c (recordOf c area i) = some x ∧ ∀ e ∈ x.2, extentOk total e = true
  pool : ∑ i ∈ Finset.range inodes, recordCap total c (recordOf c area i) ≤ poolExt

section Content

variable {total : ℕ}

theorem chainRead_range (h : chainRead total c k blk es = some x) :
    ∀ b ∈ x.1, dataStart ≤ b ∧ b < total := by
  induction k generalizing blk es x with
  | zero =>
    simp only [chainRead, Option.ite_none_right_eq_some, Option.some.injEq] at h
    simp [← h.2]
  | succ k ih =>
    simp only [chainRead] at h
    split_ifs at h with h0 hin hcnt
    · simp [← Option.some.inj h]
    · obtain ⟨y, hy, rfl⟩ := Option.map_eq_some_iff.mp h
      intro b hb
      rcases List.mem_cons.mp hb with rfl | hb
      · exact hin
      · exact ih hy b hb

theorem recordRead_range (h : recordRead total c r = some x) :
    ∀ b ∈ x.1, dataStart ≤ b ∧ b < total :=
  chainRead_range (Option.ite_none_left_eq_some.mp h).2

/-- The chain loop reads data blocks of the volume. -/
theorem chainRead_congr (h : ∀ b, dataStart ≤ b → b < total → c' b = c b) (k blk : ℕ)
    (es : List ExfsExtent) : chainRead total c' k blk es = chainRead total c k blk es := by
  induction k generalizing blk es with
  | zero => rfl
  | succ k ih =>
    simp only [chainRead]
    by_cases hin : dataStart ≤ blk ∧ blk < total
    · rw [h blk hin.1 hin.2, ih]
    · rw [if_pos hin, if_pos hin]

theorem TableOk.congr (h : TableOk total c area) (harea : area + itabBlocks ≤ dataStart)
    (hc : ∀ b, area ≤ b → b < area + itabBlocks ∨ dataStart ≤ b → c' b = c b) :
    TableOk total c' area := by
  have hrec : ∀ i, recordOf c' area i = recordOf c area i := fun i =>
    recordOf_congr fun b h1 h2 => hc b h1 (Or.inl h2)
  have hread : ∀ r, recordRead total c' r = recordRead total c r := fun r => by
    rw [recordRead, recordRead, chainRead_congr fun b h1 _ => hc b (by omega) (Or.inr h1)]
  constructor
  · simpa only [hrec, hread] using h.record
  · simpa only [hrec, hread, recordCap] using h.pool

/-- The chain loop finds the rest of a list that the chain blocks hold. -/
theorem chainRead_of_on {chain : List ℕ} (es : List ExfsExtent) (h : ChainOn c chain rest)
    (hk : chain.length ≤ k) (hlen : es.length + rest.length ≤ maxExt)
    (hin : ∀ b ∈ chain, dataStart ≤ b ∧ b < total) :
    chainRead total c k (chain.headD 0) es = some (chain, es ++ rest) := by
  induction chain generalizing k es rest with
  | nil =>
    obtain rfl : rest = [] := h
    rw [List.append_nil]
    cases k <;> rfl
  | cons b bs ih =>
    obtain ⟨h1, h2, h3, h4, h5⟩ := h
    rw [List.length_cons] at hk
    obtain ⟨k, rfl⟩ : ∃ m, k = m + 1 := ⟨k - 1, by omega⟩
    have hrest := ih (k := k) (es ++ rest.take indExt) h5 (by omega)
      (by simp only [List.length_append, List.length_take, List.length_drop]; omega)
      fun x hx => hin x (List.mem_cons_of_mem _ hx)
    rw [List.append_assoc, List.take_append_drop] at hrest
    rw [List.headD_cons, chainRead, if_neg h1, if_neg (not_not.mpr (hin b List.mem_cons_self))]
    simp only [h2, h3, h4]
    rw [if_neg (by omega), hrest, Option.map_some]

/-- A record that describes a node reads as its chain and its extents. -/
theorem recordRead_of_on (hr : RecordOn r (some f)) (hn : f.exts.length ≤ maxExt)
    (hchain : f.chain.length ≤ maxChain) (hon : ChainOn c f.chain (f.exts.drop inlineExt))
    (hin : ∀ b ∈ f.chain, dataStart ≤ b ∧ b < total) :
    recordRead total c r = some (f.chain, f.exts) := by
  obtain ⟨_, _, _, _, h5, h6, h7⟩ := hr
  have hread := chainRead_of_on (f.exts.take inlineExt) hon hchain
    (by rw [List.length_take, List.length_drop]; omega) hin
  rw [recordRead, h6, if_neg (by omega), h5, h7, hread, List.take_append_drop]

/-- A table whose nodes have no block decodes. -/
theorem tableOk_of_empty (node : ℕ → Option Node)
    (h : ∀ i < inodes, RecordOn (recordOf c area i) (node i))
    (hempty : ∀ i f, node i = some f → f.chain = [] ∧ f.exts = []) : TableOk total c area := by
  have hread : ∀ i < inodes, getLE 4 (recordOf c area i) 0 ≠ 0 →
      recordRead total c (recordOf c area i) = some ([], []) := by
    intro i hi hne
    have hrec := h i hi
    cases hn : node i with
    | none =>
      rw [hn] at hrec
      exact absurd hrec hne
    | some f =>
      rw [hn] at hrec
      obtain ⟨hchain, hexts⟩ := hempty i f hn
      rw [recordRead_of_on hrec (by simp [hexts]) (by simp [hchain])
        (by simp [hchain, hexts, ChainOn])
        (by simp [hchain]), hchain, hexts]
  refine ⟨fun i hi hne => ⟨_, hread i hi hne, by simp⟩, ?_⟩
  rw [Finset.sum_eq_zero fun i hi => ?_]
  · exact Nat.zero_le _
  · rw [recordCap]
    split_ifs with hzero
    · rfl
    · rw [hread i (Finset.mem_range.mp hi) hzero]
      rfl

end Content

/-! ## Requests -/

/-- Device `d` is the one that is used in `t`, and has only been read since `s`. -/
structure AtDevice (d : ℕ) (s t : St) : Prop where
  disk : DiskOk (s.disks d)
  ro : ReadOnly d s t
  dev : t.v.dev = d
  spb : t.v.spb = blockBytes / (s.disks d).sectorSize
  total : t.v.total = volTotal (s.disks d)

section Requests

theorem AtDevice.fits (h : AtDevice d s t) : Fits t.disk t.v.spb t.v.total := by
  rw [St.disk, h.dev, h.spb, h.total]
  exact h.disk.fits.later (h.ro.le d)

theorem AtDevice.block (h : AtDevice d s t) : t.disk.block = (s.disks d).block := by
  rw [St.disk, h.dev]
  exact h.ro.block

/-- A step that keeps the geometry. -/
theorem AtDevice.step (h : AtDevice d s t) (hro : ReadOnly d t t') (hdev : t'.v.dev = t.v.dev)
    (hspb : t'.v.spb = t.v.spb) (htotal : t'.v.total = t.v.total) : AtDevice d s t' :=
  ⟨h.disk, h.ro.trans hro, hdev.trans h.dev, hspb.trans h.spb, htotal.trans h.total⟩

theorem AtDevice.reads (h : AtDevice d s t) (hv : t'.v = t.v) (hro : ReadOnly t.v.dev t t') :
    AtDevice d s t' :=
  h.step (h.dev ▸ hro) (by rw [hv]) (by rw [hv]) (by rw [hv])

theorem AtDevice.setFile (h : AtDevice d s t) (i : ℕ) (f : ExfsFile) :
    AtDevice d s ⟨t.disks, setFile t.v i f⟩ :=
  h.step (.of_disks rfl) rfl rfl rfl

/-- **`blk_got`** of any block number: a block of the volume reads as it is, or a request has
failed. -/
theorem AtDevice.wp_blkGot (h : AtDevice d s t) (b : ℕ) {Q : Bytes → St → Prop}
    (hQ : ∀ page t', t'.v = t.v → AtDevice d s t' →
      (b < volTotal (s.disks d) → page = (s.disks d).block b) →
      Q page t')
    (hE : ∀ e t', (b < volTotal (s.disks d) → ¬ (s.disks d).Faultless) → E e t') :
    (blkGot b).wp Q E t := by
  by_cases hb : b < volTotal (s.disks d)
  · refine wp_blkGot_any h.fits (by rw [h.total]; exact hb) ?_ fun hno _ _ _ => hE _ _
      fun _ hf => hno ?_
    · exact hQ _ _ rfl (h.reads rfl (.served t)) fun _ => by rw [h.block]
    · rw [St.disk, h.dev]
      exact hf.later (h.ro.le d)
  · simp only [blkGot, devIo, wp_bind, wp_get]
    rw [wp_zoom, wp_mapError]
    refine wp_mono (blkRead_cache _ _ t.disk.cache t.disk rfl) (fun page D hle hcache => ?_)
        fun _ _ _ _ =>
      hE _ _ fun hlt => absurd hlt hb
    refine hQ page _ rfl (h.reads rfl ⟨St.le_setDisk hle _, ?_⟩) fun hlt => absurd hlt hb
    simp only [St.setDisk, Function.update_self]
    exact hcache

end Requests

/-! ## One inode -/

/-- What a record says of a file besides its list. -/
def attrs (f : ExfsFile) : Bool × ℕ × ℕ × Bytes × Bool := (f.used, f.type, f.size, f.name, f.dirty)

/-- What decoding inode `i` can do to the record: it fills the inode, with the number of
extents it staged and no slice. -/
structure Filled (i : ℕ) (t : St) (es : List ExfsExtent) (t' : St) : Prop where
  vol : t'.v = setFile t.v i (t'.v.files i)
  n : (t'.v.files i).n = es.length
  length_le : es.length ≤ maxExt
  extCap : (t'.v.files i).extCap = 0

section Decode

/-- The chain loop counts the extents it stages. -/
theorem wp_readChain_any (h : Filled i s es t) (hE : ∀ e t', E e t') :
    (readChain i k blk es).wp (fun es' t' => Filled i s es' t') E t := by
  induction k generalizing t blk es with
  | zero =>
    rw [readChain, wp_ite]
    exact ⟨fun _ => h, fun _ => hE _ _⟩
  | succ k ih =>
    rw [readChain, wp_ite]
    refine ⟨fun _ => h, fun _ => ?_⟩
    rw [wp_bind]
    simp only [blkGot, devIo, wp_bind, wp_get, wp_zoom, wp_mapError]
    refine wp_any _ (fun page D => ?_) fun e D => hE _ _
    simp only [wp_ite, wp_bind, modV, wp_modify]
    refine ⟨fun _ => hE _ _, fun hroom => ih ?_⟩
    have hlen : (es ++ getExts page 16 (getLE 4 page 8)).length = es.length + getLE 4 page 8 := by
      rw [List.length_append, length_getExts]
    constructor
    · rw [setFile_files]
      exact (congrArg (Exfs.setFile · i _) h.vol).trans (setFile_setFile _ _ _ _)
    · rw [setFile_files, hlen, ← h.n]
      rfl
    · omega
    · rw [setFile_files]
      exact h.extCap

/-- **`inode_decode`** of any record. -/
theorem wp_inodeDecode_any (r : Bytes) (hE : ∀ e t', E e t') :
    (inodeDecode r i).wp (fun es t' => Filled i t es t') E t := by
  simp only [inodeDecode, wp_bind, modV, wp_modify, wp_ite]
  generalize maxChain = k
  refine ⟨fun _ => ?_, fun _ => ⟨fun _ => hE _ _, fun hinl => wp_readChain_any ?_ hE⟩⟩
  · constructor <;> simp [inodeHead]
  · have hlen : (getExts r 128 (getLE 4 r 120)).length = getLE 4 r 120 := length_getExts _ _ _
    have hle : getLE 4 r 120 ≤ maxExt := le_trans (not_lt.mp hinl) (by decide)
    constructor
    · simp [setFile_setFile]
    · simp [hlen]
    · rw [hlen]; exact hle
    · simp [inodeHead]

/-- What `inode_decode` has found is what the content says.  Where the content has no chain, because
a chain block is no data block, there is such a block in what was found. -/
def Found (total : ℕ) (bs : List ℕ) (es : List ExfsExtent)
    (read : Option (List ℕ × List ExfsExtent)) : Prop :=
  read = some (bs, es) ∨ read = none ∧ ¬ ∀ b ∈ bs, dataStart ≤ b ∧ b < total

theorem chainOf_chained (f : ExfsFile) (b cnt : ℕ) :
    chainOf (chained f b cnt) = chainOf f ++ [b] := by
  simp only [chained, chainOf, List.range_succ, List.map_append, List.map_singleton,
    Function.update_self]
  refine congrArg (· ++ [b]) (List.map_congr_left fun j hj => ?_)
  rw [update_of_ne (Nat.ne_of_lt (List.mem_range.mp hj))]

/-- **The chain loop** follows the content of the device. -/
theorem AtDevice.wp_readChain (h : AtDevice d s t) :
    (readChain i k blk es).wp
      (fun es' t' => AtDevice d s t' ∧ attrs (t'.v.files i) = attrs (t.v.files i) ∧
        ∃ bs, chainOf (t'.v.files i) = chainOf (t.v.files i) ++ bs ∧
          Found (volTotal (s.disks d)) bs es'
            (chainRead (volTotal (s.disks d)) (s.disks d).block k blk es))
      (fun _ _ => (s.disks d).Faultless →
        chainRead (volTotal (s.disks d)) (s.disks d).block k blk es = none) t := by
  induction k generalizing t blk es with
  | zero =>
    rw [readChain, wp_ite]
    refine ⟨fun h0 => ⟨h, rfl, [], (List.append_nil _).symm, Or.inl ?_⟩, fun h0 _ => ?_⟩
    · simp [chainRead, h0]
    · simp [chainRead, h0]
  | succ k ih =>
    rw [readChain, wp_ite]
    refine ⟨fun h0 => ⟨h, rfl, [], (List.append_nil _).symm, Or.inl ?_⟩, fun h0 => ?_⟩
    · simp [chainRead, h0]
    rw [wp_bind]
    refine h.wp_blkGot blk (fun page t₁ hv h₁ hpage => ?_) fun _ _ hno hf => ?_
    swap
    · rw [chainRead, if_neg h0, if_pos fun hin => hno hin.2 hf]
    simp only [wp_ite, wp_bind, modV, wp_modify]
    -- a block outside the volume is read as well, but its chain is refused in the end
    refine ⟨fun hcnt _ => ?_, fun hcnt => ?_⟩
    · rw [chainRead, if_neg h0]
      by_cases hin : dataStart ≤ blk ∧ blk < volTotal (s.disks d)
      · rw [hpage hin.2] at hcnt
        rw [if_neg (not_not.mpr hin), if_pos hcnt]
      · rw [if_pos hin]
    have hfile : ∀ u : St, u.v.files i = chained (t₁.v.files i) blk (getLE 4 page 8) →
        attrs (u.v.files i) = attrs (t.v.files i) ∧ chainOf (u.v.files i) = chainOf (t.v.files i) ++
        [blk] := by
      intro u hu
      rw [hu, chainOf_chained, hv]
      exact ⟨rfl, rfl⟩
    refine wp_mono (ih (h₁.setFile i (chained (t₁.v.files i) blk (getLE 4 page 8))))
      (fun es' u _ hu => ?_)
      fun _ _ _ hno hf => ?_
    · obtain ⟨hdev, hattrs, bs, hchain, hfound⟩ := hu
      obtain ⟨hattrs', hchain'⟩ := hfile ⟨t₁.disks, Exfs.setFile t₁.v i _⟩ (setFile_files _ _ _)
      refine ⟨hdev, hattrs.trans hattrs', blk :: bs, ?_, ?_⟩
      · refine hchain.trans ((congrArg (· ++ bs) hchain').trans ?_)
        rw [List.append_assoc, List.singleton_append]
      · rw [chainRead, if_neg h0]
        by_cases hin : dataStart ≤ blk ∧ blk < volTotal (s.disks d)
        · rw [hpage hin.2] at hcnt hfound
          rw [if_neg (not_not.mpr hin), if_neg hcnt]
          rcases hfound with hsome | ⟨hnone, hout⟩
          · exact Or.inl (by rw [hsome, Option.map_some])
          · exact Or.inr ⟨by rw [hnone, Option.map_none],
              fun hall => hout fun b hb => hall b (List.mem_cons_of_mem _ hb)⟩
        · rw [if_pos hin]
          exact Or.inr ⟨rfl, fun hall => hin (hall blk List.mem_cons_self)⟩
    · rw [chainRead, if_neg h0]
      by_cases hin : dataStart ≤ blk ∧ blk < volTotal (s.disks d)
      · have hrest := hno hf
        rw [hpage hin.2] at hcnt hrest
        rw [if_neg (not_not.mpr hin), if_neg hcnt, hrest, Option.map_none]
      · rw [if_pos hin]

/-- **`inode_decode`** follows the content of the device. -/
theorem AtDevice.wp_inodeDecode (r : Bytes) (h : AtDevice d s t) :
    (inodeDecode r i).wp
      (fun es t' => AtDevice d s t' ∧ attrs (t'.v.files i) = attrs (inodeHead r (t.v.files i)) ∧
        (getLE 4 r 0 ≠ 0 →
        Found (volTotal (s.disks d)) (chainOf (t'.v.files i)) es
          (recordRead (volTotal (s.disks d)) (s.disks d).block r)))
      (fun _ _ => (s.disks d).Faultless → getLE 4 r 0 ≠ 0 ∧
        recordRead (volTotal (s.disks d)) (s.disks d).block r = none)
      t := by
  have hmany : inlineExt < getLE 4 r 120 → recordRead (volTotal (s.disks d)) (s.disks d).block r =
      none :=
    fun hinl => if_pos hinl
  have hread : ¬ inlineExt < getLE 4 r 120 → recordRead (volTotal (s.disks d)) (s.disks d).block r =
      chainRead (volTotal (s.disks d)) (s.disks d).block maxChain (getLE 8 r 112)
      (getExts r 128 (getLE 4 r 120)) :=
    fun hinl => if_neg hinl
  generalize recordRead (volTotal (s.disks d)) (s.disks d).block r = read at hmany hread ⊢
  simp only [inodeDecode, wp_bind, modV, wp_modify, wp_ite]
  generalize maxChain = k at hread ⊢
  refine ⟨fun h0 => ⟨h.setFile i _, by rw [setFile_files], fun hne => absurd h0 hne⟩, fun hne =>
    ⟨fun hinl _ => ⟨hne, hmany hinl⟩, fun hinl => ?_⟩⟩
  rw [hread hinl]
  refine wp_mono (((h.setFile i _).setFile i _).wp_readChain) (fun es t' _ ht => ?_)
    fun _ _ _ hno hf => ⟨hne, hno hf⟩
  obtain ⟨hdev, hattrs, bs, hchain, hfound⟩ := ht
  rw [setFile_files, setFile_files] at hattrs hchain
  exact ⟨hdev, hattrs, fun _ => by rw [hchain]; exact hfound⟩

end Decode

/-! ## The inode loop -/

/-- The pool in the inode loop of `exfs_mount`: the inodes below `k` have their slices, the others
none. -/
structure SlicesBelow (k : ℕ) (t : St) : Prop where
  pool : PoolInv t.v (0, 0)
  rest : ∀ j, k ≤ j → j < inodes → (t.v.files j).extCap = 0
  file : ∀ j < k, (t.v.files j).used = true →
    (t.v.files j).n ≤ maxExt ∧ (t.v.files j).extCap = capFor (t.v.files j).n

/-- Inode `j` is what its record says. -/
structure Admitted (total : ℕ) (c : ℕ → Bytes) (r : Bytes) (v : Vol) (j : ℕ) : Prop where
  attrs : ∃ f, attrs (v.files j) = attrs (inodeHead r f)
  read : (v.files j).used = true → recordRead total c r = some (chainOf (v.files j), exts v j)
  extent : (v.files j).used = true → ∀ e ∈ exts v j, extentOk total e = true

/-- The volume after the inodes below `k` of the table that `f` names passed the checks. -/
structure Admitting (d : ℕ) (s : St) (f : SbFields) (k : ℕ) (t : St) : Prop
    extends SlicesBelow k t, AtDevice d s t where
  gmDev : t.v.gmDev = d
  gm : t.v.gm = gmapImport (geoMap s.v.gm (s.disks d)) f.slot f.free
  node : ∀ j < k, Admitted (volTotal (s.disks d)) (s.disks d).block
    (recordOf (s.disks d).block (itabArea f.gen) j) t.v j

section Loop

variable {f : SbFields}

theorem slicesBelow_import (t : St) (f : SbFields) : SlicesBelow 0 ⟨t.disks, importVol t.v f⟩ := by
  refine ⟨poolInv_import _ _, fun j _ hj => ?_, fun j hj => absurd hj (Nat.not_lt_zero j)⟩
  simp [importVol, hj]

/-- `inode_decode` does not touch the other inodes. -/
theorem SlicesBelow.filled (h : SlicesBelow i t) (hi : i < inodes) (h₁ : Filled i t es t₁) :
    SlicesBelow i t₁ := by
  have hfile : ∀ j, j ≠ i → t₁.v.files j = t.v.files j := by
    intro j hji
    rw [h₁.vol]
    exact update_of_ne hji _ _
  constructor
  · rw [h₁.vol]
    exact h.pool.setFile_zero hi (h.rest i le_rfl hi) h₁.extCap
  · intro j hj hjn
    by_cases hji : j = i
    · rw [hji]
      exact h₁.extCap
    · rw [hfile j hji]
      exact h.rest j hj hjn
  · intro j hj
    rw [hfile j (by omega)]
    exact h.file j hj

/-- The inode's list went into a slice. -/
theorem SlicesBelow.stored (h : SlicesBelow i t) (hi : i < inodes) (hu : (t.v.files i).used = true)
    (hn : (t.v.files i).n = es.length) (hlen : es.length ≤ maxExt)
    (h₂ : Reserved es.length t slice t₂) : SlicesBelow (i + 1) (stored t₂ i slice es) := by
  have hfile : ∀ j, j ≠ i → (Exfs.stored t₂ i slice es).v.files j = { t.v.files j with
      extOff := (t₂.v.files j).extOff } := by
    intro j hji
    rw [stored_other hji]
    exact h₂.moved.file j
  constructor
  · refine h₂.inv.stored hi ?_ ?_ ?_ es
    all_goals rw [h₂.moved.file i]
    · exact h.rest i le_rfl hi
    · exact hu
    · rw [h₂.cap]
      exact hn.trans_le (le_capFor hlen)
  · intro j hj hjn
    rw [hfile j (by omega)]
    exact h.rest j (by omega) hjn
  · intro j hj hu'
    by_cases hji : j = i
    · rw [hji, stored_file, h₂.moved.file i]
      refine ⟨hn.trans_le hlen, ?_⟩
      rw [h₂.cap]
      exact congrArg capFor hn.symm
    · rw [hfile j hji] at hu' ⊢
      exact h.file j (by omega) hu'

theorem exts_setFile {f : ExfsFile} (hji : j ≠ i) : exts (setFile v i f) j = exts v j := by
  have hj : (setFile v i f).files j = v.files j := update_of_ne hji _ _
  exact exts_congr (by rw [hj]) fun k _ => by rw [hj]; rfl

theorem Admitted.used {total : ℕ} (h : Admitted total c r v j) :
    (v.files j).used = decide (getLE 4 r 0 ≠ 0) := by
  obtain ⟨f, hf⟩ := h.attrs
  exact congrArg Prod.fst hf

theorem Admitted.congr {total : ℕ} (h : Admitted total c r v j)
    (hattrs : Exfs.attrs (w.files j) = Exfs.attrs (v.files j))
    (hchain : chainOf (w.files j) = chainOf (v.files j))
    (hexts : (v.files j).used = true → exts w j = exts v j) : Admitted total c r w j := by
  refine ⟨h.attrs.imp fun _ hf => hattrs.trans hf, fun hu => ?_, fun hu => ?_⟩
  all_goals
    rw [show (w.files j).used = (v.files j).used from congrArg Prod.fst hattrs] at hu
    rw [hexts hu]
  · rw [hchain]
    exact h.read hu
  · exact h.extent hu

/-- An inode without a slice is filled. -/
theorem Admitting.filled (h : Admitting d s f i t) (hi : i < inodes) (h₁ : Filled i t es t₁)
    (hdev : AtDevice d s t₁) : Admitting d s f i t₁ := by
  refine ⟨h.toSlicesBelow.filled hi h₁, hdev, ?_, ?_, fun j hj => ?_⟩
  · rw [h₁.vol]
    exact h.gmDev
  · rw [h₁.vol]
    exact h.gm
  have hfile : t₁.v.files j = t.v.files j := by
    rw [h₁.vol]
    exact update_of_ne (by omega) _ _
  refine (h.node j hj).congr (by rw [hfile]) (by rw [hfile]) fun _ => ?_
  rw [h₁.vol]
  exact exts_setFile (by omega)

/-- The inode's list went into a slice and passed the checks. -/
theorem Admitting.stored (h : Admitting d s f i t) (hi : i < inodes)
    (hu : (t.v.files i).used = true) (hn : (t.v.files i).n = es.length) (hlen : es.length ≤ maxExt)
    (h₂ : Reserved es.length t slice t₂)
    (hnode : Admitted (volTotal (s.disks d)) (s.disks d).block
      (recordOf (s.disks d).block (itabArea f.gen) i)
      (stored t₂ i slice es).v i) : Admitting d s f (i + 1) (Exfs.stored t₂ i slice es) := by
  have hcore := h₂.moved.core
  refine ⟨h.toSlicesBelow.stored hi hu hn hlen h₂, h.toAtDevice.step (.of_disks h₂.disks)
    (congrArg VolCore.dev hcore) (congrArg VolCore.spb hcore) (congrArg VolCore.total hcore),
    (congrArg VolCore.gmDev hcore).trans h.gmDev, h₂.gm.trans h.gm, fun j hj => ?_⟩
  by_cases hji : j = i
  · rw [hji]
    exact hnode
  · have hj₂ := h₂.moved.file j
    have hfile : (Exfs.stored t₂ i slice es).v.files j = { t.v.files j with
        extOff := (t₂.v.files j).extOff } := by
      rw [stored_other hji]
      exact hj₂
    refine (h.node j (by omega)).congr (by rw [hfile]; rfl) (by rw [hfile]; rfl) fun hu' => ?_
    obtain ⟨hmax, hcap⟩ := h.file j (by omega) hu'
    have hfit : (t.v.files j).n ≤ (t.v.files j).extCap := hcap ▸ le_capFor hmax
    rw [h₂.inv.exts_stored (by rw [h₂.cap]; exact le_capFor hlen) (by omega) hji
      (by rw [hj₂]; exact hu')
      (by rw [hj₂]; exact hfit)]
    exact h₂.moved.list j (by omega) hu' hfit

/-- The capacities of the slices are those of the records. -/
theorem Admitting.totalCap_eq (h : Admitting d s f k t) (hk : k ≤ inodes) :
    totalCap t.v = ∑ j ∈ Finset.range k,
      recordCap (volTotal (s.disks d)) (s.disks d).block
        (recordOf (s.disks d).block (itabArea f.gen) j) := by
  rw [totalCap, ← Finset.sum_subset (Finset.range_mono hk) fun j hj hout => ?_]
  · refine Finset.sum_congr rfl fun j hj => ?_
    have hj' := Finset.mem_range.mp hj
    have hnode := h.node j hj'
    have hused := hnode.used
    by_cases h0 : getLE 4 (recordOf (s.disks d).block (itabArea f.gen) j) 0 = 0
    · rw [recordCap, if_pos h0, hused]
      simp [h0]
    · have hu : (t.v.files j).used = true := by rw [hused, decide_eq_true h0]
      rw [recordCap, if_neg h0, if_pos hu, hnode.read hu, (h.file j hj' hu).2]
      simp [exts]
  · rw [h.rest j (by simpa using hout) (Finset.mem_range.mp hj), ite_self]

/-- **One turn of the inode loop**: the record is loaded as the content has it, or the table does
not decode. -/
theorem Admitting.wp_mountInode (h : Admitting d s f i t) (hi : i < inodes) :
    (mountInode (itabOf (s.disks d).block (itabArea f.gen)) i).wp
      (fun _ t' => Admitting d s f (i + 1) t')
      (fun _ _ => (s.disks d).Faultless →
        ¬ TableOk (volTotal (s.disks d)) (s.disks d).block (itabArea f.gen)) t := by
  rw [mountInode, wp_bind, wp_attempt]
  refine wp_mono (wp_and (wp_inodeDecode_any (E := fun _ _ => True) _ fun _ _ => trivial)
    (h.toAtDevice.wp_inodeDecode (recordOf (s.disks d).block (itabArea f.gen) i)))
      (fun es t₁ _ h₁ => ?_) fun _ _ _ hno hf hok => ?_
  swap
  · obtain ⟨hne, hnone⟩ := hno.2 hf
    obtain ⟨x, hx, -⟩ := hok.record i hi hne
    exact absurd (hnone.symm.trans hx) (by simp)
  obtain ⟨h₁, hdev, hattrs, hfound⟩ := h₁
  have hused : (t₁.v.files i).used =
      decide (getLE 4 (recordOf (s.disks d).block (itabArea f.gen) i) 0 ≠ 0) :=
    congrArg Prod.fst hattrs
  have ha := h.filled hi h₁ hdev
  simp only [wp_bind, wp_get, wp_ite, wp_pure]
  refine ⟨fun hu => ?_, fun hu => ?_⟩
  · rw [hused, decide_eq_true_eq] at hu
    have hread := hfound hu
    rw [h₁.n]
    refine wp_poolReserve ha.pool (fun slice t₂ h₂ => ?_) fun _ _ _ _ _ _ hfull hf hok => ?_
    · simp only [wp_bind, modV, wp_modify, wp_get, wp_failIf]
      have hfile : (Exfs.stored t₂ i slice es).v.files i =
          { t₁.v.files i with extOff := slice.1, extCap := slice.2 } := by
          rw [stored_file, h₂.moved.file i]
      have hx : exts (Exfs.stored t₂ i slice es).v i = es :=
        exts_store (p := t₂.v.pool) rfl (by rw [stored_file]) (by rw [hfile]; exact h₁.n)
      have hchain : chainOf ((Exfs.stored t₂ i slice es).v.files i) = chainOf (t₁.v.files i) := by
        rw [hfile]; rfl
      have htotal : (Exfs.stored t₂ i slice es).v.total = volTotal (s.disks d) :=
        (congrArg VolCore.total h₂.moved.core).trans hdev.total
      have hblocks : blocksOk (Exfs.stored t₂ i slice es).v i = true ↔
          (∀ b ∈ chainOf (t₁.v.files i), dataStart ≤ b ∧ b < volTotal (s.disks d)) ∧
            ∀ e ∈ es, extentOk (volTotal (s.disks d)) e = true := by
        rw [blocksOk, hx, hchain, htotal, Bool.and_eq_true, List.all_eq_true, List.all_eq_true]
        simp [extentOk]
      refine ⟨fun hbad hf hok => ?_, fun hgood => ?_⟩
      · obtain ⟨x, hx', hext⟩ := hok.record i hi hu
        rcases hread with hsome | ⟨hnone, -⟩
        · obtain rfl := Option.some.inj (hsome.symm.trans hx')
          have hyes := hblocks.mpr ⟨recordRead_range hsome, hext⟩
          exact absurd (hyes.symm.trans hbad) (by decide)
        · exact absurd (hnone.symm.trans hx') (by simp)
      · obtain ⟨hrange, hext⟩ := hblocks.mp (Bool.not_eq_false _ |>.mp hgood)
        have hsome := hread.resolve_right fun hno => hno.2 hrange
        refine ha.stored hi (by rw [hused, decide_eq_true hu]) h₁.n h₁.length_le h₂
          ⟨?_, fun _ => ?_, fun _ => ?_⟩
        · rw [hfile]
          exact ⟨_, hattrs⟩
        · rw [hx, hchain]
          exact hsome
        · rw [hx]
          exact hext
    · obtain ⟨x, hx, -⟩ := hok.record i hi hu
      have hsome : recordRead (volTotal (s.disks d)) (s.disks d).block
        (recordOf (s.disks d).block (itabArea f.gen) i) =
          some (chainOf (t₁.v.files i), es) :=
        hread.resolve_right fun hno => absurd (hno.1.symm.trans hx) (by simp)
      have hcap : recordCap (volTotal (s.disks d)) (s.disks d).block
        (recordOf (s.disks d).block (itabArea f.gen) i) =
          capFor es.length := by
        rw [recordCap, if_neg hu, hsome]
        rfl
      rw [ha.totalCap_eq hi.le, ← hcap, ← Finset.sum_range_succ] at hfull
      have hle := Finset.sum_le_sum_of_subset (f := fun j =>
        recordCap (volTotal (s.disks d)) (s.disks d).block
          (recordOf (s.disks d).block (itabArea f.gen) j)) (Finset.range_mono hi)
      exact absurd (hle.trans hok.pool) (not_le.mpr hfull)
  · refine ⟨⟨ha.pool, fun j hj => ha.rest j (by omega), fun j hj hu' => ?_⟩, ha.toAtDevice,
      ha.gmDev, ha.gm, fun j hj => ?_⟩
    · exact ha.file j (by_contra fun hji => hu (by rwa [show j = i by omega] at hu')) hu'
    · by_cases hji : j = i
      · subst hji
        exact ⟨⟨_, hattrs⟩, fun hu' => absurd hu' hu, fun hu' => absurd hu' hu⟩
      · exact ha.node j (by omega)

end Loop

/-! ## The whole mount -/

/-- A mount of the device finds a superblock of its geometry and a table that decodes. -/
def Mountable (m : GMap) (D : Disk) : Prop := ∃ f, Leads m D f ∧
    TableOk (volTotal D) D.block (itabArea f.gen)

/-- What a mount has read. -/
structure MountRead (d : ℕ) (s : St) (f : SbFields) (y : St) : Prop where
  leads : Leads s.v.gm (s.disks d) f
  loaded : ∃ u, Admitting d s f inodes u ∧ y = ⟨u.disks, mountVol u.v f⟩

section Mount

variable {f : SbFields}

theorem MountRead.gen (h : MountRead d s f y) : y.v.gen = f.gen := by
  obtain ⟨u, -, rfl⟩ := h.loaded
  rfl

theorem MountRead.total (h : MountRead d s f y) : y.v.total = volTotal (s.disks d) := by
  obtain ⟨u, hu, rfl⟩ := h.loaded
  exact hu.total

theorem MountRead.node (h : MountRead d s f y) (hi : i < inodes) :
    Admitted (volTotal (s.disks d)) (s.disks d).block
      (recordOf (s.disks d).block (itabArea f.gen) i) y.v i := by
  obtain ⟨u, hu, rfl⟩ := h.loaded
  exact (hu.node i hi).congr rfl rfl fun _ => rfl

theorem Admitting.tableOk (h : Admitting d s f inodes t) :
    TableOk (volTotal (s.disks d)) (s.disks d).block (itabArea f.gen) := by
  constructor
  · intro i hi hne
    have hnode := h.node i hi
    have hu : (t.v.files i).used = true := by rw [hnode.used, decide_eq_true hne]
    exact ⟨_, hnode.read hu, hnode.extent hu⟩
  · rw [← h.totalCap_eq le_rfl]
    exact (Nat.le_add_right _ _).trans h.pool.totalCap_le

/-- **`exfs_mount` reads what the device holds**, whichever requests fail; and without a failing
request it fails only if there is nothing to mount. -/
theorem wp_exfsMount_read (d : ℕ) (s : St) : (exfsMount d).wp (fun _ y => ∃ f, MountRead d s f y)
    (fun _ _ => (s.disks d).Faultless → ¬ Mountable s.v.gm (s.disks d)) s := by
  apply wp_exfsMount_turns fun k u => ∃ f, Leads s.v.gm (s.disks d) f ∧ Admitting d s f k u
  · rintro hno _ _ hf ⟨f, hl, -⟩
    exact hno (fun b _ => hf.serves b) f hl
  · intro f t hl hro hv
    refine ⟨f, hl, slicesBelow_import t f, ⟨hl.disk, hro.trans (.of_disks rfl), ?_, ?_, ?_⟩, ?_, ?_,
      fun j hj => absurd hj (Nat.not_lt_zero j)⟩
    · exact congrArg Vol.dev hv
    · exact congrArg Vol.spb hv
    · exact congrArg Vol.total hv
    · exact congrArg Vol.gmDev hv
    · simp only [importVol, hv]
      rfl
  · rintro f k u hl hk ⟨f', hl', hu⟩
    obtain rfl := Option.some.inj (hl.seen.symm.trans hl'.seen)
    refine wp_mono (hu.wp_mountInode hk) (fun _ _ _ hu' => ⟨f, hl, hu'⟩) fun _ _ _ hno hf => ?_
    rintro ⟨g, hg, hok⟩
    obtain rfl := Option.some.inj (hl.seen.symm.trans hg.seen)
    exact hno hf hok
  · rintro f u hl ⟨f', hl', hu⟩
    obtain rfl := Option.some.inj (hl.seen.symm.trans hl'.seen)
    exact ⟨f, hl, u, hu, rfl⟩

/-- A device without faults mounts exactly if it can be mounted. -/
theorem exfsMount_ok_iff (hf : (s.disks d).Faultless) :
    (∃ y, (exfsMount d).run s = (.ok (), y)) ↔ Mountable s.v.gm (s.disks d) := by
  have hwp := wp_exfsMount_read d s
  constructor
  · rintro ⟨y, hy⟩
    obtain ⟨f, hread⟩ := hwp.ok hy
    obtain ⟨u, hu, -⟩ := hread.loaded
    exact ⟨f, hread.leads, hu.tableOk⟩
  · intro hm
    cases hrun : (exfsMount d).run s with
    | mk res y =>
      cases res with
      | ok u => exact ⟨y, rfl⟩
      | error e => exact absurd hm (hwp.error hrun hf)

end Mount

/-! ## Committed states -/

/-- What the inode loop needs of the content: the nodes of `S` in its inode table. -/
structure Readable (total : ℕ) (c : ℕ → Bytes) (S : Snap) : Prop where
  record : ∀ i < inodes, RecordOn (recordOf c (itabArea S.sb.gen) i) (S.node i)
  node : ∀ i < inodes, ∀ f, S.node i = some f → NodeOk total f
  chain : ∀ i < inodes, ∀ f, S.node i = some f → ChainOn c f.chain (f.exts.drop inlineExt)
  pool : ∑ i ∈ Finset.range inodes, nodeCap (S.node i) ≤ poolExt
  range : ∀ b, 0 < tableOwn S.node b → dataStart ≤ b ∧ b < total

/-- The blocks a committed state owns are data blocks of the volume. -/
theorem Held.block_range (h : Held m c S) (hgeo : MapGeo ⟨m, D⟩) (hb : 0 < tableOwn S.node b) :
    dataStart ≤ b ∧ b < m.total := by
  have hl := h.ledger b
  cases ht : snapTaken m c S b with
  | false => rw [ht, Bool.toNat_false] at hl; omega
  | true =>
    simp only [snapTaken, Bool.and_eq_true, decide_eq_true_eq, Bool.not_eq_true'] at ht
    refine ⟨?_, ht.1.1⟩
    by_contra hlt
    have hr : reservedBlock m b = true := hgeo.reserved_low (s := ⟨m, D⟩) (by omega)
    rw [ht.2] at hr
    exact absurd hr (by simp)

theorem Held.readable (h : Held m c S) (hgeo : MapGeo ⟨m, D⟩) : Readable m.total c S :=
  ⟨h.record, h.node, h.chain, h.pool, fun _ hb => h.block_range hgeo hb⟩

section Readable

variable {total : ℕ}

theorem Readable.read (h : Readable total c S) (hi : i < inodes) (hn : S.node i = some f) :
    recordRead total c (recordOf c (itabArea S.sb.gen) i) = some (f.chain, f.exts) :=
  have hok := h.node i hi f hn
  recordRead_of_on (hn ▸ h.record i hi) hok.n_le hok.chain_le (h.chain i hi f hn) fun _ hb =>
    h.range _ (tableOwn_pos_of_chain hi hn hb)

/-- The table of a committed state decodes. -/
theorem Readable.tableOk (h : Readable total c S) : TableOk total c (itabArea S.sb.gen) := by
  constructor
  · intro i hi hne
    have hrec := h.record i hi
    cases hn : S.node i with
    | none =>
      rw [hn] at hrec
      exact absurd hrec hne
    | some f =>
      refine ⟨_, h.read hi hn, fun e he => ?_⟩
      have hw := (h.node i hi f hn).within e he
      have hmem : e.start ∈ blocks f.exts := mem_blocks.mpr ⟨e, he, le_rfl, by omega⟩
      have hlow := (h.range _ (tableOwn_pos_of_exts hi hn hmem)).1
      have hmod : (e.start + e.len) % 2 ^ 64 ≤ e.start + e.len := Nat.mod_le _ _
      simp only [extentOk, Bool.and_eq_true, decide_eq_true_eq]
      exact ⟨⟨by omega, hlow⟩, by omega⟩
  · refine (Finset.sum_le_sum fun i hi => ?_).trans h.pool
    have hi' := Finset.mem_range.mp hi
    cases hn : S.node i with
    | none =>
      have hrec := h.record i hi'
      rw [hn] at hrec
      exact (if_pos hrec).le
    | some f =>
      rw [recordCap, h.read hi' hn]
      split_ifs
      · exact Nat.zero_le _
      · exact le_rfl

/-- What was admitted is the node. -/
theorem Readable.node_eq (h : Readable total c S) (hi : i < inodes)
    (ha : Admitted total c (recordOf c (itabArea S.sb.gen) i) v i) : nodeOf v i = S.node i := by
  have hrec := h.record i hi
  cases hn : S.node i with
  | none =>
    rw [hn] at hrec
    have h0 : getLE 4 (recordOf c (itabArea S.sb.gen) i) 0 = 0 := hrec
    exact nodeOf_unused (by rw [ha.used]; simp [h0])
  | some f =>
    have hread := h.read hi hn
    rw [hn] at hrec
    obtain ⟨h1, h2, h3, h4, -⟩ := hrec
    have hu : (v.files i).used = true := by rw [ha.used, decide_eq_true h1]
    obtain ⟨g, hg⟩ := ha.attrs
    simp only [attrs, inodeHead, Prod.mk.injEq] at hg
    obtain ⟨-, htype, hsize, hname, -⟩ := hg
    obtain ⟨hch, hx⟩ := Prod.mk.inj (Option.some.inj ((ha.read hu).symm.trans hread))
    have hcname : cname (v.files i).name = f.name := by
      rw [hname, ← h4]
      exact cname_congr fun j hj => if_pos hj
    rw [nodeOf_used hu, hch, hx, htype, hsize, hcname, h2, h3]

end Readable

section Committed

/-- The newest superblock of a good device is that of its committed state. -/
theorem Good.newer (h : Good m c S) : newer (newer none (c 0)) (c 1) = some S.sb := by
  have hsb := h.sb
  have hother := h.other
  rcases Nat.mod_two_eq_zero_or_one S.sb.gen with hpar | hpar
  · have hpar' : (S.sb.gen + 1) % 2 = 1 := by omega
    rw [hpar] at hsb
    rw [hpar'] at hother
    have h0 : Exfs.newer none (c 0) = some S.sb := by simp [Exfs.newer, hsb]
    rw [h0]
    cases h1 : sbDecode (c 1) with
    | error e => simp [Exfs.newer, h1]
    | ok f =>
      have := hother f h1
      simp [Exfs.newer, h1, Nat.not_lt.mpr (Nat.le_of_lt this)]
  · have hpar' : (S.sb.gen + 1) % 2 = 0 := by omega
    rw [hpar] at hsb
    rw [hpar'] at hother
    cases h0 : sbDecode (c 0) with
    | error e => simp [Exfs.newer, h0, hsb]
    | ok f => simp [Exfs.newer, h0, hsb, hother f h0]

/-- What a mount leaves: the volume of the committed state, with no file marked, and the
device as it was. -/
structure Mounted (d : ℕ) (s : St) (S : Snap) (s' : St) : Prop where
  inv : Inv s' S
  ro : ReadOnly d s s'
  dev : s'.v.dev = d
  mounted : s'.v.mounted = true
  dirty : s'.v.dirty = false
  clean : ∀ i < inodes, (s'.v.files i).dirty = false
  defer : s'.v.defer = []
  written : ∀ g < s'.v.gm.ngroups, s'.v.gm.written g = false
  free : ∀ g < s'.v.gm.ngroups, s'.v.gm.free g = S.sb.free g

/-- The state at the end of a mount is sound. -/
theorem Admitting.mounted (hf : (s.disks d).Faultless)
    (hgood : Good (geoMap s.v.gm (s.disks d)) (s.disks d).block S)
    (h : Admitting d s S.sb inodes t) : Mounted d s S ⟨t.disks, mountVol t.v S.sb⟩ := by
  set s' : St := ⟨t.disks, mountVol t.v S.sb⟩ with hs'
  set m := geoMap s.v.gm (s.disks d) with hm
  have hgm : s'.v.gm = gmapImport m S.sb.slot S.sb.free := h.gm
  have hdisk : s'.disk = t.disks d := by
    show t.disks t.v.dev = t.disks d
    rw [h.dev]
  have hblk : s'.disk.block = (s.disks d).block := by rw [hdisk]; exact h.ro.block
  have hd := h.disk
  have hgeo₀ : MapGeo ⟨m, s.disks d⟩ := hd.mapGeo hf
  have hgeo : MapGeo ⟨m, t.disks d⟩ := by
    have hle := h.ro.le d
    exact ⟨fun _ _ _ => (hf.later hle).serves _, hgeo₀.fits.later hle, hgeo₀.gb_min, hgeo₀.gb_max,
      hgeo₀.total_min, hgeo₀.ngroups_eq, hgeo₀.ngroups_le⟩
  have hmap : MapOn m (t.disks d).block S.sb.slot S.sb.free := by
    rw [h.ro.block]
    exact hgood.map
  have himp : Importable ⟨m, t.disks d⟩ S.sb.slot S.sb.free := ⟨hgeo, hmap⟩
  have hgst : s'.gst = imported ⟨m, t.disks d⟩ S.sb.slot S.sb.free := by
    have hgd : s'.v.gmDev = d := h.gmDev
    rw [St.gst, hgm, hgd]
    rfl
  have htot : s'.v.total = m.total := h.total
  have hmapinv : MapInv s' := by
    refine ⟨h.gmDev.trans h.dev.symm, ?_, ?_, ?_, ?_, ?_, ?_, ?_⟩
    · rw [hgm]; exact h.spb.symm
    · rw [hgm]; exact htot.symm
    · rw [hgm]; rfl
    · rw [htot]; exact hd.total_min
    · rw [htot]; exact hd.total_max
    · rw [htot]; exact le_trans (Nat.le_add_right _ 16) hd.total_min
    · rw [hgst]; exact himp.inv
  have hslot : ∀ g < m.ngroups, s'.v.gm.slot g = S.sb.slot g := by
    intro g hg
    rw [hgm]
    exact imported_slot (s := ⟨m, t.disks d⟩) (hmap.slot_le g hg) hg
  have htaken : ∀ b, taken s' b = snapTaken m (s.disks d).block S b := by
    intro b
    have hres : reservedBlock s'.v.gm b = reservedBlock m b := by rw [hgm]; rfl
    rw [taken, snapTaken, htot, hgst, hres]
    by_cases hb : b < m.total
    · have hg : b / m.gb < m.ngroups := hgeo.group_lt (s := ⟨m, t.disks d⟩) hb
      have hu : used (imported ⟨m, t.disks d⟩ S.sb.slot S.sb.free) b =
          bitOf ((s.disks d).block (slotBlock m (b / m.gb) (S.sb.slot (b / m.gb)))) (b % m.gb) := by
        rw [← h.ro.block, ← curBits_imported (s := ⟨m, t.disks d⟩)
          (hmap.slot_le _ hg) hg]
        rfl
      rw [hu]
    · simp [hb]
  have hread : Readable (volTotal (s.disks d)) (s.disks d).block S := hgood.readable hgeo₀
  have hnode : ∀ i < inodes, nodeOf s'.v i = S.node i := fun i hi =>
    hread.node_eq hi ((h.node i hi).congr rfl rfl fun _ => rfl)
  have hattrs : ∀ i < inodes, ∃ g, attrs (t.v.files i) =
      attrs (inodeHead (recordOf (s.disks d).block (itabArea S.sb.gen) i) g) :=
      fun i hi => (h.node i hi).attrs
  have hclean : ∀ i < inodes, (s'.v.files i).dirty = false := fun i hi => by
    obtain ⟨g, hg⟩ := hattrs i hi
    exact congrArg (fun a => a.2.2.2.2) hg
  have hown : ∀ b, owned s'.v b = tableOwn S.node b := by
    intro b
    have hdefer : s'.v.defer = [] := rfl
    rw [owned, tableOwn_congr hnode, hdefer]
    simp
  have hgood' : Good s'.v.gm s'.disk.block S := by
    rw [hblk, hgm]
    exact hgood.congr_map rfl rfl rfl
  refine ⟨⟨⟨⟨hmapinv, rfl, fun b => ?_, ⟨h.pool.ledger, h.pool.fits⟩, fun i hi hu => ?_, ?_⟩,
    fun i hi hu => ?_, fun i hi hdirty => ?_, fun _ => rfl⟩, hgood', rfl, ?_, fun b hb => ?_,
    fun i hi _ => hnode i hi⟩,
    ?_, h.dev, rfl, rfl, hclean, rfl, fun g hg => ?_, fun g hg => ?_⟩
  · rw [hown, htaken, hgood.ledger]
    rfl
  · obtain ⟨hn, hcap⟩ := h.file i hi hu
    have hni := hnode i hi
    rw [nodeOf_used hu] at hni
    have hok := hread.node i hi _ hni.symm
    obtain ⟨g, hg⟩ := hattrs i hi
    refine ⟨hn, hcap, hok.size_lt, hok.type_lt, ⟨nameMax, le_rfl, ?_⟩, h.total.symm ▸ hok.within⟩
    have hname : (t.v.files i).name = _ := congrArg (fun a => a.2.2.2.1) hg
    exact (congrFun hname nameMax).trans (by simp [attrs, inodeHead])
  · exact fun e he => absurd he List.not_mem_nil
  · have hni := hnode i hi
    rw [nodeOf_used hu] at hni
    have hok := hgood.node i hi _ hni.symm
    have hlen : (chainOf (s'.v.files i)).length = chainNeed (exts s'.v i).length := hok.chain
    rw [ChainOk, hclean i hi]
    simpa [chainOf, exts] using hlen
  · rw [hclean i hi] at hdirty
    exact absurd hdirty (by simp)
  · rw [hgm]
    exact fun g hg => by rw [← hgm]; exact hslot g hg
  · rw [hown]
    exact hb
  · exact h.ro.trans (ReadOnly.of_disks rfl)
  · rw [hgm] at hg ⊢
    exact if_pos hg
  · rw [hgm] at hg ⊢
    exact if_pos hg

/-- **`exfs_mount`** of a device that holds a committed state. -/
theorem wp_exfsMount (hd : DiskOk (s.disks d)) (hf : (s.disks d).Faultless)
    (hgood : Good (geoMap s.v.gm (s.disks d)) (s.disks d).block S) {Q : Unit → St → Prop}
    (hQ : ∀ s', Mounted d s S s' → Q () s') : (exfsMount d).wp Q E s := by
  have hseen : seenSb (s.disks d) = some S.sb :=
    (seenSb_eq fun k _ => hf.serves k).trans hgood.newer
  refine wp_mono (wp_exfsMount_read d s) (fun _ y _ hy => ?_) fun _ _ _ hno => absurd ?_ (hno hf)
  · obtain ⟨f, hl, u, hu, rfl⟩ := hy
    obtain rfl := Option.some.inj (hl.seen.symm.trans hseen)
    exact hQ _ (hu.mounted hf hgood)
  · exact ⟨S.sb, ⟨hd, hseen, hgood.total, hgood.ngroups⟩, (hgood.readable (hd.mapGeo hf)).tableOk⟩

end Committed

end Xasmos.Exfs
