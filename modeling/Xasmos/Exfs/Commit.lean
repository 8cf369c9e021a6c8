import Xasmos.Exfs.Chains

/-!
# Commit

`exfs_commit` on a device without faults.  Up to its last request it writes only what
could be written when it began, and the inode table of the other generation
(`Committing.wrote`); its last request is the superblock, and with it the device holds
the new state (`Committed`).  A commit that reports an error has changed nothing.

## Main definitions

* `Committing s₀ X s` — a commit in progress, with the blocks `X` still to be released.
* `Committed s s'` — what a commit leaves.
-/

namespace Xasmos.Exfs

open Bytes Prog

variable {E : ExfsError → St → Prop} {Q : Unit → St → Prop} {X X' : List ℕ} {b c g i x : ℕ}
  {s s' s₀ : St} {t : GSt}

/-- The blocks of the inode table of a generation. -/
def InArea (gen b : ℕ) : Prop := itabArea gen ≤ b ∧ b < itabArea gen + itabBlocks

/-- The generation a commit makes, a 64-bit number. -/
def nextGen (v : Vol) : ℕ := (v.gen + 1) % 2 ^ 64

/-- What a commit that starts in `s` may write before the superblock. -/
def CommitWritable (s : St) (b : ℕ) : Prop := Writable s b ∨ InArea (nextGen s.v) b

/-- A commit that began in `s₀`, with the chains written and the blocks `X` to be
released. -/
structure Committing (s₀ : St) (X : List ℕ) (s : St) : Prop where
  vol : VolInv s X (0, 0)
  le : s₀ ≤ s
  kept : Kept s₀ s
  ngroups : s.v.gm.ngroups = s₀.v.gm.ngroups
  slot : s.v.gm.slot = s₀.v.gm.slot
  wrote : Disk.WroteOnly (CommitWritable s₀) s₀.disk s.disk
  need : ∀ j < inodes, (s.v.files j).used = true → (s.v.files j).nchain = chainNeed (s.v.files j).n
  on : ∀ j < inodes, (s.v.files j).used = true →
    ChainOn s.disk.block (chainOf (s.v.files j)) ((exts s.v j).drop inlineExt)

section Committing

theorem Committing.disk_le (h : Committing s₀ X s) :
    s₀.disk ≤ s.disk := St.disk_le h.le (congrArg VolCore.dev h.kept.core)

theorem InArea.low {gen : ℕ} (h : InArea gen b) : 2 ≤ b ∧ b < dataStart := by
  have := itabArea_le gen
  have h1 := h.1
  have h2 := h.2
  omega

/-- A step of the map. -/
theorem Committing.setMap (h : Committing s₀ X s) (hm₀ : MapInv s₀) (ht : GInv t)
    (hm : Moved s.gst t) (hle : s.gst ≤ t)
    (hledger : ∀ b, owned s.v b + X'.count b = (taken (s.setMap t) b).toNat) :
    Committing s₀ X' (s.setMap t) := by
  have hmap := h.vol.map
  have hgb : s.v.gm.gb = s₀.v.gm.gb := by rw [hmap.gb, hm₀.gb]
  have htot : s.v.gm.total = s₀.v.gm.total := by rw [hmap.total, hm₀.total, h.kept.total]
  have hdisk := hmap.setMap_disk t
  have hw := hm.wrote
  rw [hmap.disk_eq] at hw
  refine ⟨⟨hmap.setMap ht hm, h.vol.broken, hledger, ⟨h.vol.pool.ledger, h.vol.pool.fits⟩,
    fun i hi hu => ?_,
    h.vol.defer⟩, le_trans h.le (St.le_setDisk hle _), h.kept.trans (Kept.of_mapOnly rfl),
    hm.ngroups.trans h.ngroups, hm.slot.trans h.slot, ?_, h.need, fun j hj hu => ?_⟩
  · have hf := h.vol.file i hi hu
    exact ⟨hf.n_le, hf.cap, hf.size_lt, hf.type_lt, hf.name_end, hf.within⟩
  · refine h.wrote.trans ?_
    rw [hdisk]
    refine hw.mono fun b hb => Or.inl (Or.inl ?_)
    rw [← pending_congr hgb htot h.ngroups h.slot]
    exact hb
  · refine (h.on j hj hu).congr fun b hb => ?_
    have hle' : s.disk ≤ t.disk := hmap.disk_eq ▸ hle
    rw [hdisk]
    refine hw.block_eq hle' fun hp => ?_
    exact h.vol.not_writable (owned_of_chain hj hu hb) (Or.inl hp)

theorem taken_setMap (hm : Moved s.gst t) (b : ℕ) :
    taken (s.setMap t) b = (decide (b < s.v.total) && used t b && !reservedBlock s.v.gm b) := by
  have hgb : t.map.gb = s.v.gm.gb := hm.gb
  have hres : reservedBlock (s.setMap t).v.gm b = reservedBlock s.v.gm b := by
    rw [reservedBlock, reservedBlock]
    exact congrArg (fun g => decide (b % g < reservedBits (b / g))) hgb
  rw [taken, hres, St.setMap_gst]
  rfl

/-- A step of the map that changes no bit. -/
theorem Committing.same (h : Committing s₀ X s) (hm₀ : MapInv s₀) (ht : GInv t) (hs : Same s.gst t)
    (hle : s.gst ≤ t) : Committing s₀ X (s.setMap t) := by
  refine h.setMap hm₀ ht hs.toMoved hle fun b => ?_
  rw [h.vol.ledger b, taken_setMap hs.toMoved, taken]
  by_cases hb : b < s.v.total
  · rw [hs.used_eq h.vol.map.map (by rw [← h.vol.map.total] at hb; exact hb)]
  · simp [hb]

/-- A release of blocks nothing else owns. -/
theorem Committing.release {e : ExfsExtent} (h : Committing s₀ (List.range' e.start e.len ++ X) s)
    (hm₀ : MapInv s₀) (ht : GInv t) (hm : Moved s.gst t) (hle : s.gst ≤ t)
    (hbits : ∀ x < s.v.total,
      used t x = (used s.gst x && !decide (e.start ≤ x ∧ x < e.start + e.len))) :
    Committing s₀ X (s.setMap t) := by
  refine h.setMap hm₀ ht hm hle fun b => ?_
  have hl := h.vol.ledger b
  rw [List.count_append, taken] at hl
  rw [taken_setMap hm]
  by_cases hb : b < s.v.total
  · rw [hbits b hb]
    by_cases hin : e.start ≤ b ∧ b < e.start + e.len
    · rw [List.count_eq_one_of_mem List.nodup_range' (List.mem_range'_1.mpr hin)] at hl
      have := Bool.toNat_le (decide (b < s.v.total) && used s.gst b && !reservedBlock s.v.gm b)
      simp only [hin, and_self, decide_true, Bool.not_true, Bool.and_false, Bool.false_and,
        Bool.toNat_false]
      omega
    · rw [List.count_eq_zero_of_not_mem fun hmem => hin (List.mem_range'_1.mp hmem),
        Nat.zero_add] at hl
      simpa [hin] using hl
  · simp only [hb, decide_false, Bool.false_and, Bool.toNat_false] at hl ⊢
    omega

/-- The state without its deferred list. -/
def undeferred (s : St) : St := ⟨s.disks, { s.v with defer := [] }⟩

/-- **The releases of `apply_deferred`.** -/
theorem wp_releaseAll {es : List ExfsExtent} (h : Committing s₀ (blocks es) (undeferred s))
    (hm₀ : MapInv s₀) (hw : Within s.v.total es)
    (hQ : ∀ t, Committing s₀ [] (undeferred t) → Q () t) :
    (applyDeferred.releaseAll es).wp Q E s := by
  induction es generalizing s with
  | nil => exact hQ s h
  | cons e es ih =>
    have hmap : MapInv (undeferred s) := h.vol.map
    have hgst : (undeferred s).gst = s.gst := rfl
    have htot : s.gst.map.total = s.v.total := hmap.total
    have hend := (hw e List.mem_cons_self).2
    rw [blocks_cons] at h
    -- a block still to be released is marked used
    have hused : ∀ b, e.start ≤ b → b < e.start + e.len →
        used s.gst b = true ∧ reservedBlock s.gst.map b = false := by
      intro b h1 h2
      have hl := h.vol.ledger b
      rw [List.count_append, List.count_eq_one_of_mem List.nodup_range'
        (List.mem_range'_1.mpr ⟨h1, h2⟩)] at hl
      have ht : taken (undeferred s) b = true := by
        cases htk : taken (undeferred s) b with
        | true => rfl
        | false => rw [htk, Bool.toNat_false] at hl; omega
      exact (taken_iff.mp ht).2
    rw [applyDeferred.releaseAll, wp_bind, wp_onMap]
    refine wp_mono (wp_gmapRelease (hgst ▸ hmap.map) (by rw [htot]; exact hend) hused
      (Q := fun _ t => GInv t ∧ Moved s.gst t ∧ ∀ x < s.gst.map.total,
        used t x = (used s.gst x && !decide (e.start ≤ x ∧ x < e.start + e.len)))
      (E := fun _ _ => False) fun t h1 h2 h3 => ⟨h1, h2, h3⟩)
      (fun _ t hle ht => ?_) (fun _ _ _ hf => hf.elim)
    refine ih ?_ (fun e' he' => hw e' (List.mem_cons_of_mem _ he'))
    exact h.release hm₀ ht.1 ht.2.1 hle fun x hx => ht.2.2 x (by rw [htot]; exact hx)

/-- **`apply_deferred`** releases every deferred block. -/
theorem wp_applyDeferred (h : Committing s₀ [] s) (hm₀ : MapInv s₀)
    (hQ : ∀ t, Committing s₀ [] t → t.v.defer = [] → Q () t) : applyDeferred.wp Q E s := by
  have h0 : Committing s₀ (blocks s.v.defer) (undeferred s) := by
    have hv := h.vol
    refine ⟨⟨⟨hv.map.dev, hv.map.spb, hv.map.total, hv.map.gb, hv.map.total_ge, hv.map.total_le,
      hv.map.hint, hv.map.map⟩,
      hv.broken, fun b => ?_, ⟨hv.pool.ledger, hv.pool.fits⟩, fun i hi hu => ?_,
      fun e he => absurd he List.not_mem_nil⟩, h.le,
        ⟨?_, h.kept.pool, h.kept.poolUsed, h.kept.file⟩,
      h.ngroups, h.slot, h.wrote, h.need, h.on⟩
    · have hl := hv.ledger b
      have hnode : nodeOf (undeferred s).v = nodeOf s.v := rfl
      have hnil : (undeferred s).v.defer = [] := rfl
      have htk : taken (undeferred s) b = taken s b := rfl
      rw [owned, List.count_nil] at hl
      rw [owned, hnode, hnil, htk, blocks_nil, List.count_nil]
      omega
    · have hf := hv.file i hi hu
      exact ⟨hf.n_le, hf.cap, hf.size_lt, hf.type_lt, hf.name_end, hf.within⟩
    · have hc := h.kept.core
      simp only [Vol.core, VolCore.mk.injEq] at hc
      simp only [undeferred, Vol.core, VolCore.mk.injEq]
      exact ⟨hc.1, hc.2.1, hc.2.2.1, hc.2.2.2.1, hc.2.2.2.2.1, hc.2.2.2.2.2.1, hc.2.2.2.2.2.2.1,
        hc.2.2.2.2.2.2.2.1, hc.2.2.2.2.2.2.2.2.1, trivial⟩
  simp only [applyDeferred, wp_bind, wp_get]
  refine wp_releaseAll h0 hm₀ h.vol.defer fun t ht => ?_
  exact hQ _ ht rfl

/-- A write to the inode table of the next generation. -/
theorem Committing.putArea (h : Committing s₀ X s) (hb : InArea (nextGen s₀.v) b) (p : Bytes) :
    Committing s₀ X (s.put b p) := by
  refine ⟨h.vol.put (Or.inr hb.low.2) p, le_trans h.le (St.le_setDisk (s.le_put b p) _),
    h.kept.trans (Kept.of_vol rfl), h.ngroups, h.slot, ?_, h.need, fun j hj hu => ?_⟩
  · refine h.wrote.trans ?_
    rw [St.put, St.setDisk_disk]
    refine (Disk.wroteOnly_put _ _ _).mono fun x hx => ?_
    rw [hx]
    exact Or.inr hb
  · refine (h.on j hj hu).congr fun x hx => ?_
    rw [St.put_block, Function.update_of_ne]
    exact h.vol.ne_low (owned_of_chain hj hu hx) hb.low.2

end Committing

/-! ## The inode table -/

/-- The page of block `b` of the inode table. -/
def itabPage (v : Vol) (b : ℕ) : Bytes := fun j =>
  inodeEncode v ((b * blockBytes + j) / inodeBytes) ((b * blockBytes + j) % inodeBytes)

/-- The first `k` blocks of the next inode table are written. -/
structure Tabling (s₀ s : St) (k : ℕ) (t : St) : Prop where
  committing : Committing s₀ [] t
  vol : t.v = s.v
  page : ∀ b < k, t.disk.block (itabArea (nextGen s₀.v) + b) = itabPage s.v b

section Tabling

variable {t : St}

/-- **The writes of the inode table.** -/
theorem wp_writeItab (h : Committing s₀ [] s) (hdisk : s₀.disk.Faultless)
    (hQ : ∀ t, Tabling s₀ s itabBlocks t → Q () t) : (writeItab (nextGen s₀.v)).wp Q E s := by
  have h0 : Tabling s₀ s 0 s := ⟨h, rfl, fun b hb => absurd hb (Nat.not_lt_zero b)⟩
  simp only [writeItab, wp_bind, wp_get]
  refine wp_mono (wp_iterate (fun k _ t => Tabling s₀ s k t) h0 fun k _ t hk ht => ?_)
    (fun _ t _ ht => hQ t ht) (fun _ _ _ he => he)
  have harea : InArea (nextGen s₀.v) (itabArea (nextGen s₀.v) + k) :=
    ⟨Nat.le_add_right _ _, Nat.add_lt_add_left hk _⟩
  have hmap := ht.committing.vol.map
  have hlt : itabArea (nextGen s₀.v) + k < t.v.total := by
    have h1 := harea.low.2
    have h2 := hmap.total_ge
    omega
  refine wp_orBreak (wp_blkPut hmap.fits (hdisk.later ht.committing.disk_le) hlt
    ⟨ht.committing.putArea harea _, ht.vol, fun b hb => ?_⟩)
  rw [St.put_block]
  by_cases hbk : b = k
  · rw [hbk, Function.update_self]
    rfl
  · rw [Function.update_of_ne (by omega)]
    exact ht.page b (by omega)

/-- The table describes the nodes. -/
theorem Tabling.record (h : Tabling s₀ s itabBlocks t) (hi : i < inodes) :
    RecordOn (recordOf t.disk.block (itabArea (nextGen s₀.v)) i) (nodeOf t.v i) := by
  have hv := h.committing.vol
  have hsmall : t.v.total < 2 ^ 32 := lt_of_le_of_lt hv.map.total_le (by decide)
  refine RecordOn.congr (fun j hj => ?_) (recordOn_encode fun hu => ?_)
  · simp only [inodes] at hi
    simp only [inodeBytes] at hj
    have hp : i * inodeBytes + j < itabBlocks * blockBytes := by
      simp only [inodeBytes, itabBlocks, blockBytes]
      omega
    have hdiv : (i * inodeBytes + j) / blockBytes < itabBlocks := by
      rw [Nat.div_lt_iff_lt_mul (by decide)]
      exact hp
    have hrow : (i * inodeBytes + j) / inodeBytes = i ∧ (i * inodeBytes + j) % inodeBytes = j := by
      simp only [inodeBytes]
      omega
    rw [recordOf, itabOf, if_pos hp, h.page _ hdiv, itabPage, Nat.div_add_mod', hrow.1,
      hrow.2, h.vol]
  · have hf := hv.file i hi hu
    refine ⟨hf.type_lt, hf.size_lt, hf.within.fit hsmall, fun b hb => ?_⟩
    have := (hv.taken_of_owned (owned_of_chain hi hu hb)).1
    omega

end Tabling

/-! ## The superblock -/

section Fields

variable {gen : ℕ}

theorem MapInv.export_slot_le (h : MapInv s) (g : ℕ) : (gmapExport s.v.gm).1 g ≤ 1 := by
  rw [gmapExport]
  by_cases hg : g < s.v.gm.ngroups
  · simp only [if_pos hg]
    exact h.map.newest_le hg
  · simp [if_neg hg]

theorem MapInv.export_free_le (h : MapInv s) (g : ℕ) : (gmapExport s.v.gm).2 g ≤ groupMax := by
  rw [gmapExport]
  by_cases hg : g < s.v.gm.ngroups
  · simp only [if_pos hg]
    have h1 : s.v.gm.free g = clearBits (curBits s.gst g) (validBits s.v.gm g) := h.map.free_eq g hg
    have h2 : validBits s.v.gm g ≤ s.v.gm.gb := by
      rw [validBits]
      split <;> omega
    rw [h1]
    exact le_trans (clearBits_le _ _) (le_trans h2 (le_of_eq h.gb))
  · simp [if_neg hg]

theorem MapInv.export_high (h : MapInv s) (hg : maxGroups ≤ g) : ¬ g < s.v.gm.ngroups :=
  not_lt.mpr (le_trans h.map.ngroups_le hg)

theorem commitFields_typed (h : MapInv s) (hgen : gen < 2 ^ 64) : (commitFields s.v gen).Typed := by
  refine ⟨hgen, fun g => ?_, fun g => ?_, fun g hg => ?_, fun g hg => ?_⟩
  · exact lt_of_le_of_lt (h.export_slot_le g) (by decide)
  · exact lt_of_le_of_lt (h.export_free_le g) (by decide)
  · exact if_neg (h.export_high hg)
  · exact if_neg (h.export_high hg)

theorem commitFields_ok (h : MapInv s) : fieldsOk (commitFields s.v gen) = true := by
  refine (fieldsOk_iff _).mpr ⟨⟨?_, h.map.ngroups_le⟩, rfl, rfl, ⟨h.total_ge, h.total_le⟩, rfl,
    fun g _ => h.export_slot_le g, fun g hg _ => ⟨if_neg (not_lt.mpr hg), if_neg (not_lt.mpr hg)⟩⟩
  have h0 : 0 < s.v.gm.ngroups :=
    lt_of_le_of_lt (Nat.zero_le _)
      (h.group_lt (b := 0) (lt_of_le_of_lt (Nat.zero_le _) h.map.total_min))
  exact Nat.ne_of_gt h0

end Fields

/-! ## The end of a commit -/

/-- The device holds the state in memory as `S`. -/
structure Saved (s : St) (S : Snap) : Prop where
  held : Held s.v.gm s.disk.block S
  gen : s.v.gen = S.sb.gen
  slot : ∀ g < s.v.gm.ngroups, s.v.gm.slot g = S.sb.slot g
  node : ∀ i < inodes, nodeOf s.v i = S.node i

/-- What a commit leaves: a volume that is saved, with the files as they were.  The last
write is the superblock. -/
structure Committed (s s' : St) : Prop where
  ram : RamInv s'
  saved : ∃ S, Saved s' S
  le : s ≤ s'
  core : s'.v.core =
    ⟨s.v.dev, s.v.gmDev, s.v.spb, s.v.total, nextGen s.v, itabArea (nextGen s.v), s.v.mounted,
      s.v.broken, false, []⟩
  ngroups : s'.v.gm.ngroups = s.v.gm.ngroups
  file : ∀ i < inodes, s'.v.files i = { s.v.files i with
    nchain := (s'.v.files i).nchain, chain := (s'.v.files i).chain, dirty := false }
  exts : ∀ i < inodes, exts s'.v i = exts s.v i
  wrote : ∃ ws page, s'.disk.cache = s.disk.cache ++ ws ++ [(nextGen s.v % 2, page)] ∧
    ∀ w ∈ ws, CommitWritable s w.1

/-- The state after the superblock is written and the record is brought up to date. -/
def finished (t : St) (gen : ℕ) (page : Bytes) : St :=
  ⟨(t.put (gen % 2) page).disks, finishCommit t.v gen⟩

section Finish

variable {t : St} {page : Bytes}

theorem nextGen_lt (v : Vol) : nextGen v < 2 ^ 64 := Nat.mod_lt _ (by decide)

theorem finished_disk (t : St) (gen : ℕ) (page : Bytes) :
    (finished t gen page).disk = (t.put (gen % 2) page).disk := rfl

theorem finished_block {gen : ℕ} (hb : b ≠ gen % 2) :
    (finished t gen page).disk.block b = t.disk.block b := by
  rw [finished_disk, St.put_block, Function.update_of_ne hb]

theorem finished_used {gen : ℕ} : ((finished t gen page).v.files i).used = (t.v.files i).used := by
  simp only [finished, finishCommit]
  split <;> rfl

theorem finished_file {gen : ℕ} (hi : i < inodes) :
    (finished t gen page).v.files i = { t.v.files i with dirty := false } := if_pos hi

theorem finished_exts {gen : ℕ} (hi : i < inodes) :
    exts (finished t gen page).v i = exts t.v i := by
  rw [exts, exts, finished_file hi]
  rfl

theorem finished_nodeOf {gen : ℕ} (hi : i < inodes) :
    nodeOf (finished t gen page).v i = nodeOf t.v i := by
  rw [nodeOf, nodeOf, finished_exts hi, finished_file hi]
  rfl

theorem finished_owned {gen : ℕ} (b : ℕ) : owned (finished t gen page).v b = owned t.v b := by
  rw [owned, owned, tableOwn_congr (fun i hi => finished_nodeOf hi)]
  rfl

/-- The map of the finished state is the committed one, on the device with the superblock. -/
theorem finished_map (h : VolInv t [] (0, 0)) (hflush : ∀ i g, ¬ DirtyAt t.v.gm i g) (gen : ℕ)
    (page : Bytes) : MapInv (finished t gen page) ∧
      ∀ b < t.v.total, used (finished t gen page).gst b = used t.gst b := by
  obtain ⟨hm, hused⟩ := h.map.put (p := page) (Or.inr (mod_two_lt gen))
  have hgst : (finished t gen page).gst = mapCommitted (t.put (gen % 2) page).gst := rfl
  refine ⟨⟨hm.dev, hm.spb, hm.total, hm.gb, hm.total_ge, hm.total_le, hm.hint, ?_⟩, fun b hb => ?_⟩
  · rw [hgst]
    exact hm.map.committed hflush
  · rw [← hused b hb, hgst, used, used]
    have hlt : b / (t.put (gen % 2) page).gst.map.gb < (t.put (gen % 2) page).gst.map.ngroups :=
      hm.group_lt (by rw [hm.total]; exact hb)
    have hcur := curBits_committed hlt
    exact congrArg (fun p => bitOf p (b % t.v.gm.gb)) hcur

/-- The volume is sound after the commit. -/
theorem Committing.ramInv (h : Committing s₀ [] t) (hflush : ∀ i g, ¬ DirtyAt t.v.gm i g)
    (hdefer : t.v.defer = []) (gen : ℕ) (page : Bytes) : RamInv (finished t gen page) := by
  obtain ⟨hm, hused⟩ := finished_map h.vol hflush gen page
  refine ⟨⟨hm, h.vol.broken, fun b => ?_, ⟨fun k => ?_, fun i hi hu => ?_⟩, fun i hi hu => ?_,
    h.vol.defer⟩, fun i hi hu => ?_, fun i hi hd => ?_, fun _ => hdefer⟩
  · rw [finished_owned, h.vol.ledger b]
    have ht : taken (finished t gen page) b = taken t b := by
      by_cases hb : b < t.v.total
      · rw [taken, taken, hused b hb]
        rfl
      · have hb' : ¬ b < (finished t gen page).v.total := hb
        simp [taken, hb, hb']
    rw [ht]
  · have hcount : poolCount (finished t gen page).v k = poolCount t.v k :=
      Finset.sum_congr rfl fun i hi => by rw [finished_file (Finset.mem_range.mp hi)]; rfl
    rw [hcount]
    exact h.vol.pool.ledger k
  · rw [finished_file hi] at hu ⊢
    exact h.vol.pool.fits i hi hu
  · rw [finished_used] at hu
    have hf := h.vol.file i hi hu
    refine ⟨?_, ?_, ?_, ?_, ?_, ?_⟩
    · rw [finished_file hi]; exact hf.n_le
    · rw [finished_file hi]; exact hf.cap
    · rw [finished_file hi]; exact hf.size_lt
    · rw [finished_file hi]; exact hf.type_lt
    · rw [finished_file hi]; exact hf.name_end
    · rw [finished_exts hi]; exact hf.within
  · rw [finished_used] at hu
    rw [finished_file hi, ChainOk]
    exact h.need i hi hu
  · rw [finished_file hi] at hd
    exact absurd hd (by simp)

/-- The pool has room for the lists of all files. -/
theorem VolInv.nodeCap_le (h : VolInv s X (0, 0)) :
    ∑ i ∈ Finset.range inodes, nodeCap (nodeOf s.v i) ≤ poolExt := by
  refine le_trans (le_of_eq (Finset.sum_congr rfl fun i hi => ?_)) (poolCompact_spec h.pool).2.2.2.2
  cases hu : (s.v.files i).used with
  | false => rw [nodeOf_unused hu]; rfl
  | true =>
    have hlen : (exts s.v i).length = (s.v.files i).n := by simp [exts]
    rw [nodeOf_used hu, nodeCap, hlen, if_pos rfl, (h.file i (Finset.mem_range.mp hi) hu).cap]

/-- The slots of the map lie above the superblocks. -/
theorem MapInv.slotBlock_ne (h : MapInv s) (hc : c < dataStart) : slotBlock s.v.gm g x ≠ c := by
  have hgb := h.gb
  simp only [groupMax] at hgb
  simp only [slotBlock, hgb, dataStart, itabArea1, itabArea0, itabBlocks] at hc ⊢
  split <;> omega

/-- **The device holds the new state** once the superblock is written. -/
theorem Tabling.held (h : Tabling s₀ s itabBlocks t) (hflush : ∀ i g, ¬ DirtyAt t.v.gm i g)
    (hdefer : t.v.defer = []) (hpage : sbEncode (commitFields t.v (nextGen s₀.v)) = .ok page) :
    Held (finished t (nextGen s₀.v) page).v.gm (finished t (nextGen s₀.v) page).disk.block
      ⟨commitFields t.v (nextGen s₀.v), nodeOf t.v⟩ := by
  set gen := nextGen s₀.v with hg
  have hc := h.committing
  have hmap := hc.vol.map
  have hlow : ∀ {b}, b ≠ gen % 2 → (finished t gen page).disk.block b = t.disk.block b :=
    fun hb => finished_block hb
  have hcur : ∀ g, curBits t.gst g = t.disk.block (slotBlock t.v.gm g (newestSlot t.v.gm g)) := by
    intro g
    rw [← hmap.disk_eq]
    exact hmap.map.curBits_flush hflush g
  have hslot : ∀ g < t.v.gm.ngroups, (commitFields t.v gen).slot g = newestSlot t.v.gm g :=
    fun g hg => if_pos hg
  have hbits : ∀ g < t.v.gm.ngroups, (finished t gen page).disk.block
      (slotBlock t.v.gm g ((commitFields t.v gen).slot g)) = curBits t.gst g := by
    intro g hg
    rw [hslot g hg, hlow (hmap.slotBlock_ne (mod_two_lt gen)), hcur]
  refine Held.congr_map (m := t.v.gm) ?_ rfl rfl rfl
  refine ⟨?_, hmap.total.symm, rfl, ⟨fun g _ => hmap.export_slot_le g, fun g hg h1 => ?_,
    fun g hg => ?_, fun g hg i hi => ?_⟩, fun i hi => ?_, fun i hi f hf => ?_, fun i hi f hf => ?_,
    fun b => ?_, hc.vol.nodeCap_le⟩
  · have hsb : (finished t gen page).disk.block (gen % 2) = page := by
      rw [finished_disk, St.put_block, Function.update_self]
    have hdec := sbDecode_of_encode (commitFields_typed hmap (nextGen_lt s₀.v)) hpage
    rw [← hsb] at hdec
    exact hdec
  · rw [hslot g hg] at h1
    refine hmap.map.two_slots g hg ?_
    rw [newestSlot] at h1
    by_cases hwr : t.v.gm.written g = true
    · exact Or.inr (Or.inl hwr)
    · rw [if_neg hwr] at h1
      exact Or.inl h1
  · rw [hbits g hg]
    have hfree : (commitFields t.v gen).free g = t.v.gm.free g := if_pos hg
    exact hfree.trans (hmap.map.free_eq g hg)
  · rw [hbits g hg]
    exact hmap.map.reserved g hg i hi
  · have hrec := h.record hi
    rw [← hg] at hrec
    refine RecordOn.congr (fun j _ => ?_) hrec
    refine congrFun (recordOf_congr fun b h1 _ => hlow ?_) j
    have h2 : 2 ≤ b := le_trans (itabArea_le gen).1 h1
    omega
  · cases hu : (t.v.files i).used with
    | false =>
      have hn : nodeOf t.v i = some f := hf
      rw [nodeOf_unused hu] at hn
      exact absurd hn (by simp)
    | true =>
      have hn : nodeOf t.v i = some f := hf
      rw [nodeOf_used hu, Option.some.injEq] at hn
      have hfile := hc.vol.file i hi hu
      have hlen : (exts t.v i).length = (t.v.files i).n := by simp [exts]
      subst hn
      refine ⟨?_, hfile.size_lt, hfile.type_lt, ?_, ?_⟩
      · rw [hlen]; exact hfile.n_le
      · rw [hmap.total]; exact hfile.within
      · rw [hlen, ← hc.need i hi hu]; simp [chainOf]
  · cases hu : (t.v.files i).used with
    | false =>
      have hn : nodeOf t.v i = some f := hf
      rw [nodeOf_unused hu] at hn
      exact absurd hn (by simp)
    | true =>
      have hn : nodeOf t.v i = some f := hf
      rw [nodeOf_used hu, Option.some.injEq] at hn
      subst hn
      refine (hc.on i hi hu).congr fun b hb => hlow ?_
      exact hc.vol.ne_low (owned_of_chain hi hu hb) (mod_two_lt gen)
  · have hl := hc.vol.ledger b
    have hown : owned t.v b = tableOwn (nodeOf t.v) b := by rw [owned, hdefer]; simp
    rw [hown, List.count_nil, Nat.add_zero] at hl
    rw [hl, taken, snapTaken, ← hmap.total]
    by_cases hb : b < t.v.gm.total
    · have hlt := hmap.group_lt hb
      rw [hbits _ hlt]
      rfl
    · simp [hb]

/-- A finished commit. -/
theorem Tabling.committed (h : Tabling s₀ s itabBlocks t) (hflush : ∀ i g, ¬ DirtyAt t.v.gm i g)
    (hdefer : t.v.defer = []) (hpage : sbEncode (commitFields t.v (nextGen s₀.v)) = .ok page) :
    Committed s₀ (finished t (nextGen s₀.v) page) := by
  have hc := h.committing
  refine ⟨hc.ramInv hflush hdefer _ page, ⟨_, h.held hflush hdefer hpage, rfl, fun g hg => ?_,
    fun i hi => finished_nodeOf hi⟩, ?_, ?_, hc.ngroups, fun i hi => ?_, fun i hi => ?_, ?_⟩
  · have hg' : g < t.v.gm.ngroups := hg
    have h1 : (finished t (nextGen s₀.v) page).v.gm.slot g = newestSlot t.v.gm g := if_pos hg'
    have h2 : (commitFields t.v (nextGen s₀.v)).slot g = newestSlot t.v.gm g := if_pos hg'
    rw [h1, h2]
  · exact le_trans hc.le (St.le_setDisk (t.le_put _ _) _)
  · have hcore := hc.kept.core
    simp only [Vol.core, VolCore.mk.injEq] at hcore
    obtain ⟨h1, h2, h3, h4, _, _, h7, h8, _, _⟩ := hcore
    simp only [finished, finishCommit, Vol.core, VolCore.mk.injEq]
    exact ⟨h1, h2, h3, h4, trivial, trivial, h7, h8, trivial, hdefer⟩
  · rw [finished_file hi, hc.kept.file i]
  · rw [finished_exts hi, hc.kept.exts_eq]
  · obtain ⟨ws, hws, hP⟩ := hc.wrote
    refine ⟨ws, page, ?_, hP⟩
    rw [finished_disk, St.put, St.setDisk_disk, ← hws]
    rfl

/-- No file is too long for its record. -/
theorem RamInv.not_tooLong (h : RamInv s) : tooLong s.v = false := by
  rw [tooLong, List.any_eq_false]
  intro i hi
  have hi' := List.mem_range.mp hi
  by_cases hu : (s.v.files i).used = true
  · have := chainNeed_le (h.file i hi' hu).n_le
    simp [not_lt.mpr this]
  · simp [hu]

/-- **`exfs_commit`**: it is done, or had nothing to do, or fails with no effect. -/
theorem wp_exfsCommit (h : RamInv s) (hclean : CleanChains s) (hdisk : s.disk.Faultless)
    (hQ : ∀ s', s.v.mounted = true → s.v.dirty = true → Committed s s' → Q () s')
    (hidle : s.v.mounted = true → s.v.dirty = false → Q () s)
    (hE : ∀ e, s.v.mounted = false ∧ e = .enofs ∨
      s.v.dirty = true ∧ freeBlocks s < commitNeed s.v ∧ e = .enospc → E e s) :
    exfsCommit.wp Q E s := by
  simp only [exfsCommit, requireLive, wp_bind, wp_get, wp_ite, wp_pure,
    wp_failIf, h.not_tooLong, h.broken]
  refine ⟨fun hm => hE _ (Or.inl ⟨hm, rfl⟩), fun hm => ⟨fun hb => absurd hb (by simp), fun _ =>
    ⟨hidle (by simpa using hm), fun hd => ⟨fun hl => absurd hl (by simp), fun _ =>
      ⟨fun hfew => hE _ (Or.inr ⟨by simpa using hd, ?_, rfl⟩), fun hroom => ?_⟩⟩⟩⟩⟩
  · rw [← h.map.freeTotal]
    exact hfew
  rw [h.map.freeTotal, not_lt] at hroom
  refine wp_commitChains h hclean hdisk hroom fun a ha => ?_
  have hstart : Committing s [] a := by
    refine ⟨ha.vol, ha.evolves.le, ha.kept, ha.evolves.ngroups, ha.evolves.slot,
      ha.evolves.wrote.mono fun _ hb => Or.inl hb, fun j hj => ha.need j hj,
      fun j hj hu => ha.on j hj hu (Or.inl hj)⟩
  rw [wp_bind]
  refine wp_orBreak (wp_applyDeferred hstart h.map fun u hu hdefer => ?_)
  rw [wp_bind, wp_onMap]
  refine wp_mono (wp_gmapFlush hu.vol.map.map (Q := fun _ t => GInv t ∧ Same u.gst t ∧
    ∀ i g, ¬ DirtyAt t.map i g) (E := fun _ _ => False) fun t h1 h2 h3 => ⟨h1, h2, h3⟩)
    (fun _ t hle ht => ?_) (fun _ _ _ hf => hf.elim)
  have hf := hu.same h.map ht.1 ht.2.1 hle
  have hgen : (s.v.gen + 1) % 2 ^ 64 = nextGen s.v := rfl
  simp only [wp_bind, hgen]
  refine wp_writeItab hf hdisk fun w hw => ?_
  have hwmap := hw.committing.vol.map
  have hflush : ∀ i g, ¬ DirtyAt w.v.gm i g := by
    rw [hw.vol]
    exact ht.2.2
  have hwdefer : w.v.defer = [] := by
    rw [hw.vol]
    exact hdefer
  simp only [writeSb, wp_bind, wp_get]
  have henc : sbEncode (commitFields w.v (nextGen s.v)) = .ok (putLE 8 (sbBody (commitFields w.v
      (nextGen s.v))) sbCheckOff (fnv64 (sbBody (commitFields w.v (nextGen s.v))) sbCheckOff)) :=
    if_pos (commitFields_ok hwmap)
  rw [henc]
  have hmin := hwmap.total_ge
  have hlt : nextGen s.v % 2 < w.v.total := lt_of_lt_of_le (mod_two_lt _) (by omega)
  refine wp_orBreak (wp_blkPut hwmap.fits (hdisk.later hw.committing.disk_le) hlt ?_)
  exact hQ _ (by simpa using hm) (by simpa using hd) (hw.committed hflush hwdefer henc)

end Finish

section Committed

theorem Committed.dev (h : Committed s s') : s'.v.dev = s.v.dev := congrArg VolCore.dev h.core

theorem Committed.total (h : Committed s s') : s'.v.total = s.v.total :=
  congrArg VolCore.total h.core

theorem Committed.gen (h : Committed s s') : s'.v.gen = nextGen s.v := congrArg VolCore.gen h.core

theorem nextGen_mod (v : Vol) : nextGen v % 2 = (v.gen + 1) % 2 := by
  rw [nextGen]
  omega

/-- A commit changes the chain blocks of a node and nothing else. -/
theorem Committed.nodeOf_eq (h : Committed s s') (hi : i < inodes) :
    nodeOf s'.v i = (nodeOf s.v i).map fun f => { f with chain := chainOf (s'.v.files i) } := by
  have hused : (s'.v.files i).used = (s.v.files i).used := by rw [h.file i hi]
  cases hu : (s.v.files i).used with
  | false => rw [nodeOf_unused hu, nodeOf_unused (hused.trans hu), Option.map_none]
  | true =>
    have htype : (s'.v.files i).type = (s.v.files i).type := by rw [h.file i hi]
    have hsize : (s'.v.files i).size = (s.v.files i).size := by rw [h.file i hi]
    have hname : (s'.v.files i).name = (s.v.files i).name := by rw [h.file i hi]
    rw [nodeOf_used hu, nodeOf_used (hused.trans hu), Option.map_some, h.exts i hi, htype,
      hsize, hname]

/-- A commit gives a file with a short list no chain blocks. -/
theorem Committed.nodeOf_short (h : Committed s s') (hi : i < inodes)
    (hshort : (s.v.files i).n ≤ inlineExt) :
    nodeOf s'.v i = (nodeOf s.v i).map fun f => { f with chain := [] } := by
  rw [h.nodeOf_eq hi]
  cases hu : (s.v.files i).used with
  | false => rw [nodeOf_unused hu, Option.map_none, Option.map_none]
  | true =>
    have hu' : (s'.v.files i).used = true := by rw [h.file i hi]; exact hu
    have hchain : chainOf (s'.v.files i) = [] := by
      have hok := h.ram.chain i hi hu'
      have hd : (s'.v.files i).dirty = false := by rw [h.file i hi]
      have hn : (s'.v.files i).n = (s.v.files i).n := by rw [h.file i hi]
      rw [ChainOk, hd, hn, chainNeed, if_neg (not_lt.mpr hshort)] at hok
      rw [chainOf, hok]
      rfl
    rw [hchain]

/-- The writes of a commit stay away from everything else. -/
theorem Committed.block_eq (h : Committed s s') (hb : ¬ CommitWritable s b)
    (hne : b ≠ nextGen s.v % 2) : s'.disk.block b = s.disk.block b := by
  obtain ⟨ws, page, hcache, hP⟩ := h.wrote
  have hle : s.disk ≤ s'.disk := St.disk_le h.le h.dev
  refine Disk.WroteOnly.block_eq (P := fun x => CommitWritable s x ∨ x = nextGen s.v % 2)
    ⟨ws ++ [(nextGen s.v % 2, page)], by rw [hcache, List.append_assoc], fun w hw => ?_⟩ hle ?_
  · rcases List.mem_append.mp hw with hw | hw
    · exact Or.inl (hP w hw)
    · rw [List.mem_singleton] at hw
      exact Or.inr (by rw [hw])
  · exact fun hor => hor.elim hb hne

/-- An owned block keeps its content over a commit. -/
theorem Committed.owned_block_eq (h : Committed s s') (hv : VolInv s [] (0, 0))
    (hb : 0 < owned s.v b) : s'.disk.block b = s.disk.block b := by
  refine h.block_eq (fun hw => ?_) (hv.ne_low hb (mod_two_lt _))
  rcases hw with hw | hw
  · exact hv.not_writable hb hw
  · exact hv.ne_low hb hw.low.2 rfl

/-- **After a commit** the volume is over the state it saved, if the superblock before it
is older. -/
theorem Committed.inv (h : Committed s s') (hm : MapInv s)
    (hother : ∀ f, sbDecode (s.disk.block (s.v.gen % 2)) = .ok f → f.gen < nextGen s.v) :
    ∃ S, Inv s' S ∧ Saved s' S := by
  obtain ⟨S, hS⟩ := h.saved
  have hgen : S.sb.gen = nextGen s.v := hS.gen.symm.trans h.gen
  refine ⟨S, ⟨h.ram, ⟨hS.held, fun f hf => ?_⟩, hS.gen, hS.slot, fun b hb => ?_, fun i hi _ =>
    hS.node i hi⟩, hS⟩
  · have hmod := nextGen_mod s.v
    have hpar : (S.sb.gen + 1) % 2 = s.v.gen % 2 := by
      rw [hgen]
      omega
    rw [hpar, h.block_eq (fun hw => ?_) (by omega)] at hf
    · rw [hgen]
      exact hother f hf
    · rcases hw with hw | hw
      · exact hm.low_not_writable (mod_two_lt _) hw
      · have := hw.low.1
        omega
  · rw [owned, tableOwn_congr hS.node]
    exact Nat.lt_of_lt_of_le hb (Nat.le_add_right _ _)

end Committed

end Xasmos.Exfs
