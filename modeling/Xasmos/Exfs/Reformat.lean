import Xasmos.Exfs.RoundTrip

/-!
# Formatting over an old volume

`exfs_format` writes the superblock of generation 1 into block 1 and leaves block 0 alone,
while a mount takes the copy with the highest generation.  So a format really replaces the
old volume exactly when the old content of block 0 loses against generation 1, or ties
with it and describes the same empty volume (`OldLoses`).

## Main definitions

* `MountsFresh` — a mount shows the empty volume.
* `OldLoses` — what the old content of the device must be for that.
-/

namespace Xasmos.Exfs

open Bytes

variable {S : Snap} {b d g : ℕ} {e s s' y : St} {f : SbFields} {m m' : GMap}

/-- The blocks of group `g` that lie on the volume and are not reserved. -/
def freshCount (m : GMap) (g : ℕ) : ℕ :=
  Nat.count (fun i => reservedBlock m (g * m.gb + i) = false) (validBits m g)

/-- A mount of device `d` succeeds at generation 1 and shows the four directories and
nothing else, with every block that is not reserved free and counted as free. -/
def MountsFresh (d : ℕ) (s : St) : Prop :=
  ∃ y, (exfsMount d).run s = (.ok (), y) ∧ y.v.gen = 1 ∧
    (∀ i < inodes, nodeOf y.v i = freshNode i) ∧
    (∀ b < y.v.total, reservedBlock y.v.gm b = false → used y.gst b = false) ∧
    ∀ g < y.v.gm.ngroups, y.v.gm.free g = freshCount y.v.gm g

/-- The old superblock in block 0 does not decode, or is of generation 0, or is of
generation 1 and leads to the same empty volume: it has the geometry of the device, where
it selects the second map slot of a group the old bitmap there is empty, and its free counts
are those of an empty volume. -/
def OldLoses (m : GMap) (D : Disk) : Prop :=
  ∀ f, sbDecode (D.block 0) = .ok f → f.gen = 0 ∨
    (f.gen = 1 ∧ f.total = volTotal D ∧ f.ngroups = (geoMap m D).ngroups ∧
      (∀ b < volTotal D, reservedBlock (geoMap m D) b = false → f.slot (b / groupMax) ≠ 0 →
        bitOf (D.block (slotBlock (geoMap m D) (b / groupMax) 1)) (b % groupMax) = false) ∧
      ∀ g < (geoMap m D).ngroups, f.free g = freshCount (geoMap m D) g)

/-- A formatted device: the fresh volume `e` that was committed, and what of the old
content is left. -/
structure Formatted (d : ℕ) (s e s' : St) : Prop where
  disk : DiskOk (s.disks d)
  faultless : (s.disks d).Faultless
  fresh : Fresh d s freshDirs.length e
  done : Committed e s'
  wrote : Disk.WroteOnly (· < dataStart) e.disk s'.disk

section Reformat

theorem exists_formatted (hf : (s.disks d).Faultless) (hrun : (exfsFormat d).run s = (.ok (), s')) :
    ∃ e, Formatted d s e s' := by
  have h1 := wp_exfsFormat_fresh (E := fun _ _ => True) hf
    (Q := fun _ s' => ∃ e, Formatted d s e s')
    (fun e hd he => ?_) fun _ _ _ => trivial
  · exact h1.ok hrun
  · have hc : exfsCommit.wp (fun _ s' => Committed e s') (fun _ _ => True) e :=
      wp_exfsCommit he.ram he.cleanChains (hf.later he.disk_le) (fun _ _ _ hc => hc)
        (fun _ hdirty => by rw [he.dirty] at hdirty; exact absurd hdirty (by simp))
        fun _ _ => trivial
    exact Prog.wp_mono (Prog.wp_and hc (wp_exfsCommit_calm he (hf.later he.disk_le)))
      (fun _ _ _ hq => ⟨e, hd, hf, he, hq.1, hq.2⟩) fun _ _ _ _ => trivial

theorem Formatted.le (h : Formatted d s e s') : s ≤ s' := le_trans h.fresh.le h.done.le

theorem Formatted.dev (h : Formatted d s e s') : s'.v.dev = d := h.done.dev.trans h.fresh.dev

theorem Formatted.disk_eq (h : Formatted d s e s') : s'.disk = s'.disks d := by rw [St.disk, h.dev]

theorem Formatted.total (h : Formatted d s e s') : volTotal (s'.disks d) = volTotal (s.disks d) :=
  volTotal_later (h.le d)

theorem Formatted.ngroups (h : Formatted d s e s') (m m' : GMap) :
    (geoMap m' (s'.disks d)).ngroups = (geoMap m (s.disks d)).ngroups := by
  have hn : ∀ m D, (geoMap m D).ngroups = (volTotal D + groupMax - 1) / groupMax := fun _ _ => rfl
  rw [hn, hn, h.total]

/-- A block past the inode tables that is no first map slot is as it was. -/
theorem Formatted.block_eq (h : Formatted d s e s') (hb : dataStart ≤ b)
    (hslot : ∀ g < e.v.gm.ngroups, b ≠ slotBlock e.v.gm g 0) :
    (s'.disks d).block b = (s.disks d).block b := by
  have hle : s.disks d ≤ e.disk := by
    rw [St.disk, h.fresh.dev]
    exact h.fresh.le d
  have hle' : e.disk ≤ s'.disk := by
    rw [St.disk, St.disk, h.done.dev]
    exact h.done.le _
  rw [← h.disk_eq, h.wrote.block_eq hle' (not_lt.mpr hb), h.fresh.wrote.block_eq hle]
  rintro ⟨g, hg, he⟩
  exact hslot g hg he

/-- Block 0 is as it was. -/
theorem Formatted.block_zero (h : Formatted d s e s') :
    e.disk.block 0 = (s.disks d).block 0 ∧ (s'.disks d).block 0 = (s.disks d).block 0 := by
  have hmap := h.fresh.ram.map
  have hle : s.disks d ≤ e.disk := by
    rw [St.disk, h.fresh.dev]
    exact h.fresh.le d
  have h1 : e.disk.block 0 = (s.disks d).block 0 := by
    refine h.fresh.wrote.block_eq hle ?_
    rintro ⟨g, _, hg⟩
    exact hmap.slotBlock_ne (c := 0) (by decide) hg.symm
  refine ⟨h1, ?_⟩
  rw [← h.disk_eq, h.done.block_eq, h1]
  · rintro (hw | hw)
    · exact hmap.low_not_writable (by decide) hw
    · exact absurd hw.low.1 (by decide)
  · have hgen : nextGen e.v = 1 := by
      rw [nextGen, h.fresh.gen]
      rfl
    rw [hgen]
    decide

theorem nodeOwn_fresh (i b : ℕ) : nodeOwn (freshNode i) b = 0 := by
  rw [freshNode]
  cases freshDirs[i]? with
  | none => rfl
  | some name => simp [nodeOwn]

/-- A settled volume with the four directories has every block free that is not reserved. -/
theorem Settled.free_of_fresh (h : Settled y S) (hnode : ∀ i < inodes, S.node i = freshNode i)
    (hb : b < y.v.total) (hr : reservedBlock y.v.gm b = false) : used y.gst b = false := by
  have hl := h.ledger b
  have hz : tableOwn S.node b = 0 := by
    rw [tableOwn_congr hnode, tableOwn]
    exact Finset.sum_eq_zero fun i _ => nodeOwn_fresh i b
  rw [h.owned_eq, hz, taken, hr] at hl
  cases hu : used y.gst b with
  | false => rfl
  | true =>
    rw [hu] at hl
    simp [hb] at hl

/-- The counts of such a volume are those of its blocks that are not reserved. -/
theorem Settled.free_eq_freshCount (h : Settled y S) (hnode : ∀ i < inodes, S.node i = freshNode i)
    (hg : g < y.v.gm.ngroups) : y.v.gm.free g = freshCount y.v.gm g := by
  refine h.map.map.free_eq_count (B := reservedBlock y.v.gm) (fun b hb => ?_) hg
  cases hr : reservedBlock y.v.gm b with
  | true => exact h.map.map.used_of_reserved hb hr
  | false => exact h.free_of_fresh hnode (lt_of_lt_of_eq hb h.map.total) hr

/-- The count depends on the size of the volume alone. -/
theorem freshCount_congr (hgb : m'.gb = m.gb) (htotal : m'.total = m.total) (g : ℕ) :
    freshCount m' g = freshCount m g := by
  have hvalid : validBits m' g = validBits m g := by rw [validBits, validBits, hgb, htotal]
  have hres : reservedBlock m' = reservedBlock m := by
    funext b
    rw [reservedBlock, reservedBlock, hgb]
  rw [freshCount, freshCount, hvalid, hgb, hres]

/-- **An old superblock of generation 0, or none**: the new volume is found. -/
theorem Formatted.mountsFresh (h : Formatted d s e s')
    (hold : ∀ f, sbDecode ((s.disks d).block 0) = .ok f → f.gen = 0) : MountsFresh d s' := by
  have hgen : nextGen e.v = 1 := by
    rw [nextGen, h.fresh.gen]
    rfl
  obtain ⟨S, hinv, hsaved⟩ := h.done.inv h.fresh.ram.map fun f hf => by
    rw [h.fresh.gen, h.block_zero.1] at hf
    rw [hold f hf, hgen]
    decide
  have hrun : RunInv d 1 s' := by
    have hf := h.faultless.later (h.le d)
    refine ⟨⟨h.dev, h.disk.later (h.le d), ?_, hf⟩, ?_, S, hinv⟩
    · rw [h.done.total, h.fresh.total, h.total]
    · rw [h.done.gen, hgen]
  have hnode : ∀ i < inodes, S.node i = freshNode i := fun i hi => by
    rw [← hsaved.node i hi, h.fresh.committed_node h.done hi]
  have hmount := wp_exfsMount hrun.disk hrun.faultless (hrun.good hinv)
    (Q := fun _ y => Mounted d s' S y) (E := fun _ _ => False) fun _ hm => hm
  obtain ⟨_, y, hy, hm⟩ := hmount.exists_ok
  refine ⟨y, hy, ?_, fun i hi => ?_, fun b hb hr => hm.settled.free_of_fresh hnode hb hr,
    fun g hg => hm.settled.free_eq_freshCount hnode hg⟩
  · rw [hm.inv.gen, ← hsaved.gen, h.done.gen, hgen]
  · rw [hm.settled.node i hi, hnode i hi]

/-- The bit of a block in the map a mount imports from the superblock `f`. -/
theorem used_import {D : Disk} (hg : b / m.gb < m.ngroups) :
    used ⟨gmapImport m f.slot f.free, D⟩ b =
      bitOf (D.block (slotBlock m (b / m.gb) (if f.slot (b / m.gb) ≠ 0 then 1 else 0)))
        (b % m.gb) := by
  have hgb : (gmapImport m f.slot f.free).gb = m.gb := rfl
  have hhit : cacheHit (gmapImport m f.slot f.free) (b / m.gb) = none := dropCache_hit _ _
  have hnew : newestSlot (gmapImport m f.slot f.free) (b / m.gb) =
      if f.slot (b / m.gb) ≠ 0 then 1 else 0 := by
    simp only [newestSlot, gmapImport, dropCache, hg, if_true]
    rfl
  rw [used, hgb, curBits]
  simp only [hhit, hnew]
  rfl

/-- The superblock the commit of a format wrote. -/
theorem Formatted.saved (h : Formatted d s e s') : ∃ S, Saved s' S ∧ S.sb.gen = 1 := by
  obtain ⟨S, hS⟩ := h.done.saved
  refine ⟨S, hS, ?_⟩
  rw [← hS.gen, h.done.gen, nextGen, h.fresh.gen]
  rfl

/-- A mount prefers an old superblock of generation 1 or more. -/
theorem Formatted.newest (h : Formatted d s e s') (hf : sbDecode ((s.disks d).block 0) = .ok f)
    (hpos : 1 ≤ f.gen) :
    newer (newer none ((s'.disks d).block 0)) ((s'.disks d).block 1) = some f := by
  obtain ⟨S, hS, hgen⟩ := h.saved
  have hsb := hS.held.sb
  rw [hgen, h.disk_eq] at hsb
  have hno : ¬ f.gen < S.sb.gen := by omega
  rw [h.block_zero.2]
  simp [newer, hf, hsb, hno]

/-- A mount that succeeds has read the old superblock. -/
theorem Formatted.mountRead (h : Formatted d s e s') (hf : sbDecode ((s.disks d).block 0) = .ok f)
    (hpos : 1 ≤ f.gen) (hy : (exfsMount d).run s' = (.ok (), y)) : MountRead d s' f y := by
  have hfl : (s'.disks d).Faultless := h.faultless.later (h.le d)
  obtain ⟨f', hread⟩ := (wp_exfsMount_read d s').ok hy
  have hseen := (seenSb_eq fun k _ => hfl.serves k).trans (h.newest hf hpos)
  obtain rfl := Option.some.inj (hread.leads.seen.symm.trans hseen)
  exact hread

/-- **An old superblock of generation 1** of the same geometry is taken for the new one. -/
theorem Formatted.mount_tie (h : Formatted d s e s') (hf : sbDecode ((s.disks d).block 0) = .ok f)
    (hone : f.gen = 1) (htotal : f.total = volTotal (s.disks d))
    (hng : f.ngroups = (geoMap s.v.gm (s.disks d)).ngroups) :
    ∃ y, (exfsMount d).run s' = (.ok (), y) ∧ y.v.gen = 1 ∧
      (∀ i < inodes, nodeOf y.v i = freshNode i) ∧ y.v.total = volTotal (s.disks d) ∧
      y.v.gm = gmapImport (geoMap s'.v.gm (s'.disks d)) f.slot f.free ∧
      ∀ b < volTotal (s.disks d), reservedBlock (geoMap s.v.gm (s.disks d)) b = false →
        used y.gst b = (decide (f.slot (b / groupMax) ≠ 0) &&
          bitOf ((s.disks d).block (slotBlock (geoMap s.v.gm (s.disks d)) (b / groupMax) 1))
            (b % groupMax)) := by
  have hdisk : DiskOk (s'.disks d) := h.disk.later (h.le d)
  have hfl : (s'.disks d).Faultless := h.faultless.later (h.le d)
  obtain ⟨S, hS, hSgen⟩ := h.saved
  have hnode : ∀ i < inodes, S.node i = freshNode i := fun i hi => by
    rw [← hS.node i hi, h.fresh.committed_node h.done hi]
  have hread : Readable (volTotal (s'.disks d)) (s'.disks d).block ⟨f, S.node⟩ := by
    have hgst : s'.gst = ⟨s'.v.gm, s'.disk⟩ := by rw [St.gst, St.disk, h.done.ram.map.dev]
    have hr := hS.held.readable (hgst ▸ h.done.ram.map.map.toMapGeo)
    have htot : s'.v.gm.total = volTotal (s'.disks d) := by
      rw [h.done.ram.map.total, h.done.total, h.fresh.total, h.total]
    rw [htot, h.disk_eq] at hr
    refine ⟨fun i hi => ?_, hr.node, hr.chain, hr.pool, hr.range⟩
    have hrec := hr.record i hi
    rw [hSgen] at hrec
    simp only [hone]
    exact hrec
  have hl : Leads s'.v.gm (s'.disks d) f :=
    ⟨hdisk, (seenSb_eq fun k _ => hfl.serves k).trans (h.newest hf hone.ge),
    htotal.trans h.total.symm, hng.trans (h.ngroups _ _).symm⟩
  obtain ⟨y, hy⟩ := (exfsMount_ok_iff hfl).mpr ⟨f, hl, hread.tableOk⟩
  have hmount := h.mountRead hf hone.ge hy
  have hnodes : ∀ i < inodes, nodeOf y.v i = freshNode i := fun i hi =>
    (hread.node_eq hi (hmount.node hi)).trans (hnode i hi)
  obtain ⟨t, ht, rfl⟩ := hmount.loaded
  refine ⟨_, hy, hone, hnodes, ht.total.trans h.total, ht.gm, fun b hb hr => ?_⟩
  have hgst : (⟨t.disks, mountVol t.v f⟩ : St).gst =
      ⟨gmapImport (geoMap s'.v.gm (s'.disks d)) f.slot f.free, t.disks d⟩ := by
    have h1 : (⟨t.disks, mountVol t.v f⟩ : St).gst = ⟨t.v.gm, t.disks t.v.gmDev⟩ := rfl
    rw [h1, ht.gm, ht.gmDev]
  have hgeo : MapGeo ⟨geoMap s'.v.gm (s'.disks d), s'.disks d⟩ := hdisk.mapGeo hfl
  have hlt : b / groupMax < (geoMap s'.v.gm (s'.disks d)).ngroups := by
    have hb' : b < (geoMap s'.v.gm (s'.disks d)).total := by
      rw [← h.total] at hb
      exact hb
    exact hgeo.group_lt hb'
  have hmap := h.fresh.ram.map
  have hng' : e.v.gm.ngroups = (geoMap s'.v.gm (s'.disks d)).ngroups :=
    h.fresh.ngroups.trans (h.ngroups _ _).symm
  have hslotB : ∀ m : GMap, m.gb = groupMax → ∀ c, slotBlock m (b / groupMax) c =
      slotBlock e.v.gm (b / groupMax) c := fun m hm c => slotBlock_congr (hm.trans hmap.gb.symm) _ _
  rw [hgst, used_import (m := geoMap s'.v.gm (s'.disks d)) hlt, ht.ro.block]
  have hgb : (geoMap s'.v.gm (s'.disks d)).gb = groupMax := rfl
  have hgb₀ : (geoMap s.v.gm (s.disks d)).gb = groupMax := rfl
  rw [hgb, hslotB _ hgb, hslotB _ hgb₀]
  have hge : ∀ c, dataStart ≤ slotBlock e.v.gm (b / groupMax) c := fun c => by
    by_contra hlt
    exact hmap.slotBlock_ne (not_le.mp hlt) rfl
  by_cases hs : f.slot (b / groupMax) ≠ 0
  · -- the old bitmap in the second slot
    rw [if_pos hs, decide_eq_true hs, Bool.true_and, h.block_eq]
    · exact hge 1
    · intro g hg he
      exact absurd (hmap.map.toMapGeo.slotBlock_inj (by decide) (Nat.zero_le 1) he).2 (by decide)
  · -- the bitmap the format wrote
    have hle : e.disk ≤ s'.disk := by
      rw [St.disk, St.disk, h.done.dev]
      exact h.done.le _
    have hbe : b < e.gst.map.total := by
      have htot : e.gst.map.total = e.v.total := hmap.total
      rw [htot, h.fresh.total]
      exact hb
    have hbit := hmap.map.bit_of_block hbe
    have hgst : e.gst.map = e.v.gm := rfl
    rw [hgst, hmap.gb] at hbit
    have hval : validBits e.v.gm (b / groupMax) ≤ e.v.gm.gb := by
      rw [validBits]
      split <;> omega
    have hfree : ¬ b % groupMax < reservedBits (b / groupMax) := by
      rw [reservedBlock, hgb₀] at hr
      exact of_decide_eq_false hr
    rw [if_neg hs, decide_eq_false hs, Bool.false_and, ← h.disk_eq,
      h.wrote.block_eq hle (not_lt.mpr (hge 0)), h.fresh.fresh _ (hng' ▸ hlt),
      (freshBits_spec e.v.gm (b / groupMax) hval).1 _
        (by rw [hmap.gb]; exact Nat.mod_lt _ (by decide)),
      decide_eq_false hfree, decide_eq_false (by omega)]
    rfl

/-- The counts of the map a mount then imports, against those of an empty volume. -/
theorem Formatted.free_eq_iff (h : Formatted d s e s')
    (hm : m = gmapImport (geoMap s'.v.gm (s'.disks d)) f.slot f.free) :
    (∀ g < m.ngroups, m.free g = freshCount m g) ↔
      ∀ g < (geoMap s.v.gm (s.disks d)).ngroups,
        f.free g = freshCount (geoMap s.v.gm (s.disks d)) g := by
  have hng : m.ngroups = (geoMap s.v.gm (s.disks d)).ngroups := by
    rw [hm]
    exact h.ngroups s.v.gm s'.v.gm
  have hcount : freshCount m = freshCount (geoMap s.v.gm (s.disks d)) :=
    funext fun g => freshCount_congr (by rw [hm]; rfl) (by rw [hm]; exact h.total) g
  have hfree : ∀ g < m.ngroups, m.free g = f.free g := fun g hg => by
    rw [hm] at hg ⊢
    exact if_pos hg
  rw [hng, hcount] at *
  exact forall₂_congr fun g hg => by rw [hfree g hg]

/-- **An old superblock of generation 2 or more** hides the new volume. -/
theorem Formatted.not_mountsFresh (h : Formatted d s e s')
    (hf : sbDecode ((s.disks d).block 0) = .ok f) (htwo : 2 ≤ f.gen) : ¬ MountsFresh d s' := by
  rintro ⟨y, hy, hone, _⟩
  have hgen := (h.mountRead hf (by omega) hy).gen
  omega

/-- What a mount reads of the geometry of an old superblock that ties. -/
theorem Formatted.tie_geometry (h : Formatted d s e s')
    (hf : sbDecode ((s.disks d).block 0) = .ok f) (hone : f.gen = 1) (hm : MountsFresh d s') :
    f.total = volTotal (s.disks d) ∧ f.ngroups = (geoMap s.v.gm (s.disks d)).ngroups := by
  obtain ⟨y, hy, _⟩ := hm
  have hl := (h.mountRead hf hone.ge hy).leads
  exact ⟨hl.total.trans h.total, hl.ngroups.trans (h.ngroups _ _)⟩

/-- **When a format replaces the old volume.**  For every content of the device: after a
format that returns `EXFS_OK` a mount shows the empty volume exactly if the old content of
block 0 loses. -/
theorem format_replaces_iff (hf : (s.disks d).Faultless)
    (hrun : (exfsFormat d).run s = (.ok (), s')) :
    MountsFresh d s' ↔ OldLoses s.v.gm (s.disks d) := by
  obtain ⟨e, h⟩ := exists_formatted hf hrun
  refine ⟨fun hm f hdec => ?_, fun hold => ?_⟩
  · rcases Nat.lt_or_ge f.gen 2 with hlt | hge
    · rcases Nat.eq_zero_or_pos f.gen with hz | hpos
      · exact Or.inl hz
      · -- the tie: the bits a mount then shows are those of the old bitmap
        have hone : f.gen = 1 := by omega
        obtain ⟨htotal, hng⟩ := h.tie_geometry hdec hone hm
        obtain ⟨y, hy, _, _, hyt, hygm, hused⟩ := h.mount_tie hdec hone htotal hng
        obtain ⟨y', hy', _, _, hfree, hcount⟩ := hm
        rw [hy] at hy'
        obtain rfl : y = y' := (Prod.ext_iff.mp hy').2
        refine Or.inr ⟨hone, htotal, hng, fun b hb hr hs => ?_, (h.free_eq_iff hygm).mp hcount⟩
        have hres : reservedBlock y.v.gm b = false := by
          rw [hygm]
          exact hr
        have hu := hused b hb hr
        rw [hfree b (by rw [hyt]; exact hb) hres, decide_eq_true hs, Bool.true_and] at hu
        exact hu.symm
    · exact absurd hm (h.not_mountsFresh hdec hge)
  · by_cases hzero : ∀ f, sbDecode ((s.disks d).block 0) = .ok f → f.gen = 0
    · exact h.mountsFresh hzero
    · push Not at hzero
      obtain ⟨f, hdec, hne⟩ := hzero
      obtain ⟨hone, htotal, hng, hbits, hcount⟩ := (hold f hdec).resolve_left hne
      obtain ⟨y, hy, hgen, hnode, hyt, hygm, hused⟩ := h.mount_tie hdec hone htotal hng
      refine ⟨y, hy, hgen, hnode, fun b hb hr => ?_, (h.free_eq_iff hygm).mpr hcount⟩
      rw [hyt] at hb
      have hres : reservedBlock (geoMap s.v.gm (s.disks d)) b = false := by
        rw [hygm] at hr
        exact hr
      rw [hused b hb hres]
      by_cases hs : f.slot (b / groupMax) ≠ 0
      · rw [hbits b hb hres hs, Bool.and_false]
      · rw [decide_eq_false hs, Bool.false_and]

/-- The volume of a first format is replaced by a second one. -/
theorem format_replaces_iff_twice : ∃ s₁ f s₂, (exfsFormat 0).run blank = (.ok (), s₁) ∧
    sbDecode ((s₁.disks 0).block 1) = .ok f ∧ f.gen = 1 ∧ (exfsFormat 0).run s₁ = (.ok (), s₂) ∧
    OldLoses s₁.v.gm (s₁.disks 0) ∧ MountsFresh 0 s₂ := by
  have hf : (blank.disks 0).Faultless := fun _ _ => rfl
  obtain ⟨s₁, hrun₁⟩ := exists_format hf blank_diskOk
  obtain ⟨e, h⟩ := exists_formatted hf hrun₁
  obtain ⟨S, hS, hgen⟩ := h.saved
  have hsb := hS.held.sb
  rw [hgen, h.disk_eq] at hsb
  have hlose : OldLoses s₁.v.gm (s₁.disks 0) := fun f hdec => by
    rw [h.block_zero.2] at hdec
    exact absurd hdec (sbDecode_zero f)
  have hf₁ := hf.later (h.le 0)
  obtain ⟨s₂, hrun₂⟩ := exists_format hf₁ (h.disk.later (h.le 0))
  exact ⟨s₁, S.sb, s₂, hrun₁, hsb, hgen, hrun₂, hlose, (format_replaces_iff hf₁ hrun₂).mpr hlose⟩

/-- The superblock of an old volume of generation 2. -/
def oldFields : SbFields where
  gen := 2
  itab := itabArea 2
  nitab := itabBlocks
  ninodes := inodes
  total := 34
  ngroups := 1
  slot _ := 0
  free _ := 0

/-- The fields are those of a page that decodes. -/
theorem exists_oldPage : ∃ page, sbDecode page = .ok oldFields := by
  have hok : fieldsOk oldFields = true := by
    rw [fieldsOk_iff]
    refine ⟨by decide, rfl, rfl, by decide, rfl, fun _ _ => Nat.zero_le _, fun _ _ _ => ⟨rfl, rfl⟩⟩
  obtain ⟨page, hpage⟩ : ∃ page, sbEncode oldFields = .ok page := ⟨_, if_pos hok⟩
  exact ⟨page, sbDecode_of_encode
    ⟨by decide, fun _ => Nat.two_pow_pos 8, fun _ => Nat.two_pow_pos 32, fun _ _ => rfl,
      fun _ _ => rfl⟩ hpage⟩

/-- A device that holds that superblock in block 0. -/
def oldDisk (page : Bytes) : Disk :=
  { blankDisk with stable := Function.update (fun _ _ => 0) 0 page }

/-- A device that holds that superblock and `itab`, the first block of its inode table. -/
def tableDisk (page itab : Bytes) : Disk :=
  { blankDisk with stable := Function.update (Function.update (fun _ _ => 0) 2 itab) 0 page }

theorem tableDisk_diskOk (page itab : Bytes) : DiskOk (tableDisk page itab) :=
  ⟨blank_diskOk.ss_pos, blank_diskOk.ss_dvd, blank_diskOk.total_min, blank_diskOk.total_max⟩

theorem tableDisk_volTotal (page itab : Bytes) : volTotal (tableDisk page itab) = 34 := by
  norm_num [volTotal, tableDisk, blankDisk, blockBytes]

theorem tableDisk_table (page itab : Bytes) (k j : ℕ) :
    (tableDisk page itab).block (itabArea 2 + k) j = if k = 0 then itab j else 0 := by
  have harea : itabArea 2 = 2 := rfl
  have h0 : itabArea 2 + k ≠ 0 := by omega
  have hblock : (tableDisk page itab).block =
      Function.update (Function.update (fun _ _ => 0) 2 itab) 0 page := rfl
  rw [hblock, Function.update_of_ne h0]
  by_cases hk : k = 0
  · rw [if_pos hk, hk, Nat.add_zero, harea, Function.update_self]
  · rw [if_neg hk, Function.update_of_ne (by omega)]

theorem tableDisk_newest {page itab : Bytes} (hpage : sbDecode page = .ok oldFields) :
    newer (newer none ((tableDisk page itab).block 0)) ((tableDisk page itab).block 1) =
      some oldFields := by
  have hfirst : newer none page = some oldFields := by simp [newer, hpage]
  have h0 : (tableDisk page itab).block 0 = page := by simp [tableDisk, Disk.block, blankDisk]
  have h1 : (tableDisk page itab).block 1 = fun _ => 0 := by simp [tableDisk, Disk.block, blankDisk]
  rw [h0, h1, hfirst]
  cases hz : sbDecode fun _ => 0 with
  | error e => simp [newer, hz]
  | ok f => exact absurd hz (sbDecode_zero f)

/-- An old volume of generation 2 survives the format of its device. -/
theorem format_keeps_old_volume : ∃ page s', sbDecode page = .ok oldFields ∧
    (exfsFormat 0).run ⟨fun _ => oldDisk page, bootVol⟩ = (.ok (), s') ∧ ¬ MountsFresh 0 s' := by
  obtain ⟨page, hdec⟩ := exists_oldPage
  set s : St := ⟨fun _ => oldDisk page, bootVol⟩ with hs
  have hf : (s.disks 0).Faultless := fun _ _ => rfl
  have hd : DiskOk (s.disks 0) := ⟨blank_diskOk.ss_pos, blank_diskOk.ss_dvd, blank_diskOk.total_min,
    blank_diskOk.total_max⟩
  have hzero : (s.disks 0).block 0 = page := by simp [hs, oldDisk, Disk.block, blankDisk]
  obtain ⟨s', hrun⟩ := exists_format hf hd
  obtain ⟨e, h⟩ := exists_formatted hf hrun
  exact ⟨page, s', hdec, hrun, h.not_mountsFresh (by rw [hzero]; exact hdec) (by decide)⟩

end Reformat

end Xasmos.Exfs
