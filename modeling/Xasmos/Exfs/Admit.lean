import Xasmos.Exfs.Reformat

/-!
# Mounting any content

What `exfs_mount` accepts is what it checks itself, and it checks each extent's end in 64-bit
arithmetic: an extent that ends past `2 ^ 64` wraps and can pass.  That is the only way past the
check, on any device and with any failures of it.
-/

namespace Xasmos.Exfs

open Bytes Prog
open Function (update)

variable {d i j total : ℕ} {page r : Bytes} {s s' : St} {v : Vol}

/-- The chain blocks and the extents of inode `i` are data blocks of the volume. -/
structure InVolume (v : Vol) (i : ℕ) : Prop where
  chain : ∀ b ∈ chainOf (v.files i), dataStart ≤ b ∧ b < v.total
  extent : ∀ e ∈ exts v i, 0 < e.len ∧ dataStart ≤ e.start ∧ e.start + e.len ≤ v.total
  block : ∀ b ∈ blocks (exts v i), dataStart ≤ b ∧ b < v.total

section Mount

/-- An inode that was admitted lies in the volume exactly if its extents do not wrap. -/
theorem Admitted.inVolume_iff {c : ℕ → Bytes} (h : Admitted total c r v i)
    (hu : (v.files i).used = true) (htotal : v.total = total) (hmax : total < 2 ^ 64) :
    InVolume v i ↔ ∀ e ∈ exts v i, e.start + e.len < 2 ^ 64 := by
  constructor
  · intro hin e he
    have := (hin.extent e he).2.2
    omega
  · intro hwrap
    have hext : ∀ e ∈ exts v i, 0 < e.len ∧ dataStart ≤ e.start ∧ e.start + e.len ≤ v.total := by
      intro e he
      have hok := h.extent hu e he
      simp only [extentOk, Bool.and_eq_true, decide_eq_true_eq] at hok
      rw [Nat.mod_eq_of_lt (hwrap e he)] at hok
      exact ⟨Nat.pos_of_ne_zero hok.1.1, hok.1.2, htotal ▸ hok.2⟩
    refine ⟨htotal ▸ recordRead_range (h.read hu), hext, fun b hb => ?_⟩
    obtain ⟨e, he, hle, hlt⟩ := mem_blocks.mp hb
    have := hext e he
    omega

/-- No extent, inline or in a chain, of a used record of the table ends past `2 ^ 64`. -/
def NoWrap (total : ℕ) (c : ℕ → Bytes) (area : ℕ) : Prop :=
  ∀ i < inodes, getLE 4 (recordOf c area i) 0 ≠ 0 → ∀ x, recordRead total c (recordOf c area i) =
    some x →
    ∀ e ∈ x.2, e.start + e.len < 2 ^ 64

/-- **What a mount admits**: every used inode lies in the volume exactly if no extent wraps in the
table of the superblock that the mount takes. -/
theorem mount_inVolume_iff (hrun : (exfsMount d).run s = (.ok (), s')) :
    (∀ i < inodes, (s'.v.files i).used = true → InVolume s'.v i) ↔
      ∀ f, seenSb (s.disks d) = some f →
        NoWrap (volTotal (s.disks d)) (s.disks d).block (itabArea f.gen) := by
  obtain ⟨f, hread⟩ := (wp_exfsMount_read d s).ok hrun
  have hmax : volTotal (s.disks d) < 2 ^ 64 := lt_of_le_of_lt hread.leads.disk.total_max (by decide)
  constructor
  · intro h f' hf' i hi hne x hx e he
    obtain rfl := Option.some.inj (hread.leads.seen.symm.trans hf')
    have hnode := hread.node hi
    have hu : (s'.v.files i).used = true := by rw [hnode.used, decide_eq_true hne]
    obtain rfl := Option.some.inj ((hnode.read hu).symm.trans hx)
    exact (hnode.inVolume_iff hu hread.total hmax).mp (h i hi hu) e he
  · intro h i hi hu
    have hnode := hread.node hi
    have hne : getLE 4 (recordOf (s.disks d).block (itabArea f.gen) i) 0 ≠ 0 := by
      rw [hnode.used] at hu
      exact of_decide_eq_true hu
    exact (hnode.inVolume_iff hu hread.total hmax).mpr
      (h f hread.leads.seen i hi hne _ (hnode.read hu))

end Mount

/-! ## An extent that wraps -/

section Wrapping

/-- An extent of eight blocks that starts four blocks below `2 ^ 64`. -/
def wrapExtent : ExfsExtent := ⟨2 ^ 64 - 4, 8⟩

/-- A volume whose first inode is a file with that extent. -/
def wrapVol : Vol :=
  { bootVol with
    files := update bootVol.files 0
      { bootVol.files 0 with used := true, n := 1, size := 8 * blockBytes }
    pool := fun _ => wrapExtent }

/-- A device with the superblock `page` and the inode table of that volume. -/
def wrapDisk (page : Bytes) : Disk :=
  tableDisk page fun j => if j < inodeBytes then inodeEncode wrapVol 0 j else 0

def wrapNode : Node := ⟨0, 8 * blockBytes, [], [wrapExtent], []⟩

/-- The record of inode `i`, byte by byte. -/
theorem wrap_itabOf (page : Bytes) (hi : i < inodes) (hj : j < inodeBytes) :
    itabOf (wrapDisk page).block (itabArea 2) (i * inodeBytes + j) =
      if i = 0 then inodeEncode wrapVol 0 j else 0 := by
  have hp : i * inodeBytes + j < itabBlocks * blockBytes := by
    simp only [inodes, inodeBytes, itabBlocks, blockBytes] at hi hj ⊢
    omega
  rw [itabOf, if_pos hp, wrapDisk, tableDisk_table]
  by_cases h0 : i = 0
  · have hlt : j < blockBytes := lt_trans hj (by decide)
    simp [h0, Nat.div_eq_of_lt hlt, Nat.mod_eq_of_lt hlt, hj]
  · rw [if_neg h0]
    split_ifs with hb hlt
    · simp only [inodeBytes, blockBytes] at hb hlt
      omega
    · rfl
    · rfl

theorem wrap_record (page : Bytes) :
    RecordOn (fun j => itabOf (wrapDisk page).block (itabArea 2) (0 * inodeBytes + j))
      (some wrapNode) := by
  have henc : RecordOn (inodeEncode wrapVol 0) (nodeOf wrapVol 0) := by
    refine recordOn_encode fun _ => ⟨by decide, by decide, ?_, ?_⟩
    · simp [Fit, exts, wrapVol, wrapExtent]
    · simp [chainOf, wrapVol, bootVol]
  have hnode : nodeOf wrapVol 0 = some wrapNode := by decide
  rw [← hnode]
  refine henc.congr fun j hj => ?_
  rw [wrap_itabOf page (by decide) hj, if_pos rfl]

theorem wrap_record_none (page : Bytes) (h0 : i ≠ 0) (hi : i < inodes) :
    RecordOn (fun j => itabOf (wrapDisk page).block (itabArea 2) (i * inodeBytes + j)) none := by
  have hzero : RecordOn (fun _ => 0) none := by
    show getLE 4 (fun _ => 0) 0 = 0
    simp [getLE]
  refine hzero.congr fun j hj => ?_
  rw [wrap_itabOf page hi hj, if_neg h0]

/-- The table of that device: one record with the extent. -/
theorem wrap_tableOk (page : Bytes) : TableOk 34 (wrapDisk page).block (itabArea 2) ∧
    recordRead 34 (wrapDisk page).block (recordOf (wrapDisk page).block (itabArea 2) 0) =
      some ([], [wrapExtent]) := by
  have hfirst : recordRead 34 (wrapDisk page).block _ = some (wrapNode.chain, wrapNode.exts) :=
    recordRead_of_on (wrap_record page) (by decide) (by decide) rfl (by simp [wrapNode])
  have hrest := fun i => wrap_record_none page (i := i)
  -- the content is generalized, so that its bytes are not computed here
  generalize (wrapDisk page).block = c at hfirst hrest ⊢
  have hread : recordRead 34 c (recordOf c (itabArea 2) 0) = some ([], [wrapExtent]) := hfirst
  have hzero : ∀ i, i ≠ 0 → i < inodes → getLE 4 (recordOf c (itabArea 2) i) 0 = 0 := hrest
  refine ⟨⟨fun i hi hne => ?_, ?_⟩, hread⟩
  · by_cases h0 : i = 0
    · rw [h0]
      exact ⟨_, hread, by decide⟩
    · exact absurd (hzero i h0 hi) hne
  · rw [Finset.sum_eq_single 0]
    · rw [recordCap, hread]
      split_ifs <;> decide
    · intro i hi h0
      rw [recordCap, if_pos (hzero i h0 (Finset.mem_range.mp hi))]
    · intro hno
      exact absurd (Finset.mem_range.mpr (by decide)) hno

theorem wrap_seenSb (hpage : sbDecode page = .ok oldFields) :
    seenSb (wrapDisk page) = some oldFields := by
  rw [seenSb_eq fun _ _ _ => rfl, wrapDisk, tableDisk_newest hpage]

/-- The first inode, when it is loaded. -/
theorem Admitted.wrapping (h : Admitted (volTotal (wrapDisk page)) (wrapDisk page).block
    (recordOf (wrapDisk page).block (itabArea 2) 0) v 0) :
    (v.files 0).used = true ∧ exts v 0 = [wrapExtent] := by
  have hu : (v.files 0).used = true := by
    rw [h.used, decide_eq_true]
    exact (wrap_record page).1
  have hx := h.read hu
  rw [show volTotal (wrapDisk page) = 34 from tableDisk_volTotal _ _] at hx
  exact ⟨hu, (congrArg Prod.snd (Option.some.inj ((wrap_tableOk page).2.symm.trans hx))).symm⟩

/-- **The device mounts**, and the first file of the volume has the extent that wraps. -/
theorem exists_wrapping_mount (hpage : sbDecode page = .ok oldFields) :
    ∃ s', (exfsMount 0).run ⟨fun _ => wrapDisk page, bootVol⟩ = (.ok (), s') ∧ s'.v.total = 34 ∧
      (s'.v.files 0).used = true ∧ exts s'.v 0 = [wrapExtent] := by
  set s : St := ⟨fun _ => wrapDisk page, bootVol⟩
  have hvt : volTotal (s.disks 0) = 34 := tableDisk_volTotal _ _
  have hseen : seenSb (s.disks 0) = some oldFields := wrap_seenSb hpage
  have htable := (wrap_tableOk page).1
  have hl : Leads s.v.gm (s.disks 0) oldFields :=
    ⟨tableDisk_diskOk _ _, hseen, hvt.symm, by simp only [geoMap, dropCache, hvt]; rfl⟩
  obtain ⟨y, hy⟩ := (exfsMount_ok_iff (s := s) (d := 0) fun _ _ => rfl).mpr
    ⟨oldFields, hl, by rw [hvt]; exact htable⟩
  obtain ⟨f, hread⟩ := (wp_exfsMount_read 0 s).ok hy
  obtain rfl := Option.some.inj (hseen.symm.trans hread.leads.seen)
  exact ⟨y, hy, hread.total.trans hvt, (hread.node (by decide)).wrapping⟩

end Wrapping

theorem mount_inVolume_iff_wrapping :
    ∃ page s', (exfsMount 0).run ⟨fun _ => wrapDisk page, bootVol⟩ = (.ok (), s') ∧
    seenSb (wrapDisk page) = some oldFields ∧
      ¬ NoWrap 34 (wrapDisk page).block (itabArea oldFields.gen) ∧
    ¬ ∀ i < inodes, (s'.v.files i).used = true → InVolume s'.v i := by
  obtain ⟨page, hpage⟩ := exists_oldPage
  obtain ⟨s', hrun, -⟩ := exists_wrapping_mount hpage
  have hno : ¬ NoWrap 34 (wrapDisk page).block (itabArea oldFields.gen) := fun h =>
    absurd (h 0 (by decide) (wrap_record page).1 _ (wrap_tableOk page).2 wrapExtent (by simp))
      (by decide)
  have hseen := wrap_seenSb hpage
  refine ⟨page, s', hrun, hseen, hno, fun h => hno ?_⟩
  have hall := (mount_inVolume_iff hrun).mp h oldFields hseen
  rw [show volTotal ((⟨fun _ => wrapDisk page, bootVol⟩ : St).disks 0) =
    34 from tableDisk_volTotal _ _] at hall
  exact hall

/-- A mount admits an extent of eight blocks that starts at `2 ^ 64 - 4`, in a volume of 34
blocks. -/
theorem mount_admits_wrapping : ∃ page s', sbDecode page = .ok oldFields ∧
    (exfsMount 0).run ⟨fun _ => wrapDisk page, bootVol⟩ = (.ok (), s') ∧
    (s'.v.files 0).used = true ∧ wrapExtent ∈ exts s'.v 0 ∧ ¬ InVolume s'.v 0 := by
  obtain ⟨page, hpage⟩ := exists_oldPage
  obtain ⟨s', hrun, htotal, hu, hx⟩ := exists_wrapping_mount hpage
  have hmem : wrapExtent ∈ exts s'.v 0 := by
    rw [hx]
    exact List.mem_singleton_self _
  refine ⟨page, s', hpage, hrun, hu, hmem, fun h => ?_⟩
  have hend : 2 ^ 64 - 4 + 8 ≤ s'.v.total := (h.extent _ hmem).2.2
  omega

end Xasmos.Exfs
