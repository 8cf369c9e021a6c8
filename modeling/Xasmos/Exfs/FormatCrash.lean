import Xasmos.Exfs.Admit
import Xasmos.Exfs.Crash

/-!
# A format that is cut

`exfs_format` writes the bitmaps of the groups, then the inode table of generation 1, then the
superblock. The old superblocks stay where they are until that last write, so what a mount finds
after a cut depends on them.  With an odd generation the old superblock names the table that the
format has just written.  With an even one it names a table that the format leaves alone, and that
one may decode or not, also because a fresh bitmap has taken the place of a chain block.

## Main results

* `format_cut_iff` — no cut leaves a volume exactly if the old content fails.
* `cut_format_mounts_old` — an old volume that mounts at every cut.
-/

namespace Xasmos.Exfs

open Bytes

/-- The content with the fresh bitmaps of the groups below `k`. -/
def freshOver (m : GMap) (c : ℕ → Bytes) (k : ℕ) : ℕ → Bytes := replay (freshWrites m k) c

/-- **The old content under which a cut leaves no volume.**  If its newest superblock has the
geometry of the device, then the generation is even, and the inode table it names does not decode,
whichever bitmaps are fresh already. -/
def OldFails (m : GMap) (D : Disk) : Prop :=
  ∀ f, newer (newer none (D.block 0)) (D.block 1) = some f → f.total = volTotal D →
    f.ngroups = (geoMap m D).ngroups → f.gen % 2 = 0 ∧ ∀ k ≤ (geoMap m D).ngroups,
      ¬ TableOk (volTotal D) (freshOver (geoMap m D) D.block k) (itabArea f.gen)

section Cut

variable {d : ℕ} {s e s' : St} {f : SbFields}

theorem Fresh.nextGen {k : ℕ} (h : Fresh d s k e) : nextGen e.v = 1 := by
  rw [Exfs.nextGen, h.gen]
  rfl

theorem CrashedTo.ngroups {D D' : Disk} {c : ℕ → Bytes} (h : CrashedTo D D' c) (m m' : GMap) :
    (geoMap m' D').ngroups = (geoMap m D).ngroups := by
  have hn : ∀ m D, (geoMap m D).ngroups = (Exfs.volTotal D + groupMax - 1) / groupMax :=
    fun _ _ => rfl
  rw [hn, hn, h.volTotal]

/-- When a device mounts on which only blocks from block 2 on have changed. -/
theorem CrashedTo.mount_iff {D : Disk} {c : ℕ → Bytes} {x : St} (h : CrashedTo D (x.disks d) c)
    (hd : DiskOk D) (hlow : ∀ b < 2, c b = D.block b) (m : GMap) :
    (∃ y, (exfsMount d).run x = (.ok (), y)) ↔
      ∃ f, newer (newer none (D.block 0)) (D.block 1) = some f ∧ f.total = Exfs.volTotal D ∧
        f.ngroups = (geoMap m D).ngroups ∧ TableOk (Exfs.volTotal D) c (itabArea f.gen) := by
  have hseen : seenSb (x.disks d) = newer (newer none (D.block 0)) (D.block 1) := by
    rw [seenSb_eq fun k _ => h.faultless.serves k, h.block, hlow 0 (by decide), hlow 1 (by decide)]
  rw [exfsMount_ok_iff h.faultless, Mountable, h.volTotal, h.block]
  refine exists_congr fun f => ⟨?_, ?_⟩
  · rintro ⟨hl, htable⟩
    exact ⟨hseen ▸ hl.seen, hl.total.trans h.volTotal, hl.ngroups.trans (h.ngroups _ _), htable⟩
  · rintro ⟨hbest, htotal, hng, htable⟩
    exact ⟨⟨h.diskOk hd, hseen.trans hbest, htotal.trans h.volTotal.symm,
      hng.trans (h.ngroups _ _).symm⟩, htable⟩

theorem freshWrites_take {m : GMap} {k n : ℕ} (h : k ≤ n) :
    (freshWrites m n).take k = freshWrites m k := by
  rw [freshWrites, ← List.map_take, List.take_range, Nat.min_eq_left h, freshWrites]

/-- **The writes of a format**: the bitmaps, then the inode table of generation 1, then block 1. -/
theorem Formatted.log (h : Formatted d s e s') :
    ∃ vs page, (s'.disks d).cache = (s.disks d).cache ++
    (freshWrites (geoMap s.v.gm (s.disks d)) (geoMap s.v.gm (s.disks d)).ngroups ++ vs ++
      [(1, page)]) ∧
    (∀ w ∈ freshWrites (geoMap s.v.gm (s.disks d)) (geoMap s.v.gm (s.disks d)).ngroups,
      dataStart ≤ w.1) ∧
    ∀ w ∈ vs, InArea 1 w.1 := by
  have hlog := h.fresh.log
  obtain ⟨ws, hws, hslot⟩ := h.fresh.wrote
  obtain ⟨vs, page, hvs, harea⟩ := h.done.wrote
  obtain ⟨us, hus, hlow⟩ := h.wrote
  have hmap := h.fresh.ram.map
  rw [h.fresh.nextGen] at hvs
  rw [h.fresh.ngroups] at hlog
  obtain rfl : ws = _ := List.append_cancel_left (hws.symm.trans hlog)
  refine ⟨vs, page, ?_, fun w hw => ?_, fun w hw => ?_⟩
  · rw [← h.disk_eq, hvs, hws]
    simp only [List.append_assoc]
  · obtain ⟨g, -, hg⟩ := hslot w hw
    by_contra hlt
    exact hmap.slotBlock_ne (not_le.mp hlt) hg.symm
  · have hin : w ∈ us := by
      rw [hus, List.append_assoc, List.append_cancel_left_eq] at hvs
      exact hvs ▸ List.mem_append_left _ hw
    rcases harea w hw with hwr | hwr
    · exact absurd hwr (hmap.low_not_writable (hlow w hin))
    · rw [h.fresh.nextGen] at hwr
      exact hwr

/-- **An old superblock of odd generation** names the inode table that the format has written. -/
theorem Formatted.tableOk (h : Formatted d s e s') {ws : List (ℕ × Bytes)} {page : Bytes}
    (hcache : (s'.disks d).cache = (s.disks d).cache ++ (ws ++ [(1, page)])) {gen : ℕ}
    (hodd : gen % 2 = 1) (total : ℕ) :
    TableOk total (replay ws (s.disks d).block) (itabArea gen) := by
  obtain ⟨S, hS, hSgen⟩ := h.saved
  have harea : itabArea gen = itabArea S.sb.gen := by rw [itabArea, itabArea, hodd, hSgen]
  have hnode : ∀ i < inodes, S.node i = freshNode i := fun i hi => by
    rw [← hS.node i hi, h.fresh.committed_node h.done hi]
  -- the last write is that of block 1, which is in no table
  have hblock : ∀ b, b ≠ 1 → replay ws (s.disks d).block b = s'.disk.block b := by
    intro b hb
    rw [h.disk_eq, Disk.block, Disk.block, hcache, (h.le d).stable, ← List.append_assoc,
      replay_concat, Function.update_of_ne hb, replay_append]
  rw [harea]
  refine tableOk_of_empty freshNode (fun i hi => ?_) fun i f hf => ?_
  · have hrec := hS.held.record i hi
    rw [hnode i hi] at hrec
    rwa [recordOf_congr fun b hge _ => hblock b ?_]
    have := itabArea_le S.sb.gen
    omega
  · rw [freshNode, Option.map_eq_some_iff] at hf
    obtain ⟨name, -, rfl⟩ := hf
    exact ⟨rfl, rfl⟩

/-- **When a cut format leaves no volume.**  For every content of the device: no device on which a
proper prefix of the writes of the format landed mounts, exactly if the old content fails. -/
theorem format_cut_iff (hf : (s.disks d).Faultless) (hrun : (exfsFormat d).run s = (.ok (), s'))
    (L : List (ℕ × Bytes)) (hL : (s'.disks d).cache = (s.disks d).cache ++ L) :
    (∀ k < L.length, ∀ x, CrashedTo (s.disks d) (x.disks d) (replay (L.take k) (s.disks d).block) →
      ∀ y, (exfsMount d).run x ≠ (.ok (), y)) ↔ OldFails s.v.gm (s.disks d) := by
  obtain ⟨e, h⟩ := exists_formatted hf hrun
  obtain ⟨vs, page, hcache, hws, hvs⟩ := h.log
  set m := geoMap s.v.gm (s.disks d) with hm
  obtain rfl : L = freshWrites m m.ngroups ++ vs ++ [(1, page)] := by
    rw [hL, List.append_cancel_left_eq] at hcache
    exact hcache
  have hlen : (freshWrites m m.ngroups).length = m.ngroups := by simp [freshWrites]
  have htake : ∀ k, k < (freshWrites m m.ngroups ++ vs ++ [(1, page)]).length →
      (freshWrites m m.ngroups ++ vs ++ [(1, page)]).take k =
        (freshWrites m m.ngroups ++ vs).take k := by
    intro k hk
    rw [List.length_append, List.length_singleton] at hk
    exact List.take_append_of_le_length (by omega)
  -- no cut reaches the superblocks
  have hlow : ∀ k b, b < 2 → replay ((freshWrites m m.ngroups ++ vs).take k) (s.disks d).block b =
      (s.disks d).block b := by
    intro k b hb
    refine replay_of_forall_ne fun w hw he => ?_
    rcases List.mem_append.mp (List.mem_of_mem_take hw) with hw | hw
    · have hge := hws w hw
      have h2 : 2 ≤ dataStart := by decide
      omega
    · have := (hvs w hw).low.1
      omega
  constructor
  · intro hnone f hbest htotal hng
    have hcut : ∀ k, k < (freshWrites m m.ngroups ++ vs ++ [(1, page)]).length →
        ¬ TableOk (volTotal (s.disks d))
        (replay ((freshWrites m m.ngroups ++ vs).take k) (s.disks d).block)
          (itabArea f.gen) := by
      intro k hk hok
      obtain ⟨x, hx⟩ := exists_crashed (s.disks d)
        (replay ((freshWrites m m.ngroups ++ vs).take k) (s.disks d).block)
      obtain ⟨y, hy⟩ := (hx.mount_iff h.disk (hlow k) s.v.gm).mpr ⟨f, hbest, htotal, hng, hok⟩
      exact hnone k hk x (by rw [htake k hk]; exact hx) y hy
    constructor
    · -- only the last write is missing
      by_contra hne
      refine hcut (freshWrites m m.ngroups ++ vs).length (by simp) ?_
      rw [List.take_length]
      exact h.tableOk hcache (by omega) _
    · intro k hle hok
      have hk : k ≤ m.ngroups := hle
      refine hcut k ?_ ?_
      · rw [List.length_append, List.length_append, List.length_singleton, hlen]
        omega
      · rw [List.take_append_of_le_length (by omega), freshWrites_take hk]
        exact hok
  · intro hold k hk x hx y hy
    rw [htake k hk] at hx
    obtain ⟨f, hbest, htotal, hng, htable⟩ := (hx.mount_iff h.disk (hlow k) s.v.gm).mp ⟨y, hy⟩
    obtain ⟨heven, hfails⟩ := hold f hbest htotal hng
    have harea := itabArea_le f.gen
    refine hfails (min k m.ngroups) (Nat.min_le_right _ _)
      (htable.congr harea.2 fun b hge hor => ?_)
    -- what landed of the new inode table is not read
    have hout : ¬ InArea 1 b := by
      rintro ⟨h1, h2⟩
      have hzero : itabArea f.gen = itabArea0 := by
        rw [itabArea, heven]
        rfl
      have hone : itabArea 1 = itabArea0 + itabBlocks := rfl
      have hend : itabArea 1 + itabBlocks = dataStart := rfl
      omega
    have hfresh : (freshWrites m m.ngroups).take k = freshWrites m (min k m.ngroups) := by
      rw [List.take_eq_take_min, hlen, freshWrites_take (Nat.min_le_right _ _)]
    rw [freshOver, List.take_append, hlen, replay_append, hfresh]
    symm
    apply replay_of_forall_ne
    rintro w hw rfl
    exact hout (hvs w (List.mem_of_mem_take hw))

/-- A record that claims nine inline extents. -/
def damagedTable : Bytes := fun j => if j = 0 then 1 else if j = 120 then 9 else 0

/-- A format over a volume whose first record is damaged: no cut mounts. -/
theorem format_cut_iff_damaged : ∃ page s', ∃ L : List (ℕ × Bytes), sbDecode page = .ok oldFields ∧
    (exfsFormat 0).run ⟨fun _ => tableDisk page damagedTable, bootVol⟩ = (.ok (), s') ∧
      0 < L.length ∧
    ∀ k < L.length, ∀ x, CrashedTo (tableDisk page damagedTable) (x.disks 0)
      (replay (L.take k) (tableDisk page damagedTable).block) →
        ∀ y, (exfsMount 0).run x ≠ (.ok (), y) := by
  obtain ⟨page, hpage⟩ := exists_oldPage
  set s : St := ⟨fun _ => tableDisk page damagedTable, bootVol⟩ with hs
  have hf : (s.disks 0).Faultless := fun _ _ => rfl
  obtain ⟨s', hrun⟩ := exists_format (s := s) (d := 0) hf (tableDisk_diskOk _ _)
  obtain ⟨e, h⟩ := exists_formatted hf hrun
  obtain ⟨vs, last, hcache, hws, -⟩ := h.log
  have hnewest : newer (newer none ((s.disks 0).block 0)) ((s.disks 0).block 1) = some oldFields :=
    tableDisk_newest hpage
  refine ⟨page, s', _, hpage,
    hrun, by simp, (format_cut_iff hf hrun _ hcache).mpr fun f hbest _ _ => ?_⟩
  obtain rfl := Option.some.inj (hnewest.symm.trans hbest)
  refine ⟨rfl, fun k hk hok => ?_⟩
  -- the bitmaps do not reach the table
  have hblock : freshOver (geoMap s.v.gm (s.disks 0)) (s.disks 0).block k 2 = damagedTable := by
    rw [freshOver, ← freshWrites_take hk]
    refine (replay_of_forall_ne fun w hw he => ?_).trans ?_
    · have hge := hws w (List.mem_of_mem_take hw)
      have h18 : dataStart = 18 := rfl
      omega
    · simp [hs, tableDisk, Disk.block, blankDisk]
  have hbytes : ∀ j < 200, recordOf (freshOver (geoMap s.v.gm (s.disks 0)) (s.disks 0).block k)
      (itabArea oldFields.gen) 0 j = damagedTable j := by
    intro j hj
    have hlt : j < blockBytes := hj.trans (by decide)
    have harea : itabArea oldFields.gen = 2 := rfl
    rw [recordOf, itabOf, Nat.zero_mul, Nat.zero_add, if_pos (hlt.trans (by decide)),
      Nat.div_eq_of_lt hlt, Nat.mod_eq_of_lt hlt, harea, hblock]
  generalize freshOver (geoMap s.v.gm (s.disks 0)) (s.disks 0).block k = c at hok hbytes
  have hget : ∀ o, o + 4 ≤ 200 → getLE 4 (recordOf c (itabArea oldFields.gen) 0) o =
      getLE 4 damagedTable o :=
    fun o ho => getLE_congr fun i hi => hbytes _ (by omega)
  obtain ⟨x, hx, -⟩ := hok.record 0 (by decide) (by rw [hget 0 (by decide)]; decide)
  rw [recordRead, if_pos (by rw [hget 120 (by decide)]; decide)] at hx
  cases hx

/-- A volume of generation 2 with no node mounts at every cut of a format of its device. -/
theorem cut_format_mounts_old : ∃ page s' L, sbDecode page = .ok oldFields ∧
    (exfsFormat 0).run ⟨fun _ => oldDisk page, bootVol⟩ = (.ok (), s') ∧
      (s'.disks 0).cache = (oldDisk page).cache ++ L ∧
    0 < L.length ∧ ∀ k < L.length, ∃ x y,
      CrashedTo (oldDisk page) (x.disks 0) (replay (L.take k) (oldDisk page).block) ∧
      (exfsMount 0).run x = (.ok (), y) := by
  obtain ⟨page, hpage⟩ := exists_oldPage
  have hdisk : oldDisk page = tableDisk page fun _ => 0 := by
    rw [oldDisk, tableDisk, Function.update_eq_self_iff.mpr rfl]
  refine ⟨page, ?_⟩
  rw [hdisk]
  set s : St := ⟨fun _ => tableDisk page fun _ => 0, bootVol⟩ with hs
  have hf : (s.disks 0).Faultless := fun _ _ => rfl
  obtain ⟨s', hrun⟩ := exists_format (s := s) (d := 0) hf (tableDisk_diskOk _ _)
  obtain ⟨e, h⟩ := exists_formatted hf hrun
  obtain ⟨vs, last, hcache, hws, hvs⟩ := h.log
  refine ⟨s', _, hpage, hrun, hcache, by simp, fun k hk => ?_⟩
  set W := freshWrites (geoMap s.v.gm (s.disks 0)) (geoMap s.v.gm (s.disks 0)).ngroups
  rw [List.length_append, List.length_singleton] at hk
  rw [List.take_append_of_le_length (by omega)]
  -- the table of generation 2 is left alone
  have hlow : ∀ b < itabArea1, replay ((W ++ vs).take k) (s.disks 0).block b =
      (s.disks 0).block b := by
    intro b hb
    refine replay_of_forall_ne fun w hw he => ?_
    rcases List.mem_append.mp (List.mem_of_mem_take hw) with hw | hw
    · have hge := hws w hw
      have h1 : itabArea1 ≤ dataStart := by decide
      omega
    · have hge := (hvs w hw).1
      have h1 : itabArea 1 = itabArea1 := rfl
      omega
  obtain ⟨x, hx⟩ := exists_crashed (s.disks 0) (replay ((W ++ vs).take k) (s.disks 0).block)
  have hvt : volTotal (s.disks 0) = 34 := tableDisk_volTotal _ _
  have hzero : ∀ b, b ≠ 0 → (s.disks 0).block b = fun _ => 0 := by
    intro b hb
    have hcontent : (s.disks 0).block = (oldDisk page).block := by rw [hdisk]
    have hold : (oldDisk page).block = Function.update (fun _ _ => 0) 0 page := rfl
    rw [hcontent, hold, Function.update_of_ne hb]
  obtain ⟨y, hy⟩ := (hx.mount_iff (tableDisk_diskOk _ _)
    (fun b hb => hlow b (hb.trans (by decide))) s.v.gm).mpr
    ⟨oldFields, tableDisk_newest hpage, hvt.symm, by simp only [geoMap, dropCache, hvt]; rfl, by
      refine tableOk_of_empty (fun _ => none) (fun i _ => ?_) fun i f hno => absurd hno (by simp)
      have harea : itabArea oldFields.gen = itabArea0 := rfl
      have h1 : itabArea0 + itabBlocks = itabArea1 := rfl
      have h2 : 0 < itabArea0 := by decide
      rw [recordOf_congr (c := fun _ _ => 0) fun b hge hlt => ?_]
      · have hrec : recordOf (fun _ _ => 0) (itabArea oldFields.gen) i = fun _ => 0 := by
          funext j
          simp only [recordOf, itabOf, ite_self]
        rw [hrec]
        rfl
      · rw [hlow b (by omega), hzero b (by omega)]⟩
  exact ⟨x, y, hx, hy⟩

end Cut

end Xasmos.Exfs
