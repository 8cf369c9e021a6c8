import Xasmos.Exfs.Commit
import Xasmos.Exfs.MountRead

/-!
# Format

`exfs_format` makes an empty volume in memory, with the map's slots 0 on the device, adds
the four directories and commits.  `Fresh d s e` describes the volume before that commit,
and says what of the old content is left: everything but the map's slots 0.  The commit
then writes the inode table and the superblock of generation 1, in block 1; block 0 still
holds whatever it held.
-/

namespace Xasmos.Exfs

open Bytes Prog

variable {Q : Unit → St → Prop} {b d i k : ℕ} {e e' s s' t : St}

/-- The nodes of a fresh volume. -/
def freshNode (i : ℕ) : Option Node :=
  (freshDirs[i]?).map fun name => ⟨typeDir, 0, name, [], []⟩

/-- The first `k` nodes of a fresh volume. -/
def freshUpTo (k i : ℕ) : Option Node := if i < k then freshNode i else none

/-- The volume on device `d` before the commit of `exfs_format`, with `k` directories. -/
structure Fresh (d : ℕ) (s : St) (k : ℕ) (e : St) : Prop where
  ram : RamInv e
  dev : e.v.dev = d
  gen : e.v.gen = 0
  mounted : e.v.mounted = true
  dirty : e.v.dirty = true
  node : ∀ i < inodes, nodeOf e.v i = freshUpTo k i
  marked : ∀ i < inodes, (e.v.files i).used = true → (e.v.files i).dirty = true
  defer : e.v.defer = []
  total : e.v.total = volTotal (s.disks d)
  ngroups : e.v.gm.ngroups = (geoMap s.v.gm (s.disks d)).ngroups
  used : ∀ b < e.v.total, used e.gst b = reservedBlock e.v.gm b
  slot : ∀ g < e.v.gm.ngroups, e.v.gm.slot g = 0
  fresh : ∀ g < e.v.gm.ngroups, e.disk.block (slotBlock e.v.gm g 0) = (freshBits e.v.gm g).1
  le : s ≤ e
  log : e.disk.cache = (s.disks d).cache ++ freshWrites (geoMap s.v.gm (s.disks d)) e.v.gm.ngroups
  cache : ∀ i, (e.v.gm.cache i).valid = false

section Format

variable {E : ExfsError → St → Prop}

/-- The empty volume, after `gmap_format`. -/
theorem fresh_empty (hd : DiskOk (s.disks d)) {t : GSt} (ht : FormatPost (attached s d).gst t)
    (hle : (attached s d).gst ≤ t) :
    Fresh d s 0 ⟨((attached s d).setMap t).disks, emptyVol ((attached s d).setMap t).v⟩ := by
  set e : St := ⟨((attached s d).setMap t).disks, emptyVol ((attached s d).setMap t).v⟩ with he
  have hgst : e.gst = t := St.setMap_gst (attached s d) t
  have hgm : e.v.gm = t.map := rfl
  have hunused : ∀ i < inodes, (e.v.files i).used = false := by
    intro i hi
    have hfile : e.v.files i =
        { s.v.files i with used := false, extOff := 0, extCap := 0 } := if_pos hi
    rw [hfile]
  have hnone : ∀ i < inodes, nodeOf e.v i = none := fun i hi => nodeOf_unused (hunused i hi)
  have htotal : t.map.total = volTotal (s.disks d) := ht.total
  have hmapTotal : (attached s d).gst.map.total = volTotal (s.disks d) := rfl
  have hgb : t.map.gb = groupMax := ht.gb
  have hres : ∀ b, reservedBlock (attached s d).gst.map b = reservedBlock e.v.gm b := by
    intro b
    rw [reservedBlock, reservedBlock, hgm, ht.gb]
  have hused : ∀ b < e.v.total, Exfs.used e.gst b = reservedBlock e.v.gm b := by
    intro b hb
    rw [hgst, ht.used b hb, hres]
  have hdisk : e.disk = t.disk := by
    have h1 : e.disk = e.gst.disk := rfl
    rw [h1, hgst]
  have hmin := hd.total_min
  have hmap : MapInv e := by
    refine ⟨rfl, ?_, ?_, ?_, hd.total_min, hd.total_max, ?_, ?_⟩
    · rw [hgm]; exact ht.spb
    · rw [hgm]; exact ht.total
    · rw [hgm]; exact hgb
    · exact le_trans (Nat.le_add_right _ 16) hd.total_min
    · rw [hgst]; exact ht.inv
  have hown : ∀ b, owned e.v b = 0 := by
    intro b
    have hdefer : e.v.defer = [] := rfl
    rw [owned, tableOwn_congr (T := fun _ => none) hnone, hdefer]
    simp [tableOwn, nodeOwn]
  refine ⟨⟨⟨hmap, rfl, fun b => ?_, ⟨fun k => ?_, fun i hi hu => ?_⟩, fun i hi hu => ?_,
    fun x hx => absurd hx List.not_mem_nil⟩, fun i hi hu => ?_, fun _ _ _ => rfl, fun h => ?_⟩,
      rfl, rfl,
    rfl, rfl, hnone, fun i hi hu => ?_, rfl, rfl, ?_, hused, fun g hg => ?_, fun g hg => ?_, ?_,
      ?_, ?_⟩
  · rw [hown, taken]
    by_cases hb : b < e.v.total
    · rw [hused b hb]
      cases reservedBlock e.v.gm b <;> simp
    · simp [hb]
  · have hzero : poolCount e.v k = 0 := Finset.sum_eq_zero fun i hi => by
      rw [fileSlots, hunused i (Finset.mem_range.mp hi)]
      rfl
    have hfree : e.v.poolUsed k = false := rfl
    rw [hzero, hfree]
    simp [inSlice]
  · rw [hunused i hi] at hu
    exact absurd hu (by simp)
  · rw [hunused i hi] at hu
    exact absurd hu (by simp)
  · rw [hunused i hi] at hu
    exact absurd hu (by simp)
  · exact absurd h (by simp [he, emptyVol])
  · rw [hunused i hi] at hu
    exact absurd hu (by simp)
  · rw [hgm]; exact ht.ngroups
  · rw [hgm] at hg ⊢
    exact ht.slot g (ht.ngroups ▸ hg)
  · rw [hdisk, hgm]
    rw [hgm] at hg
    have hw := ht.written g (ht.ngroups ▸ hg)
    rw [slotBlock_congr ht.gb, hw]
    have hval : ∀ g, validBits t.map g = validBits (attached s d).gst.map g := fun g =>
      validBits_congr ht.gb ht.total g
    rw [freshBits, freshBits, hval, ht.gb]
  · exact St.le_setDisk (s := attached s d) hle _
  · rw [hdisk, hgm, ht.ngroups]
    exact ht.log
  · exact ht.cache

/-- Only the first slots of the groups are written. -/
theorem Fresh.wrote (h : Fresh d s k e) :
    Disk.WroteOnly (fun b => ∃ g < e.v.gm.ngroups, b = slotBlock e.v.gm g 0)
      (s.disks d) e.disk := by
  refine ⟨_, h.log, fun w hw => ?_⟩
  obtain ⟨g, hg, rfl⟩ := List.mem_map.mp hw
  exact ⟨g, List.mem_range.mp hg, slotBlock_congr h.ram.map.gb.symm g 0⟩

theorem freshDirs_ok : ∀ name ∈ freshDirs, name.length ≤ nameMax ∧ ∀ c ∈ name, c ≠ 0 := by
  simp [freshDirs, nameMax]

theorem nodeOf_ne_none {v : Vol} (h : (v.files i).used = true) : nodeOf v i ≠ none := by
  rw [nodeOf_used h]
  exact Option.some_ne_none _

/-- The first free inode of a volume with `k` directories is inode `k`. -/
theorem freshUpTo_first (hk : k < freshDirs.length) (hi : freshUpTo k i = none)
    (hfirst : ∀ j < i, freshUpTo k j ≠ none) : i = k := by
  rcases Nat.lt_trichotomy i k with h | h | h
  · have hlt : i < freshDirs.length := lt_trans h hk
    rw [freshUpTo, if_pos h, freshNode, List.getElem?_eq_getElem hlt] at hi
    exact absurd hi (by simp)
  · exact h
  · exact absurd (if_neg (lt_irrefl k)) (hfirst k h)

/-- One more directory. -/
theorem Fresh.add (h : Fresh d s k e) {name : List UInt8} (hname : freshDirs[k]? = some name)
    (hc : Changed k e e') (hn : nodeOf e'.v k = some ⟨typeDir, 0, name, [], []⟩)
    (hdisks : e'.disks = e.disks) (hgm : e'.v.gm = e.v.gm)
    (hcore : e'.v.core = { e.v.core with dirty := true }) : Fresh d s (k + 1) e' := by
  have hdev : e'.v.dev = e.v.dev := congrArg VolCore.dev hcore
  have hgdev : e'.v.gmDev = e.v.gmDev := congrArg VolCore.gmDev hcore
  have htot : e'.v.total = e.v.total := congrArg VolCore.total hcore
  have hgst : e'.gst = e.gst := by rw [St.gst, St.gst, hgm, hdisks, hgdev]
  have hdisk : e'.disk = e.disk := by rw [St.disk, St.disk, hdisks, hdev]
  refine ⟨hc.inv, hdev.trans h.dev, (congrArg VolCore.gen hcore).trans h.gen,
    (congrArg VolCore.mounted hcore).trans h.mounted, congrArg VolCore.dirty hcore, fun i hi => ?_,
    fun i hi hu => ?_, (congrArg VolCore.defer hcore).trans h.defer, htot.trans h.total, ?_,
    fun b hb => ?_, ?_, ?_, ?_, ?_, ?_⟩
  · by_cases hik : i = k
    · rw [hik, hn, freshUpTo, if_pos (Nat.lt_succ_self k), freshNode, hname]
      rfl
    · rw [hc.other i hi hik, h.node i hi, freshUpTo, freshUpTo]
      by_cases hlt : i < k
      · rw [if_pos hlt, if_pos (by omega)]
      · rw [if_neg hlt, if_neg (by omega)]
  · by_contra hd
    obtain ⟨h1, h2⟩ := hc.evolves.clean i hi (by simpa using hd)
    have hue : (e.v.files i).used = true := used_of_nodeOf (h2 ▸ nodeOf_ne_none hu)
    rw [h.marked i hi hue] at h1
    exact absurd h1 (by simp)
  · rw [hgm]; exact h.ngroups
  · rw [hgst, hgm]; exact h.used b (htot ▸ hb)
  · rw [hgm]; exact h.slot
  · rw [hgm, hdisk]; exact h.fresh
  · exact le_trans h.le fun j => by rw [hdisks]
  · rw [hgm, hdisk]; exact h.log
  · rw [hgm]; exact h.cache

/-- **The directories of a fresh volume** are all made. -/
theorem wp_makeDirs {names : List (List UInt8)} (h : Fresh d s k e)
    (hnames : freshDirs.drop k = names) {Q : Unit → St → Prop}
    (hQ : ∀ e', Fresh d s freshDirs.length e' → Q () e') : (makeDirs names).wp Q E e := by
  induction names generalizing k e with
  | nil =>
    refine hQ e ?_
    have hlen : freshDirs.length ≤ k := List.drop_eq_nil_iff.mp hnames
    have hall : ∀ i, freshUpTo freshDirs.length i = freshUpTo k i := by
      intro i
      by_cases hi : i < freshDirs.length
      · rw [freshUpTo, freshUpTo, if_pos hi, if_pos (by omega)]
      · rw [freshUpTo, freshUpTo, if_neg hi]
        split
        · rw [freshNode, List.getElem?_eq_none (by omega)]
          rfl
        · rfl
    exact { h with node := fun i hi => by rw [hall]; exact h.node i hi }
  | cons name names ih =>
    have hk : k < freshDirs.length := by
      by_contra hno
      rw [List.drop_eq_nil_iff.mpr (not_lt.mp hno)] at hnames
      exact absurd hnames (by simp)
    rw [List.drop_eq_getElem_cons hk] at hnames
    obtain ⟨hname, hrest⟩ := List.cons.inj hnames
    have hget : freshDirs[k]? = some name := by rw [List.getElem?_eq_getElem hk, hname]
    obtain ⟨hlen, hnul⟩ := freshDirs_ok name (hname ▸ List.getElem_mem hk)
    rw [makeDirs, wp_bind, wp_attempt]
    refine wp_makeNode h.ram hlen hnul (by decide)
      (fun i e' hi hnone hfirst hc hn hdisks hgm hcore => ?_) fun hfull => ?_
    · rw [h.node i hi] at hnone
      have hik : i = k := freshUpTo_first hk hnone fun j hj => by
        rw [← h.node j (lt_trans hj hi)]
        exact hfirst j hj
      subst hik
      exact ih (h.add hget hc hn hdisks hgm hcore) hrest
    · have hlt : k < inodes := lt_trans hk (by decide)
      have := hfull k hlt
      rw [h.node k hlt, freshUpTo, if_neg (lt_irrefl k)] at this
      exact absurd rfl this

theorem Fresh.disk_le (h : Fresh d s k e) : s.disks d ≤ e.disk := by
  rw [St.disk, h.dev]
  exact h.le d

theorem Fresh.cleanChains (h : Fresh d s k e) : CleanChains e := by
  intro i hi hu hd
  rw [h.marked i hi hu] at hd
  exact absurd hd (by simp)

/-- The files of a fresh volume are empty. -/
theorem Fresh.n_eq (h : Fresh d s k e) (hi : i < inodes) (hu : (e.v.files i).used = true) :
    (e.v.files i).n = 0 := by
  have hn := h.node i hi
  have hexts : exts e.v i = [] := by
    rw [nodeOf_used hu, freshUpTo] at hn
    split at hn
    · rw [freshNode] at hn
      obtain ⟨name, _, hf⟩ := Option.map_eq_some_iff.mp hn.symm
      exact (congrArg Node.exts hf).symm
    · exact absurd hn (by simp)
  have := congrArg List.length hexts
  simpa [exts] using this

/-- The nodes after the commit of `exfs_format`. -/
theorem Fresh.committed_node (h : Fresh d s freshDirs.length e) (hc : Committed e s')
    (hi : i < inodes) : nodeOf s'.v i = freshNode i := by
  have hn := h.node i hi
  have hfresh : freshUpTo freshDirs.length i = freshNode i := by
    rw [freshUpTo]
    split
    · rfl
    · rename_i hlt
      rw [freshNode, List.getElem?_eq_none (not_lt.mp hlt), Option.map_none]
  rw [hfresh] at hn
  cases hu : (e.v.files i).used with
  | false =>
    rw [← hn, nodeOf_unused hu, nodeOf_unused]
    rw [hc.file i hi]
    exact hu
  | true =>
    rw [hc.nodeOf_short hi (by rw [h.n_eq hi hu]; exact Nat.zero_le _), hn, freshNode,
      Option.map_map]
    rfl

/-- A new volume in memory: nodes without extents, nothing deferred, an empty cache.  Nothing
was asked of a device since `e`. -/
structure Newborn (e t : St) : Prop where
  disks : t.disks = e.disks
  dev : t.v.dev = e.v.dev
  spb : t.v.spb = e.v.spb
  total : t.v.total = e.v.total
  mounted : t.v.mounted = true
  broken : t.v.broken = false
  dirty : t.v.dirty = true
  defer : t.v.defer = []
  empty : ∀ i < inodes, (t.v.files i).used = true → (t.v.files i).n = 0
  cache : ∀ i, (t.v.gm.cache i).valid = false

/-- Assigning a file without extents keeps the volume new. -/
theorem Newborn.setFile (h : Newborn e t) {f : ExfsFile} (hf : f.used = true → f.n = 0) :
    Newborn e ⟨t.disks, Exfs.setFile t.v i f⟩ where
  disks := h.disks
  dev := h.dev
  spb := h.spb
  total := h.total
  mounted := h.mounted
  broken := h.broken
  dirty := h.dirty
  defer := h.defer
  empty j hj hu := by
    by_cases hji : j = i
    · subst hji
      rw [setFile_files] at hu ⊢
      exact hf hu
    · have hfile : (Exfs.setFile t.v i f).files j = t.v.files j := Function.update_of_ne hji _ _
      rw [hfile] at hu ⊢
      exact h.empty j hj hu
  cache := h.cache

/-- No chain is written. -/
theorem Newborn.commitChains (h : Newborn e t) :
    commitChains.wp (fun _ t' => Newborn e t') E t := by
  rw [Exfs.commitChains]
  refine wp_iterate (fun _ _ t' => Newborn e t') h fun i _ u hi hu => ?_
  simp only [wp_bind, wp_get, wp_ite, wp_pure]
  refine ⟨fun hboth => ?_, fun _ => hu⟩
  rw [Bool.and_eq_true] at hboth
  have hn : chainNeed (u.v.files i).n = 0 := by rw [hu.empty i hi hboth.1]; rfl
  rw [hn]
  have htake : takeChain i 0 = pure () := rfl
  have hwrite : writeChain i 0 = pure () := rfl
  rw [htake, hwrite]
  simp only [wp_pure, wp_bind, modV, wp_modify]
  exact hu.setFile fun hused => hu.empty i hi hused

/-- No bitmap is written. -/
theorem Newborn.flush (h : Newborn e t) :
    (onMap gmapFlush).wp (fun r t' => r = .ok () ∧ Newborn e t') E t := by
  rw [wp_onMap, gmapFlush]
  have ht : t.setMap t.gst = t := by
    simp [St.setMap, St.setDisk, St.gst]
  refine wp_mono (wp_iterate (fun _ _ u => u = t.gst) rfl fun i _ u _ hu => ?_)
    (fun _ u _ hu => ?_) fun _ _ _ he => he
  · subst hu
    have hv : (t.gst.map.cache i).valid = false := h.cache i
    simp [hv]
  · rw [hu, ht]
    exact ⟨rfl, h⟩

/-- A new volume needs no chain block. -/
theorem Newborn.need (h : Newborn e t) : tooLong t.v = false ∧ commitNeed t.v = 0 := by
  have hn : ∀ i ∈ List.range inodes, ((t.v.files i).used && (t.v.files i).dirty) = true →
      chainNeed (t.v.files i).n = 0 := by
    intro i hi hu
    rw [Bool.and_eq_true] at hu
    rw [h.empty i (List.mem_range.mp hi) hu.1]
    rfl
  constructor
  · rw [tooLong, List.any_eq_false]
    intro i hi hbad
    rw [Bool.and_eq_true, decide_eq_true_iff] at hbad
    rw [hn i hi hbad.1] at hbad
    exact absurd hbad.2 (Nat.not_lt_zero _)
  · rw [commitNeed]
    refine List.sum_eq_zero fun k hk => ?_
    obtain ⟨i, hi, rfl⟩ := List.mem_map.mp hk
    split
    · rename_i hu
      exact hn i hi hu
    · rfl

/-- **The commit of a new volume** goes straight to the inode table and the superblock. -/
theorem Newborn.wp_commit (h : Newborn e t) (hQ : ∀ t', Newborn e t' → (do
      writeItab ((t.v.gen + 1) % 2 ^ 64)
      writeSb ((t.v.gen + 1) % 2 ^ 64)
      modV fun v => finishCommit v ((t.v.gen + 1) % 2 ^ 64) : FsProg Unit).wp Q E t') :
    exfsCommit.wp Q E t := by
  obtain ⟨hlong, hneed⟩ := h.need
  simp only [exfsCommit, requireLive, wp_bind, wp_get, wp_failIf, h.mounted, h.broken, h.dirty,
    hlong, hneed]
  refine ⟨by simp, fun _ => ⟨by simp, fun _ => ?_⟩⟩
  rw [if_neg (by simp)]
  simp only [wp_bind, wp_failIf]
  refine ⟨by simp, fun _ => ⟨by simp, fun _ => ?_⟩⟩
  refine wp_mono h.commitChains (fun _ t₁ _ h₁ => ?_) fun _ _ _ he => he
  have happly : applyDeferred.wp (fun _ t' => Newborn e t') (fun _ _ => False) t₁ := by
    simp only [applyDeferred, wp_bind, wp_get, h₁.defer, applyDeferred.releaseAll, wp_pure, modV,
      wp_modify]
    exact { h₁ with defer := rfl }
  rw [wp_bind]
  refine wp_orBreak (wp_mono happly (fun _ t₂ _ h₂ => ?_) fun _ _ _ he => he.elim)
  rw [wp_bind]
  refine wp_mono h₂.flush (fun r t₃ _ h₃ => ?_) fun _ _ _ he => he
  obtain ⟨rfl, h₃⟩ := h₃
  exact hQ t₃ h₃

theorem Fresh.newborn (h : Fresh d s k e) : Newborn e e :=
  ⟨rfl, rfl, rfl, rfl, h.mounted, h.ram.broken, h.dirty, h.defer, fun _ => h.n_eq, h.cache⟩

/-- Since `t` the record has stayed, and only blocks before the data were written. -/
structure WroteLow (t u : St) : Prop where
  vol : u.v = t.v
  wrote : Disk.WroteOnly (· < dataStart) t.disk u.disk
  le : t.disk ≤ u.disk

/-- The commit of a fresh volume writes nothing past the inode tables. -/
theorem wp_exfsCommit_calm (h : Fresh d s k e) (hdisk : e.disk.Faultless) :
    exfsCommit.wp (fun _ s' => Disk.WroteOnly (· < dataStart) e.disk s'.disk)
      (fun _ _ => True) e := by
  have hmin : dataStart ≤ e.v.total := by
    have := h.ram.map.total_ge
    omega
  refine h.newborn.wp_commit fun t ht => ?_
  have hfits := h.ram.map.fits
  have hdt : t.disk = e.disk := by rw [St.disk, St.disk, ht.disks, ht.dev]
  rw [← hdt, ← ht.spb, ← ht.total] at hfits
  rw [← ht.total] at hmin
  rw [← hdt] at hdisk ⊢
  have hput : ∀ {u : St} {b : ℕ} {p : Bytes}, WroteLow t u → b < dataStart →
      (orBreak .eio (blkPut b p)).wp (fun _ u' => WroteLow t u') (fun _ _ => True) u := by
    intro u b p hu hb
    refine wp_orBreak (wp_blkPut (by rw [hu.vol]; exact hfits.later hu.le) (hdisk.later hu.le)
      (by rw [hu.vol]; omega) ⟨hu.vol, ?_, ?_⟩)
    · rw [St.put, St.setDisk_disk]
      exact hu.wrote.trans ((Disk.wroteOnly_put _ _ _).mono fun x hx => hx ▸ hb)
    · rw [St.put, St.setDisk_disk]
      exact le_trans hu.le (le_trans (Disk.le_served _) (Disk.le_put _ _ _))
  have harea := itabArea_le ((e.v.gen + 1) % 2 ^ 64)
  simp only [wp_bind, writeItab, wp_get]
  refine wp_mono (wp_iterate (fun _ _ u => WroteLow t u) ⟨rfl, Disk.WroteOnly.refl _ _, le_rfl⟩
    fun b _ u hb hu => hput hu (by omega)) (fun _ u _ hu => ?_) fun _ _ _ _ => trivial
  simp only [writeSb, wp_bind, wp_get]
  cases sbEncode (commitFields u.v ((e.v.gen + 1) % 2 ^ 64)) with
  | error _ => trivial
  | ok page =>
    exact wp_mono (hput hu (mod_two_lt _)) (fun _ _ _ hq => hq.wrote) fun _ _ _ _ => trivial

/-- **`exfs_format`** makes a fresh volume and commits it. -/
theorem wp_exfsFormat_fresh (hf : (s.disks d).Faultless)
    (hQ : ∀ e, DiskOk (s.disks d) → Fresh d s freshDirs.length e → exfsCommit.wp Q E e)
    (hE : ¬ DiskOk (s.disks d) → ∀ err s', E err s') : (exfsFormat d).wp Q E s := by
  rw [exfsFormat, wp_bind]
  refine wp_attach (fun hd => ?_) fun hno s' _ => hE hno _ s'
  rw [wp_bind, wp_onMap]
  refine wp_mono (wp_gmapFormat (hd.mapGeo hf) ⟨rfl, rfl⟩
    (Q := fun _ t => FormatPost (attached s d).gst t)
    (E := fun _ _ => False) fun t ht => ht) (fun _ t hle ht => ?_) (fun _ _ _ hf => hf.elim)
  have h0 := fresh_empty hd ht hle
  simp only [wp_bind, modV, wp_modify]
  have h1 : freshDirs.drop 0 = freshDirs := List.drop_zero
  refine wp_makeDirs h0 h1 ?_
  intro e he
  exact hQ e hd he

/-- **`exfs_format`** of a device it accepts. -/
theorem wp_exfsFormat (hf : (s.disks d).Faultless)
    (hQ : ∀ e s', DiskOk (s.disks d) → Fresh d s freshDirs.length e → Committed e s' → Q () s')
    (hE : ¬ DiskOk (s.disks d) → ∀ err s', E err s') : (exfsFormat d).wp Q E s := by
  refine wp_exfsFormat_fresh hf (fun e hd he => ?_) hE
  refine wp_exfsCommit he.ram he.cleanChains (hf.later he.disk_le)
    (fun s' _ _ hc => hQ e s' hd he hc)
    (fun _ hdirty => ?_) fun err hfail => ?_
  · rw [he.dirty] at hdirty
    exact absurd hdirty (by simp)
  · rw [he.mounted, he.newborn.need.2] at hfail
    rcases hfail with hfail | hfail
    · exact absurd hfail.1 (by simp)
    · exact absurd hfail.2.1 (Nat.not_lt_zero _)

/-- A format of a device it accepts succeeds. -/
theorem exists_format (hf : (s.disks d).Faultless) (hd : DiskOk (s.disks d)) :
    ∃ s', (exfsFormat d).run s = (.ok (), s') := by
  obtain ⟨_, s', hrun, _⟩ := (wp_exfsFormat hf (Q := fun _ _ => True) (E := fun _ _ => False)
    (fun _ _ _ _ _ => trivial) fun hno => absurd hd hno).exists_ok
  exact ⟨s', hrun⟩

end Format

end Xasmos.Exfs
