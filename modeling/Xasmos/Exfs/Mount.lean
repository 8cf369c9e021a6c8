import Xasmos.Exfs.OnDisk
import Xasmos.Exfs.Lifecycle

/-!
# The way of a mount to its inode table

`exfs_mount` attaches the device, looks at both superblocks and takes the newest that decodes, and
reads the inode table it names.  A request that fails hides a superblock, or ends the mount; no step
writes.  `wp_exfsMount_turns` leaves the inode loop, which is in `MountRead`.

## Main definitions

* `geoMap`, `attached` — the map and the record that a device gives.
* `seenSb` — the superblock that a mount takes; `Leads` — it fits the device.
-/

namespace Xasmos.Exfs

open Bytes Prog
open Function (update update_self update_of_ne)

variable {D : Disk} {E : ExfsError → St → Prop} {Q : Unit → St → Prop} {area d i j : ℕ}
  {es : List ExfsExtent} {f : SbFields} {s s' s'' t : St} {slice : ℕ × ℕ}

/-! ## Attaching a device -/

/-- The blocks of a volume on device `D`, as `geometry` computes them. -/
def volTotal (D : Disk) : ℕ := D.sectorCount * D.sectorSize % 2 ^ 64 / blockBytes

/-- The device has a geometry EXFS accepts. -/
structure DiskOk (D : Disk) : Prop where
  ss_pos : D.sectorSize ≠ 0
  ss_dvd : blockBytes % D.sectorSize = 0
  total_min : dataStart + 16 ≤ volTotal D
  total_max : volTotal D ≤ maxBlocks

/-- The map `gmap_init` makes for device `D`. -/
def geoMap (m : GMap) (D : Disk) : GMap :=
  dropCache { m with
    spb := blockBytes / D.sectorSize, total := volTotal D, gb := groupMax
    ngroups := (volTotal D + groupMax - 1) / groupMax
    clock := 0, slot := fun _ => 0, written := fun _ => false, free := fun _ => 0 }

/-- The state after `geometry` and `gmap_init` of device `d`. -/
def attached (s : St) (d : ℕ) : St :=
  { s with v := { s.v with
    dev := d, spb := blockBytes / (s.disks d).sectorSize, total := volTotal (s.disks d)
    gm := geoMap s.v.gm (s.disks d), gmDev := d } }

section Attach

variable {m : GMap}

theorem DiskOk.spb_mul (h : DiskOk D) : blockBytes / D.sectorSize * D.sectorSize = blockBytes :=
  Nat.div_mul_cancel (Nat.dvd_of_mod_eq_zero h.ss_dvd)

theorem DiskOk.fits (h : DiskOk D) : Fits D (blockBytes / D.sectorSize) (volTotal D) := by
  have hpos : 0 < D.sectorSize := Nat.pos_of_ne_zero h.ss_pos
  have hspb := h.spb_mul
  refine ⟨hspb, ?_, ?_⟩
  · refine Nat.le_of_mul_le_mul_right ?_ hpos
    rw [Nat.mul_assoc, hspb]
    exact le_trans (Nat.div_mul_le_self _ _) (Nat.mod_le _ _)
  · have h1 : blockBytes / D.sectorSize ≤ blockBytes := Nat.div_le_self _ _
    have h2 := Nat.mul_le_mul h.total_max h1
    refine lt_of_le_of_lt h2 ?_
    decide

theorem DiskOk.mapGeo (h : DiskOk D) (hf : D.Faultless) : MapGeo ⟨geoMap m D, D⟩ := by
  have hmax := h.total_max
  simp only [maxBlocks] at hmax
  have hmin : groupMin ≤ groupMax := by decide
  refine ⟨fun _ _ _ => hf.serves _, h.fits, hmin, le_rfl,
    lt_of_lt_of_le (by decide) h.total_min, rfl, ?_⟩
  simp only [geoMap, dropCache, groupMax, maxGroups]
  omega

theorem gmapInit_ok (h : DiskOk D) : gmapInit m D.sectorSize (volTotal D) groupMax =
    .ok (geoMap m D) := by
  have h1 := h.total_min
  have h2 := h.total_max
  simp only [maxBlocks, dataStart, itabArea1, itabArea0, itabBlocks] at h1 h2
  rw [gmapInit, if_neg (by decide), if_neg (by decide), if_neg, if_neg]
  · rfl
  · rw [not_or]
    exact ⟨h.ss_pos, not_not.mpr h.ss_dvd⟩
  · simp only [groupMax, maxGroups]
    omega

theorem wp_attach (hQ : DiskOk (s.disks d) → Q () (attached s d))
    (hE : ¬ DiskOk (s.disks d) → ∀ s', s'.disks = s.disks → E .enofs s') : (attach d).wp Q E s := by
  simp only [attach, wp_bind, wp_get, wp_failIf, modV, wp_modify]
  refine ⟨fun hss => hE (fun h => ?_) s rfl,
    fun hss => ⟨fun ht => hE (fun h => ?_) _ rfl, fun ht => ?_⟩⟩
  · rcases hss with h1 | h1
    · exact h.ss_pos h1
    · exact h1 h.ss_dvd
  · have h1 := h.total_min
    have h2 := h.total_max
    unfold volTotal at h1 h2
    omega
  · rw [not_or] at hss ht
    have hok : DiskOk (s.disks d) :=
      ⟨hss.1, not_not.mp hss.2, by unfold volTotal; omega, by unfold volTotal; omega⟩
    have hinit : gmapInit s.v.gm (s.disks d).sectorSize
        ((s.disks d).sectorCount * (s.disks d).sectorSize % 2 ^ 64 / blockBytes) groupMax =
        .ok (geoMap s.v.gm (s.disks d)) := gmapInit_ok hok
    rw [hinit]
    exact hQ hok

end Attach

/-! ## Reading -/

/-- `s'` is `s` after more requests to device `d`, none of them a write. -/
structure ReadOnly (d : ℕ) (s s' : St) : Prop where
  le : s ≤ s'
  cache : (s'.disks d).cache = (s.disks d).cache

section ReadOnly

theorem ReadOnly.refl (d : ℕ) (s : St) : ReadOnly d s s := ⟨le_refl s, rfl⟩

theorem ReadOnly.trans (h : ReadOnly d s s') (h' : ReadOnly d s' s'') : ReadOnly d s s'' :=
  ⟨le_trans h.le h'.le, h'.cache.trans h.cache⟩

theorem ReadOnly.block (h : ReadOnly d s s') : (s'.disks d).block = (s.disks d).block := by
  rw [Disk.block, Disk.block, h.cache, (h.le d).stable]

theorem ReadOnly.of_disks (h : s'.disks = s.disks) : ReadOnly d s s' :=
  ⟨fun i => by rw [h], by rw [h]⟩

theorem ReadOnly.served (s : St) : ReadOnly s.v.dev s s.served :=
  ⟨St.le_setDisk (Disk.le_served _) _, by simp [St.served, St.setDisk, St.disk, Disk.served]⟩

end ReadOnly

/-- The choice of the superblock loop: a copy that decodes and is newer wins. -/
def newer (best : Option SbFields) (page : Bytes) : Option SbFields :=
  match sbDecode page, best with
  | .error _, best => best
  | .ok f, none => some f
  | .ok f, some b => if b.gen < f.gen then some f else some b

theorem newer_cases {best : Option SbFields} {p : Bytes} (h : newer best p = some f) :
    best = some f ∨ sbDecode p = .ok f := by
  cases hp : sbDecode p with
  | error e =>
    simp only [newer, hp] at h
    exact Or.inl h
  | ok k =>
    cases best with
    | none =>
      simp only [newer, hp, Option.some.injEq] at h
      exact Or.inr (h ▸ rfl)
    | some g =>
      simp only [newer, hp] at h
      split_ifs at h
      · exact Or.inr (congrArg Except.ok (Option.some.inj h))
      · exact Or.inl h

/-- The choice between `best` and copy `k` of the superblock, if the device serves the request for
it. -/
def copySeen (D : Disk) (best : Option SbFields) (k : ℕ) : Option SbFields :=
  match D.fault (D.reqs + k) (some k) with
  | .done => newer best (D.block k)
  | .fails _ => best

/-- The superblock that a mount takes: the newest that decodes of the copies it can read. -/
def seenSb (D : Disk) : Option SbFields := (List.range 2).foldl (copySeen D) none

theorem seenSb_eq (h : ∀ k < 2, D.Serves k) :
    seenSb D = newer (newer none (D.block 0)) (D.block 1) := by
  simp [seenSb, copySeen, List.range_succ, h 0 (by decide) _, h 1 (by decide) _]

theorem fieldsOk_of_seenSb (h : seenSb D = some f) : fieldsOk f = true := by
  have hcopy : ∀ best k, copySeen D best k = some f → best = some f ∨ fieldsOk f = true := by
    intro best k hk
    rw [copySeen] at hk
    split at hk
    · exact (newer_cases hk).imp_right fun hok => (sbDecode_ok hok).1
    · exact Or.inl hk
  rcases hcopy _ 1 h with h0 | hok
  · exact (hcopy _ 0 h0).resolve_left (by simp)
  · exact hok

theorem ReadOnly.next (h : ReadOnly s.v.dev s t) (hv : t.v = s.v) :
    ReadOnly s.v.dev s t.served := by
  refine h.trans ?_
  rw [← hv]
  exact ReadOnly.served t

theorem ReadOnly.fits (h : ReadOnly s.v.dev s t) (hv : t.v = s.v)
    (hf : Fits s.disk s.v.spb s.v.total) : Fits t.disk t.v.spb t.v.total := by
  rw [St.disk, hv]
  exact hf.later (h.le _)

/-- **The superblock loop**, whichever requests fail. -/
theorem wp_bestSb (h : Fits s.disk s.v.spb s.v.total) (htot : 2 ≤ s.v.total)
    {Q : Option SbFields → St → Prop}
    (hQ : ∀ s', s'.v = s.v → ReadOnly s.v.dev s s' → Q (seenSb s.disk) s') : bestSb.wp Q E s := by
  rw [bestSb]
  refine wp_mono (wp_iterate (fun k best t => t.v = s.v ∧ ReadOnly s.v.dev s t ∧
      t.disk.reqs = s.disk.reqs + k ∧ best = (List.range k).foldl (copySeen s.disk) none)
    ⟨rfl, ReadOnly.refl _ _, rfl, rfl⟩ (fun k best t hk hI => ?_)) (fun best t _ hI => ?_)
      (fun _ _ _ he => he)
  · obtain ⟨hv, hro, hreqs, hbest⟩ := hI
    have hdisk : t.disk = t.disks s.v.dev := by rw [St.disk, hv]
    have hblock : t.disk.block = s.disk.block := by
      rw [hdisk]
      exact hro.block
    have hfault : t.disk.fault t.disk.reqs = s.disk.fault (s.disk.reqs + k) := by
      rw [hreqs, hdisk, (hro.le _).fault]
      rfl
    have hstep : ∀ r, r = copySeen s.disk best k → t.served.v = s.v ∧ ReadOnly s.v.dev s t.served ∧
        t.served.disk.reqs = s.disk.reqs + (k + 1) ∧
          r = (List.range (k + 1)).foldl (copySeen s.disk) none := by
      intro r hr
      refine ⟨hv, hro.next hv, ?_, ?_⟩
      · rw [St.served, St.setDisk_disk]
        exact congrArg (· + 1) hreqs
      · rw [hr, List.range_succ, List.foldl_append, List.foldl_cons, List.foldl_nil, hbest]
    rw [wp_bind, wp_attempt]
    refine wp_blkGot_faults (hro.fits hv h) (by rw [hv]; omega) (fun hdone => ?_) fun hfail => ?_
    · rw [hfault] at hdone
      simp only [hblock]
      cases hd : sbDecode (s.disk.block k) with
      | error e =>
        cases best with
        | none => exact hstep none (by simp [copySeen, hdone, newer, hd])
        | some b => exact hstep (some b) (by simp [copySeen, hdone, newer, hd])
      | ok f =>
        cases best with
        | none => exact hstep (some f) (by simp [copySeen, hdone, newer, hd])
        | some b =>
          simp only [wp_ite, wp_pure]
          exact ⟨fun hlt => hstep (some f) (by simp [copySeen, hdone, newer, hd, hlt]),
            fun hlt => hstep (some b) (by simp [copySeen, hdone, newer, hd, hlt])⟩
    · refine hstep best ?_
      rw [hfault] at hfail
      rw [copySeen]
      cases hout : s.disk.fault (s.disk.reqs + k) (some k) with
      | done => exact absurd hout hfail
      | fails left => rfl
  · obtain ⟨hv, hro, -, rfl⟩ := hI
    exact hQ t hv hro

/-- **The inode table** is read whole, or a request for it has failed. -/
theorem wp_readItab (h : Fits s.disk s.v.spb s.v.total) (htot : area + itabBlocks ≤ s.v.total)
    {Q : Bytes → St → Prop}
    (hQ : ∀ s', s'.v = s.v → ReadOnly s.v.dev s s' → Q (itabOf s.disk.block area) s')
    (hE : ∀ b < area + itabBlocks, ¬ s.disk.Serves b → ∀ e s', E e s') :
    (readItab area).wp Q E s := by
  rw [readItab]
  refine wp_mono (wp_iterate (fun k acc t => t.v = s.v ∧ ReadOnly s.v.dev s t ∧ acc = fun p =>
      if p < k * blockBytes then s.disk.block (area + p / blockBytes) (p % blockBytes) else 0)
    ⟨rfl, ReadOnly.refl _ _, by simp⟩ (fun k acc t hk hI => ?_)) (fun acc t _ hI => ?_)
      (fun _ _ _ he => he)
  · obtain ⟨hv, hro, hacc⟩ := hI
    have hdisk : t.disk = t.disks s.v.dev := by rw [St.disk, hv]
    rw [wp_bind]
    refine wp_blkGot_faults (hro.fits hv h) (by rw [hv]; omega) (fun _ => ⟨hv, hro.next hv, ?_⟩)
        fun hfail =>
      hE (area + k) (by omega) (fun hserves => hfail ?_) _ _
    · funext p
      rw [hacc, hdisk, hro.block]
      by_cases hp : p / blockBytes = k
      · have hlt : p < (k + 1) * blockBytes := by
          rw [← Nat.div_lt_iff_lt_mul (by decide)]
          omega
        rw [if_pos hp, if_pos hlt, hp]
        rfl
      · rw [if_neg hp]
        refine if_congr ?_ rfl rfl
        rw [← Nat.div_lt_iff_lt_mul (by decide), ← Nat.div_lt_iff_lt_mul (by decide)]
        omega
    · rw [hdisk]
      exact hserves.later (hro.le _) _
  · obtain ⟨hv, hro, rfl⟩ := hI
    exact hQ t hv hro

/-! ## Files and slices -/

theorem setFile_setFile (v : Vol) (i : ℕ) (f g : ExfsFile) :
    setFile (setFile v i f) i g = setFile v i g := by
  simp [setFile]

@[simp] theorem setFile_files (v : Vol) (i : ℕ) (f : ExfsFile) : (setFile v i f).files i = f :=
  update_self _ _ _

/-- The record of a file after one more chain block with `cnt` extents. -/
def chained (f : ExfsFile) (b cnt : ℕ) : ExfsFile :=
  { f with n := f.n + cnt, chain := update f.chain f.nchain b, nchain := f.nchain + 1 }

section Slices

/-- One more file, whatever it was, replaced in the pool's ledger by one without slots. -/
theorem PoolInv.setFile_zero {v : Vol} (h : PoolInv v slice) (hi : i < inodes)
    (hz : (v.files i).extCap = 0) {f : ExfsFile} (hf : f.extCap = 0) :
    PoolInv (setFile v i f) slice := by
  have hslots : ∀ g : ExfsFile, g.extCap = 0 → ∀ k, fileSlots g k = 0 := by
    intro g hg k
    rw [fileSlots, hg]
    split
    · rw [inSlice, if_neg (by omega)]
    · rfl
  refine h.replace hi (fun j _ hji => update_of_ne hji _ _) (fun k => ?_) fun _ hpos => ?_
  · rw [hslots _ hz, setFile_files, hslots _ hf]
    rfl
  · rw [setFile_files, hf] at hpos
    exact absurd hpos (Nat.lt_irrefl 0)

/-- The state after the list of inode `i` went into its slice. -/
def stored (t : St) (i : ℕ) (slice : ℕ × ℕ) (es : List ExfsExtent) : St where
  disks := t.disks
  v := setFile { t.v with pool := storeExts t.v.pool slice.1 es } i
    { t.v.files i with extOff := slice.1, extCap := slice.2 }

theorem stored_file (t : St) (i : ℕ) (slice : ℕ × ℕ) (es : List ExfsExtent) :
    (stored t i slice es).v.files i = { t.v.files i with extOff := slice.1, extCap := slice.2 } :=
  update_self _ _ _

theorem stored_other (hji : j ≠ i) :
    (stored t i slice es).v.files j = t.v.files j := update_of_ne hji _ _

/-- A file without slots takes the reserved slice. -/
theorem PoolInv.stored (h : PoolInv t.v slice) (hi : i < inodes) (hz : (t.v.files i).extCap = 0)
    (hu : (t.v.files i).used = true) (hn : (t.v.files i).n ≤ slice.2) (es : List ExfsExtent) :
    PoolInv (stored t i slice es).v (0, 0) := by
  refine h.give hi (fun k => ?_) (fun j _ hji => stored_other hji) rfl ?_ ?_ ?_ ?_
  · rw [fileSlots, if_pos hu, hz, inSlice, if_neg (by omega)]
  all_goals rw [stored_file]
  · exact hu
  · exact hn

/-- The lists of the other files stay what they were. -/
theorem PoolInv.exts_stored (h : PoolInv t.v slice) (hlen : es.length ≤ slice.2) (hj : j < inodes)
    (hji : j ≠ i) (hu : (t.v.files j).used = true) (hfit : (t.v.files j).n ≤ (t.v.files j).extCap) :
    exts (Exfs.stored t i slice es).v j = exts t.v j := by
  have hs : (Exfs.stored t i slice es).v.files j = t.v.files j := stored_other hji
  refine exts_congr (by rw [hs]) fun k hk => ?_
  rw [hs] at hk ⊢
  exact h.store_other hj hu hfit hlen k hk

end Slices

theorem blkRead_cache (lba count : ℕ) (c : List (ℕ × Bytes)) :
    Preserves (blkRead lba count) (fun d => d.cache = c) := by
  refine Preserves.bind (Preserves.get fun d hd => ?_) fun _ => ?_
  · exact Preserves.bind (Preserves.failIf _ _)
        (fun _ => Preserves.bind (Preserves.failIf _ _) fun _ =>
      Preserves.failIf _ _) d hd
  · refine Preserves.bind (Preserves.get fun d hd => ?_) fun r => ?_
    · rw [wp_bind, wp_modify]
      exact hd
    · cases r with
      | done => exact Preserves.get fun d hd => hd
      | fails left => exact Preserves.throw _

/-! ## The way to the inode loop -/

/-- The record before the inode loop. -/
def importVol (v : Vol) (f : SbFields) : Vol :=
  { v with
    gm := gmapImport v.gm f.slot f.free
    poolUsed := fun _ => false
    files := fun i => if i < inodes then { v.files i with
      extOff := 0, extCap := 0 } else v.files i }

/-- The record after the inode loop. -/
def mountVol (v : Vol) (f : SbFields) : Vol :=
  { v with
    gen := f.gen, itabStart := f.itab, defer := [], hint := dataStart
    broken := false, dirty := false, mounted := true }

section Mount

/-- The files own no slots before the loop. -/
theorem poolInv_import (v : Vol) (f : SbFields) : PoolInv (importVol v f) (0, 0) := by
  have hz : ∀ i < inodes, ((importVol v f).files i).extCap = 0 := fun i hi => by
    simp [importVol, hi]
  refine ⟨fun k => ?_, fun i hi _ hpos => ?_⟩
  · have hcount : poolCount (importVol v f) k = 0 := by
      refine Finset.sum_eq_zero fun i hi => ?_
      rw [fileSlots, hz i (Finset.mem_range.mp hi)]
      split
      · rw [inSlice, if_neg (by omega)]
      · rfl
    rw [hcount]
    simp [inSlice, importVol]
  · rw [hz i hi] at hpos
    exact absurd hpos (Nat.lt_irrefl 0)

/-- With the superblock `f` a mount of the device gets to the inode table. -/
structure Leads (m : GMap) (D : Disk) (f : SbFields) : Prop where
  disk : DiskOk D
  seen : seenSb D = some f
  total : f.total = volTotal D
  ngroups : f.ngroups = (geoMap m D).ngroups

/-- **The way of a mount to its inode loop**, whatever the device holds and whichever requests
fail. -/
theorem wp_exfsMount_turns (I : ℕ → St → Prop)
    (hE : ((∀ b < dataStart, (s.disks d).Serves b) → ∀ f, ¬ Leads s.v.gm (s.disks d) f) →
      ∀ e u, E e u)
    (hinit : ∀ f t, Leads s.v.gm (s.disks d) f → ReadOnly d s t →
      t.v = (attached ⟨s.disks, { s.v with mounted := false }⟩ d).v →
        I 0 ⟨t.disks, importVol t.v f⟩)
    (hstep : ∀ f k u, Leads s.v.gm (s.disks d) f → k < inodes → I k u →
      (mountInode (itabOf (s.disks d).block (itabArea f.gen)) k).wp (fun _ u' => I (k + 1) u') E u)
    (hQ : ∀ f u, Leads s.v.gm (s.disks d) f → I inodes u → Q () ⟨u.disks, mountVol u.v f⟩) :
    (exfsMount d).wp Q E s := by
  simp only [exfsMount, wp_bind, modV, wp_modify]
  refine wp_attach (fun hd => ?_) fun hno _ _ => hE (fun _ f hl => hno hl.disk) _ _
  set a : St := attached ⟨s.disks, { s.v with mounted := false }⟩ d with ha
  have hd' : DiskOk (s.disks d) := hd
  have hmin := hd'.total_min
  have hatot : a.v.total = volTotal (s.disks d) := rfl
  have hafits : Fits a.disk a.v.spb a.v.total := hd'.fits
  have hadisk : a.disk = s.disks d := rfl
  rw [wp_bind]
  refine wp_bestSb hafits (by rw [hatot]; omega) fun t hv hro => ?_
  rw [hadisk]
  cases hseen : seenSb (s.disks d) with
  | none => exact hE (fun _ f hl => absurd (hseen.symm.trans hl.seen) (by simp)) _ _
  | some f =>
    have hf : ∀ f', Leads s.v.gm (s.disks d) f' → f = f' :=
      fun f' hl => Option.some.inj (hseen.symm.trans hl.seen)
    simp only [wp_bind, wp_get, wp_failIf]
    refine ⟨fun hbad => hE (fun _ f' hl => ?_) _ _, fun hgeo => ?_⟩
    · obtain rfl := hf f' hl
      rw [hv] at hbad
      exact hbad.elim (fun h => h hl.total) fun h => h hl.ngroups
    rw [hv, not_or, not_not, not_not] at hgeo
    have hl : Leads s.v.gm (s.disks d) f := ⟨hd, hseen, hgeo.1, hgeo.2⟩
    have hitab : f.itab = itabArea f.gen :=
      ((fieldsOk_iff _).mp (fieldsOk_of_seenSb hseen)).2.2.2.2.1
    have harea := itabArea_le f.gen
    have hblock : t.disk.block = (s.disks d).block := by
      rw [St.disk, hv]
      exact hro.block
    rw [hitab]
    refine wp_readItab (hro.fits hv hafits) (by rw [hv, hatot]; omega) (fun t₁ hv₁ hro₁ => ?_)
        fun b hb hno =>
      hE (fun hserves => absurd ?_ hno)
    · rw [hblock]
      simp only [wp_bind, wp_modify]
      rw [hv] at hro₁
      have hread : ReadOnly d a t₁ := hro.trans hro₁
      have hstart : ReadOnly d s a := .of_disks rfl
      have h₀ := hinit f t₁ hl (hstart.trans hread) (hv₁.trans hv)
      refine wp_mono (wp_iterate (fun k _ u => I k u) h₀ fun k _ u hk hu => hstep f k u hl hk hu)
        (fun _ u _ hu => ?_) fun _ _ _ he => he
      rw [wp_modify]
      have hend := hQ f u hl hu
      simp only [mountVol, hitab] at hend
      exact hend
    · rw [St.disk, hv]
      exact (hserves b (by omega)).later (hro.le _)

end Mount

end Xasmos.Exfs
