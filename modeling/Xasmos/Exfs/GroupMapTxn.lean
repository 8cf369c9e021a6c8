import Xasmos.Exfs.GroupMapOps

/-!
# Ending a transaction of the map, and starting from a device

`gmap_flush`, `gmap_export` and `gmap_commit` make the pending slots the committed
ones without changing a bit.  `gmap_format` and `gmap_import` are the two ways a map
begins: from fresh bitmaps in slot 0 of every group, or from the slot and free tables
of a superblock.
-/

namespace Xasmos.Exfs

open Bytes Prog

variable {E : GmapError → GSt → Prop} {Q : Unit → GSt → Prop} {b g t : ℕ} {free slot : ℕ → ℕ}
  {s s' : GSt}

section Commit

/-- **`gmap_flush`** leaves no dirty entry and changes no bit. -/
theorem wp_gmapFlush (h : GInv s)
    (hQ : ∀ s', GInv s' → Same s s' → (∀ i g, ¬ DirtyAt s'.map i g) → Q () s') :
    gmapFlush.wp Q E s := by
  rw [gmapFlush]
  -- the entries below the loop index are clean
  refine wp_mono (wp_iterate (fun k _ t => GInv t ∧ Same s t ∧
      ∀ i < k, ∀ g, ¬ DirtyAt t.map i g)
    ⟨h, Same.refl s, fun i hi => absurd hi (Nat.not_lt_zero i)⟩ (fun k _ t hk hI => ?_))
    (fun _ t _ hI => ?_) (fun e t _ he => he)
  · obtain ⟨hinv, hsame, hclean⟩ := hI
    simp only [wp_bind, wp_get, wp_ite, wp_pure]
    refine ⟨fun hd => ?_, fun hd => ?_⟩
    · rw [Bool.and_eq_true] at hd
      have hda : DirtyAt t.map k (t.map.cache k).g := ⟨hk, hd.1, hd.2, rfl⟩
      apply wp_flushOne hinv.toMapOk hda
      refine ⟨hinv.flushed hda, hsame.trans (same_flushed hinv.toMapOk hda), fun i hi g hdi => ?_⟩
      have hne : i ≠ k := by
        rintro rfl
        exact not_dirty_flushed t i g hdi
      exact hclean i (by omega) g (dirtyAt_of_flushed hdi)
    · refine ⟨hinv, hsame, fun i hi g hdi => ?_⟩
      by_cases hik : i = k
      · subst hik
        exact hd (by rw [hdi.2.1, hdi.2.2.1]; rfl)
      · exact hclean i (by omega) g hdi
  · exact hQ t hI.1 hI.2.1 fun i g hd => hI.2.2 i hd.1 g hd

/-- With no dirty entry the bits of every group are on the device. -/
theorem Coherent.curBits_flush (h : Coherent s) (hc : ∀ i g, ¬ DirtyAt s.map i g) (g : ℕ) :
    curBits s g = s.disk.block (slotBlock s.map g (newestSlot s.map g)) :=
  h.curBits_disk fun i => hc i g

/-- The state after `gmap_commit`. -/
def mapCommitted (s : GSt) : GSt := { s with map := gmapCommit s.map }

theorem newestSlot_commit (m : GMap) (hg : g < m.ngroups) :
    newestSlot (gmapCommit m) g = newestSlot m g := by
  simp [gmapCommit, newestSlot, hg]

theorem curBits_committed (hg : g < s.map.ngroups) : curBits (mapCommitted s) g = curBits s g := by
  have hhit : cacheHit (mapCommitted s).map g = cacheHit s.map g := rfl
  have hnew : newestSlot (mapCommitted s).map g = newestSlot s.map g := newestSlot_commit _ hg
  unfold curBits
  rw [hhit, hnew]
  rfl

theorem Coherent.committed (h : Coherent s) : Coherent (mapCommitted s) := by
  refine ⟨h.gb_min, ?_, h.one_entry, h.entry_lt, ?_⟩
  · intro g hg
    have hslot : (mapCommitted s).map.slot g = newestSlot s.map g := if_pos hg
    rw [hslot]
    exact h.newest_le hg
  · intro i hi hv hd
    have hg : ((mapCommitted s).map.cache i).g < s.map.ngroups := h.entry_lt i hi hv
    have hnew : newestSlot (mapCommitted s).map ((mapCommitted s).map.cache i).g =
        newestSlot s.map ((mapCommitted s).map.cache i).g := newestSlot_commit _ hg
    rw [hnew]
    exact h.clean i hi hv hd

/-- **`gmap_commit`** changes no bit. -/
theorem GInv.committed (h : GInv s) (hc : ∀ i g, ¬ DirtyAt s.map i g) : GInv (mapCommitted s) := by
  have hco := h.toCoherent.committed
  refine ⟨h.toMapGeo.mapOk le_rfl rfl rfl rfl rfl hco ?_ ?_, ?_⟩
  · intro g hg hor
    have hg' : g < s.map.ngroups := hg
    have hslot : (mapCommitted s).map.slot g = newestSlot s.map g := if_pos hg
    have hwr : (mapCommitted s).map.written g = false := if_pos hg
    rw [hslot, hwr] at hor
    rcases hor with h1 | h1 | h1
    · have hs := h.slot_le g hg'
      by_cases hw : s.map.written g = true
      · exact h.two_slots g hg' (Or.inr (Or.inl hw))
      · rw [newestSlot, if_neg hw] at h1
        exact h.two_slots g hg' (Or.inl h1)
    · exact absurd h1 (by simp)
    · obtain ⟨i, hi⟩ := h1
      exact absurd hi (hc i g)
  · intro g hg
    have hng : g < s.map.ngroups := hg
    rw [curBits_committed hng]
    exact h.free_eq g hg
  · intro g hg
    have hng : g < s.map.ngroups := hg
    rw [curBits_committed hng]
    exact h.reserved g hg

end Commit

/-! ## Starting from a superblock -/

section Import

/-- What the content of a device and a pair of tables must satisfy to be a map. -/
structure MapOn (m : GMap) (c : ℕ → Bytes) (slot free : ℕ → ℕ) : Prop where
  slot_le : ∀ g < m.ngroups, slot g ≤ 1
  two_slots : ∀ g < m.ngroups, slot g = 1 → slotBlock m g 1 < m.total
  free_eq : ∀ g < m.ngroups, free g = clearBits (c (slotBlock m g (slot g))) (validBits m g)
  reserved : ∀ g < m.ngroups, ∀ i < reservedBits g,
    bitOf (c (slotBlock m g (slot g))) i = true

/-- A map on a device without faults, before it is imported. -/
structure Importable (s : GSt) (slot free : ℕ → ℕ) : Prop extends
    MapGeo s, MapOn s.map s.disk.block slot free

/-- The state after `gmap_import`. -/
def imported (s : GSt) (slot free : ℕ → ℕ) : GSt := { s with map := gmapImport s.map slot free }

/-- An empty cache agrees with any device. -/
theorem coherent_of_empty (hmin : groupMin ≤ s.map.gb)
    (hslot : ∀ g < s.map.ngroups, s.map.slot g ≤ 1) (hempty : ∀ i, (s.map.cache i).valid = false) :
    Coherent s := by
  have hno : ∀ i, (s.map.cache i).valid ≠ true := by simp [hempty]
  exact ⟨hmin, hslot, fun i _ _ _ hv => absurd hv (hno i), fun i _ hv => absurd hv (hno i),
    fun i _ hv => absurd hv (hno i)⟩

theorem dropCache_hit (m : GMap) (g : ℕ) : cacheHit (dropCache m) g = none := by
  rw [cacheHit, List.find?_eq_none]
  intro i _
  simp [dropCache]

theorem imported_slot (hs : slot g ≤ 1) (hg : g < s.map.ngroups) :
    (imported s slot free).map.slot g = slot g := by
  simp only [imported, gmapImport, dropCache, if_pos hg]
  split <;> omega

/-- A fresh cache reads every group from the slot the table names. -/
theorem curBits_imported (hs : slot g ≤ 1) (hg : g < s.map.ngroups) :
    curBits (imported s slot free) g = s.disk.block (slotBlock s.map g (slot g)) := by
  have hhit : cacheHit (imported s slot free).map g = none := dropCache_hit _ g
  have hwr : (imported s slot free).map.written g = false := by
    simp [imported, gmapImport, dropCache, hg]
  rw [curBits, hhit]
  simp only [newestSlot, hwr, imported_slot hs hg]
  rfl

/-- **`gmap_import`** of sound tables is a sound map. -/
theorem Importable.inv (h : Importable s slot free) : GInv (imported s slot free) := by
  have hinvalid : ∀ i, ((imported s slot free).map.cache i).valid = false := fun _ => rfl
  have hco : Coherent (imported s slot free) := coherent_of_empty h.gb_min
    (fun g hg => (imported_slot (s := s) (h.slot_le g hg) hg).trans_le (h.slot_le g hg)) hinvalid
  refine ⟨h.toMapGeo.mapOk le_rfl rfl rfl rfl rfl hco ?_ ?_, ?_⟩
  · intro g hg hor
    have hng : g < s.map.ngroups := hg
    rw [imported_slot (h.slot_le g hg) hng] at hor
    rcases hor with h1 | h1 | h1
    · exact h.two_slots g hg h1
    · simp [imported, gmapImport, dropCache, hng] at h1
    · obtain ⟨i, _, hv, _⟩ := h1
      exact absurd hv (by rw [hinvalid]; simp)
  · intro g hg
    have hng : g < s.map.ngroups := hg
    rw [curBits_imported (h.slot_le g hg) hng]
    simp only [imported, gmapImport, dropCache, if_pos hng]
    exact h.free_eq g hng
  · intro g hg
    have hng : g < s.map.ngroups := hg
    rw [curBits_imported (h.slot_le g hg) hng]
    exact h.reserved g hng

end Import

/-! ## Starting from fresh bitmaps -/

section Format

theorem foldl_bitPut (n : ℕ) (p : Bytes) (i : ℕ) :
    bitOf ((List.range n).foldl (fun b i => bitPut b i true) p) i =
      (decide (i < n) || bitOf p i) := by
  induction n with
  | zero => simp
  | succ n ih =>
    rw [List.range_succ, List.foldl_append, List.foldl_cons, List.foldl_nil, bitOf_bitPut, ih]
    by_cases h : i = n
    · simp [h]
    · rw [if_neg h, decide_eq_decide.mpr (show i < n + 1 ↔ i < n by omega)]

/-- A fresh bitmap has exactly the reserved blocks and the bits past the end set, and
comes with its free count. -/
theorem freshBits_spec (m : GMap) (g : ℕ) (hv : validBits m g ≤ m.gb) :
    (∀ i < m.gb, bitOf (freshBits m g).1 i =
      (decide (i < reservedBits g) || decide (validBits m g ≤ i))) ∧
    (∀ i < reservedBits g, bitOf (freshBits m g).1 i = true) ∧
    (freshBits m g).2 = clearBits (freshBits m g).1 (validBits m g) := by
  -- the bitmap before the second loop
  set base := (List.range (reservedBits g)).foldl (fun b i => bitPut b i true)
    (fun _ => (0 : UInt8))
    with hbase
  have hbit : ∀ i, bitOf base i = decide (i < reservedBits g) := by
    intro i
    rw [hbase, foldl_bitPut]
    simp [bitOf]
  set step : Bytes × ℕ → ℕ → Bytes × ℕ := fun r i =>
    if validBits m g ≤ i then (bitPut r.1 i true, r.2)
    else if bitOf r.1 i then r else (r.1, r.2 + 1) with hstep
  have hloop : ∀ n, (∀ i, bitOf ((List.range n).foldl step (base, 0)).1 i =
        (bitOf base i || decide (validBits m g ≤ i ∧ i < n))) ∧
      ((List.range n).foldl step (base, 0)).2 = clearBits base (min n (validBits m g)) := by
    intro n
    induction n with
    | zero => simp [clearBits]
    | succ n ih =>
      rw [List.range_succ, List.foldl_append, List.foldl_cons, List.foldl_nil]
      generalize (List.range n).foldl step (base, 0) = r at ih
      simp only [hstep]
      obtain ⟨hbits, hcount⟩ := ih
      by_cases hvn : validBits m g ≤ n
      · rw [if_pos hvn]
        refine ⟨fun i => ?_, ?_⟩
        · rw [bitOf_bitPut, hbits i]
          by_cases hin : i = n
          · simp [hin, hvn]
          · rw [if_neg hin, decide_eq_decide.mpr
              (show (validBits m g ≤ i ∧ i < n + 1) ↔ (validBits m g ≤ i ∧ i < n) by omega)]
        · rw [hcount, show min n (validBits m g) = validBits m g by omega,
            show min (n + 1) (validBits m g) = validBits m g by omega]
      · rw [if_neg hvn]
        have hmin : min n (validBits m g) = n := by omega
        have hmin' : min (n + 1) (validBits m g) = n + 1 := by omega
        have hsucc : clearBits base (n + 1) =
            clearBits base n + if bitOf base n = false then 1 else 0 := Nat.count_succ _ _
        have hn : bitOf r.1 n = bitOf base n := by
          rw [hbits n, decide_eq_false (by omega), Bool.or_false]
        have hrest : ∀ i, bitOf r.1 i =
            (bitOf base i || decide (validBits m g ≤ i ∧ i < n + 1)) := by
          intro i
          rw [hbits i, decide_eq_decide.mpr
            (show (validBits m g ≤ i ∧ i < n + 1) ↔ (validBits m g ≤ i ∧ i < n) by omega)]
        rw [hmin] at hcount
        rw [hmin', hsucc]
        by_cases hb : bitOf base n = true
        · rw [if_pos (hn.trans hb), if_neg (by simp [hb])]
          exact ⟨hrest, hcount⟩
        · rw [if_neg (by rw [hn]; exact hb), if_pos (by simpa using hb)]
          exact ⟨hrest, by rw [hcount]⟩
  obtain ⟨hbits, hcount⟩ := hloop m.gb
  have hfold : freshBits m g = (List.range m.gb).foldl step (base, 0) := rfl
  rw [← hfold] at hbits hcount
  refine ⟨fun i hi => ?_, fun i hi => ?_, ?_⟩
  · rw [hbits i, hbit i]
    congr 1
    exact decide_eq_decide.mpr (by omega)
  · rw [hbits i, hbit i, decide_eq_true hi, Bool.true_or]
  · rw [hcount, show min m.gb (validBits m g) = validBits m g by omega]
    apply clearBits_congr
    intro i hi
    rw [hbits i, decide_eq_false (by omega), Bool.or_false]

/-- The writes of `gmap_format` for the groups below `k`. -/
def freshWrites (m : GMap) (k : ℕ) : List (ℕ × Bytes) :=
  (List.range k).map fun g => (slotBlock m g 0, (freshBits m g).1)

/-- The map is as `gmap_init` leaves it: every group at slot 0, and none written. -/
structure Unused (m : GMap) : Prop where
  slot : m.slot = fun _ => 0
  written : m.written = fun _ => false

/-- The map when `gmap_format` has counted the groups below `k`. -/
def countedMap (m : GMap) (k : ℕ) : GMap :=
  { m with free := fun g => if g < k then (freshBits m g).2 else m.free g }

/-- What the device does with the write of the bitmap of group `g`. -/
def bitmapFault (m : GMap) (D : Disk) (g : ℕ) : Outcome :=
  D.fault (D.reqs + g) (some (slotBlock m g 0))

/-- The write of the bitmap of group `k` is the first that fails. -/
structure FirstFault (m : GMap) (D : Disk) (k : ℕ) : Prop where
  lt : k < m.ngroups
  before : ∀ g < k, bitmapFault m D g = .done
  fails : bitmapFault m D k ≠ .done

/-- The bitmaps of the groups below `k` are written. -/
structure Begun (t₀ : GSt) (k : ℕ) (t : GSt) : Prop where
  le : t₀.disk ≤ t.disk
  map : t.map = countedMap t₀.map k
  reqs : t.disk.reqs = t₀.disk.reqs + k
  served : ∀ g < k, bitmapFault t₀.map t₀.disk g = .done
  fresh : ∀ g < k, t.disk.block (slotBlock t₀.map g 0) = (freshBits t₀.map g).1
  old : ∀ g, k ≤ g → t.disk.block (slotBlock t₀.map g 0) = t₀.disk.block (slotBlock t₀.map g 0)
  log : t.disk.cache = t₀.disk.cache ++ freshWrites t₀.map k

/-- The write of the next bitmap has failed, and left `left` or nothing. -/
structure Halted (t₀ : GSt) (k : ℕ) (left : Option Bytes) (t : GSt) :
    Prop extends FirstFault t₀.map t₀.disk k where
  fault : bitmapFault t₀.map t₀.disk k = .fails left
  map : t.map = countedMap t₀.map (k + 1)
  fresh : ∀ g < k, t.disk.block (slotBlock t₀.map g 0) = (freshBits t₀.map g).1
  torn : t.disk.block (slotBlock t₀.map k 0) = left.getD (t₀.disk.block (slotBlock t₀.map k 0))
  old : ∀ g, k < g → t.disk.block (slotBlock t₀.map g 0) = t₀.disk.block (slotBlock t₀.map g 0)

theorem countedMap_succ (m : GMap) (k : ℕ) :
    Function.update (countedMap m k).free k (freshBits (countedMap m k) k).2 =
      (countedMap m (k + 1)).free := by
  have hbits : freshBits (countedMap m k) k = freshBits m k := rfl
  rw [hbits]
  funext g
  by_cases hg : g = k
  · subst hg
    simp [countedMap]
  · have hlt : g < k ↔ g < k + 1 := by omega
    simp [countedMap, Function.update_of_ne hg, hlt]

section Faults

variable {t₀ : GSt}

/-- **`gmap_format`, by the faults of the device**: all its writes are served, or it stops at the
first that is not. -/
theorem wp_gmapFormat_faults (hgeo : MapGeo ⟨t₀.map, { t₀.disk with fault := fun _ _ => .done }⟩)
    (hm : Unused t₀.map) :
    gmapFormat.wp (fun _ t => ∃ u, Begun t₀ t₀.map.ngroups u ∧
      t = { u with map := dropCache u.map })
      (fun _ t => ∃ k left, Halted t₀ k left t) t₀ := by
  have hfits : Fits t₀.disk t₀.map.spb t₀.map.total :=
    ⟨hgeo.fits.spb_mul, hgeo.fits.fits, hgeo.fits.no_wrap⟩
  simp only [gmapFormat, wp_bind, wp_get]
  refine wp_mono (wp_iterate (fun k _ t => Begun t₀ k t) ?_ fun k _ t hk ht => ?_)
    (fun _ t _ ht => ?_)
    fun _ _ _ he => he
  · exact ⟨le_refl _, rfl, rfl, fun g hg => absurd hg (Nat.not_lt_zero g),
      fun g hg => absurd hg (Nat.not_lt_zero g), fun _ _ => rfl, (List.append_nil _).symm⟩
  · have hne : ∀ g, g ≠ k → slotBlock t₀.map g 0 ≠ slotBlock t₀.map k 0 := fun g hg he =>
      hg (hgeo.slotBlock_inj (Nat.zero_le 1) (Nat.zero_le 1) he).1
    have hfault : t.disk.fault t.disk.reqs (some (slotBlock t₀.map k 0)) =
        bitmapFault t₀.map t₀.disk k := by
      rw [bitmapFault, ht.le.fault, ht.reqs]
    have hfit := hfits.later ht.le
    obtain ⟨m, D⟩ := t
    obtain rfl : m = countedMap t₀.map k := ht.map
    simp only [wp_bind, wp_get, modMap, wp_modify, gwrite, mapIo, wp_zoom, wp_mapError,
      countedMap_succ]
    refine wp_blkWrite_faults (b := slotBlock t₀.map k 0) hfit
      (hgeo.slot_zero_lt hk) (fun hdone => ?_) fun left e D' hfails hle hblock => ?_
    · refine ⟨le_trans ht.le (le_trans (Disk.le_served _) (Disk.le_put _ _ _)), ?_, ?_,
        fun g hg => ?_, fun g hg => ?_, fun g hg => ?_, ?_⟩
      · -- the slots and the flags are those that `gmap_init` has set
        have hs : Function.update (countedMap t₀.map k).slot k 0 = t₀.map.slot := by
          simp only [countedMap, hm.slot]
          exact Function.update_eq_self k _
        have hw : Function.update (countedMap t₀.map k).written k false = t₀.map.written := by
          simp only [countedMap, hm.written]
          exact Function.update_eq_self k _
        simp only [hs, hw]
        rfl
      · exact congrArg (· + 1) ht.reqs
      · rcases Nat.lt_succ_iff_lt_or_eq.mp hg with hlt | rfl
        · exact ht.served g hlt
        · rw [← hfault, hdone]
      · simp only [Disk.put_block, Disk.served_block]
        rcases Nat.lt_succ_iff_lt_or_eq.mp hg with hlt | rfl
        · rw [Function.update_of_ne (hne g (by omega)), ht.fresh g hlt]
        · exact Function.update_self ..
      · simp only [Disk.put_block, Disk.served_block]
        rw [Function.update_of_ne (hne g (by omega)), ht.old g (by omega)]
      · have hlog := ht.log
        simp only at hlog
        simp only [Disk.put, Disk.served, hlog, freshWrites, List.range_succ, List.map_append,
          List.map_singleton, List.append_assoc]
        rfl
    · rw [hfault] at hfails
      refine ⟨k, left, ⟨hk, ht.served, by simp [hfails]⟩, hfails, rfl, fun g hg => ?_, ?_,
        fun g hg => ?_⟩
      · simp only [hblock]
        rw [Function.update_of_ne (hne g (by omega)), ht.fresh g hg]
      · simp only [hblock, Function.update_self, ht.old k le_rfl]
      · simp only [hblock]
        rw [Function.update_of_ne (hne g (by omega)), ht.old g hg.le]
  · exact ⟨t, ht, rfl⟩

end Faults

/-- What `gmap_format` leaves: every group at slot 0, with a fresh bitmap there. -/
structure FormatPost (s s' : GSt) : Prop where
  inv : GInv s'
  spb : s'.map.spb = s.map.spb
  total : s'.map.total = s.map.total
  gb : s'.map.gb = s.map.gb
  ngroups : s'.map.ngroups = s.map.ngroups
  slot : ∀ g < s.map.ngroups, s'.map.slot g = 0
  used : ∀ b < s.map.total, used s' b = reservedBlock s.map b
  written : ∀ g < s.map.ngroups, s'.disk.block (slotBlock s.map g 0) = (freshBits s.map g).1
  log : s'.disk.cache = s.disk.cache ++ freshWrites s.map s.map.ngroups
  cache : ∀ i, (s'.map.cache i).valid = false

/-- **`gmap_format`** makes a map whose used blocks are the reserved ones. -/
theorem wp_gmapFormat (h : MapGeo s) (hm : Unused s.map) (hQ : ∀ s', FormatPost s s' → Q () s') :
    gmapFormat.wp Q E s := by
  have hfresh : ∀ g, validBits s.map g ≤ s.map.gb := fun g => by
    rw [validBits]
    split <;> omega
  have hgeo : MapGeo ⟨s.map, { s.disk with fault := fun _ _ => .done }⟩ :=
    ⟨fun _ _ _ _ => rfl, ⟨h.fits.spb_mul, h.fits.fits, h.fits.no_wrap⟩, h.gb_min, h.gb_max,
      h.total_min, h.ngroups_eq, h.ngroups_le⟩
  refine wp_mono (wp_gmapFormat_faults hgeo hm) (fun _ t _ ht => ?_) fun _ t _ ht => ?_
  swap
  · obtain ⟨k, left, hk⟩ := ht
    exact absurd (h.serves k 0 (Nat.zero_le 1) _) hk.fails
  obtain ⟨⟨m, D⟩, hu, rfl⟩ := ht
  obtain rfl : m = countedMap s.map s.map.ngroups := hu.map
  -- the map after the loop is the import of its own tables
  set t : GSt := ⟨dropCache (countedMap s.map s.map.ngroups), D⟩
  have hcur : ∀ g < s.map.ngroups, curBits t g = (freshBits s.map g).1 := by
    intro g hg
    have hnew : newestSlot t.map g = 0 := by
      simp [t, newestSlot, dropCache, countedMap, hm.slot, hm.written]
    rw [curBits, dropCache_hit, ← hu.fresh g hg]
    simp only [hnew]
    rfl
  have hslot : ∀ g, t.map.slot g = 0 := congrFun hm.slot
  have hco : Coherent t :=
    coherent_of_empty h.gb_min (fun g _ => (hslot g).trans_le (Nat.zero_le 1)) fun _ => rfl
  have hinv : GInv t := by
    refine ⟨h.mapOk hu.le rfl rfl rfl rfl hco (fun g _ hor => ?_) fun g hg => ?_, fun g hg => ?_⟩
    · rcases hor with h1 | h1 | ⟨i, _, hv, _⟩
      · exact absurd ((hslot g).symm.trans h1) (by simp)
      · exact absurd ((congrFun hm.written g).symm.trans h1) (by simp)
      · exact absurd hv (by simp [t, dropCache])
    · rw [hcur g hg]
      exact (if_pos hg).trans (freshBits_spec s.map g (hfresh g)).2.2
    · rw [hcur g hg]
      exact (freshBits_spec s.map g (hfresh g)).2.1
  refine hQ _ ⟨hinv, rfl, rfl, rfl, rfl, fun g _ => hslot g, fun b hb => ?_, hu.fresh, hu.log,
    fun _ => rfl⟩
  have hbit := (freshBits_spec s.map (b / s.map.gb) (hfresh _)).1 (b % s.map.gb)
    (Nat.mod_lt b h.gb_pos)
  have hgb : t.map.gb = s.map.gb := rfl
  rw [used, hgb, hcur _ (h.group_lt hb), hbit,
    decide_eq_false (p := validBits s.map (b / s.map.gb) ≤ _)
      (by have := h.bit_of_block hb; omega), Bool.or_false]
  rfl

end Format

/-! ## Writes elsewhere -/

section Elsewhere

variable {d : Disk}

/-- A map slot is a reserved block. -/
theorem MapGeo.reserved_slot (h : MapGeo s) (ht : t ≤ 1) :
    reservedBlock s.map (slotBlock s.map g t) = true := by
  have hmin := h.gb_min
  simp only [groupMin] at hmin
  refine decide_eq_true ?_
  by_cases h0 : g = 0
  · simp only [slotBlock, if_pos h0, dataStart, itabArea1, itabArea0, itabBlocks]
    rw [Nat.mod_eq_of_lt (by omega), Nat.div_eq_of_lt (by omega)]
    simp only [reservedBits, if_true, dataStart, itabArea1, itabArea0, itabBlocks]
    omega
  · simp only [slotBlock, if_neg h0]
    rw [Nat.mul_comm, Nat.mul_add_mod, Nat.mul_add_div (by omega), Nat.mod_eq_of_lt (by omega),
      Nat.div_eq_of_lt (by omega), Nat.add_zero, reservedBits, if_neg h0]
    omega

/-- The superblocks and the inode tables are reserved. -/
theorem MapGeo.reserved_low (h : MapGeo s) (hb : b < dataStart) : reservedBlock s.map b = true := by
  have hmin := h.gb_min
  simp only [groupMin] at hmin
  simp only [dataStart, itabArea1, itabArea0, itabBlocks] at hb
  refine decide_eq_true ?_
  rw [Nat.mod_eq_of_lt (by omega), Nat.div_eq_of_lt (by omega)]
  simp only [reservedBits, if_true, dataStart, itabArea1, itabArea0, itabBlocks]
  omega

variable (hd : ∀ g t, g < s.map.ngroups → t ≤ 1 →
  d.block (slotBlock s.map g t) = s.disk.block (slotBlock s.map g t))

include hd

/-- The map does not see what happens to other blocks of the device. -/
theorem curBits_withDisk (h : GInv s) (hg : g < s.map.ngroups) :
    curBits ⟨s.map, d⟩ g = curBits s g := by
  simp only [curBits]
  split
  · rfl
  · exact hd g _ hg (h.newest_le hg)

theorem used_withDisk (h : GInv s) (hb : b < s.map.total) : used ⟨s.map, d⟩ b = used s b := by
  have hcur := curBits_withDisk hd h (h.group_lt hb)
  simp only [used]
  rw [hcur]

theorem GInv.withDisk (h : GInv s) (hle : s.disk ≤ d) : GInv ⟨s.map, d⟩ := by
  refine ⟨⟨⟨fun g t ht => (h.serves g t ht).later hle, h.fits.later hle, h.gb_min, h.gb_max,
    h.total_min, h.ngroups_eq,
    h.ngroups_le⟩, h.slot_le, h.one_entry, h.entry_lt, ?_, h.two_slots, ?_⟩, ?_⟩
  · intro i hi hv hdirty
    have hlt := h.entry_lt i hi hv
    rw [hd _ _ hlt (h.newest_le hlt)]
    exact h.clean i hi hv hdirty
  · intro g hg
    rw [curBits_withDisk hd h hg]
    exact h.free_eq g hg
  · intro g hg i hi
    rw [curBits_withDisk hd h hg]
    exact h.reserved g hg i hi

end Elsewhere

end Xasmos.Exfs
