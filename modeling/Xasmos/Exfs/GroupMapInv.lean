import Xasmos.Exfs.GroupMap
import Mathlib.Data.Nat.Count

/-!
# The group map as one bitmap

The newest copy of a group is its cache entry if it has one, and otherwise the
newest of its two slots on the device: `curBits`.  Through it the cached, two-slot
map is one bitmap, `used`, whatever the cache holds.

`GInv` is the invariant that makes this view consistent: one entry a group, a clean
entry equal to the device, free counts equal to the clear bits, reserved blocks marked
used, and both slots on the volume for every group that was ever dirty.  Every function
keeps it, and on a device without faults none fails for want of the device.  What a
function may write is said by `Pending`: only slots that are not the committed one.

## Main definitions

* `curBits`, `used` — the bitmap the map stands for.
* `GInv` — the invariant; `Moved` and `Same` — what a step keeps.
-/

namespace Xasmos.Exfs

open Bytes Prog
open Function (update update_self update_of_ne)

variable {E : GmapError → GSt → Prop} {Q : Unit → GSt → Prop} {b g g' i j t t' v : ℕ} {m m' : GMap}
  {s s' s'' : GSt}

/-! ## The bitmap -/

/-- The newest copy of group `g`. -/
def curBits (s : GSt) (g : ℕ) : Bytes :=
  match cacheHit s.map g with
  | some i => (s.map.cache i).bits
  | none => s.disk.block (slotBlock s.map g (newestSlot s.map g))

/-- Block `b` is marked used. -/
def used (s : GSt) (b : ℕ) : Bool := bitOf (curBits s (b / s.map.gb)) (b % s.map.gb)

/-- The number of clear bits among the first `n`. -/
def clearBits (p : Bytes) (n : ℕ) : ℕ := Nat.count (fun i => bitOf p i = false) n

/-- The slot of a group that is not committed, where both slots are on the volume. -/
def Pending (m : GMap) (b : ℕ) : Prop :=
  ∃ g < m.ngroups, slotBlock m g 1 < m.total ∧ b = slotBlock m g (1 - m.slot g)

/-- Entry `i` of the cache holds a dirty copy of group `g`. -/
def DirtyAt (m : GMap) (i g : ℕ) : Prop :=
  i < gmapCache ∧ (m.cache i).valid = true ∧ (m.cache i).dirty = true ∧ (m.cache i).g = g

/-- The geometry of a map on a device that never fails a request for a slot. -/
structure MapGeo (s : GSt) : Prop where
  serves : ∀ g t, t ≤ 1 → s.disk.Serves (slotBlock s.map g t)
  fits : Fits s.disk s.map.spb s.map.total
  gb_min : groupMin ≤ s.map.gb
  gb_max : s.map.gb ≤ groupMax
  total_min : dataStart < s.map.total
  ngroups_eq : s.map.ngroups = (s.map.total + s.map.gb - 1) / s.map.gb
  ngroups_le : s.map.ngroups ≤ maxGroups

/-- The cache agrees with the device, which may be any: one entry a group, and a clean entry
is the newest slot of its group. -/
structure Coherent (s : GSt) : Prop where
  gb_min : groupMin ≤ s.map.gb
  slot_le : ∀ g < s.map.ngroups, s.map.slot g ≤ 1
  one_entry : ∀ i j, i < gmapCache → j < gmapCache → (s.map.cache i).valid = true →
    (s.map.cache j).valid = true → (s.map.cache i).g = (s.map.cache j).g → i = j
  entry_lt : ∀ i < gmapCache, (s.map.cache i).valid = true → (s.map.cache i).g < s.map.ngroups
  clean : ∀ i < gmapCache, (s.map.cache i).valid = true → (s.map.cache i).dirty = false →
    (s.map.cache i).bits =
      s.disk.block (slotBlock s.map (s.map.cache i).g (newestSlot s.map (s.map.cache i).g))

/-- A consistent map on a device without faults: the free counts are those of the bits, and
every copy that is newer than slot 0 has its slot on the volume. -/
structure MapOk (s : GSt) : Prop extends MapGeo s, Coherent s where
  two_slots : ∀ g < s.map.ngroups,
    (s.map.slot g = 1 ∨ s.map.written g = true ∨ ∃ i, DirtyAt s.map i g) →
    slotBlock s.map g 1 < s.map.total
  free_eq : ∀ g < s.map.ngroups, s.map.free g = clearBits (curBits s g) (validBits s.map g)

/-- The invariant of a map on a device without faults: a consistent map that hands out no
reserved block. -/
structure GInv (s : GSt) : Prop extends MapOk s where
  reserved : ∀ g < s.map.ngroups, ∀ i < reservedBits g, bitOf (curBits s g) i = true

/-- A step of the map: geometry and committed slots stay, and only pending slots are
written. -/
structure Moved (s s' : GSt) : Prop where
  spb : s'.map.spb = s.map.spb
  total : s'.map.total = s.map.total
  gb : s'.map.gb = s.map.gb
  ngroups : s'.map.ngroups = s.map.ngroups
  slot : s'.map.slot = s.map.slot
  wrote : Disk.WroteOnly (Pending s.map) s.disk s'.disk

/-- A step of the map that changes no bit: only the cache and the device moved. -/
structure Same (s s' : GSt) : Prop extends Moved s s' where
  free : s'.map.free = s.map.free
  bits : ∀ g < s.map.ngroups, curBits s' g = curBits s g

/-! ## Geometry -/

section Geometry

theorem slotBlock_congr (h : m'.gb = m.gb) (g t : ℕ) :
    slotBlock m' g t = slotBlock m g t := by rw [slotBlock, slotBlock, h]

theorem validBits_congr (h : m'.gb = m.gb) (ht : m'.total = m.total) (g : ℕ) :
    validBits m' g = validBits m g := by rw [validBits, validBits, h, ht]

theorem MapGeo.gb_pos (h : MapGeo s) : 0 < s.map.gb := lt_of_lt_of_le (by decide) h.gb_min

theorem MapGeo.lt_ngroups_iff (h : MapGeo s) : g < s.map.ngroups ↔ g * s.map.gb < s.map.total := by
  have hpos := h.gb_pos
  rw [h.ngroups_eq, Nat.lt_div_iff_mul_lt hpos]
  omega

theorem MapGeo.group_lt (h : MapGeo s) (hb : b < s.map.total) : b / s.map.gb < s.map.ngroups := by
  rw [h.lt_ngroups_iff]
  exact lt_of_le_of_lt (Nat.div_mul_le_self b s.map.gb) hb

theorem MapGeo.group_mod (h : MapGeo s) (hb : b < s.map.total) :
    b / s.map.gb % 2 ^ 32 = b / s.map.gb := by
  have h1 := h.group_lt hb
  have h2 := h.ngroups_le
  simp only [maxGroups] at h2
  exact Nat.mod_eq_of_lt (by omega)

/-- A group and a slot are determined by the block. -/
theorem slotBlock_inj (hmin : groupMin ≤ m.gb) (ht : t ≤ 1) (ht' : t' ≤ 1)
    (he : slotBlock m g t = slotBlock m g' t') : g = g' ∧ t = t' := by
  have hsep : ∀ a, a ≠ 0 → m.gb ≤ a * m.gb := fun a ha =>
    Nat.le_mul_of_pos_left _ (Nat.pos_of_ne_zero ha)
  simp only [slotBlock, dataStart, itabArea1, itabArea0, itabBlocks, groupMin] at he hmin
  by_cases h0 : g = 0
  · by_cases h0' : g' = 0
    · rw [if_pos h0, if_pos h0'] at he
      omega
    · have := hsep g' h0'
      rw [if_pos h0, if_neg h0'] at he
      omega
  · by_cases h0' : g' = 0
    · have := hsep g h0
      rw [if_neg h0, if_pos h0'] at he
      omega
    · rw [if_neg h0, if_neg h0'] at he
      rcases Nat.lt_trichotomy g g' with hlt | heq | hgt
      · have : (g + 1) * m.gb ≤ g' * m.gb := Nat.mul_le_mul_right _ hlt
        rw [Nat.succ_mul] at this
        omega
      · subst heq
        omega
      · have : (g' + 1) * m.gb ≤ g * m.gb := Nat.mul_le_mul_right _ hgt
        rw [Nat.succ_mul] at this
        omega

theorem MapGeo.slotBlock_inj (h : MapGeo s) (ht : t ≤ 1) (ht' : t' ≤ 1)
    (he : slotBlock s.map g t = slotBlock s.map g' t') : g = g' ∧ t = t' :=
  Exfs.slotBlock_inj h.gb_min ht ht' he

/-- Slot 0 of every group is on the volume. -/
theorem MapGeo.slot_zero_lt (h : MapGeo s) (hg : g < s.map.ngroups) :
    slotBlock s.map g 0 < s.map.total := by
  have hmin := h.total_min
  by_cases h0 : g = 0
  · simp only [slotBlock, if_pos h0]
    omega
  · simp only [slotBlock, if_neg h0]
    exact h.lt_ngroups_iff.mp hg

/-- The newest slot of a group is on the volume. -/
theorem MapOk.newest_lt (h : MapOk s) (hg : g < s.map.ngroups) :
    slotBlock s.map g (newestSlot s.map g) < s.map.total := by
  have hs := h.slot_le g hg
  have h0 := h.slot_zero_lt hg
  have h1 := h.two_slots g hg
  by_cases hw : s.map.written g = true
  · have := h1 (Or.inr (Or.inl hw))
    simp only [newestSlot, hw, if_true, slotBlock] at *
    omega
  · rw [newestSlot, if_neg hw]
    rcases Nat.le_one_iff_eq_zero_or_eq_one.mp hs with h | h
    · rw [h]; exact h0
    · rw [h]; exact h1 (Or.inl h)

/-- A step that changes no bit keeps the reserved blocks used. -/
theorem GInv.of_same (h : GInv s) (hok : MapOk s') (hs : Same s s') : GInv s' where
  toMapOk := hok
  reserved g hg i hi := by
    rw [hs.ngroups] at hg
    rw [hs.bits g hg]
    exact h.reserved g hg i hi

theorem Coherent.newest_le (h : Coherent s) (hg : g < s.map.ngroups) : newestSlot s.map g ≤ 1 := by
  have hs := h.slot_le g hg
  rw [newestSlot]
  split <;> omega

end Geometry

/-! ## The cache -/

section Cache

theorem cacheHit_some (h : cacheHit m g = some i) :
    i < gmapCache ∧ (m.cache i).valid = true ∧ (m.cache i).g = g := by
  have hmem := List.mem_of_find?_eq_some h
  have hp := List.find?_some h
  simp only [Bool.and_eq_true, beq_iff_eq] at hp
  exact ⟨List.mem_range.mp hmem, hp.1, hp.2⟩

theorem cacheHit_none (h : cacheHit m g = none) (hi : i < gmapCache)
    (hv : (m.cache i).valid = true) : (m.cache i).g ≠ g := by
  have hp := List.find?_eq_none.mp h i (List.mem_range.mpr hi)
  intro he
  exact hp (by simp [hv, he])

/-- The entry of a group is the one the search finds. -/
theorem Coherent.cacheHit_eq (h : Coherent s) (hi : i < gmapCache)
    (hv : (s.map.cache i).valid = true) (hg : (s.map.cache i).g = g) :
    cacheHit s.map g = some i := by
  cases hc : cacheHit s.map g with
  | none => exact absurd hg (cacheHit_none hc hi hv)
  | some j =>
    obtain ⟨hj, hvj, hgj⟩ := cacheHit_some hc
    rw [h.one_entry i j hi hj hv hvj (by rw [hg, hgj])]

/-- The search depends on the groups and valid flags of the entries only. -/
theorem cacheHit_congr
    (h : ∀ i < gmapCache, (m'.cache i).valid = (m.cache i).valid ∧ (m'.cache i).g = (m.cache i).g)
    (g : ℕ) : cacheHit m' g = cacheHit m g := by
  have hfind : ∀ l : List ℕ, (∀ i ∈ l, i < gmapCache) →
      (l.find? fun i => (m'.cache i).valid && (m'.cache i).g == g) =
        l.find? fun i => (m.cache i).valid && (m.cache i).g == g := by
    intro l hl
    induction l with
    | nil => rfl
    | cons i l ih =>
      obtain ⟨h1, h2⟩ := h i (hl i List.mem_cons_self)
      rw [List.find?_cons, List.find?_cons, h1, h2, ih fun j hj => hl j (List.mem_cons_of_mem _ hj)]
  exact hfind _ fun i hi => List.mem_range.mp hi

theorem victimFrom_lt (m : GMap) (is : List ℕ) (v : ℕ) (hv : v < gmapCache)
    (his : ∀ i ∈ is, i < gmapCache) : victimFrom m is v < gmapCache := by
  induction is generalizing v with
  | nil => exact hv
  | cons i is ih =>
    have hi := his i List.mem_cons_self
    have hrest : ∀ j ∈ is, j < gmapCache := fun j hj => his j (List.mem_cons_of_mem _ hj)
    rw [victimFrom]
    split
    · exact hi
    · apply ih _ _ hrest
      split
      · exact hi
      · exact hv

theorem victim_lt (m : GMap) : victim m < gmapCache :=
  victimFrom_lt m _ 0 (by decide) fun _ hi => List.mem_range.mp hi

/-- The bits of a cached group are the entry's. -/
theorem Coherent.curBits_cached (h : Coherent s) (hi : i < gmapCache)
    (hv : (s.map.cache i).valid = true) : curBits s (s.map.cache i).g = (s.map.cache i).bits := by
  rw [curBits, h.cacheHit_eq hi hv rfl]

/-- The bits of a group that is clean or not cached are on the device. -/
theorem Coherent.curBits_disk (h : Coherent s) (hc : ∀ i, ¬ DirtyAt s.map i g) :
    curBits s g = s.disk.block (slotBlock s.map g (newestSlot s.map g)) := by
  unfold curBits
  cases hh : cacheHit s.map g with
  | none => rfl
  | some i =>
    obtain ⟨hi, hv, hg⟩ := cacheHit_some hh
    have hd : (s.map.cache i).dirty = false := by
      by_contra hd
      exact hc i ⟨hi, hv, by simpa using hd, hg⟩
    have hcl := h.clean i hi hv hd
    rwa [hg] at hcl

end Cache

/-! ## Writing an entry back -/

section Flush

/-- The state after entry `i` went to its pending slot. -/
def flushed (s : GSt) (i : ℕ) : GSt where
  map := { s.map with
    written := update s.map.written (s.map.cache i).g true
    cache := update s.map.cache i { s.map.cache i with dirty := false } }
  disk := s.disk.served.put
    (slotBlock s.map (s.map.cache i).g (1 - s.map.slot (s.map.cache i).g)) (s.map.cache i).bits

theorem flushed_entry (s : GSt) (i j : ℕ) :
    (((flushed s i).map.cache j).valid = (s.map.cache j).valid ∧
      ((flushed s i).map.cache j).g = (s.map.cache j).g) ∧
    ((flushed s i).map.cache j).bits = (s.map.cache j).bits ∧
    ((flushed s i).map.cache j).dirty = if j = i then false else (s.map.cache j).dirty := by
  by_cases h : j = i
  · subst h
    simp [flushed]
  · simp [flushed, h]

/-- The entry written back is clean. -/
theorem not_dirty_flushed (s : GSt) (i g : ℕ) : ¬ DirtyAt (flushed s i).map i g := by
  intro hd
  have hdirty := hd.2.2.1
  rw [(flushed_entry s i i).2.2, if_pos rfl] at hdirty
  exact absurd hdirty (by simp)

/-- An entry that is dirty after a write back was so before it. -/
theorem dirtyAt_of_flushed (hd : DirtyAt (flushed s i).map j g) : DirtyAt s.map j g := by
  have hji : j ≠ i := by
    rintro rfl
    exact not_dirty_flushed s j g hd
  obtain ⟨h1, h2, h3, h4⟩ := hd
  rw [(flushed_entry s i j).1.1] at h2
  rw [(flushed_entry s i j).2.2, if_neg hji] at h3
  rw [(flushed_entry s i j).1.2] at h4
  exact ⟨h1, h2, h3, h4⟩

theorem newestSlot_flushed (s : GSt) (i g : ℕ) :
    newestSlot (flushed s i).map g =
      if g = (s.map.cache i).g then 1 - s.map.slot g else newestSlot s.map g := by
  by_cases h : g = (s.map.cache i).g
  · simp [newestSlot, flushed, h]
  · simp [newestSlot, flushed, h]

/-- Writing an entry back needs both slots of its group on the volume. -/
theorem MapOk.pending (h : MapOk s) (hd : DirtyAt s.map i g) :
    g < s.map.ngroups ∧ slotBlock s.map g (1 - s.map.slot g) < s.map.total ∧
      slotBlock s.map g 1 < s.map.total := by
  have hg : g < s.map.ngroups := hd.2.2.2 ▸ h.entry_lt i hd.1 hd.2.1
  have h1 := h.two_slots g hg (Or.inr (Or.inr ⟨i, hd⟩))
  refine ⟨hg, ?_, h1⟩
  simp only [slotBlock] at h1 ⊢
  omega

/-- A block of the device that is not the one written back. -/
theorem flushed_block (h : Coherent s) (hd : DirtyAt s.map i (s.map.cache i).g) (ht : t ≤ 1)
    (hne : g ≠ (s.map.cache i).g ∨ t ≠ 1 - s.map.slot (s.map.cache i).g) :
    (flushed s i).disk.block (slotBlock s.map g t) = s.disk.block (slotBlock s.map g t) := by
  have hs := h.slot_le _ (h.entry_lt i hd.1 hd.2.1)
  simp only [flushed, Disk.put_block, Disk.served_block]
  rw [update_of_ne]
  intro he
  obtain ⟨hg, ht'⟩ := slotBlock_inj h.gb_min ht (by omega) he
  rcases hne with hne | hne
  · exact hne hg
  · exact hne ht'

/-- Writing an entry back changes no bit. -/
theorem curBits_flushed (h : Coherent s) (hd : DirtyAt s.map i (s.map.cache i).g)
    (hg : g < s.map.ngroups) : curBits (flushed s i) g = curBits s g := by
  have hhit : cacheHit (flushed s i).map g = cacheHit s.map g :=
    cacheHit_congr (fun j _ => (flushed_entry s i j).1) g
  unfold curBits
  rw [hhit]
  cases hc : cacheHit s.map g with
  | some j => exact (flushed_entry s i j).2.1
  | none =>
    have hne : g ≠ (s.map.cache i).g := fun he => cacheHit_none hc hd.1 hd.2.1 he.symm
    have hgeo : slotBlock (flushed s i).map = slotBlock s.map := rfl
    simp only
    rw [newestSlot_flushed, if_neg hne, hgeo]
    exact flushed_block h hd (h.newest_le hg) (Or.inl hne)

theorem same_flushed (h : MapOk s) (hd : DirtyAt s.map i (s.map.cache i).g) :
    Same s (flushed s i) where
  spb := rfl
  total := rfl
  gb := rfl
  ngroups := rfl
  slot := rfl
  free := rfl
  bits _ hg := curBits_flushed h.toCoherent hd hg
  wrote := by
    refine (Disk.wroteOnly_put _ _ _).mono fun b hb => ?_
    exact ⟨_, (h.pending hd).1, (h.pending hd).2.2, hb⟩

/-- With the groups of the entries as they were, it is left to show that the clean entries are on
the device. -/
theorem Coherent.of_entries (h : Coherent s) (hgb : s'.map.gb = s.map.gb)
    (hn : s'.map.ngroups = s.map.ngroups) (hslot : s'.map.slot = s.map.slot)
    (hent : ∀ j, (s'.map.cache j).valid = (s.map.cache j).valid ∧
      (s'.map.cache j).g = (s.map.cache j).g)
    (hclean : ∀ j < gmapCache, (s.map.cache j).valid = true → (s'.map.cache j).dirty = false →
      (s'.map.cache j).bits = s'.disk.block (slotBlock s'.map (s.map.cache j).g
        (newestSlot s'.map (s.map.cache j).g))) :
    Coherent s' := by
  refine ⟨hgb ▸ h.gb_min, by rw [hn, hslot]; exact h.slot_le, ?_, ?_, ?_⟩
  · intro j k hj hk hvj hvk hjk
    rw [(hent j).1] at hvj
    rw [(hent k).1] at hvk
    rw [(hent j).2, (hent k).2] at hjk
    exact h.one_entry j k hj hk hvj hvk hjk
  · intro j hj hv
    rw [(hent j).1] at hv
    rw [(hent j).2, hn]
    exact h.entry_lt j hj hv
  · intro j hj hv hd
    rw [(hent j).1] at hv
    rw [(hent j).2]
    exact hclean j hj hv hd

theorem Coherent.flushed (h : Coherent s) (hd : DirtyAt s.map i (s.map.cache i).g) :
    Coherent (flushed s i) := by
  have hent := flushed_entry s i
  refine h.of_entries rfl rfl rfl (fun j => (hent j).1) fun j hj hv hdj => ?_
  rw [(hent j).2.2] at hdj
  rw [(hent j).2.1, newestSlot_flushed]
  have hgeo : slotBlock (Exfs.flushed s i).map = slotBlock s.map := rfl
  rw [hgeo]
  by_cases hji : j = i
  · -- the entry written back is what its pending slot now holds
    subst hji
    rw [if_pos rfl]
    simp only [Exfs.flushed, Disk.put_block, update_self]
  · have hne : (s.map.cache j).g ≠ (s.map.cache i).g := fun he =>
      hji (h.one_entry j i hj hd.1 hv hd.2.1 he)
    rw [if_neg hji] at hdj
    rw [if_neg hne, h.clean j hj hv hdj]
    exact (flushed_block h hd (h.newest_le (h.entry_lt j hj hv)) (Or.inl hne)).symm

/-- A coherent map with the geometry of a good one, later on its device. -/
theorem MapGeo.mapOk (h : MapGeo s) (hle : s.disk ≤ s'.disk) (hspb : s'.map.spb = s.map.spb)
    (htotal : s'.map.total = s.map.total) (hgb : s'.map.gb = s.map.gb)
    (hng : s'.map.ngroups = s.map.ngroups) (hco : Coherent s')
    (htwo : ∀ g < s'.map.ngroups,
      (s'.map.slot g = 1 ∨ s'.map.written g = true ∨ ∃ i, DirtyAt s'.map i g) →
      slotBlock s'.map g 1 < s'.map.total)
    (hfree : ∀ g < s'.map.ngroups, s'.map.free g = clearBits (curBits s' g) (validBits s'.map g)) :
    MapOk s' := by
  refine ⟨⟨fun g t ht => ?_, hspb ▸ htotal ▸ h.fits.later hle, hco.gb_min, hgb ▸ h.gb_max,
    htotal ▸ h.total_min, ?_, hng ▸ h.ngroups_le⟩, hco.slot_le, hco.one_entry, hco.entry_lt,
    hco.clean, htwo, hfree⟩
  · rw [slotBlock_congr hgb]
    exact (h.serves g t ht).later hle
  · rw [hng, htotal, hgb]
    exact h.ngroups_eq

theorem MapOk.flushed (h : MapOk s) (hd : DirtyAt s.map i (s.map.cache i).g) :
    MapOk (flushed s i) := by
  have hle : s.disk ≤ (Exfs.flushed s i).disk := le_trans s.disk.le_served (Disk.le_put _ _ _)
  have hco := h.toCoherent.flushed hd
  refine h.toMapGeo.mapOk hle rfl rfl rfl rfl hco ?_ ?_
  · intro g hg hor
    rcases hor with h1 | h1 | h1
    · exact h.two_slots g hg (Or.inl h1)
    · by_cases hgi : g = (s.map.cache i).g
      · subst hgi
        exact (h.pending hd).2.2
      · simp only [Exfs.flushed, update_of_ne hgi] at h1
        exact h.two_slots g hg (Or.inr (Or.inl h1))
    · obtain ⟨j, hj⟩ := h1
      exact h.two_slots g hg (Or.inr (Or.inr ⟨j, dirtyAt_of_flushed hj⟩))
  · intro g hg
    rw [curBits_flushed h.toCoherent hd hg]
    exact h.free_eq g hg

theorem GInv.flushed (h : GInv s) (hd : DirtyAt s.map i (s.map.cache i).g) : GInv (flushed s i) :=
  h.of_same (h.toMapOk.flushed hd) (same_flushed h.toMapOk hd)

/-- A read of a slot on the volume. -/
theorem wp_gread (h : MapOk s) (ht : t ≤ 1) (hb : slotBlock s.map g t < s.map.total)
    {Q : Bytes → GSt → Prop}
    (hQ : Q (s.disk.block (slotBlock s.map g t)) { s with disk := s.disk.served }) :
    (gread g t).wp Q E s := by
  simp only [gread, mapIo, wp_bind, wp_get, wp_zoom, wp_mapError]
  exact wp_blkRead h.fits (h.serves g t ht) hb hQ

/-- A write of a slot on the volume. -/
theorem wp_gwrite (hfit : Fits s.disk s.map.spb s.map.total)
    (hf : s.disk.Serves (slotBlock s.map g t)) (hb : slotBlock s.map g t < s.map.total)
    {bits : Bytes} (hQ : Q () { s with disk := s.disk.served.put (slotBlock s.map g t) bits }) :
    (gwrite g t bits).wp Q E s := by
  simp only [gwrite, mapIo, wp_bind, wp_get, wp_zoom, wp_mapError]
  exact wp_blkWrite hfit hf hb hQ

theorem wp_flushOne (h : MapOk s) (hd : DirtyAt s.map i (s.map.cache i).g)
    (hQ : Q () (flushed s i)) : (flushOne i).wp Q E s := by
  simp only [flushOne, wp_bind, wp_get]
  apply wp_gwrite h.fits (h.serves _ _ (Nat.sub_le 1 _)) (h.pending hd).2.1
  exact hQ

end Flush

/-! ## Loading a group -/

section Load

theorem pending_congr (hgb : m'.gb = m.gb) (ht : m'.total = m.total) (hn : m'.ngroups = m.ngroups)
    (hs : m'.slot = m.slot) : Pending m' = Pending m := by
  funext b
  simp only [Pending, hn, hs, ht, slotBlock_congr hgb]

theorem Moved.pending_eq (h : Moved s s') : Pending s'.map = Pending s.map :=
  pending_congr h.gb h.total h.ngroups h.slot

theorem Moved.refl (s : GSt) : Moved s s := ⟨rfl, rfl, rfl, rfl, rfl, Disk.WroteOnly.refl _ _⟩

theorem Moved.trans (h : Moved s s') (h' : Moved s' s'') : Moved s s'' where
  spb := h'.spb.trans h.spb
  total := h'.total.trans h.total
  gb := h'.gb.trans h.gb
  ngroups := h'.ngroups.trans h.ngroups
  slot := h'.slot.trans h.slot
  wrote := h.wrote.trans (h.pending_eq ▸ h'.wrote)

theorem Same.refl (s : GSt) : Same s s := ⟨Moved.refl s, rfl, fun _ _ => rfl⟩

theorem Same.trans (h : Same s s') (h' : Same s' s'') : Same s s'' where
  toMoved := h.toMoved.trans h'.toMoved
  free := h'.free.trans h.free
  bits g hg := (h'.bits g (h.ngroups ▸ hg)).trans (h.bits g hg)

/-- Group `g` put into entry `v`, as read from its newest slot. -/
def loaded (s : GSt) (v g : ℕ) : GSt where
  map := { s.map with
    clock := (s.map.clock + 1) % 2 ^ 32
    cache := update s.map.cache v
      ⟨s.disk.block (slotBlock s.map g (newestSlot s.map g)), g, true, false,
        (s.map.clock + 1) % 2 ^ 32⟩ }
  disk := s.disk.served

theorem loaded_self (s : GSt) (v g : ℕ) :
    (loaded s v g).map.cache v = ⟨s.disk.block (slotBlock s.map g (newestSlot s.map g)), g, true,
      false, (s.map.clock + 1) % 2 ^ 32⟩ := by
  simp [loaded]

theorem loaded_other (s : GSt) (g : ℕ) (h : j ≠ v) :
    (loaded s v g).map.cache j = s.map.cache j := by
  simp [loaded, h]

/-- Replacing an entry that is not dirty changes no bit. -/
theorem curBits_loaded (h : Coherent s) (hv : ∀ g', ¬ DirtyAt s.map v g')
    (hmiss : cacheHit s.map g = none) (g' : ℕ) : curBits (loaded s v g) g' = curBits s g' := by
  cases hc : cacheHit (loaded s v g).map g' with
  | some j =>
    obtain ⟨hj, hvj, hgj⟩ := cacheHit_some hc
    have hcur : curBits (loaded s v g) g' = ((loaded s v g).map.cache j).bits := by
      rw [curBits, hc]
    by_cases hjv : j = v
    · subst hjv
      rw [loaded_self] at hgj
      subst hgj
      rw [hcur, loaded_self, curBits, hmiss]
    · rw [loaded_other s g hjv] at hvj hgj
      rw [hcur, loaded_other s g hjv, ← hgj, h.curBits_cached hj hvj]
  | none =>
    have hclean : ∀ j, ¬ DirtyAt s.map j g' := by
      intro j hd
      have hjv : j ≠ v := fun he => hv g' (he ▸ hd)
      have hother := loaded_other s g hjv
      exact cacheHit_none hc hd.1 (by rw [hother]; exact hd.2.1) (by rw [hother]; exact hd.2.2.2)
    rw [h.curBits_disk hclean, curBits, hc]
    rfl

theorem same_loaded (h : MapOk s) (hv : ∀ g', ¬ DirtyAt s.map v g')
    (hmiss : cacheHit s.map g = none) : Same s (loaded s v g) :=
  ⟨⟨rfl, rfl, rfl, rfl, rfl, Disk.wroteOnly_served _ _⟩, rfl,
    fun g' _ => curBits_loaded h.toCoherent hv hmiss g'⟩

theorem Coherent.loaded (h : Coherent s) (hmiss : cacheHit s.map g = none)
    (hg : g < s.map.ngroups) : Coherent (loaded s v g) := by
  refine ⟨h.gb_min, h.slot_le, ?_, ?_, ?_⟩
  · intro j k hj hk hvj hvk hjk
    -- no other entry holds the group just loaded
    by_cases hjv : j = v
    · by_cases hkv : k = v
      · rw [hjv, hkv]
      · rw [loaded_other s g hkv] at hvk hjk
        rw [hjv, loaded_self] at hjk
        exact absurd hjk.symm (cacheHit_none hmiss hk hvk)
    · rw [loaded_other s g hjv] at hvj hjk
      by_cases hkv : k = v
      · rw [hkv, loaded_self] at hjk
        exact absurd hjk (cacheHit_none hmiss hj hvj)
      · rw [loaded_other s g hkv] at hvk hjk
        exact h.one_entry j k hj hk hvj hvk hjk
  · intro j hj hvj
    by_cases hjv : j = v
    · rw [hjv, loaded_self]
      exact hg
    · rw [loaded_other s g hjv] at hvj ⊢
      exact h.entry_lt j hj hvj
  · intro j hj hvj hdj
    by_cases hjv : j = v
    · rw [hjv, loaded_self]
      rfl
    · rw [loaded_other s g hjv] at hvj hdj ⊢
      exact h.clean j hj hvj hdj

theorem MapOk.loaded (h : MapOk s) (hv : ∀ g', ¬ DirtyAt s.map v g')
    (hmiss : cacheHit s.map g = none) (hg : g < s.map.ngroups) : MapOk (loaded s v g) := by
  have hle : s.disk ≤ (Exfs.loaded s v g).disk := s.disk.le_served
  have hco := h.toCoherent.loaded (v := v) hmiss hg
  refine h.toMapGeo.mapOk hle rfl rfl rfl rfl hco ?_ ?_
  · intro g' hg' hor
    apply h.two_slots g' hg'
    rcases hor with h1 | h1 | h1
    · exact Or.inl h1
    · exact Or.inr (Or.inl h1)
    · obtain ⟨j, hj, hvj, hdj, hgj⟩ := h1
      by_cases hjv : j = v
      · rw [hjv, loaded_self] at hdj
        exact absurd hdj (by simp)
      · rw [loaded_other s g hjv] at hvj hdj hgj
        exact Or.inr (Or.inr ⟨j, hj, hvj, hdj, hgj⟩)
  · intro g' hg'
    rw [curBits_loaded h.toCoherent hv hmiss]
    exact h.free_eq g' hg'

/-- A hit only moves the entry's stamp. -/
def stamped (s : GSt) (i : ℕ) : GSt :=
  { s with map := { s.map with
      clock := (s.map.clock + 1) % 2 ^ 32
      cache := update s.map.cache i
        { s.map.cache i with stamp := (s.map.clock + 1) % 2 ^ 32 } } }

theorem stamped_entry (s : GSt) (i j : ℕ) :
    (((stamped s i).map.cache j).valid = (s.map.cache j).valid ∧
      ((stamped s i).map.cache j).g = (s.map.cache j).g) ∧
    ((stamped s i).map.cache j).bits = (s.map.cache j).bits ∧
    ((stamped s i).map.cache j).dirty = (s.map.cache j).dirty := by
  by_cases h : j = i
  · subst h
    simp [stamped]
  · simp [stamped, h]

theorem curBits_stamped (s : GSt) (i g : ℕ) : curBits (stamped s i) g = curBits s g := by
  have hhit : cacheHit (stamped s i).map g = cacheHit s.map g :=
    cacheHit_congr (fun j _ => (stamped_entry s i j).1) g
  unfold curBits
  rw [hhit]
  cases cacheHit s.map g with
  | some j => exact (stamped_entry s i j).2.1
  | none => rfl

theorem Coherent.stamped (h : Coherent s) (i : ℕ) : Coherent (stamped s i) := by
  have hent := stamped_entry s i
  refine h.of_entries rfl rfl rfl (fun j => (hent j).1) fun j hj hv hd => ?_
  rw [(hent j).2.2] at hd
  rw [(hent j).2.1]
  exact h.clean j hj hv hd

theorem MapOk.stamped (h : MapOk s) (i : ℕ) : MapOk (stamped s i) := by
  have hent := stamped_entry s i
  have hco := h.toCoherent.stamped i
  refine h.toMapGeo.mapOk le_rfl rfl rfl rfl rfl hco ?_ ?_
  · intro g hg hor
    apply h.two_slots g hg
    rcases hor with h1 | h1 | h1
    · exact Or.inl h1
    · exact Or.inr (Or.inl h1)
    · obtain ⟨j, hj, hv, hd, hgj⟩ := h1
      rw [(hent j).1.1] at hv
      rw [(hent j).2.2] at hd
      rw [(hent j).1.2] at hgj
      exact Or.inr (Or.inr ⟨j, hj, hv, hd, hgj⟩)
  · intro g hg
    rw [curBits_stamped]
    exact h.free_eq g hg

/-- What `load` promises: entry `i` holds the bits of group `g`, and no bit changed. -/
structure LoadOk (s : GSt) (g i : ℕ) (s' : GSt) : Prop where
  ok : MapOk s'
  same : Same s s'
  lt : i < gmapCache
  valid : (s'.map.cache i).valid = true
  group : (s'.map.cache i).g = g
  bits : (s'.map.cache i).bits = curBits s g

/-- Writing the victim back leaves it clean. -/
theorem wp_evict (h : MapOk s) (hv : v < gmapCache)
    (hQ : ∀ t, MapOk t → Same s t → cacheHit t.map g = cacheHit s.map g →
      (∀ g', ¬ DirtyAt t.map v g') → Q () t) : (evict v).wp Q E s := by
  simp only [evict, wp_bind, wp_get, wp_ite]
  refine ⟨fun hdirty => ?_, fun hclean => ?_⟩
  · rw [Bool.and_eq_true] at hdirty
    have hd : DirtyAt s.map v (s.map.cache v).g := ⟨hv, hdirty.1, hdirty.2, rfl⟩
    have hent := flushed_entry s v
    rw [wp_attempt]
    apply wp_flushOne h hd
    exact hQ _ (h.flushed hd) (same_flushed h hd) (cacheHit_congr (fun j _ => (hent j).1) g)
      (not_dirty_flushed s v)
  · apply hQ s h (Same.refl s) rfl
    intro g' hd'
    exact hclean (by rw [hd'.2.1, hd'.2.2.1]; rfl)

/-- `load` of a group of the volume succeeds. -/
theorem wp_load_ok (h : MapOk s) (hg : g < s.map.ngroups) {Q : ℕ → GSt → Prop}
    (hQ : ∀ i s', LoadOk s g i s' → Q i s') : (load g).wp Q E s := by
  simp only [load, wp_bind, wp_get]
  cases hc : cacheHit s.map g with
  | some i =>
    obtain ⟨hi, hv, hgi⟩ := cacheHit_some hc
    have hent := stamped_entry s i i
    apply hQ i (stamped s i)
    refine ⟨h.stamped i, ?_, hi, hent.1.1.trans hv, hent.1.2.trans hgi, ?_⟩
    · exact ⟨⟨rfl, rfl, rfl, rfl, rfl, Disk.WroteOnly.refl _ _⟩, rfl,
        fun g' _ => curBits_stamped s i g'⟩
    · rw [hent.2.1, curBits, hc]
  | none =>
    have hvlt := victim_lt s.map
    -- what remains once the victim is not dirty
    have hrest : ∀ t : GSt, MapOk t → Same s t → cacheHit t.map g = none →
        (∀ g', ¬ DirtyAt t.map (victim s.map) g') →
          Q (victim s.map) (loaded t (victim s.map) g) := by
      intro t ht hst hmiss hclean
      have hgt : g < t.map.ngroups := hst.ngroups ▸ hg
      have hself := loaded_self t (victim s.map) g
      apply hQ
      refine ⟨ht.loaded hclean hmiss hgt, hst.trans (same_loaded ht hclean hmiss), hvlt, ?_, ?_, ?_⟩
      · rw [hself]
      · rw [hself]
      · rw [hself, ← hst.bits g hg, curBits, hmiss]
    simp only [wp_bind]
    apply wp_evict (g := g) h hvlt
    intro t ht hst hhit hclean
    simp only [wp_bind, wp_get, wp_attempt]
    apply wp_gread ht (ht.newest_le (hst.ngroups ▸ hg)) (ht.newest_lt (hst.ngroups ▸ hg))
    exact hrest t ht hst (hhit.trans hc) hclean

/-- What `load` promises of a map that keeps its invariant. -/
structure LoadPost (s : GSt) (g i : ℕ) (s' : GSt) : Prop where
  inv : GInv s'
  same : Same s s'
  lt : i < gmapCache
  valid : (s'.map.cache i).valid = true
  group : (s'.map.cache i).g = g
  bits : (s'.map.cache i).bits = curBits s g

theorem wp_load (h : GInv s) (hg : g < s.map.ngroups) {Q : ℕ → GSt → Prop}
    (hQ : ∀ i s', LoadPost s g i s' → Q i s') : (load g).wp Q E s := by
  apply wp_load_ok h.toMapOk hg
  intro i s' hp
  exact hQ i s' ⟨h.of_same hp.ok hp.same, hp.same, hp.lt, hp.valid, hp.group, hp.bits⟩

end Load

end Xasmos.Exfs
