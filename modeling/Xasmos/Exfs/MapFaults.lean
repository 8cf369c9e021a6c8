import Xasmos.Exfs.FlatMap

/-!
# The group map on a device that fails

Any request may fail, and a write that fails may leave anything in its block.  The only
write of `gmap_take`, `gmap_release` and `gmap_is_used` is the one that makes room in the
cache.  As long as no such write fails, no call loses a bit: what `gmap_take` handed out stays
used until a release of it is called (`FaultRun.acknowledged`).  A read that fails drops an
entry that is already on the device, and a write of `gmap_flush` that fails leaves its entry
in the cache.

When the write back of an evicted entry fails, `load` drops the entry with its bits.

## Main definitions

* `Sound` — the cache agrees with the device; `Unmoved` — no bit changed.
* `FaultRun` — the runs on a device with faults.
-/

namespace Xasmos.Exfs

open Bytes Prog

variable {D d : Disk} {E : GmapError → GSt → Prop} {P : GSt → GSt → Prop} {Q : Unit → GSt → Prop}
  {b c g g0 gb i j k len n need off0 ss start total v valid : ℕ} {bits : Bytes} {m m' : GMap}
  {r : ℕ × ℕ} {s s' s'' t : GSt}

/-- The cache agrees with the device.  Nothing is said of the bits, the free counts or the
faults. -/
structure Sound (s : GSt) : Prop extends Coherent s where
  gb_max : s.map.gb ≤ groupMax
  ngroups_eq : s.map.ngroups = (s.map.total + s.map.gb - 1) / s.map.gb
  ngroups_le : s.map.ngroups ≤ maxGroups
  ngroups_pos : 0 < s.map.ngroups
  spb_mul : s.map.spb * s.disk.sectorSize = blockBytes

/-- The geometry is the same. -/
structure SameGeo (s s' : GSt) : Prop where
  spb : s'.map.spb = s.map.spb
  total : s'.map.total = s.map.total
  gb : s'.map.gb = s.map.gb
  ngroups : s'.map.ngroups = s.map.ngroups
  sectorSize : s'.disk.sectorSize = s.disk.sectorSize

/-- No bit changed. -/
structure Unmoved (s s' : GSt) : Prop extends SameGeo s s' where
  bits : ∀ g < s.map.ngroups, curBits s' g = curBits s g

section Geometry

variable {t : ℕ}

theorem SameGeo.refl (s : GSt) : SameGeo s s := ⟨rfl, rfl, rfl, rfl, rfl⟩

theorem SameGeo.trans (h : SameGeo s s') (h' : SameGeo s' s'') : SameGeo s s'' :=
  ⟨h'.spb.trans h.spb, h'.total.trans h.total, h'.gb.trans h.gb, h'.ngroups.trans h.ngroups,
    h'.sectorSize.trans h.sectorSize⟩

theorem Unmoved.refl (s : GSt) : Unmoved s s := ⟨SameGeo.refl s, fun _ _ => rfl⟩

theorem Unmoved.trans (h : Unmoved s s') (h' : Unmoved s' s'') : Unmoved s s'' :=
  ⟨h.toSameGeo.trans h'.toSameGeo, fun g hg => (h'.bits g (h.ngroups ▸ hg)).trans (h.bits g hg)⟩

/-- A map with the geometry of a sound one is sound if its cache agrees with its device. -/
theorem Sound.of_geo (h : Sound s) (hg : SameGeo s s') (hc : Coherent s') : Sound s' where
  toCoherent := hc
  gb_max := by rw [hg.gb]; exact h.gb_max
  ngroups_eq := by rw [hg.ngroups, hg.total, hg.gb]; exact h.ngroups_eq
  ngroups_le := by rw [hg.ngroups]; exact h.ngroups_le
  ngroups_pos := by rw [hg.ngroups]; exact h.ngroups_pos
  spb_mul := by rw [hg.spb, hg.sectorSize]; exact h.spb_mul

theorem Sound.gb_pos (h : Sound s) : 0 < s.map.gb := lt_of_lt_of_le (by decide) h.gb_min

theorem Sound.group_lt (h : Sound s) (hb : b < s.map.total) : b / s.map.gb < s.map.ngroups := by
  have hpos := h.gb_pos
  have hle := Nat.div_mul_le_self b s.map.gb
  rw [h.ngroups_eq, Nat.lt_div_iff_mul_lt hpos]
  omega

theorem Sound.group_mod (h : Sound s) (hb : b < s.map.total) :
    b / s.map.gb % 2 ^ 32 = b / s.map.gb := by
  have h1 := h.group_lt hb
  have h2 := h.ngroups_le
  simp only [maxGroups] at h2
  exact Nat.mod_eq_of_lt (by omega)

theorem Unmoved.used_eq (h : Unmoved s s') (hs : Sound s) (hb : b < s.map.total) :
    used s' b = used s b := by
  rw [used, used, h.gb, h.bits _ (hs.group_lt hb)]

/-- The sectors of a slot have 64-bit numbers, for every group number that is a 32-bit one. -/
theorem slotBlock_mul_lt (hspb : m.spb * ss = blockBytes) (hgb : m.gb ≤ groupMax) (hg : g < 2 ^ 32)
    (ht : t ≤ 1) : (slotBlock m g t + 1) * m.spb < 2 ^ 64 := by
  have hle : m.spb ≤ 4096 := by
    rcases Nat.eq_zero_or_pos ss with h0 | h0
    · rw [h0, Nat.mul_zero] at hspb
      exact absurd hspb (by decide)
    · have := Nat.le_mul_of_pos_right m.spb h0
      rw [hspb] at this
      exact this
  have hblk : slotBlock m g t + 1 ≤ 2 ^ 32 * 32768 + 32 := by
    have hmul : g * m.gb ≤ 2 ^ 32 * 32768 := Nat.mul_le_mul hg.le hgb
    simp only [slotBlock, dataStart, itabArea1, itabArea0, itabBlocks]
    split <;> omega
  have hmul : (slotBlock m g t + 1) * m.spb ≤ (2 ^ 32 * 32768 + 32) * 4096 :=
    Nat.mul_le_mul hblk hle
  omega

theorem Sound.slot_lt (h : Sound s) (hg : g < s.map.ngroups) (ht : t ≤ 1) :
    slotBlock s.map g t * s.map.spb < 2 ^ 64 := by
  have hng := h.ngroups_le
  simp only [maxGroups] at hng
  exact lt_of_le_of_lt (Nat.mul_le_mul_right _ (Nat.le_succ _))
    (slotBlock_mul_lt h.spb_mul h.gb_max (by omega) ht)

end Geometry

/-! ## Requests of the map -/

section Requests

variable {t : ℕ}

theorem wp_gread_any (h : Sound s) (hg : g < s.map.ngroups) (ht : t ≤ 1) {Q : Bytes → GSt → Prop}
    (hQ : Q (s.disk.block (slotBlock s.map g t)) { s with disk := s.disk.served })
    (hE : ∀ d : Disk, d.block = s.disk.block → d.refused = s.disk.refused →
      d.sectorSize = s.disk.sectorSize →
      E .eio { s with disk := d }) : (gread g t).wp Q E s := by
  simp only [gread, mapIo, wp_bind, wp_get, wp_zoom, wp_mapError]
  exact wp_blkRead_any h.spb_mul (h.slot_lt hg ht) hQ fun _ => ⟨hE _ rfl rfl rfl, hE _ rfl rfl rfl⟩

theorem wp_gwrite_any (h : Sound s) (hg : g < s.map.ngroups) (ht : t ≤ 1)
    (hQ : Q () { s with disk := s.disk.served.put (slotBlock s.map g t) bits })
    (hE : ∀ d : Disk, d.refused = s.disk.refused + 1 → d.sectorSize = s.disk.sectorSize →
      (∀ c, c ≠ slotBlock s.map g t → d.block c = s.disk.block c) → E .eio { s with disk := d }) :
    (gwrite g t bits).wp Q E s := by
  simp only [gwrite, mapIo, wp_bind, wp_get, wp_zoom, wp_mapError]
  exact wp_blkWrite_any h.spb_mul (h.slot_lt hg ht) hQ fun _ d hle hr hw =>
    hE d hr hle.sectorSize fun _ hc => hw.block_eq hle hc

/-- The state after a write back of entry `i` that failed: only its pending slot may have
changed. -/
structure Spoiled (s : GSt) (i : ℕ) (s' : GSt) : Prop where
  map : s'.map = s.map
  refused : s'.disk.refused = s.disk.refused + 1
  sectorSize : s'.disk.sectorSize = s.disk.sectorSize
  block : ∀ c, c ≠ slotBlock s.map (s.map.cache i).g (1 - s.map.slot (s.map.cache i).g) →
    s'.disk.block c = s.disk.block c

theorem wp_flushOne_any (h : Sound s) (hd : DirtyAt s.map i (s.map.cache i).g)
    (hQ : Q () (flushed s i)) (hE : ∀ s', Spoiled s i s' → E .eio s') : (flushOne i).wp Q E s := by
  simp only [flushOne, wp_bind, wp_get]
  refine wp_gwrite_any h (h.entry_lt i hd.1 hd.2.1) (by omega) hQ fun d h1 h2 h3 => ?_
  exact hE _ ⟨rfl, h1, h2, h3⟩

theorem sameGeo_flushed (s : GSt) (i : ℕ) : SameGeo s (flushed s i) := ⟨rfl, rfl, rfl, rfl, rfl⟩

/-- A write back that succeeds changes no bit. -/
theorem Sound.flushed (h : Sound s) (hd : DirtyAt s.map i (s.map.cache i).g) :
    Sound (flushed s i) ∧ Unmoved s (flushed s i) :=
  ⟨h.of_geo (sameGeo_flushed s i) (h.toCoherent.flushed hd), sameGeo_flushed s i,
    fun _ hg => curBits_flushed h.toCoherent hd hg⟩

/-- A write back that fails changes no bit either, while the entry stays in the cache. -/
theorem Spoiled.unmoved (hp : Spoiled s i s') (h : Sound s)
    (hd : DirtyAt s.map i (s.map.cache i).g) : Sound s' ∧ Unmoved s s' := by
  have hgeo : SameGeo s s' := by
    refine ⟨?_, ?_, ?_, ?_, hp.sectorSize⟩ <;> rw [hp.map]
  have hslot := h.slot_le _ (h.entry_lt i hd.1 hd.2.1)
  -- the slots of the other groups are as they were
  have hblk : ∀ g < s.map.ngroups, g ≠ (s.map.cache i).g →
      s'.disk.block (slotBlock s.map g (newestSlot s.map g)) =
        s.disk.block (slotBlock s.map g (newestSlot s.map g)) := by
    intro g hg hne
    refine hp.block _ fun he => hne ?_
    exact (slotBlock_inj h.gb_min (h.newest_le hg) (by omega) he).1
  refine ⟨h.of_geo hgeo ⟨?_, ?_, ?_, ?_, ?_⟩, hgeo, ?_⟩
  · rw [hp.map]; exact h.gb_min
  · rw [hp.map]; exact h.slot_le
  · rw [hp.map]; exact h.one_entry
  · rw [hp.map]; exact h.entry_lt
  · rw [hp.map]
    intro j hj hv hc
    rw [h.clean j hj hv hc]
    refine (hblk _ (h.entry_lt j hj hv) fun he => ?_).symm
    obtain rfl := h.one_entry j i hj hd.1 hv hd.2.1 he
    rw [hd.2.2.1] at hc
    exact absurd hc (by simp)
  · intro g hg
    unfold curBits
    rw [hp.map]
    cases hc : cacheHit s.map g with
    | some j => rfl
    | none => exact hblk g hg fun he => cacheHit_none hc hd.1 hd.2.1 he.symm

end Requests

/-! ## Loading a group -/

section Load

/-- Entry `v` made invalid, on the device `d`. -/
def droppedEntry (s : GSt) (v : ℕ) (d : Disk) : GSt where
  map := { s.map with cache := Function.update s.map.cache v { s.map.cache v with valid := false } }
  disk := d

theorem droppedEntry_other (h : j ≠ v) : (droppedEntry s v d).map.cache j = s.map.cache j := by
  simp [droppedEntry, h]

theorem droppedEntry_self : ((droppedEntry s v d).map.cache v).valid = false := by
  simp [droppedEntry]

/-- Dropping an entry that is not dirty changes no bit. -/
theorem Sound.dropped (h : Sound s) (hv : ∀ g, ¬ DirtyAt s.map v g) (hb : d.block = s.disk.block)
    (hss : d.sectorSize = s.disk.sectorSize) :
    Sound (droppedEntry s v d) ∧ Unmoved s (droppedEntry s v d) := by
  have hgeo : SameGeo s (droppedEntry s v d) := ⟨rfl, rfl, rfl, rfl, hss⟩
  have hkept : ∀ j, ((droppedEntry s v d).map.cache j).valid = true →
      (droppedEntry s v d).map.cache j = s.map.cache j := by
    intro j hj
    refine droppedEntry_other ?_
    rintro rfl
    rw [droppedEntry_self] at hj
    exact absurd hj (by simp)
  refine ⟨h.of_geo hgeo ⟨h.gb_min, h.slot_le, ?_, ?_, ?_⟩, hgeo, ?_⟩
  · intro i j hi hj hvi hvj hij
    have h1 := hkept i hvi
    have h2 := hkept j hvj
    rw [h1] at hvi hij
    rw [h2] at hvj hij
    exact h.one_entry i j hi hj hvi hvj hij
  · intro i hi hvi
    have h1 := hkept i hvi
    rw [h1] at hvi ⊢
    exact h.entry_lt i hi hvi
  · intro i hi hvi hc
    have h1 := hkept i hvi
    rw [h1] at hvi hc ⊢
    rw [h.clean i hi hvi hc]
    exact (congrFun hb _).symm
  · intro g _
    cases hc : cacheHit (droppedEntry s v d).map g with
    | some j =>
      obtain ⟨hj, hvj, hgj⟩ := cacheHit_some hc
      have hcur : curBits (droppedEntry s v d) g = ((droppedEntry s v d).map.cache j).bits := by
        rw [curBits, hc]
      have h1 := hkept j hvj
      rw [h1] at hvj hgj hcur
      rw [hcur, ← hgj, h.curBits_cached hj hvj]
    | none =>
      have hclean : ∀ j, ¬ DirtyAt s.map j g := by
        intro j hd
        have hjv : j ≠ v := fun he => hv g (he ▸ hd)
        have hother := droppedEntry_other (s := s) (d := d) hjv
        exact cacheHit_none hc hd.1 (by rw [hother]; exact hd.2.1) (by rw [hother]; exact hd.2.2.2)
      rw [h.curBits_disk hclean, curBits, hc]
      exact congrFun hb _

/-- What `load` promises on any device: entry `i` holds the bits of group `g`, no bit changed
and no write failed. -/
structure LoadAny (s : GSt) (g i : ℕ) (s' : GSt) : Prop where
  sound : Sound s'
  unmoved : Unmoved s s'
  refused : s'.disk.refused = s.disk.refused
  lt : i < gmapCache
  valid : (s'.map.cache i).valid = true
  group : (s'.map.cache i).g = g
  bits : (s'.map.cache i).bits = curBits s g

/-- What is left after a failure: unless a write failed, no bit changed. -/
def Spared (s s' : GSt) : Prop := s'.disk.refused = s.disk.refused → Sound s' ∧ Unmoved s s'

theorem Spared.of_unmoved (h : Unmoved s t) (hr : t.disk.refused = s.disk.refused)
    (hs : Spared t s') : Spared s s' := by
  intro he
  obtain ⟨h1, h2⟩ := hs (he.trans hr.symm)
  exact ⟨h1, h.trans h2⟩

/-- Making room in the cache: the victim goes to its slot, or the write fails. -/
theorem wp_evict_any (h : Sound s) (hv : v < gmapCache)
    (hQ : ∀ t, Sound t → Unmoved s t → t.disk.refused = s.disk.refused →
      cacheHit t.map g = cacheHit s.map g → (∀ g', ¬ DirtyAt t.map v g') → Q () t)
    (hE : ∀ s', s'.disk.refused = s.disk.refused + 1 → E .eio s') : (evict v).wp Q E s := by
  simp only [evict, wp_bind, wp_get, wp_ite]
  refine ⟨fun hdirty => ?_, fun hclean => ?_⟩
  · rw [Bool.and_eq_true] at hdirty
    have hd : DirtyAt s.map v (s.map.cache v).g := ⟨hv, hdirty.1, hdirty.2, rfl⟩
    have hent := flushed_entry s v
    rw [wp_attempt]
    refine wp_flushOne_any h hd ?_ fun s' hp => ?_
    · obtain ⟨h1, h2⟩ := h.flushed hd
      exact hQ _ h1 h2 rfl (cacheHit_congr (fun j _ => (hent j).1) g) (not_dirty_flushed s v)
    · simp only [wp_bind, modMap, wp_modify, wp_throw]
      exact hE _ hp.refused
  · refine hQ s h (Unmoved.refl s) rfl rfl fun g' hd' => hclean ?_
    rw [hd'.2.1, hd'.2.2.1]
    rfl

theorem wp_load_any (h : Sound s) (hg : g < s.map.ngroups) {Q : ℕ → GSt → Prop}
    (hQ : ∀ i s', LoadAny s g i s' → Q i s') (hE : ∀ s', Spared s s' → E .eio s') :
    (load g).wp Q E s := by
  simp only [load, wp_bind, wp_get]
  cases hc : cacheHit s.map g with
  | some i =>
    obtain ⟨hi, hv, hgi⟩ := cacheHit_some hc
    have hent := stamped_entry s i i
    have hgeo : SameGeo s (stamped s i) := ⟨rfl, rfl, rfl, rfl, rfl⟩
    refine hQ i (stamped s i) ⟨h.of_geo hgeo (h.toCoherent.stamped i),
      ⟨hgeo, fun g' _ => curBits_stamped s i g'⟩, rfl, hi, hent.1.1.trans hv,
      hent.1.2.trans hgi, ?_⟩
    rw [hent.2.1, curBits, hc]
  | none =>
    simp only [wp_bind]
    refine wp_evict_any (g := g) h (victim_lt s.map) (fun t ht hst hr hhit hclean => ?_)
      fun s' hr => ?_
    · have hgt : g < t.map.ngroups := hst.ngroups ▸ hg
      have hmiss := hhit.trans hc
      simp only [wp_bind, wp_get, wp_attempt]
      refine wp_gread_any ht hgt (ht.newest_le hgt) ?_ fun d hb hr' hss => ?_
      · have hself := loaded_self t (victim s.map) g
        have hgeo : SameGeo t (loaded t (victim s.map) g) := ⟨rfl, rfl, rfl, rfl, rfl⟩
        refine hQ _ (loaded t (victim s.map) g) ⟨ht.of_geo hgeo (ht.toCoherent.loaded hmiss hgt),
          hst.trans ⟨hgeo, fun g' _ => curBits_loaded ht.toCoherent hclean hmiss g'⟩, hr,
          victim_lt s.map, ?_, ?_, ?_⟩
        · rw [hself]
        · rw [hself]
        · rw [hself, ← hst.bits g hg, curBits, hmiss]
      · simp only [wp_bind, modMap, wp_modify, wp_throw]
        obtain ⟨h1, h2⟩ := ht.dropped hclean hb hss
        exact hE _ fun _ => ⟨h1, hst.trans h2⟩
    · refine hE s' fun he => ?_
      rw [hr] at he
      omega

end Load

/-! ## Take -/

section Take

/-- What a take that returns the run `r` did: the run is used now, and no other bit changed. -/
structure TookAny (s : GSt) (r : ℕ × ℕ) (s' : GSt) : Prop where
  sound : Sound s'
  geo : SameGeo s s'
  in_volume : ∀ b, r.1 ≤ b → b < r.1 + r.2 → b < s.map.total
  now_used : ∀ b < s.map.total, used s' b = (used s b || decide (r.1 ≤ b ∧ b < r.1 + r.2))

theorem TookAny.of_unmoved (hs : Sound s) (h : Unmoved s t) (ht : TookAny t r s') :
    TookAny s r s' where
  sound := ht.sound
  geo := h.toSameGeo.trans ht.geo
  in_volume b h1 h2 := h.total ▸ ht.in_volume b h1 h2
  now_used b hb := by rw [ht.now_used b (h.total ▸ hb), h.used_eq hs hb]

theorem markRun_of_ge (hi : valid ≤ i) : markRun valid k i bits = (bits, i) := by
  cases k with
  | zero => rfl
  | succ k => rw [markRun, if_neg (by omega)]

/-- Marking a run from any bit on. -/
theorem tookAny_edited (need i fr : ℕ) (h : Sound s) (hc : c < gmapCache)
    (hv : (s.map.cache c).valid = true) (hg : (s.map.cache c).g = g) :
    TookAny s (g * s.map.gb + i, (markRun (validBits s.map g) need i (s.map.cache c).bits).2 - i)
      (edited s c (markRun (validBits s.map g) need i (s.map.cache c).bits).1 fr) := by
  have hcur : curBits s g = (s.map.cache c).bits := hg ▸ h.curBits_cached hc hv
  have hrun := markRun_spec (validBits s.map g) need i (s.map.cache c).bits
  -- a run that starts past the valid bits is empty
  have hend : (markRun (validBits s.map g) need i (s.map.cache c).bits).2 ≤ validBits s.map g ∨
      (markRun (validBits s.map g) need i (s.map.cache c).bits).2 = i := by
    rcases Nat.le_total i (validBits s.map g) with hle | hge
    · exact Or.inl (hrun.le_valid hle)
    · exact Or.inr (by rw [markRun_of_ge hge])
  generalize markRun (validBits s.map g) need i (s.map.cache c).bits = r at hrun hend ⊢
  have hle := hrun.le
  have hvalid : validBits s.map g ≤ s.map.gb ∧
      (0 < validBits s.map g → g * s.map.gb + validBits s.map g ≤ s.map.total) := by
    rw [validBits]
    split <;> omega
  have hgeo : SameGeo s (edited s c r.1 fr) := ⟨rfl, rfl, rfl, rfl, rfl⟩
  refine ⟨h.of_geo hgeo (h.toCoherent.edited c r.1 fr), hgeo, fun b h1 h2 => ?_, fun b hb => ?_⟩
  · dsimp only at h1 h2
    omega
  · have hgb : (edited s c r.1 fr).map.gb = s.map.gb := rfl
    have hdm := Nat.div_add_mod b s.map.gb
    have hml := Nat.mod_lt b h.gb_pos
    rw [used, hgb, curBits_edited h.toCoherent hc hv, hg]
    by_cases hbg : b / s.map.gb = g
    · rw [if_pos hbg, hrun.now_set, used, hbg, hcur]
      congr 1
      rw [hbg, Nat.mul_comm] at hdm
      exact decide_eq_decide.mpr (by omega)
    · rw [if_neg hbg, used]
      have hno : ¬ (g * s.map.gb + i ≤ b ∧ b < g * s.map.gb + i + (r.2 - i)) := by
        rintro ⟨h1, h2⟩
        apply hbg
        rw [show b = s.map.gb * g + (b - g * s.map.gb) by rw [Nat.mul_comm]; omega,
          Nat.mul_add_div h.gb_pos, Nat.div_eq_of_lt (by omega), Nat.add_zero]
      rw [decide_eq_false hno, Bool.or_false]

theorem wp_takeFrom_any (h : Sound s) :
    (takeFrom g0 off0 need n k).wp (fun r s' => TookAny s r s') (fun _ s' => Spared s s') s := by
  induction n generalizing k s with
  | zero => exact fun _ => ⟨h, Unmoved.refl s⟩
  | succ n ih =>
    have hglt : (g0 + k) % s.map.ngroups < s.map.ngroups := Nat.mod_lt _ h.ngroups_pos
    simp only [takeFrom, wp_bind, wp_get, wp_ite]
    refine ⟨fun _ => ih h, fun _ => wp_load_any h hglt (fun c t hp => ?_) fun s' hs => hs⟩
    simp only [wp_bind, wp_get, wp_ite]
    refine ⟨fun _ => ?_, fun _ => ?_⟩
    · exact wp_mono (ih hp.sound) (fun _ _ _ ht => ht.of_unmoved h hp.unmoved)
        fun _ _ _ hs => hs.of_unmoved hp.unmoved hp.refused
    · have ht := fun i fr => (tookAny_edited need i fr hp.sound hp.lt hp.valid hp.group).of_unmoved
        h hp.unmoved
      simp only [edited, hp.group] at ht
      simp only [modMap, wp_modify, wp_pure, hp.group]
      exact ht _ _

/-- **`gmap_take`** of any hint. -/
theorem wp_gmapTake_any (h : Sound s) (hint need : ℕ) :
    (gmapTake hint need).wp (fun r s' => TookAny s r s') (fun _ s' => Spared s s') s := by
  simp only [gmapTake, wp_bind, wp_get, wp_failIf, wp_ite]
  exact ⟨fun _ _ => ⟨h, Unmoved.refl s⟩,
    fun _ => ⟨fun _ => wp_takeFrom_any h, fun _ => wp_takeFrom_any h⟩⟩

end Take

/-! ## Release, query and flush -/

section Release

/-- No bit outside the run changed. -/
structure Outside (start len : ℕ) (s s' : GSt) : Prop where
  sound : Sound s'
  geo : SameGeo s s'
  bit : ∀ x < s.map.total, ¬ (start ≤ x ∧ x < start + len) → used s' x = used s x

/-- The first `n` blocks of a run that starts at `start` are free now, and no other bit changed. -/
structure Cleared (start n : ℕ) (s s' : GSt) : Prop where
  sound : Sound s'
  geo : SameGeo s s'
  bit : ∀ x < s.map.total, used s' x = (used s x && !decide (start ≤ x ∧ x < start + n))

theorem Unmoved.cleared (h : Unmoved s s') (hs : Sound s) (hs' : Sound s') :
    Cleared start 0 s s' := by
  refine ⟨hs', h.toSameGeo, fun x hx => ?_⟩
  rw [h.used_eq hs hx, decide_eq_false (by omega)]
  simp

theorem Cleared.outside (h : Cleared start n s s') (hn : n ≤ len) : Outside start len s s' := by
  refine ⟨h.sound, h.geo, fun x hx hno => ?_⟩
  rw [h.bit x hx, decide_eq_false (by omega)]
  simp

theorem Cleared.trans (h : Cleared start n s t) (h' : Cleared (start + n) len t s') :
    Cleared start (n + len) s s' := by
  refine ⟨h'.sound, h.geo.trans h'.geo, fun x hx => ?_⟩
  rw [h'.bit x (h.geo.total ▸ hx), h.bit x hx, Bool.and_assoc, ← Bool.not_or, ← Bool.decide_or]
  congr 2
  exact decide_eq_decide.mpr (by omega)

/-- One block of a release: its bit is cleared; or nothing changed, unless a write failed. -/
theorem wp_releaseBlock_cleared (h : Sound s) (hb : b < s.map.total) :
    (releaseBlock b).wp (fun _ s' => Cleared b 1 s s' ∧ s'.disk.refused = s.disk.refused)
      (fun _ s' => Spared s s') s := by
  simp only [releaseBlock, wp_bind, wp_get, h.group_mod hb]
  refine wp_load_any h (h.group_lt hb) (fun c t hp => ?_) fun s' hs => hs
  simp only [wp_bind, wp_get, wp_failIf, hp.unmoved.gb]
  refine ⟨fun _ _ => ⟨hp.sound, hp.unmoved⟩, fun _ => ?_⟩
  have hgb : t.map.gb = s.map.gb := hp.unmoved.gb
  have hedit : ∀ fr, Cleared b 1 s
      (edited t c (bitPut (t.map.cache c).bits (b % s.map.gb) false) fr) := by
    intro fr
    have hgeo : SameGeo t (edited t c (bitPut (t.map.cache c).bits (b % s.map.gb) false) fr) :=
      ⟨rfl, rfl, rfl, rfl, rfl⟩
    refine ⟨hp.sound.of_geo hgeo (hp.sound.toCoherent.edited _ _ _),
      hp.unmoved.toSameGeo.trans hgeo, fun x hx => ?_⟩
    rw [used, show (edited t c (bitPut (t.map.cache c).bits (b % s.map.gb) false) fr).map.gb =
      s.map.gb from hgb, curBits_edited hp.sound.toCoherent hp.lt hp.valid, hp.group, used]
    by_cases hxb : x = b
    · subst hxb
      rw [if_pos rfl, bitOf_bitPut_self, decide_eq_true (by omega), Bool.not_true, Bool.and_false]
    · rw [decide_eq_false (by omega), Bool.not_false, Bool.and_true]
      by_cases hg : x / s.map.gb = b / s.map.gb
      · have hne : x % s.map.gb ≠ b % s.map.gb := by
          intro hm
          apply hxb
          rw [← Nat.div_add_mod x s.map.gb, ← Nat.div_add_mod b s.map.gb, hg, hm]
        rw [if_pos hg, bitOf_bitPut_of_ne _ _ hne, hg, hp.bits]
      · rw [if_neg hg, hp.unmoved.bits _ (h.group_lt hx)]
  simp only [edited, hp.group, hgb] at hedit
  simp only [modMap, wp_modify, hp.group, hgb]
  exact ⟨hedit _, hp.refused⟩

theorem Sound.total_lt (h : Sound s) : s.map.total < 2 ^ 64 := by
  have hng := h.ngroups_le
  rw [h.ngroups_eq] at hng
  have hlt : (s.map.total + s.map.gb - 1) / s.map.gb < maxGroups + 1 := Nat.lt_succ_of_le hng
  rw [Nat.div_lt_iff_lt_mul h.gb_pos] at hlt
  have hmul : (maxGroups + 1) * s.map.gb ≤ (maxGroups + 1) * groupMax :=
    Nat.mul_le_mul_left _ h.gb_max
  simp only [maxGroups, groupMax] at hmul hlt
  omega

/-- **`gmap_release`** clears its run; one that stops has cleared the blocks before. -/
theorem wp_gmapRelease_cleared (h : Sound s) (hin : start + len ≤ s.map.total) :
    (gmapRelease start len).wp (fun _ s' => Cleared start len s s')
      (fun _ s' => s'.disk.refused = s.disk.refused → ∃ n < len, Cleared start n s s') s := by
  have hturns : (start + len) % 2 ^ 64 - start = len := by
    rw [Nat.mod_eq_of_lt (lt_of_le_of_lt hin h.total_lt)]
    omega
  rw [gmapRelease, hturns]
  refine wp_mono (wp_iterate (fun n _ t => Cleared start n s t ∧ t.disk.refused = s.disk.refused)
    ⟨(Unmoved.refl s).cleared h h, rfl⟩ (fun n _ t hn hI => ?_)) (fun _ t _ hI => hI.1)
      fun _ _ _ he => he
  obtain ⟨hc, hr⟩ := hI
  refine wp_mono (wp_releaseBlock_cleared hc.sound (by rw [hc.geo.total]; omega))
    (fun _ s' _ hp => ?_)
    fun _ s' _ hp he => ⟨n, hn, ?_⟩
  · exact ⟨hc.trans hp.1, hp.2.trans hr⟩
  · obtain ⟨h1, h2⟩ := hp (he.trans hr.symm)
    exact hc.trans (h2.cleared hc.sound h1)

/-- A release changes no bit outside its run, whether it succeeds or not. -/
theorem wp_gmapRelease_any (h : Sound s) (hin : start + len ≤ s.map.total) :
    (gmapRelease start len).wp (fun _ s' => Outside start len s s')
      (fun _ s' => s'.disk.refused = s.disk.refused → Outside start len s s') s := by
  refine wp_mono (wp_gmapRelease_cleared h hin) (fun _ s' _ hc => hc.outside le_rfl)
    fun _ s' _ hs he => ?_
  obtain ⟨n, hn, hc⟩ := hs he
  exact hc.outside hn.le

/-- **`gmap_is_used`** answers with the bit, or fails. -/
theorem wp_gmapIsUsed_any (h : Sound s) (hb : b < s.map.total) :
    (gmapIsUsed b).wp (fun u s' => u = used s b ∧ Sound s' ∧ Unmoved s s')
      (fun _ s' => Spared s s') s := by
  simp only [gmapIsUsed, wp_bind, wp_get, h.group_mod hb]
  refine wp_load_any h (h.group_lt hb) (fun c t hp => ?_) fun _ hs => hs
  simp only [wp_bind, wp_get, wp_pure]
  refine ⟨?_, hp.sound, hp.unmoved⟩
  rw [hp.bits, hp.unmoved.gb]
  rfl

/-- **`gmap_flush`** changes no bit, whether it succeeds or not. -/
theorem wp_gmapFlush_any (h : Sound s) :
    gmapFlush.wp (fun _ s' => Sound s' ∧ Unmoved s s' ∧ ∀ i g, ¬ DirtyAt s'.map i g)
      (fun _ s' => Sound s' ∧ Unmoved s s') s := by
  rw [gmapFlush]
  refine wp_mono (wp_iterate (fun k _ t => Sound t ∧ Unmoved s t ∧ ∀ i < k, ∀ g,
    ¬ DirtyAt t.map i g)
    ⟨h, Unmoved.refl s, fun i hi => absurd hi (Nat.not_lt_zero i)⟩ (fun k _ t hk hI => ?_))
    (fun _ t _ hI => ⟨hI.1, hI.2.1, fun i g hd => hI.2.2 i hd.1 g hd⟩) fun _ _ _ he => he
  obtain ⟨hs, hun, hclean⟩ := hI
  simp only [wp_bind, wp_get, wp_ite, wp_pure]
  refine ⟨fun hd => ?_, fun hd => ⟨hs, hun, fun i hi g hdi => ?_⟩⟩
  · rw [Bool.and_eq_true] at hd
    have hda : DirtyAt t.map k (t.map.cache k).g := ⟨hk, hd.1, hd.2, rfl⟩
    refine wp_flushOne_any hs hda ?_ fun s' hp => ?_
    · obtain ⟨h1, h2⟩ := hs.flushed hda
      refine ⟨h1, hun.trans h2, fun i hi g hdi => ?_⟩
      have hne : i ≠ k := by
        rintro rfl
        exact not_dirty_flushed t i g hdi
      exact hclean i (by omega) g (dirtyAt_of_flushed hdi)
    · obtain ⟨h1, h2⟩ := hp.unmoved hs hda
      exact ⟨h1, hun.trans h2⟩
  · by_cases hik : i = k
    · subst hik
      exact hd (by rw [hdi.2.1, hdi.2.2.1]; rfl)
    · exact hclean i (by omega) g hdi

end Release

/-! ## Runs -/

/-- The blocks a call names are on the volume. -/
def MapOp.InVolume (total : ℕ) : MapOp → Prop
  | .take _ _ => True
  | .release start len => start.toNat + len.toNat ≤ total
  | .isUsed block => block.toNat < total

/-- The states of runs on any device, each with the blocks that `gmap_take` handed out and no
release has named since.  A run starts with `gmap_format`, or with `gmap_import` of any tables;
its calls of `gmap_take`, `gmap_release` and `gmap_is_used` meet `P`. -/
inductive FaultRun (P : GSt → GSt → Prop) : GSt → (ℕ → Bool) → Prop where
  | format {m m' : GMap} {D : Disk} {s : GSt} {total gb : ℕ}
      (hinit : gmapInit m D.sectorSize total gb = .ok m')
      (hrun : gmapFormat.run ⟨m', D⟩ = (.ok (), s)) :
      FaultRun P s fun _ => false
  | adopt {m m' : GMap} {D : Disk} {total gb : ℕ} {slot free : ℕ → ℕ}
      (hinit : gmapInit m D.sectorSize total gb = .ok m') :
      FaultRun P (imported ⟨m', D⟩ slot free) fun _ => false
  | call {s s' : GSt} {H : ℕ → Bool} {op : MapOp} {r : Except GmapError MapAnswer}
    (h : FaultRun P s H)
      (hop : op.InVolume s.map.total) (hrun : op.prog.run s = (r, s')) (hP : P s s') :
      FaultRun P s' (op.after r H)
  | flush {s s' : GSt} {H : ℕ → Bool} {r : Except GmapError Unit} (h : FaultRun P s H)
      (hrun : gmapFlush.run s = (r, s')) : FaultRun P s' H
  | commit {s t : GSt} {H : ℕ → Bool} (h : FaultRun P s H) (hrun : gmapFlush.run s = (.ok (), t)) :
      FaultRun P (mapCommitted t) H

/-- No write failed between two states. -/
def AllWritten (s s' : GSt) : Prop := s'.disk.refused = s.disk.refused

/-- The blocks `H` are seen as used: by `gmap_is_used`, and in the tables that are exported
after the next flush. -/
structure Acknowledged (s : GSt) (H : ℕ → Bool) : Prop where
  isUsed : ∀ b, H b = true → ∀ u s', (gmapIsUsed b).run s = (.ok u, s') → u = true
  exported : ∀ b, H b = true → ∀ t, gmapFlush.run s = (.ok (), t) →
    bitOf (t.disk.block (slotBlock t.map (b / t.map.gb) ((gmapExport t.map).1 (b / t.map.gb))))
    (b % t.map.gb) = true

/-- The invariant of runs. -/
structure HeldUsed (s : GSt) (H : ℕ → Bool) : Prop extends Sound s where
  held : ∀ b, H b = true → b < s.map.total ∧ used s b = true

section Start

theorem sound_of_init (hinit : gmapInit m D.sectorSize total gb = .ok m') : Sound ⟨m', D⟩ := by
  obtain ⟨h1, h2, h3, _, h5, h6, h7, h8⟩ := gmapInit_spec hinit
  obtain ⟨hu, hempty⟩ := gmapInit_empty hinit
  refine ⟨coherent_of_empty ?_ (fun g _ => ?_) hempty, ?_, ?_, ?_, gmapInit_pos hinit, h5⟩
  · rw [h7]; exact h1
  · rw [hu.slot]; exact Nat.zero_le 1
  · rw [h7]; exact h2
  · rw [h6, h7, h8]
  · rw [h8]; exact h3

theorem Sound.imported (h : Sound ⟨m', D⟩) (slot free : ℕ → ℕ) :
    Sound (imported ⟨m', D⟩ slot free) := by
  refine h.of_geo ⟨rfl, rfl, rfl, rfl, rfl⟩
    (coherent_of_empty h.gb_min (fun g hg => ?_) fun _ => rfl)
  have hlt : g < m'.ngroups := hg
  simp only [Exfs.imported, gmapImport, dropCache, if_pos hlt]
  split <;> omega

/-- A format that succeeds leaves an empty cache. -/
theorem Sound.formatted (h : Sound s) (hrun : gmapFormat.run s = (.ok (), t)) : Sound t := by
  have hwp : gmapFormat.wp (fun _ t => Sound t) (fun _ _ => True) s := by
    simp only [gmapFormat, wp_bind, wp_get]
    refine wp_mono (E := fun _ _ => True)
      (wp_iterate (fun _ _ t => SameGeo s t ∧ ∀ g < s.map.ngroups, t.map.slot g ≤ 1)
        ⟨SameGeo.refl s, h.slot_le⟩ (fun k _ t hk hI => ?_))
      (fun _ t _ hI => ?_) fun _ _ _ _ => trivial
    · obtain ⟨hgeo, hslot⟩ := hI
      simp only [wp_bind, wp_get, modMap, wp_modify, gwrite, mapIo, wp_zoom, wp_mapError]
      -- the write leaves the map alone, and the device its sector size
      refine wp_mono (wp_any (Q := fun _ _ => True) (E := fun _ _ => True) _ (fun _ _ => trivial)
        fun _ _ => trivial) (fun _ d hle _ => ?_) fun _ _ _ _ => trivial
      refine ⟨hgeo.trans ⟨rfl, rfl, rfl, rfl, hle.sectorSize⟩, fun g hg => ?_⟩
      by_cases hgk : g = k
      · simp [hgk]
      · simpa [hgk] using hslot g hg
    · obtain ⟨hgeo, hslot⟩ := hI
      have hgd : SameGeo s ⟨dropCache t.map, t.disk⟩ := hgeo.trans ⟨rfl, rfl, rfl, rfl, rfl⟩
      exact h.of_geo hgd (coherent_of_empty (by rw [hgd.gb]; exact h.gb_min)
        (fun g hg => hslot g (hgd.ngroups ▸ hg)) fun _ => rfl)
  exact hwp.ok hrun

theorem Sound.committed (h : Sound s) : Sound (mapCommitted s) ∧ Unmoved s (mapCommitted s) := by
  have hgeo : SameGeo s (mapCommitted s) := ⟨rfl, rfl, rfl, rfl, rfl⟩
  exact ⟨h.of_geo hgeo h.toCoherent.committed, hgeo, fun _ hg => curBits_committed hg⟩

end Start

section Run

variable {H : ℕ → Bool}

theorem HeldUsed.unmoved (h : HeldUsed s H) (hs : Sound s') (hu : Unmoved s s') :
    HeldUsed s' H := by
  refine ⟨hs, fun b hb => ?_⟩
  obtain ⟨h1, h2⟩ := h.held b hb
  rw [hu.total, hu.used_eq h.toSound h1]
  exact ⟨h1, h2⟩

theorem HeldUsed.outside (h : HeldUsed s H) (ho : Outside start len s s') :
    HeldUsed s' (setRun H start len false) := by
  refine ⟨ho.sound, fun b hb => ?_⟩
  by_cases hrun : start ≤ b ∧ b < start + len
  · simp only [setRun, if_pos hrun] at hb
    exact absurd hb (by simp)
  · simp only [setRun, if_neg hrun] at hb
    obtain ⟨h1, h2⟩ := h.held b hb
    rw [ho.geo.total, ho.bit b h1 hrun]
    exact ⟨h1, h2⟩

theorem HeldUsed.took (h : HeldUsed s H) (ht : TookAny s r s') :
    HeldUsed s' (setRun H r.1 r.2 true) := by
  refine ⟨ht.sound, fun b hb => ?_⟩
  by_cases hrun : r.1 ≤ b ∧ b < r.1 + r.2
  · have hlt := ht.in_volume b hrun.1 hrun.2
    rw [ht.geo.total, ht.now_used b hlt, decide_eq_true hrun, Bool.or_true]
    exact ⟨hlt, rfl⟩
  · simp only [setRun, if_neg hrun] at hb
    obtain ⟨h1, h2⟩ := h.held b hb
    rw [ht.geo.total, ht.now_used b h1, h2, Bool.true_or]
    exact ⟨h1, rfl⟩

/-- **A call in which no write fails** loses no held block. -/
theorem HeldUsed.call {op : MapOp} {r : Except GmapError MapAnswer} (h : HeldUsed s H)
    (hop : op.InVolume s.map.total) (hrun : op.prog.run s = (r, s')) (hw : AllWritten s s') :
    HeldUsed s' (op.after r H) := by
  cases op with
  | take hint need =>
    have hwp : (MapOp.take hint need).prog.wp
      (fun a t => HeldUsed t ((MapOp.take hint need).after (.ok a) H))
        (fun _ t => Spared s t) s := by
      simp only [MapOp.prog, wp_bind]
      exact wp_mono (wp_gmapTake_any h.toSound hint.toNat need.toNat) (fun _ _ _ ht => h.took ht)
        fun _ _ _ hs => hs
    cases r with
    | ok a => exact hwp.ok hrun
    | error e =>
      obtain ⟨h1, h2⟩ := hwp.error hrun hw
      exact h.unmoved h1 h2
  | release start len =>
    have hwp : (MapOp.release start len).prog.wp (fun _ t => Outside start.toNat len.toNat s t)
        (fun _ t => AllWritten s t → Outside start.toNat len.toNat s t) s := by
      simp only [MapOp.prog, wp_bind]
      exact wp_gmapRelease_any h.toSound hop
    cases r with
    | ok a => exact h.outside (hwp.ok hrun)
    | error e => exact h.outside (hwp.error hrun hw)
  | isUsed block =>
    have hwp : (MapOp.isUsed block).prog.wp (fun _ t => Sound t ∧ Unmoved s t)
        (fun _ t => Spared s t) s := by
      simp only [MapOp.prog, wp_bind]
      exact wp_mono (wp_gmapIsUsed_any h.toSound hop) (fun _ _ _ hp => hp.2) fun _ _ _ hs => hs
    cases r with
    | ok a =>
      obtain ⟨h1, h2⟩ := hwp.ok hrun
      exact h.unmoved h1 h2
    | error e =>
      obtain ⟨h1, h2⟩ := hwp.error hrun hw
      exact h.unmoved h1 h2

/-- A flush loses no held block, whether it succeeds or not. -/
theorem HeldUsed.flush {r : Except GmapError Unit} (h : HeldUsed s H)
    (hrun : gmapFlush.run s = (r, s')) : HeldUsed s' H := by
  have hwp := wp_gmapFlush_any h.toSound
  cases r with
  | ok _ =>
    obtain ⟨h1, h2, _⟩ := hwp.ok hrun
    exact h.unmoved h1 h2
  | error e =>
    obtain ⟨h1, h2⟩ := hwp.error hrun
    exact h.unmoved h1 h2

/-- **Every state of a run in which no write of a call fails.** -/
theorem FaultRun.heldUsed (h : FaultRun AllWritten s H) : HeldUsed s H := by
  induction h with
  | format hinit hrun =>
    exact ⟨(sound_of_init hinit).formatted hrun,
      fun b hb => absurd hb (by simp)⟩
  | adopt hinit => exact ⟨(sound_of_init hinit).imported _ _, fun b hb => absurd hb (by simp)⟩
  | call _ hop hrun hw ih => exact ih.call hop hrun hw
  | flush _ hrun ih => exact ih.flush hrun
  | commit _ hrun ih =>
    have ht := ih.flush hrun
    obtain ⟨h1, h2⟩ := ht.toSound.committed
    exact ht.unmoved h1 h2

/-- **Acknowledged updates are kept** in every state of every run in which no write that
makes room in the cache fails, whatever else the device fails to do. -/
theorem FaultRun.acknowledged (s : GSt) (H : ℕ → Bool) (h : FaultRun AllWritten s H) :
    Acknowledged s H := by
  have hinv := h.heldUsed
  refine ⟨fun b hb u s' hrun => ?_, fun b hb t hrun => ?_⟩
  · obtain ⟨h1, h2⟩ := hinv.held b hb
    rw [((wp_gmapIsUsed_any hinv.toSound h1).ok hrun).1, h2]
  · obtain ⟨hs, hu, hclean⟩ := (wp_gmapFlush_any hinv.toSound).ok hrun
    obtain ⟨h1, h2⟩ := (hinv.flush hrun).held b hb
    rw [used, hs.toCoherent.curBits_flush hclean] at h2
    rw [show (gmapExport t.map).1 (b / t.map.gb) = newestSlot t.map (b / t.map.gb) from if_pos
      (hs.group_lt h1)]
    exact h2

/-- Nine groups of 64 blocks, one more than the cache holds.  The first twenty blocks of
each group are used, and the ninth request of the device fails. -/
def nineGroups : Disk where
  sectorSize := 4096
  sectorCount := 576
  stable _ j := if j < 2 then 0xFF else if j = 2 then 0x0F else 0
  cache := []
  fault n _ := if n = 8 then .fails none else .done
  reqs := 0
  refused := 0

/-- The calls of `takeIn` for the groups below `n`. -/
def afterTakes (n : ℕ) : GSt × (ℕ → Bool) :=
  afterCalls (imported ⟨nineMap, nineGroups⟩ (fun _ => 0) fun _ => 44, fun _ => false)
    ((List.range n).map takeIn)

theorem nineGroups_adopt (P : GSt → GSt → Prop) :
    FaultRun P (imported ⟨nineMap, nineGroups⟩ (fun _ => 0) fun _ => 44) fun _ => false :=
  FaultRun.adopt (D := nineGroups) (show gmapInit bootMap 4096 576 64 = .ok nineMap from rfl)

/-- Each of the calls meets `P` where it is made. -/
def AllCalls (P : GSt → GSt → Prop) : GSt × (ℕ → Bool) → List MapOp → Prop
  | _, [] => True
  | e, op :: ops => P e.1 (op.prog.run e.1).2 ∧
    AllCalls P ((op.prog.run e.1).2, op.after (op.prog.run e.1).1 e.2) ops

theorem FaultRun.afterCalls {e : GSt × (ℕ → Bool)} (h : FaultRun P e.1 e.2) {gs : List ℕ}
    (hP : AllCalls P e (gs.map takeIn)) :
    FaultRun P (afterCalls e (gs.map takeIn)).1 (afterCalls e (gs.map takeIn)).2 := by
  induction gs generalizing e with
  | nil => exact h
  | cons g gs ih =>
    have hstep : (takeIn g).prog.run e.1 = (((takeIn g).prog.run e.1).1,
      ((takeIn g).prog.run e.1).2) := rfl
    exact ih (h.call (show (takeIn g).InVolume _ from trivial) hstep hP.1) hP.2

theorem allCalls_of_forall (h : ∀ s s', P s s') (e : GSt × (ℕ → Bool)) (ops : List MapOp) :
    AllCalls P e ops := by
  induction ops generalizing e with
  | nil => trivial
  | cons op ops ih => exact ⟨h _ _, ih _⟩

instance decidableAllWritten : (e : GSt × (ℕ → Bool)) → (ops : List MapOp) →
    Decidable (AllCalls AllWritten e ops)
  | _, [] => isTrue trivial
  | e, op :: ops =>
    @instDecidableAnd _ _
      (inferInstanceAs (Decidable ((op.prog.run e.1).2.disk.refused = e.1.disk.refused)))
      (decidableAllWritten ((op.prog.run e.1).2, op.after (op.prog.run e.1).1 e.2) ops)

/-- The groups are adopted on a device whose tenth request fails, which is a read: the ninth take
has made room and cannot load its group. -/
def weakStart : GSt :=
  imported ⟨nineMap, { nineGroups with fault := fun n _ => if n = 9 then .fails none else .done }⟩
  (fun _ => 0) fun _ => 44

/-- A read fails in the ninth take; the tenth call takes a block there, and the first block stays
held. -/
theorem FaultRun.acknowledged_nineGroups :
    ((takeIn 8).prog.run
      (Exfs.afterCalls (weakStart, fun _ => false) ((List.range 8).map takeIn)).1).1.toOption =
        none ∧
    (Exfs.afterCalls (weakStart, fun _ => false) ((List.range 9 ++ [8]).map takeIn)).2 20 = true ∧
    (Exfs.afterCalls (weakStart, fun _ => false) ((List.range 9 ++ [8]).map takeIn)).2 532 = true ∧
    Acknowledged (Exfs.afterCalls (weakStart, fun _ => false) ((List.range 9 ++ [8]).map takeIn)).1
      (Exfs.afterCalls (weakStart, fun _ => false) ((List.range 9 ++ [8]).map takeIn)).2 := by
  have hwritten : AllCalls AllWritten (weakStart, fun _ => false)
      ((List.range 9 ++ [8]).map takeIn) := by
    decide +kernel
  have hstart : FaultRun AllWritten weakStart fun _ => false :=
    FaultRun.adopt (D :=
      { nineGroups with fault := fun n _ => if n = 9 then .fails none else .done })
      (show gmapInit bootMap 4096 576 64 = .ok nineMap from rfl)
  refine ⟨by decide +kernel, by decide +kernel, by decide +kernel, FaultRun.acknowledged _ _ ?_⟩
  exact FaultRun.afterCalls (e := (weakStart, fun _ => false)) hstart hwritten

/-- A write that fails while room is made in the cache loses the block taken in the group
that was to be evicted. -/
theorem eviction_loses_taken : FaultRun (fun _ _ => True) (afterTakes 9).1 (afterTakes 9).2 ∧
    (afterTakes 9).2 20 = true ∧ ((gmapIsUsed 20).run (afterTakes 9).1).1.toOption =
      some false := by
  refine ⟨(nineGroups_adopt fun _ _ => True).afterCalls
    (allCalls_of_forall (fun _ _ => trivial) _ _), ?_, ?_⟩
  · decide +kernel
  · decide +kernel

end Run

end Xasmos.Exfs
