import Xasmos.Exfs.MapFaults

/-!
# The space of the group map

What `gmap_take` finds and what `gmap_release` leaves when it refuses.

On a consistent map `gmap_take` finds space whenever there is some: it starts at the hint,
passes through every group and looks at the first one again from its start
(`gmapTake_complete`).  The map has to have a slot on the volume for every group with unwritten
bits.  A group of one block has none but the one that holds its bits; once that block itself is
handed out, the group cannot be written back, and a later call that needs the entry fails.

`gmap_release` clears the bits of its run one by one and stops at the first block that is free.
The blocks before it stay released, so a refused release leaves the map as it was exactly when
the first block of the run was the free one (`release_refused_iff`).
-/

namespace Xasmos.Exfs

open Bytes Prog

/-! ## Take -/

section Take

variable {s : GSt} {hint need : ℕ}

/-- **`gmap_take` finds space whenever there is some**, and what it takes is a free run of one
group that cannot be made longer. -/
theorem gmapTake_complete (h : MapOk s) (hhint : hint ≤ s.map.total) (hneed : 1 ≤ need) :
    ((∃ r, ((gmapTake hint need).run s).1 = .ok r) ↔ ∃ b < s.map.total, used s b = false) ∧
    ∀ r s', (gmapTake hint need).run s = (.ok r, s') → Took s need r s' := by
  have hwp := wp_gmapTake_marked h hneed hhint (Q := fun r s' => Took s need r s')
    (E := fun _ _ => ∀ b < s.map.total, used s b = true)
    (fun t c g i ht hs hv => (took_marked ht hv hneed).of_same h.toMapGeo hs)
    fun _ _ _ hfull b hb => h.used_of_full hfull hb
  constructor
  · constructor
    · rintro ⟨r, hr⟩
      have ht : Took s need r ((gmapTake hint need).run s).2 := hwp.ok (Prod.ext hr rfl)
      have hpos := ht.pos
      have hin := ht.in_volume
      exact ⟨r.1, by omega, ht.was_free r.1 le_rfl (by omega)⟩
    · rintro ⟨b, hb, hfree⟩
      cases hr : ((gmapTake hint need).run s).1 with
      | ok r => exact ⟨r, rfl⟩
      | error e =>
        have hfull := hwp.error (Prod.ext hr rfl)
        rw [hfull b hb] at hfree
        cases hfree
  · intro r s' hrun
    exact hwp.ok hrun

/-- A fresh map of 34 blocks has space, also for a hint at the end of the volume. -/
theorem gmapTake_complete_fresh : ∃ s : GSt, MapOk s ∧ s.map.total = 34 ∧
    ∃ r s', (gmapTake 34 5).run s = (.ok r, s') ∧ Took s 5 r s' := by
  obtain ⟨m, hinit⟩ : ∃ m, gmapInit bootMap blankDisk.sectorSize 34 64 = .ok m := ⟨_, rfl⟩
  obtain ⟨_, _, _, _, hspb, htot, hgb, _⟩ := gmapInit_spec hinit
  have hfit : 34 * m.spb ≤ blankDisk.sectorCount := by
    simp only [blankDisk, blockBytes] at hspb ⊢
    omega
  have hf : blankDisk.Faultless := fun _ _ => rfl
  have hgeo := gmapInit_geo hinit (by decide) (fun _ _ _ => hf.serves _) hfit
  obtain ⟨_, s, hrun, hp⟩ :=
    (wp_gmapFormat hgeo (gmapInit_empty hinit).1 (Q := fun _ s => FormatPost ⟨m, blankDisk⟩ s)
    (E := fun _ _ => False) fun _ hp => hp).exists_ok
  have htotal : s.map.total = 34 := hp.total.trans htot
  have hfree : used s 20 = false := by
    rw [hp.used 20 (by rw [htot]; decide), reservedBlock, hgb]
    rfl
  have h : ((∃ r, ((gmapTake 34 5).run s).1 = .ok r) ↔ ∃ b < s.map.total, used s b = false) ∧
      ∀ r s', (gmapTake 34 5).run s = (.ok r, s') → Took s 5 r s' :=
    gmapTake_complete hp.inv.toMapOk htotal.ge (by decide)
  obtain ⟨r, hr⟩ := h.1.mpr ⟨20, by rw [htotal]; decide, hfree⟩
  exact ⟨s, hp.inv.toMapOk, htotal, r, _, Prod.ext hr rfl, h.2 r _ (Prod.ext hr rfl)⟩

/-- A device of 513 blocks in nine groups.  The first twenty blocks of each group are used; the
last group has one block, the one with its bits, and that block is free. -/
def openDisk : Disk where
  sectorSize := 4096
  sectorCount := 513
  stable b j := if b = 512 then 0 else if j < 2 then 0xFF else if j = 2 then 0x0F else 0
  cache := []
  fault _ _ := .done
  reqs := 0
  refused := 0

/-- The map of `openDisk`, as `gmap_init` makes it. -/
def openMap : GMap := { bootMap with spb := 1, total := 513, gb := 64, ngroups := 9 }

theorem openMap_init : gmapInit bootMap openDisk.sectorSize 513 64 = .ok openMap := rfl

/-- The map with the tables of its free counts, as `gmap_import` makes it. -/
def openStart : GSt := imported ⟨openMap, openDisk⟩ (fun _ => 0) fun g => if g = 8 then 1 else 44

/-- The state after the block of the last group was taken, and one block of each of the first
`n` groups. -/
def openTaken (n : ℕ) : GSt :=
  (afterCalls (openStart, fun _ => false) (.take 512 1 :: (List.range n).map takeIn)).1

/-- The free counts of the map are those of its bits, before the takes and after, the device has
no fault and block 468 is free, and `gmap_take` does not find it. -/
theorem take_misses_space :
    (∀ g < 9, openStart.map.free g = clearBits (curBits openStart g) (validBits openStart.map g)) ∧
    (∀ g < 9, (openTaken 7).map.free g =
      clearBits (curBits (openTaken 7) g) (validBits (openTaken 7).map g)) ∧
    (∀ n r, (openTaken 7).disk.fault n r = .done) ∧
    468 < (openTaken 7).map.total ∧ used (openTaken 7) 468 = false ∧
    ((gmapTake 468 1).run (openTaken 7)).1 = .error .eio := by
  refine ⟨?_, ?_, ?_, ?_, ?_, ?_⟩
  · decide +kernel
  · decide +kernel
  · intro n r
    rfl
  · decide +kernel
  · decide +kernel
  · decide +kernel

end Take

/-! ## Release -/

section Release

variable {s s' : GSt} {b start len : ℕ}

/-- No block changed its status, and no group its free count. -/
structure MapKept (s s' : GSt) : Prop where
  used : ∀ b < s.map.total, used s' b = used s b
  free : ∀ g < s.map.ngroups, s'.map.free g = s.map.free g

theorem free_modMap {f : ℕ → ℕ} {k : GMap → GMap} (hk : ∀ m, (k m).free = m.free) :
    Preserves (modMap k) (fun s => s.map.free = f) := Preserves.modify fun s h => (hk s.map).trans h

theorem free_mapIo {α : Type} {f : ℕ → ℕ} (x : Prog BlkError Disk α) :
    Preserves (mapIo x) (fun s => s.map.free = f) := Preserves.zoom fun _ _ h => h

theorem free_flushOne {f : ℕ → ℕ} (i : ℕ) : Preserves (flushOne i) (fun s => s.map.free = f) := by
  apply Preserves.bind Preserves.get_self
  intro st
  apply Preserves.bind (Preserves.bind Preserves.get_self fun _ => free_mapIo _)
  intro _
  exact free_modMap fun _ => rfl

theorem free_evict {f : ℕ → ℕ} (v : ℕ) : Preserves (evict v) (fun s => s.map.free = f) := by
  apply Preserves.bind Preserves.get_self
  intro st
  apply Preserves.ite
  · apply Preserves.bind (Preserves.attempt (free_flushOne v))
    intro r
    cases r with
    | ok a => exact Preserves.pure _
    | error e => exact Preserves.bind (free_modMap fun _ => rfl) fun _ => Preserves.throw _
  · exact Preserves.pure _

/-- Loading a group changes no free count. -/
theorem free_load {f : ℕ → ℕ} (g : ℕ) : Preserves (load g) (fun s => s.map.free = f) := by
  apply Preserves.bind Preserves.get_self
  intro st
  dsimp only
  cases cacheHit st.map g with
  | some i => exact Preserves.bind (free_modMap fun _ => rfl) fun _ => Preserves.pure _
  | none =>
    apply Preserves.bind (free_evict _)
    intro _
    apply Preserves.bind Preserves.get_self
    intro st
    apply Preserves.bind
    · exact Preserves.attempt (Preserves.bind Preserves.get_self fun _ => free_mapIo _)
    · intro r
      cases r with
      | ok a => exact Preserves.bind (free_modMap fun _ => rfl) fun _ => Preserves.pure _
      | error e => exact Preserves.bind (free_modMap fun _ => rfl) fun _ => Preserves.throw _

/-- A free block is refused, and nothing changes. -/
theorem wp_releaseBlock_refused (h : Sound s) (hb : b < s.map.total) :
    (releaseBlock b).wp (fun _ _ => used s b = true)
      (fun e s' => e = .eused → used s b = false ∧ MapKept s s') s := by
  have hload := wp_and
    (wp_load_any h (h.group_lt hb) (Q := fun c t => LoadAny s (b / s.map.gb) c t)
      (E := fun e _ => e = .eio)
      (fun _ _ hp => hp) fun _ _ => rfl)
    (free_load (f := s.map.free) (b / s.map.gb) s rfl)
  simp only [releaseBlock, wp_bind, wp_get, h.group_mod hb]
  refine wp_mono hload (fun c t _ hp => ?_) fun e t _ he => ?_
  · obtain ⟨hp, hfree⟩ := hp
    have hbit : bitOf (t.map.cache c).bits (b % t.map.gb) = used s b := by
      rw [hp.bits, hp.unmoved.gb, used]
    simp only [wp_bind, wp_get, wp_failIf, hbit, modMap, wp_modify]
    refine ⟨fun h0 _ => ⟨h0, fun x hx => hp.unmoved.used_eq h hx, fun g _ => congrFun hfree g⟩,
      fun h0 => ?_⟩
    simpa using h0
  · intro hused
    rw [he.1] at hused
    cases hused

/-- **A refused release** leaves the map as it was exactly when the first block of its run was
the free one. -/
theorem release_refused_iff (h : Sound s) (hin : start + len ≤ s.map.total)
    (hrun : (gmapRelease start len).run s = (.error .eused, s')) :
    MapKept s s' ↔ used s start = false := by
  have hturns : (start + len) % 2 ^ 64 - start = len := by
    rw [Nat.mod_eq_of_lt (lt_of_le_of_lt hin h.total_lt)]
    omega
  -- after `n` turns the first `n` blocks are clear, and the first of them was used
  have hwp : (gmapRelease start len).wp (fun _ _ => True)
      (fun e s' => e = .eused → (MapKept s s' ↔ used s start = false)) s := by
    rw [gmapRelease, hturns]
    refine wp_mono (wp_iterate (fun n _ t => Cleared start n s t ∧ (0 < n → used s start = true) ∧
      (n = 0 → t = s)) ⟨(Unmoved.refl s).cleared h h, fun h0 => absurd h0 (lt_irrefl 0),
      fun _ => rfl⟩
      (fun n _ t hn hI => ?_)) (fun _ _ _ _ => trivial) fun _ _ _ he => he
    obtain ⟨hc, hfirst, hzero⟩ := hI
    have hbt : start + n < t.map.total := by
      rw [hc.geo.total]
      omega
    refine wp_mono (wp_and (wp_releaseBlock_cleared hc.sound hbt)
      (wp_releaseBlock_refused hc.sound hbt))
      (fun _ t' _ hp => ?_) fun e t' _ hp hused => ?_
    · refine ⟨hc.trans hp.1.1, fun _ => ?_, fun h0 => by omega⟩
      by_cases hn0 : n = 0
      · have := hp.2
        rwa [hzero hn0, hn0] at this
      · exact hfirst (by omega)
    · obtain ⟨hfree, hkept⟩ := hp.2 hused
      by_cases hn0 : n = 0
      · rw [hzero hn0] at hkept hfree
        rw [hn0] at hfree
        exact ⟨fun _ => hfree, fun _ => hkept⟩
      · -- the first block was released before the call stopped
        have hwas := hfirst (by omega)
        have hgone : used t' start = false := by
          rw [hkept.used start (by rw [hc.geo.total]; omega), hc.bit start (by omega),
            decide_eq_true (by omega), Bool.not_true, Bool.and_false]
        constructor
        · intro hk
          rw [← hk.used start (by omega)]
          exact hgone
        · intro h0
          rw [hwas] at h0
          cases h0
  exact hwp.error hrun rfl

/-- A release that starts at a free block changes nothing. -/
theorem release_refused_open : used openStart 84 = false ∧
    MapKept openStart ((gmapRelease 84 2).run openStart).2 := by
  have hs : Sound openStart := (sound_of_init openMap_init).imported _ _
  have hr : ((gmapRelease 84 2).run openStart).1 = .error .eused := by decide +kernel
  have hu : used openStart 84 = false := by decide +kernel
  exact ⟨hu, (release_refused_iff hs (by decide +kernel) (Prod.ext hr rfl)).mpr hu⟩

/-- Of two blocks, the first used and the second free, the first is released and the call
refused. -/
theorem release_refused_partial : Sound openStart ∧ (∀ n r, openStart.disk.fault n r = .done) ∧
    ((gmapRelease 83 2).run openStart).1 = .error .eused ∧ used openStart 83 = true ∧
    used openStart 84 = false ∧ used ((gmapRelease 83 2).run openStart).2 83 = false ∧
    openStart.map.free 1 = 44 ∧ ((gmapRelease 83 2).run openStart).2.map.free 1 = 45 := by
  refine ⟨(sound_of_init openMap_init).imported _ _, fun _ _ => rfl, ?_, ?_, ?_, ?_, ?_, ?_⟩
  all_goals decide +kernel

end Release

end Xasmos.Exfs
