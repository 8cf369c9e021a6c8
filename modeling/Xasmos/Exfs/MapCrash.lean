import Xasmos.Exfs.MapFaults

/-!
# Transactions of the group map

A transaction takes and releases blocks and flushes the dirty groups; the superblock then
names the slots that `gmap_export` gives.  Until that happens the committed slots hold the
old bitmap, whatever of the transaction's writes failed or never reached the device: every
write goes to the slot of its group that the committed tables do not name.
-/

namespace Xasmos.Exfs

open Bytes Prog

variable {B B' : ℕ → Bool} {D : Disk} {b g g' g0 gb i j k n need off0 start total v : ℕ}
  {free slot : ℕ → ℕ} {m m' : GMap} {s s' t u : GSt}

/-! ## Reading a bitmap back -/

/-- The bitmap that a slot table names on a device. -/
def tableBits (m : GMap) (D : Disk) (slot : ℕ → ℕ) (b : ℕ) : Bool :=
  bitOf (D.block (slotBlock m (b / m.gb) (if slot (b / m.gb) ≠ 0 then 1 else 0))) (b % m.gb)

/-- `gmap_is_used` of one block after the other. -/
def readBits : List ℕ → GProg (List Bool)
  | [] => pure []
  | b :: bs => do
    let u ← gmapIsUsed b
    let us ← readBits bs
    pure (u :: us)

/-- The map reads back as the bitmap `B`: what `gmap_is_used` answers are the bits of `B`, and
it does answer if the device serves every request and holds the slots. -/
structure ReadsBack (s : GSt) (B : ℕ → Bool) : Prop where
  right : ∀ bs, (∀ b ∈ bs, b < s.map.total) → ∀ us s', (readBits bs).run s = (.ok us, s') →
    us = bs.map B
  answers : s.disk.Faultless →
    (∀ g < s.map.ngroups, (slotBlock s.map g (s.map.slot g) + 1) * s.map.spb ≤ s.disk.sectorCount) →
    ∀ bs, (∀ b ∈ bs, b < s.map.total) → ∃ s', (readBits bs).run s = (.ok (bs.map B), s')

section ReadBack

theorem wp_readBits (h : Sound s) (bs : List ℕ) (hbs : ∀ b ∈ bs, b < s.map.total) :
    (readBits bs).wp (fun us _ => us = bs.map (used s)) (fun _ _ => True) s := by
  induction bs generalizing s with
  | nil => exact rfl
  | cons b bs ih =>
    obtain ⟨hb, hrest⟩ := List.forall_mem_cons.mp hbs
    simp only [readBits, wp_bind]
    refine wp_mono (wp_gmapIsUsed_any h hb) (fun u t _ ht => ?_) fun _ _ _ _ => trivial
    obtain ⟨rfl, hs, hu⟩ := ht
    rw [wp_bind]
    refine wp_mono (ih hs fun c hc => by rw [hu.total]; exact hrest c hc) (fun us _ _ hus => ?_)
      fun _ _ _ h => h
    rw [wp_pure, hus, List.map_cons]
    congr 1
    exact List.map_congr_left fun c hc => hu.used_eq h (hrest c hc)

/-- A map without pending changes, on a device that serves every request and holds the slots. -/
structure AtRest (s : GSt) : Prop extends Sound s where
  faultless : s.disk.Faultless
  settled : ∀ i g, ¬ DirtyAt s.map i g
  held : ∀ g < s.map.ngroups, (slotBlock s.map g (newestSlot s.map g) + 1) * s.map.spb ≤
    s.disk.sectorCount

theorem dirtyAt_of_stamped (hd : DirtyAt (stamped s i).map j g') : DirtyAt s.map j g' := by
  obtain ⟨⟨hv, hg⟩, _, hdirty⟩ := stamped_entry s i j
  exact ⟨hd.1, hv ▸ hd.2.1, hdirty ▸ hd.2.2.1, hg ▸ hd.2.2.2⟩

theorem dirtyAt_of_loaded (hd : DirtyAt (loaded s v g).map j g') : DirtyAt s.map j g' := by
  by_cases hj : j = v
  · have hself := hd.2.2.1
    rw [hj, loaded_self] at hself
    exact absurd hself (by simp)
  · have hother := loaded_other s g hj
    exact ⟨hd.1, hother ▸ hd.2.1, hother ▸ hd.2.2.1, hother ▸ hd.2.2.2⟩

theorem AtRest.stamped (h : AtRest s) (i : ℕ) : AtRest (stamped s i) :=
  ⟨h.of_geo ⟨rfl, rfl, rfl, rfl, rfl⟩ (h.toCoherent.stamped i), h.faultless,
    fun j g' hd => h.settled j g' (dirtyAt_of_stamped hd), h.held⟩

theorem AtRest.loaded (h : AtRest s) (hmiss : cacheHit s.map g = none) (hg : g < s.map.ngroups)
    (v : ℕ) : AtRest (loaded s v g) :=
  ⟨h.of_geo ⟨rfl, rfl, rfl, rfl, rfl⟩ (h.toCoherent.loaded hmiss hg), h.faultless,
    fun j g' hd => h.settled j g' (dirtyAt_of_loaded hd), h.held⟩

/-- A map at rest loads every group, without a write. -/
theorem AtRest.wp_load (h : AtRest s) (hg : g < s.map.ngroups) :
    (load g).wp (fun _ s' => AtRest s') (fun _ _ => False) s := by
  simp only [load, wp_bind, wp_get]
  cases hc : cacheHit s.map g with
  | some i => exact h.stamped i
  | none =>
    have hclean : ¬ ((s.map.cache (victim s.map)).valid && (s.map.cache (victim s.map)).dirty) =
        true := by
      intro hd
      rw [Bool.and_eq_true] at hd
      exact h.settled _ _ ⟨victim_lt s.map, hd.1, hd.2, rfl⟩
    have hlt := slotBlock_mul_lt h.spb_mul h.gb_max
      (lt_of_lt_of_le hg (h.ngroups_le.trans (by decide))) (h.newest_le hg)
    have hfit : Fits s.disk s.map.spb (slotBlock s.map g (newestSlot s.map g) + 1) :=
      ⟨h.spb_mul, h.held g hg, hlt⟩
    simp only [evict, gread, mapIo, wp_bind, wp_get, wp_ite, wp_pure, wp_attempt,
      wp_zoom, wp_mapError]
    exact ⟨fun hd => absurd hd hclean, fun _ =>
      wp_blkRead hfit (h.faultless.serves _) (Nat.lt_succ_self _) (h.loaded hc hg (victim s.map))⟩

theorem AtRest.wp_readBits (h : AtRest s) (bs : List ℕ) (hbs : ∀ b ∈ bs, b < s.map.total) :
    (readBits bs).wp (fun _ _ => True) (fun _ _ => False) s := by
  induction bs generalizing s with
  | nil => exact trivial
  | cons b bs ih =>
    obtain ⟨hb, hrest⟩ := List.forall_mem_cons.mp hbs
    have hany : (load (b / s.map.gb)).wp (LoadAny s (b / s.map.gb)) (fun _ _ => True) s :=
      wp_load_any h.toSound (h.group_lt hb) (fun _ _ hp => hp) fun _ _ => trivial
    simp only [readBits, gmapIsUsed, wp_bind, wp_get, h.group_mod hb]
    refine wp_mono (wp_and hany (h.wp_load (h.group_lt hb))) (fun c t _ ht => ?_)
      fun _ _ _ hf => hf.2
    simp only [wp_bind, wp_get, wp_pure]
    refine ih ht.2 fun c hc => ?_
    rw [ht.1.unmoved.total]
    exact hrest c hc

/-- A map reads back the bits it stands for. -/
theorem Sound.readsBack (h : Sound s) (hclean : ∀ i g, ¬ DirtyAt s.map i g)
    (hslot : ∀ g < s.map.ngroups, newestSlot s.map g = s.map.slot g) : ReadsBack s (used s) := by
  refine ⟨fun bs hbs us s' hrun => (wp_readBits h bs hbs).ok hrun, fun hf hheld bs hbs => ?_⟩
  have hrest : AtRest s := ⟨h, hf, hclean, fun g hg => by rw [hslot g hg]; exact hheld g hg⟩
  obtain ⟨us, s', hrun, _⟩ := (hrest.wp_readBits bs hbs).exists_ok
  obtain rfl := (wp_readBits h bs hbs).ok hrun
  exact ⟨s', hrun⟩

theorem ReadsBack.congr (h : ReadsBack s B) (he : ∀ b < s.map.total, B b = B' b) :
    ReadsBack s B' := by
  have hmap : ∀ bs : List ℕ, (∀ b ∈ bs, b < s.map.total) → bs.map B = bs.map B' := fun bs hbs =>
    List.map_congr_left fun b hb => he b (hbs b hb)
  refine ⟨fun bs hbs us s' hrun => ?_, fun hf hheld bs hbs => ?_⟩
  · rw [h.right bs hbs us s' hrun, hmap bs hbs]
  · rw [← hmap bs hbs]
    exact h.answers hf hheld bs hbs

/-- A freshly initialised map that imports tables reads back the bitmap they name. -/
theorem readsBack_imported (hinit : gmapInit m D.sectorSize total gb = .ok m') (slot free : ℕ → ℕ) :
    ReadsBack (imported ⟨m', D⟩ slot free) (tableBits m' D slot) := by
  have hs := (sound_of_init hinit).imported slot free
  have hempty : ∀ i, ((imported ⟨m', D⟩ slot free).map.cache i).valid = false := fun _ => rfl
  have hclean : ∀ i g, ¬ DirtyAt (imported ⟨m', D⟩ slot free).map i g := by
    intro i g hd
    have := hd.2.1
    rw [hempty] at this
    exact absurd this (by simp)
  have hnew : ∀ g < m'.ngroups, newestSlot (imported ⟨m', D⟩ slot free).map g =
      (imported ⟨m', D⟩ slot free).map.slot g := by
    intro g hg
    simp [newestSlot, imported, gmapImport, dropCache, hg]
  refine (hs.readsBack hclean hnew).congr fun b hb => ?_
  have hg : b / m'.gb < m'.ngroups := hs.group_lt hb
  rw [used, hs.curBits_disk fun i => hclean i _]
  show bitOf (D.block (slotBlock m' (b / m'.gb) (newestSlot _ (b / m'.gb)))) (b % m'.gb) = _
  rw [hnew _ hg, tableBits]
  simp [imported, gmapImport, dropCache, hg]

end ReadBack

/-! ## Where a transaction writes -/

/-- The slot of a group that the committed tables do not name. -/
def PendingSlot (m : GMap) (b : ℕ) : Prop := ∃ g, b = slotBlock m g (1 - m.slot g)

/-- What every function of the map keeps, on any device and for any arguments: the geometry and
the committed slots; all it wrote are pending slots. -/
structure Shadowed (s s' : GSt) : Prop where
  spb : s'.map.spb = s.map.spb
  total : s'.map.total = s.map.total
  gb : s'.map.gb = s.map.gb
  ngroups : s'.map.ngroups = s.map.ngroups
  slot : s'.map.slot = s.map.slot
  sectorSize : s'.disk.sectorSize = s.disk.sectorSize
  refused : s.disk.refused ≤ s'.disk.refused
  wrote : Disk.WroteOnly (PendingSlot s.map) s.disk s'.disk
  entry_lt : ∀ i, (s'.map.cache i).valid = true → (s'.map.cache i).g < 2 ^ 32

/-- What the frame rules below need of the geometry. -/
structure Addressed (s : GSt) : Prop where
  spb_mul : s.map.spb * s.disk.sectorSize = blockBytes
  gb_max : s.map.gb ≤ groupMax
  ngroups_le : s.map.ngroups ≤ maxGroups
  ngroups_pos : 0 < s.map.ngroups
  entry_all : ∀ i, (s.map.cache i).valid = true → (s.map.cache i).g < 2 ^ 32

section Frame

theorem Addressed.shadowed (h : Addressed s) : Shadowed s s :=
  ⟨rfl, rfl, rfl, rfl, rfl, rfl, le_rfl, Disk.WroteOnly.refl _ _, h.entry_all⟩

theorem Shadowed.trans (h : Shadowed s t) (h' : Shadowed t s') : Shadowed s s' where
  spb := h'.spb.trans h.spb
  total := h'.total.trans h.total
  gb := h'.gb.trans h.gb
  ngroups := h'.ngroups.trans h.ngroups
  slot := h'.slot.trans h.slot
  sectorSize := h'.sectorSize.trans h.sectorSize
  refused := h.refused.trans h'.refused
  wrote := by
    have hp : PendingSlot t.map = PendingSlot s.map := by
      funext b
      simp only [PendingSlot, slotBlock_congr h.gb, h.slot]
    have hw := h'.wrote
    rw [hp] at hw
    exact h.wrote.trans hw
  entry_lt := h'.entry_lt

theorem Addressed.of_shadowed (h : Addressed s) (hs : Shadowed s s') : Addressed s' := by
  refine ⟨?_, ?_, ?_, ?_, hs.entry_lt⟩
  · rw [hs.spb, hs.sectorSize]; exact h.spb_mul
  · rw [hs.gb]; exact h.gb_max
  · rw [hs.ngroups]; exact h.ngroups_le
  · rw [hs.ngroups]; exact h.ngroups_pos

/-- A change of the map in memory that keeps the groups of the valid entries. -/
theorem Shadowed.of_map (h : Shadowed s t) (hspb : m.spb = t.map.spb)
    (htotal : m.total = t.map.total) (hgb : m.gb = t.map.gb) (hng : m.ngroups = t.map.ngroups)
    (hslot : m.slot = t.map.slot) (he : ∀ i, (m.cache i).valid = true → (m.cache i).g < 2 ^ 32) :
    Shadowed s ⟨m, t.disk⟩ :=
  ⟨hspb.trans h.spb, htotal.trans h.total, hgb.trans h.gb, hng.trans h.ngroups, hslot.trans h.slot,
    h.sectorSize, h.refused, h.wrote, he⟩

/-- The entries of a cache that was changed in one place. -/
theorem Shadowed.entry_update (h : Shadowed s t) {e : GMapEntry}
    (he : e.valid = true → e.g < 2 ^ 32) (i j : ℕ)
    (hv : (Function.update t.map.cache i e j).valid = true) :
    (Function.update t.map.cache i e j).g < 2 ^ 32 := by
  by_cases hj : j = i
  · subst hj
    rw [Function.update_self] at hv ⊢
    exact he hv
  · rw [Function.update_of_ne hj] at hv ⊢
    exact h.entry_lt j hv

theorem Addressed.wp_flushOne (h : Addressed s) (hv : (s.map.cache i).valid = true) :
    (flushOne i).wp (fun _ s' => Shadowed s s') (fun _ s' => Shadowed s s') s := by
  have hput : ∀ d, Disk.WroteOnly
    (· = slotBlock s.map (s.map.cache i).g (1 - s.map.slot (s.map.cache i).g)) s.disk d ∧
      s.disk.refused ≤ d.refused → s.disk ≤ d → Shadowed s ⟨s.map, d⟩ := by
    intro d hd hle
    exact ⟨rfl, rfl, rfl, rfl, rfl, hle.sectorSize, hd.2, hd.1.mono fun b hb => ⟨_, hb⟩,
      h.entry_all⟩
  have hlt := slotBlock_mul_lt h.spb_mul h.gb_max (h.entry_all i hv)
    (Nat.sub_le 1 (s.map.slot (s.map.cache i).g))
  simp only [flushOne, gwrite, mapIo, modMap, wp_bind, wp_get, wp_zoom, wp_mapError, wp_modify]
  refine wp_mono (wp_blkWrite_logged h.spb_mul
    (lt_of_le_of_lt (Nat.mul_le_mul_right _ (Nat.le_succ _)) hlt) _) (fun _ d hle hd => ?_)
    fun _ d hle hd => hput d hd hle
  exact (hput d hd hle).of_map rfl rfl rfl rfl rfl
    ((hput d hd hle).entry_update (by exact h.entry_all i) i)

/-- Dropping an entry. -/
theorem Shadowed.drop (h : Shadowed s t) (v : ℕ) :
    Shadowed s { t with map := { t.map with
      cache := Function.update t.map.cache v { t.map.cache v with valid := false } } } :=
  h.of_map rfl rfl rfl rfl rfl (h.entry_update (by simp) v)

theorem Addressed.wp_evict (h : Addressed s) :
    (evict v).wp (fun _ s' => Shadowed s s') (fun _ s' => Shadowed s s') s := by
  simp only [evict, wp_bind, wp_get, wp_ite, wp_pure, wp_attempt]
  refine ⟨fun hd => ?_, fun _ => h.shadowed⟩
  rw [Bool.and_eq_true] at hd
  refine wp_mono (h.wp_flushOne hd.1) (fun _ _ _ ht => ht) fun _ t _ ht => ?_
  simp only [wp_bind, modMap, wp_modify, wp_throw]
  exact ht.drop v

/-- A read, at any address. -/
theorem Shadowed.wp_gread (h : Shadowed s t) (k : ℕ) :
    (gread g k).wp (fun _ s' => Shadowed s s') (fun _ s' => Shadowed s s') t := by
  have hserved : Shadowed s ⟨t.map, t.disk.served⟩ :=
    ⟨h.spb, h.total, h.gb, h.ngroups, h.slot, h.sectorSize, h.refused,
      h.wrote.trans (Disk.wroteOnly_served _ _), h.entry_lt⟩
  simp only [gread, mapIo, blkRead, blkCheck, serve, wp_bind, wp_get, wp_zoom, wp_mapError,
    wp_failIf, wp_modify, wp_pure]
  refine ⟨fun _ => h, fun _ => ⟨fun _ => h, fun _ => ⟨fun _ => h, fun _ => ?_⟩⟩⟩
  cases t.disk.fault t.disk.reqs _ with
  | done | fails left => exact hserved

theorem Addressed.wp_load (h : Addressed s) (hg : g < 2 ^ 32) :
    (load g).wp (fun _ s' => Shadowed s s') (fun _ s' => Shadowed s s') s := by
  simp only [load, wp_bind, wp_get]
  cases cacheHit s.map g with
  | some i =>
    exact h.shadowed.of_map rfl rfl rfl rfl rfl
      (h.shadowed.entry_update (by exact h.entry_all i) i)
  | none =>
    simp only [wp_bind]
    refine wp_mono h.wp_evict (fun _ t _ ht => ?_) fun _ _ _ ht => ht
    simp only [wp_bind, wp_get, wp_attempt]
    refine wp_mono (ht.wp_gread _) (fun bits u _ hu => ?_) fun _ u _ hu => ?_
    · exact hu.of_map rfl rfl rfl rfl rfl (hu.entry_update (by exact fun _ => hg) _)
    · exact hu.drop _

/-- Marking or clearing bits of a loaded entry. -/
theorem Shadowed.edited (h : Shadowed s t) (c : ℕ) (bits : Bytes) (fr : ℕ → ℕ) :
    Shadowed s ⟨{ t.map with
      cache := Function.update t.map.cache c { t.map.cache c with bits := bits, dirty := true },
          free := fr }, t.disk⟩ :=
  h.of_map rfl rfl rfl rfl rfl (h.entry_update (by exact h.entry_lt c) c)

theorem Addressed.wp_takeFrom (h : Addressed s) :
    (takeFrom g0 off0 need n k).wp (fun _ s' => Shadowed s s') (fun _ s' => Shadowed s s') s := by
  induction n generalizing k s with
  | zero => exact h.shadowed
  | succ n ih =>
    have hlt : (g0 + k) % s.map.ngroups < 2 ^ 32 :=
      (Nat.mod_lt _ h.ngroups_pos).trans_le (h.ngroups_le.trans (by decide))
    simp only [takeFrom, wp_bind, wp_get, wp_ite]
    refine ⟨fun _ => ih h, fun _ => wp_mono (h.wp_load hlt) (fun c t _ ht => ?_) fun _ _ _ ht => ht⟩
    simp only [wp_bind, wp_get, wp_ite, modMap, wp_modify, wp_pure]
    refine ⟨fun _ => ?_, fun _ => ht.edited _ _ _⟩
    exact wp_mono (ih (h.of_shadowed ht)) (fun _ _ _ hu => ht.trans hu) fun _ _ _ hu => ht.trans hu

theorem Addressed.wp_releaseBlock (h : Addressed s) (b : ℕ) :
    (releaseBlock b).wp (fun _ s' => Shadowed s s') (fun _ s' => Shadowed s s') s := by
  simp only [releaseBlock, wp_bind, wp_get]
  refine wp_mono (h.wp_load (Nat.mod_lt _ (by decide))) (fun c t _ ht => ?_) fun _ _ _ ht => ht
  simp only [wp_bind, wp_get, wp_failIf, modMap, wp_modify]
  exact ⟨fun _ => ht, fun _ => ht.edited _ _ _⟩

/-- **No call writes a committed slot.** -/
theorem Addressed.wp_call (h : Addressed s) (op : MapOp) :
    op.prog.wp (fun _ s' => Shadowed s s') (fun _ s' => Shadowed s s') s := by
  cases op with
  | take hint need =>
    simp only [MapOp.prog, gmapTake, wp_bind, wp_get, wp_failIf, wp_ite]
    exact ⟨fun _ => h.shadowed, fun _ => ⟨fun _ => h.wp_takeFrom, fun _ => h.wp_takeFrom⟩⟩
  | release start len =>
    simp only [MapOp.prog, gmapRelease, wp_bind]
    refine wp_iterate (fun _ _ t => Shadowed s t) h.shadowed fun k _ t _ ht => ?_
    exact wp_mono ((h.of_shadowed ht).wp_releaseBlock _) (fun _ _ _ hu => ht.trans hu)
      fun _ _ _ hu => ht.trans hu
  | isUsed block =>
    simp only [MapOp.prog, gmapIsUsed, wp_bind, wp_get]
    exact h.wp_load (Nat.mod_lt _ (by decide))

theorem Addressed.wp_gmapFlush (h : Addressed s) :
    gmapFlush.wp (fun _ s' => Shadowed s s') (fun _ s' => Shadowed s s') s := by
  refine wp_iterate (fun _ _ t => Shadowed s t) h.shadowed fun k _ t _ ht => ?_
  simp only [wp_bind, wp_get, wp_ite, wp_pure]
  refine ⟨fun hd => ?_, fun _ => ht⟩
  rw [Bool.and_eq_true] at hd
  exact wp_mono ((h.of_shadowed ht).wp_flushOne hd.1) (fun _ _ _ hu => ht.trans hu) fun _ _ _ hu =>
    ht.trans hu

end Frame

/-! ## Transactions -/

/-- Calls of the map, one after the other, each with what it returned. -/
inductive Calls : GSt → List (MapOp × Except GmapError MapAnswer) → GSt → Prop where
  | nil {s : GSt} : Calls s [] s
  | cons {s t s' : GSt} {op : MapOp} {r : Except GmapError MapAnswer}
    {l : List (MapOp × Except GmapError MapAnswer)}
      (hrun : op.prog.run s = (r, t)) (h : Calls t l s') : Calls s ((op, r) :: l) s'

/-- What a call does to a flat bitmap.  A release that fails has freed the blocks before the one
it stopped at. -/
inductive MapOp.Effect : MapOp → Except GmapError MapAnswer → (ℕ → Bool) → (ℕ → Bool) → Prop where
  | took (hint need : UInt64) (start len : ℕ) (B : ℕ → Bool) :
      Effect (.take hint need) (.ok (.run start len)) B (setRun B start len true)
  | refused (hint need : UInt64) (e : GmapError) (B : ℕ → Bool) : Effect (.take hint need)
    (.error e) B B
  | released (start len : UInt64) (B : ℕ → Bool) :
      Effect (.release start len) (.ok .done) B (setRun B start.toNat len.toNat false)
  | stopped (start len : UInt64) (e : GmapError) (B : ℕ → Bool) (n : ℕ) (hn : n < len.toNat) :
      Effect (.release start len) (.error e) B (setRun B start.toNat n false)
  | answered (block : UInt64) (B : ℕ → Bool) : Effect (.isUsed block)
    (.ok (.bit (B block.toNat))) B B
  | silent (block : UInt64) (e : GmapError) (B : ℕ → Bool) : Effect (.isUsed block) (.error e) B B

/-- The effect of calls on a flat bitmap. -/
inductive Effects : List (MapOp × Except GmapError MapAnswer) → (ℕ → Bool) → (ℕ → Bool) → Prop where
  | nil {B : ℕ → Bool} : Effects [] B B
  | cons {op : MapOp} {r : Except GmapError MapAnswer}
    {l : List (MapOp × Except GmapError MapAnswer)}
      {B C B' : ℕ → Bool} (he : op.Effect r B C) (h : Effects l C B') : Effects ((op, r) :: l) B B'

/-- A device after a cut somewhere between `d` and `d'`: a block that a write between them named
may hold anything, every other block is as in `d`. -/
structure CutOff (d d' e : Disk) : Prop where
  sectorSize : e.sectorSize = d.sectorSize
  block : ∃ ws, d'.cache = d.cache ++ ws ∧ ∀ b, (∀ w ∈ ws, w.1 ≠ b) → e.block b = d.block b

/-- The states in which the map stands at committed tables: after any tables were imported, or
after a transaction without a failed write was flushed, exported and committed. -/
inductive AtTables : GSt → (ℕ → ℕ) → (ℕ → ℕ) → Prop where
  | adopt {m m' : GMap} {D : Disk} {total gb : ℕ} {slot free : ℕ → ℕ}
      (hinit : gmapInit m D.sectorSize total gb = .ok m') :
      AtTables (imported ⟨m', D⟩ slot free) slot free
  | commit {s u t : GSt} {slot free : ℕ → ℕ} {l : List (MapOp × Except GmapError MapAnswer)}
      (h : AtTables s slot free) (hcalls : Calls s l u) (hvol : ∀ c ∈ l, c.1.InVolume s.map.total)
      (hflush : gmapFlush.run u = (.ok (), t)) (hw : AllWritten s t) :
      AtTables (mapCommitted t) (gmapExport t.map).1 (gmapExport t.map).2

/-- The map stands at a slot table. -/
structure StandsAt (s : GSt) (slot : ℕ → ℕ) : Prop extends Sound s where
  slot_eq : ∀ g < s.map.ngroups, s.map.slot g = if slot g ≠ 0 then 1 else 0
  settled : ∀ i g, ¬ DirtyAt s.map i g
  unwritten : ∀ g < s.map.ngroups, s.map.written g = false
  slot_le_all : ∀ g, s.map.slot g ≤ 1
  entry_all : ∀ i, (s.map.cache i).valid = true → (s.map.cache i).g < 2 ^ 32

section Transaction

variable {l : List (MapOp × Except GmapError MapAnswer)}

theorem StandsAt.addressed (h : StandsAt s slot) : Addressed s :=
  ⟨h.spb_mul, h.gb_max, h.ngroups_le, h.ngroups_pos, h.entry_all⟩

theorem Calls.shadowed (hc : Calls s l u) (h : Addressed s) : Shadowed s u := by
  induction hc with
  | nil => exact h.shadowed
  | @cons s t s' op r l hrun _ ih =>
    have ht : Shadowed s t := by
      have := (h.wp_call op).state
      rwa [hrun] at this
    exact ht.trans (ih (h.of_shadowed ht))

/-- The map holds the bitmap `B`. -/
structure Tracks (s : GSt) (B : ℕ → Bool) : Prop extends Sound s where
  bit : ∀ b < s.map.total, used s b = B b

theorem Tracks.unmoved (h : Tracks s B) (hs : Sound s') (hu : Unmoved s s') : Tracks s' B := by
  refine ⟨hs, fun b hb => ?_⟩
  rw [hu.total] at hb
  rw [hu.used_eq h.toSound hb, h.bit b hb]

theorem Tracks.took {r : ℕ × ℕ} (h : Tracks s B) (ht : TookAny s r s') :
    Tracks s' (setRun B r.1 r.2 true) := by
  refine ⟨ht.sound, fun b hb => ?_⟩
  rw [ht.geo.total] at hb
  rw [ht.now_used b hb, h.bit b hb, setRun]
  split <;> rename_i hr <;> simp [hr]

theorem Tracks.cleared (h : Tracks s B) (hc : Cleared start n s s') :
    Tracks s' (setRun B start n false) := by
  refine ⟨hc.sound, fun b hb => ?_⟩
  rw [hc.geo.total] at hb
  rw [hc.bit b hb, h.bit b hb, setRun]
  split <;> rename_i hr <;> simp [hr]

/-- One call without a failed write does to the map what it does to a flat bitmap. -/
theorem Tracks.call {op : MapOp} {r : Except GmapError MapAnswer} (h : Tracks s B)
    (hop : op.InVolume s.map.total) (hrun : op.prog.run s = (r, s')) (hw : AllWritten s s') :
    ∃ B', op.Effect r B B' ∧ Tracks s' B' := by
  cases op with
  | take hint need =>
    have hwp : (MapOp.take hint need).prog.wp
        (fun a t => ∃ r, a = .run r.1 r.2 ∧ TookAny s r t) (fun _ t => Spared s t) s := by
      simp only [MapOp.prog, wp_bind]
      exact wp_mono (wp_gmapTake_any h.toSound hint.toNat need.toNat) (fun r _ _ ht => ⟨r, rfl, ht⟩)
        fun _ _ _ hs => hs
    cases r with
    | ok a =>
      obtain ⟨run, rfl, ht⟩ := hwp.ok hrun
      exact ⟨_, .took hint need run.1 run.2 B, h.took ht⟩
    | error e =>
      obtain ⟨h1, h2⟩ := hwp.error hrun hw
      exact ⟨B, .refused hint need e B, h.unmoved h1 h2⟩
  | release start len =>
    have hwp : (MapOp.release start len).prog.wp
      (fun a t => a = .done ∧ Cleared start.toNat len.toNat s t)
        (fun _ t => AllWritten s t → ∃ n < len.toNat, Cleared start.toNat n s t) s := by
      simp only [MapOp.prog, wp_bind]
      exact wp_mono (wp_gmapRelease_cleared h.toSound hop) (fun _ _ _ hc => ⟨rfl, hc⟩)
        fun _ _ _ hs => hs
    cases r with
    | ok a =>
      obtain ⟨rfl, hc⟩ := hwp.ok hrun
      exact ⟨_, .released start len B, h.cleared hc⟩
    | error e =>
      obtain ⟨n, hn, hc⟩ := hwp.error hrun hw
      exact ⟨_, .stopped start len e B n hn, h.cleared hc⟩
  | isUsed block =>
    have hwp : (MapOp.isUsed block).prog.wp
        (fun a t => a = .bit (B block.toNat) ∧ Sound t ∧ Unmoved s t)
        (fun _ t => Spared s t) s := by
      simp only [MapOp.prog, wp_bind]
      refine wp_mono (wp_gmapIsUsed_any h.toSound hop) (fun b _ _ hp => ⟨?_, hp.2⟩)
        fun _ _ _ hs => hs
      rw [hp.1, h.bit _ hop]
    cases r with
    | ok a =>
      obtain ⟨rfl, h1, h2⟩ := hwp.ok hrun
      exact ⟨B, .answered block B, h.unmoved h1 h2⟩
    | error e =>
      obtain ⟨h1, h2⟩ := hwp.error hrun hw
      exact ⟨B, .silent block e B, h.unmoved h1 h2⟩

/-- Calls without a failed write do to the map what they do to a flat bitmap. -/
theorem Calls.tracks (hc : Calls s l u) (ha : Addressed s) (h : Tracks s B)
    (hvol : ∀ c ∈ l, c.1.InVolume s.map.total) (hw : AllWritten s u) :
    ∃ B', Effects l B B' ∧ Tracks u B' := by
  induction hc generalizing B with
  | nil => exact ⟨B, .nil, h⟩
  | @cons s t s' op r l hrun hrest ih =>
    obtain ⟨hop, hl⟩ := List.forall_mem_cons.mp hvol
    have ht : Shadowed s t := by
      have := (ha.wp_call op).state
      rwa [hrun] at this
    have hle := (hrest.shadowed (ha.of_shadowed ht)).refused
    have hw' : s'.disk.refused = s.disk.refused := hw
    -- the count of failed writes never falls, so neither part of the run has one
    obtain ⟨C, he, hC⟩ := h.call hop hrun (le_antisymm (hle.trans hw'.le) ht.refused)
    obtain ⟨B', hes, hB'⟩ := ih (ha.of_shadowed ht) hC (by rw [ht.total]; exact hl)
      (le_antisymm (hw'.le.trans ht.refused) hle)
    exact ⟨B', .cons he hes, hB'⟩

/-- The slots of committed tables survive a cut anywhere in a transaction. -/
theorem StandsAt.cutOff (h : StandsAt s slot) (hs : Shadowed s t) {e : Disk}
    (hcut : CutOff s.disk t.disk e) (hb : b < s.map.total) :
    tableBits s.map e slot b = tableBits s.map s.disk slot b := by
  have hg := h.group_lt hb
  obtain ⟨ws, hws, hblock⟩ := hcut.block
  obtain ⟨ws', hws', hpend⟩ := hs.wrote
  obtain rfl := List.append_cancel_left (hws.symm.trans hws')
  rw [tableBits, tableBits, ← h.slot_eq _ hg]
  rw [hblock]
  intro w hw he
  obtain ⟨g, hp⟩ := hpend w hw
  have hle := h.slot_le_all g
  obtain ⟨rfl, hslot⟩ := slotBlock_inj h.gb_min (Nat.sub_le 1 _) (h.slot_le_all _)
    (hp.symm.trans he)
  omega

/-- A map that stands at a table holds the bitmap that the table names. -/
theorem StandsAt.tracks (h : StandsAt s slot) : Tracks s (tableBits s.map s.disk slot) := by
  refine ⟨h.toSound, fun b hb => ?_⟩
  have hg := h.group_lt hb
  rw [used, h.curBits_disk fun i => h.settled i _, tableBits, ← h.slot_eq _ hg, newestSlot,
    h.unwritten _ hg]
  simp

/-- After a flush the exported table names the bitmap that the map holds. -/
theorem Tracks.exported (h : Tracks t B) (hclean : ∀ i g, ¬ DirtyAt t.map i g)
    (hb : b < t.map.total) : tableBits t.map t.disk (gmapExport t.map).1 b = B b := by
  have hg := h.group_lt hb
  have hle := h.newest_le hg
  have hexp : (gmapExport t.map).1 (b / t.map.gb) = newestSlot t.map (b / t.map.gb) := if_pos hg
  rw [← h.bit b hb, used, h.curBits_disk fun i => hclean i _, tableBits, hexp]
  congr 3
  split <;> omega

/-- `gmap_commit` does not change what is exported. -/
theorem gmapExport_commit (m : GMap) : (gmapExport (gmapCommit m)).1 = (gmapExport m).1 := by
  funext g
  simp only [gmapExport]
  by_cases hg : g < m.ngroups
  · rw [if_pos hg, if_pos (show g < (gmapCommit m).ngroups from hg), newestSlot_commit m hg]
  · rw [if_neg hg, if_neg (show ¬ g < (gmapCommit m).ngroups from hg)]

theorem tableBits_congr (h : m'.gb = m.gb) (D : Disk) (slot : ℕ → ℕ) :
    tableBits m' D slot = tableBits m D slot := by
  funext b
  rw [tableBits, tableBits, h, slotBlock_congr h]

theorem standsAt_imported (hinit : gmapInit m D.sectorSize total gb = .ok m') (slot free : ℕ → ℕ) :
    StandsAt (imported ⟨m', D⟩ slot free) slot := by
  have hno : ∀ i, ((imported ⟨m', D⟩ slot free).map.cache i).valid = true → False := fun i hv => by
    rw [show ((imported ⟨m', D⟩ slot free).map.cache i).valid = false from rfl] at hv
    exact absurd hv (by simp)
  refine ⟨(sound_of_init hinit).imported slot free, fun g hg => if_pos hg,
    fun i g hd => hno i hd.2.1, fun g hg => if_pos hg, fun g => ?_, fun i hv => (hno i hv).elim⟩
  simp only [imported, gmapImport, dropCache, (gmapInit_empty hinit).1.slot]
  split <;> (try split) <;> omega

/-- Every committed state stands at its tables. -/
theorem AtTables.standsAt (h : AtTables s slot free) : StandsAt s slot := by
  induction h with
  | adopt hinit => exact standsAt_imported hinit _ _
  | @commit s u t slot free l _ hcalls hvol hflush hw ih =>
    have hsu := hcalls.shadowed ih.addressed
    have hut : Shadowed u t := by
      have := (ih.addressed.of_shadowed hsu).wp_gmapFlush.state
      rwa [hflush] at this
    obtain ⟨_, _, htr⟩ := hcalls.tracks ih.addressed ih.tracks hvol
      (le_antisymm (hut.refused.trans (le_of_eq hw)) hsu.refused)
    obtain ⟨hs, _, hclean⟩ := (wp_gmapFlush_any htr.toSound).ok hflush
    have hslot := (hsu.trans hut).slot
    refine ⟨hs.committed.1, fun g hg => ?_, fun i g hd => hclean i g hd, fun g hg => if_pos hg,
      fun g => ?_, hut.entry_lt⟩
    · have hle := hs.newest_le hg
      rw [show (mapCommitted t).map.slot g = newestSlot t.map g from if_pos hg,
        show (gmapExport t.map).1 g = newestSlot t.map g from if_pos hg]
      split <;> omega
    · by_cases hg : g < t.map.ngroups
      · rw [show (mapCommitted t).map.slot g = newestSlot t.map g from if_pos hg]
        exact hs.newest_le hg
      · rw [show (mapCommitted t).map.slot g = t.map.slot g from if_neg hg, hslot]
        exact ih.slot_le_all g

/-- What a transaction of the map guarantees, for its calls `l` and its flush with result `r`,
from the state `s` at the tables `slot` and `free` to the state `t`. -/
structure CrashSafe (s : GSt) (slot free : ℕ → ℕ) (l : List (MapOp × Except GmapError MapAnswer))
    (r : Except GmapError Unit) (t : GSt) : Prop where
  old : ∀ e, CutOff s.disk t.disk e → ∀ m m', gmapInit m e.sectorSize s.map.total s.map.gb =
    .ok m' →
    ReadsBack (imported ⟨m', e⟩ slot free) (tableBits s.map s.disk slot)
  new : (∀ c ∈ l, c.1.InVolume s.map.total) → AllWritten s t → r = .ok () →
    ∃ B, Effects l (tableBits s.map s.disk slot) B ∧
      ∀ m m', gmapInit m t.disk.sectorSize s.map.total s.map.gb = .ok m' →
        ReadsBack (imported ⟨m', t.disk⟩ (gmapExport t.map).1 (gmapExport t.map).2) B ∧
        ReadsBack (imported ⟨m', t.disk⟩ (gmapExport (gmapCommit t.map)).1
          (gmapExport (gmapCommit t.map)).2) B

/-- **Transactions of the map are crash safe.**  From every committed state, on a device with any
pattern of failures: however the transaction was cut or failed, the old tables read back the old
bitmap; and if its writes and its flush succeeded, the exported tables read back the new one. -/
theorem AtTables.crashSafe (s u t : GSt) (slot free : ℕ → ℕ)
    (l : List (MapOp × Except GmapError MapAnswer)) (r : Except GmapError Unit)
    (h : AtTables s slot free) (hcalls : Calls s l u) (hflush : gmapFlush.run u = (r, t)) :
    CrashSafe s slot free l r t := by
  have hst := h.standsAt
  have hsu := hcalls.shadowed hst.addressed
  have hut : Shadowed u t := by
    have := (hst.addressed.of_shadowed hsu).wp_gmapFlush.state
    rwa [hflush] at this
  refine ⟨fun e hcut m m' hinit => ?_, fun hvol hw hr => ?_⟩
  · obtain ⟨_, _, _, _, _, htotal, hgb, _⟩ := gmapInit_spec hinit
    refine (readsBack_imported hinit slot free).congr fun b hb => ?_
    rw [tableBits_congr hgb]
    exact hst.cutOff (hsu.trans hut) hcut (lt_of_lt_of_eq hb htotal)
  · subst hr
    obtain ⟨B, heff, htr⟩ := hcalls.tracks hst.addressed hst.tracks hvol
      (le_antisymm (hut.refused.trans (le_of_eq hw)) hsu.refused)
    obtain ⟨hs, hun, hclean⟩ := (wp_gmapFlush_any htr.toSound).ok hflush
    have hB := htr.unmoved hs hun
    refine ⟨B, heff, fun m m' hinit => ?_⟩
    obtain ⟨_, _, _, _, _, htotal, hgb, _⟩ := gmapInit_spec hinit
    have hback : ∀ free', ReadsBack (imported ⟨m', t.disk⟩ (gmapExport t.map).1 free') B := by
      intro free'
      refine (readsBack_imported hinit _ free').congr fun b hb => ?_
      rw [tableBits_congr (hgb.trans (hsu.trans hut).gb.symm)]
      refine hB.exported hclean ?_
      rw [(hsu.trans hut).total, ← htotal]
      exact hb
    exact ⟨hback _, by rw [gmapExport_commit]; exact hback _⟩

/-- A take in the first of nine groups, and a flush. -/
theorem AtTables.crashSafe_nineGroups : ∃ s u t r, AtTables s (fun _ => 0) (fun _ => 44) ∧
    Calls s [(takeIn 0, .ok (.run 20 1))] u ∧ gmapFlush.run u = (r, t) ∧
    CrashSafe s (fun _ => 0) (fun _ => 44) [(takeIn 0, .ok (.run 20 1))] r t := by
  have h : AtTables (imported ⟨nineMap, nineGroups⟩ (fun _ => 0) fun _ => 44) (fun _ => 0)
      fun _ => 44 :=
    .adopt (D := nineGroups) (show gmapInit bootMap 4096 576 64 = .ok nineMap from rfl)
  have hok : ((takeIn 0).prog.run
    (imported ⟨nineMap, nineGroups⟩ (fun _ => 0) fun _ => 44)).1.toOption =
      some (.run 20 1) := by decide +kernel
  generalize imported ⟨nineMap, nineGroups⟩ (fun _ => 0) (fun _ => 44) = s at h hok
  cases hrun : (takeIn 0).prog.run s with
  | mk r u =>
    rw [hrun] at hok
    cases r with
    | error e => exact absurd hok (by simp [Except.toOption])
    | ok a =>
      obtain rfl := Option.some.inj hok
      have hcalls : Calls s [(takeIn 0, .ok (.run 20 1))] u := .cons hrun .nil
      exact ⟨s, u, _, _, h, hcalls, rfl, AtTables.crashSafe s u _ _ _ _ _ h hcalls rfl⟩

end Transaction

end Xasmos.Exfs
