import Xasmos.Exfs.GroupMapTxn
import Xasmos.Exfs.Pool
import Xasmos.Exfs.Ops
import Mathlib.Data.List.GetD

/-!
# A call in progress

A call that changes a file first takes fresh blocks and a pool slice, writes the fresh
blocks, and only then changes the file.  Until that last step the volume is the one the
call started from, up to the places of the extent lists in the pool: `Staged s₀ s X
slice` says that `s` is `s₀` with the blocks `X` taken, `slice` reserved, and nothing
written but pending map slots and blocks that were free in `s₀`.

A call that fails gives everything back and ends in `Staged s₀ s [] (0, 0)`.

## Main definitions

* `MapInv` — the volume record and the group map agree, and the map is sound.
* `Writable s b` — what a call that starts in `s` may write.
* `Staged` — a call in progress, with a lemma for each thing it can do.
-/

namespace Xasmos.Exfs

open Bytes Prog

variable {E : ExfsError → St → Prop} {Q : Unit → St → Prop} {X Y bs : List ℕ}
  {b got i k left len n need o off stop w0 : ℕ} {buf p : Bytes} {d : Disk} {fresh : List ExfsExtent}
  {r slice : ℕ × ℕ} {s s' s₀ : St} {t : GSt} {α : Type}

/-! ## The map inside the volume -/

/-- The state with the group map and its device replaced. -/
def St.setMap (s : St) (t : GSt) : St :=
  { s.setDisk s.v.gmDev t.disk with v := { s.v with gm := t.map } }

theorem wp_onMap (x : GProg α) {Q : Except GmapError α → St → Prop} :
    (onMap x).wp Q E s ↔
      x.wp (fun a t => Q (.ok a) (s.setMap t)) (fun e t => Q (.error e) (s.setMap t)) s.gst := by
  rw [onMap, wp_zoom, wp_attempt]
  rfl

@[simp] theorem St.setMap_gst (s : St) (t : GSt) : (s.setMap t).gst = t := by
  simp [St.setMap, St.gst, St.setDisk]

/-- The record and the group map describe one volume, and the map is sound. -/
structure MapInv (s : St) : Prop where
  dev : s.v.gmDev = s.v.dev
  spb : s.v.gm.spb = s.v.spb
  total : s.v.gm.total = s.v.total
  gb : s.v.gm.gb = groupMax
  total_ge : dataStart + 16 ≤ s.v.total
  total_le : s.v.total ≤ maxBlocks
  hint : s.v.hint ≤ s.v.total
  map : GInv s.gst

section MapInv

theorem St.disk_le {t : St} (hle : s ≤ t) (hdev : t.v.dev = s.v.dev) : s.disk ≤ t.disk := by
  rw [St.disk, St.disk, hdev]
  exact hle _

theorem MapInv.disk_eq (h : MapInv s) : s.gst.disk = s.disk := by
  rw [St.gst, St.disk, h.dev]

theorem MapInv.fits (h : MapInv s) : Fits s.disk s.v.spb s.v.total := by
  have := h.map.fits
  rw [h.disk_eq] at this
  rwa [← h.spb, ← h.total]

theorem MapInv.setMap_disk (h : MapInv s) (t : GSt) : (s.setMap t).disk = t.disk := by
  simp [St.setMap, St.disk, St.setDisk, h.dev]

/-- A step of the map keeps the record in agreement. -/
theorem MapInv.setMap (h : MapInv s) (ht : GInv t) (hm : Moved s.gst t) : MapInv (s.setMap t) where
  dev := h.dev
  spb := hm.spb.trans h.spb
  total := hm.total.trans h.total
  gb := hm.gb.trans h.gb
  total_ge := h.total_ge
  total_le := h.total_le
  hint := h.hint
  map := by rw [St.setMap_gst]; exact ht

/-- The device after a write of block `b`. -/
def St.put (s : St) (b : ℕ) (p : Bytes) : St := s.setDisk s.v.dev (s.disk.served.put b p)

/-- The device after a read. -/
def St.served (s : St) : St := s.setDisk s.v.dev s.disk.served

@[simp] theorem St.setDisk_disk (s : St) (d : Disk) : (s.setDisk s.v.dev d).disk = d := by
  simp [St.setDisk, St.disk]

theorem MapInv.setDisk_gst (h : MapInv s) (d : Disk) : (s.setDisk s.v.dev d).gst = ⟨s.v.gm, d⟩ := by
  simp [St.setDisk, St.gst, h.dev]

/-- **`blk_put`** of a block of the volume. -/
theorem wp_blkPut (h : Fits s.disk s.v.spb s.v.total) (hf : s.disk.Faultless) (hb : b < s.v.total)
    (hQ : Q () (s.put b p)) : (blkPut b p).wp Q E s := by
  simp only [blkPut, devIo, wp_bind, wp_get]
  rw [wp_zoom, wp_mapError]
  exact wp_blkWrite h (hf.serves b) hb hQ

/-- **`blk_put`** on a device that may fail the request. -/
theorem wp_blkPut_any (h : Fits s.disk s.v.spb s.v.total) (hb : b < s.v.total)
    (hQ : Q () (s.put b p))
    (hE : ¬ s.disk.Faultless → ∀ d, s.disk ≤ d → Disk.WroteOnly (· = b) s.disk d →
      E .eio (s.setDisk s.v.dev d)) :
    (blkPut b p).wp Q E s := by
  simp only [blkPut, devIo, wp_bind, wp_get]
  rw [wp_zoom, wp_mapError]
  by_cases hf : s.disk.Faultless
  · exact wp_blkWrite h (hf.serves b) hb hQ
  · exact wp_blkWrite_any h.spb_mul (h.lba_lt hb) hQ fun _ d hle _ hw => hE hf d hle hw

/-- **`blk_got`** on a device that may fail the request. -/
theorem wp_blkGot_any (h : Fits s.disk s.v.spb s.v.total) (hb : b < s.v.total)
    {Q : Bytes → St → Prop} (hQ : Q (s.disk.block b) s.served)
    (hE : ¬ s.disk.Faultless → ∀ d, s.disk ≤ d → d.cache = s.disk.cache →
      E .eio (s.setDisk s.v.dev d)) :
    (blkGot b).wp Q E s := by
  simp only [blkGot, devIo, wp_bind, wp_get]
  rw [wp_zoom, wp_mapError]
  by_cases hf : s.disk.Faultless
  · exact wp_blkRead h (hf.serves b) hb hQ
  · exact wp_blkRead_any h.spb_mul (h.lba_lt hb) hQ fun _ =>
      ⟨hE hf _ le_rfl rfl, hE hf _ (Disk.le_served _) rfl⟩

/-- **`blk_got`**, by what the device does with the request. -/
theorem wp_blkGot_faults (h : Fits s.disk s.v.spb s.v.total) (hb : b < s.v.total)
    {Q : Bytes → St → Prop}
    (hQ : s.disk.fault s.disk.reqs (some b) = .done → Q (s.disk.block b) s.served)
    (hE : s.disk.fault s.disk.reqs (some b) ≠ .done → E .eio s.served) : (blkGot b).wp Q E s := by
  simp only [blkGot, devIo, wp_bind, wp_get]
  rw [wp_zoom, wp_mapError]
  exact wp_blkRead_faults h hb hQ hE

/-- A device that moved on outside the map's slots carries the same map. -/
theorem MapInv.setDisk (h : MapInv s) (hle : s.disk ≤ d)
    (hd : ∀ g t, g < s.v.gm.ngroups → t ≤ 1 →
      d.block (slotBlock s.v.gm g t) = s.disk.block (slotBlock s.v.gm g t)) :
    MapInv (s.setDisk s.v.dev d) ∧
      ∀ b < s.v.total, used (s.setDisk s.v.dev d).gst b = used s.gst b := by
  have hdisk := h.disk_eq
  refine ⟨⟨h.dev, h.spb, h.total, h.gb, h.total_ge, h.total_le, h.hint, ?_⟩, fun b hb => ?_⟩
  · rw [h.setDisk_gst]
    refine GInv.withDisk (s := s.gst) ?_ h.map ?_
    · rw [hdisk]; exact hd
    · rw [hdisk]; exact hle
  · rw [h.setDisk_gst]
    refine used_withDisk (s := s.gst) ?_ h.map ?_
    · rw [hdisk]; exact hd
    · rw [← h.total] at hb; exact hb

theorem St.le_put (s : St) (b : ℕ) (p : Bytes) : s.disk ≤ s.disk.served.put b p :=
  le_trans (Disk.le_served _) (Disk.le_put _ _ _)

/-- Requests that wrote nothing in the map's slots. -/
theorem MapInv.wrote (h : MapInv s) {P : ℕ → Prop} (hle : s.disk ≤ d)
    (hw : Disk.WroteOnly P s.disk d)
    (hP : ∀ b, P b → reservedBlock s.v.gm b = false ∨ b < dataStart) :
    MapInv (s.setDisk s.v.dev d) ∧
      ∀ b < s.v.total, used (s.setDisk s.v.dev d).gst b = used s.gst b := by
  refine h.setDisk hle fun g t _ ht => hw.block_eq hle fun he => ?_
  rcases hP _ he with hb | hb
  · have hr : reservedBlock s.v.gm (slotBlock s.v.gm g t) = true := h.map.reserved_slot ht
    rw [hr] at hb
    exact absurd hb (by simp)
  · have hge : dataStart ≤ slotBlock s.v.gm g t := by
      have hgb := h.gb
      simp only [groupMax] at hgb
      simp only [slotBlock, hgb, dataStart, itabArea1, itabArea0, itabBlocks]
      split <;> omega
    omega

/-- A write outside the map's slots. -/
theorem MapInv.put (h : MapInv s) (hb : reservedBlock s.v.gm b = false ∨ b < dataStart) :
    MapInv (s.put b p) ∧ ∀ x < s.v.total, used (s.put b p).gst x = used s.gst x :=
  h.wrote (s.le_put b p) (Disk.wroteOnly_put _ _ _) fun _ hx => hx ▸ hb

/-- Reserved blocks are marked used. -/
theorem MapInv.used_of_reserved (h : MapInv s) (hb : b < s.v.total)
    (hr : reservedBlock s.v.gm b = true) : used s.gst b = true :=
  h.map.used_of_reserved (by rw [← h.total] at hb; exact hb) hr

end MapInv

/-! ## What a call has taken so far -/

/-- What a call that starts in `s` may write: pending map slots and free blocks. -/
def Writable (s : St) (b : ℕ) : Prop :=
  Pending s.v.gm b ∨ (b < s.v.total ∧ used s.gst b = false)

/-- `s` is `s₀` with the blocks `X` taken and `slice` reserved. -/
structure Staged (s₀ s : St) (X : List ℕ) (slice : ℕ × ℕ) : Prop where
  start : MapInv s₀
  caps : ∀ i < inodes, (s₀.v.files i).used = true → (s₀.v.files i).n ≤ (s₀.v.files i).extCap
  map : MapInv s
  le : s₀ ≤ s
  vol : PoolMoved s₀.v s.v
  ngroups : s.v.gm.ngroups = s₀.v.gm.ngroups
  slot : s.v.gm.slot = s₀.v.gm.slot
  wrote : Disk.WroteOnly (Writable s₀) s₀.disk s.disk
  fresh : ∀ b ∈ X, b < s₀.v.total ∧ used s₀.gst b = false
  bits : ∀ b < s₀.v.total, (used s.gst b).toNat = (used s₀.gst b).toNat + X.count b
  pool : PoolInv s.v slice

section Staged

theorem Staged.refl (h : MapInv s)
    (hc : ∀ i < inodes, (s.v.files i).used = true → (s.v.files i).n ≤ (s.v.files i).extCap)
    (hp : PoolInv s.v slice) : Staged s s [] slice :=
  ⟨h, hc, h, le_refl s, PoolMoved.refl _, rfl, rfl, Disk.WroteOnly.refl _ _,
    fun _ hb => absurd hb List.not_mem_nil, fun _ _ => rfl, hp⟩

theorem Staged.dev (h : Staged s₀ s X slice) : s.v.dev = s₀.v.dev := congrArg VolCore.dev h.vol.core

theorem Staged.total (h : Staged s₀ s X slice) : s.v.total = s₀.v.total :=
  congrArg VolCore.total h.vol.core

theorem Staged.defer (h : Staged s₀ s X slice) : s.v.defer = s₀.v.defer :=
  congrArg VolCore.defer h.vol.core

theorem Staged.file (h : Staged s₀ s X slice) (i : ℕ) :
    s.v.files i = { s₀.v.files i with extOff := (s.v.files i).extOff } := h.vol.file i

theorem Staged.list (h : Staged s₀ s X slice) (hi : i < inodes) (hu : (s₀.v.files i).used = true) :
    exts s.v i = exts s₀.v i :=
  h.vol.list i hi hu (h.caps i hi hu)

theorem Staged.gm_total (h : Staged s₀ s X slice) : s.v.gm.total = s₀.v.gm.total := by
  rw [h.map.total, h.start.total, h.total]

theorem Staged.gb (h : Staged s₀ s X slice) : s.v.gm.gb = s₀.v.gm.gb := by
  rw [h.map.gb, h.start.gb]

theorem Staged.reserved_eq (h : Staged s₀ s X slice) (b : ℕ) :
    reservedBlock s.v.gm b = reservedBlock s₀.v.gm b := by
  rw [reservedBlock, reservedBlock, h.gb]

theorem Staged.pending_eq (h : Staged s₀ s X slice) : Pending s.v.gm = Pending s₀.v.gm :=
  pending_congr h.gb h.gm_total h.ngroups h.slot

/-- A taken block is not reserved. -/
theorem Staged.not_reserved (h : Staged s₀ s X slice) (hb : b ∈ X) :
    reservedBlock s₀.v.gm b = false := by
  obtain ⟨hlt, hfree⟩ := h.fresh b hb
  by_contra hr
  rw [h.start.used_of_reserved hlt (by simpa using hr)] at hfree
  exact absurd hfree (by simp)

/-- No block is taken twice. -/
theorem Staged.nodup (h : Staged s₀ s X slice) : X.Nodup := by
  rw [List.nodup_iff_count_le_one]
  intro b
  by_cases hb : b ∈ X
  · have h1 := h.bits b (h.fresh b hb).1
    have h2 := Bool.toNat_le (used s.gst b)
    omega
  · rw [List.count_eq_zero_of_not_mem hb]
    exact Nat.zero_le 1

/-- A block written or in use before the call is none of the taken ones. -/
theorem Staged.not_mem (h : Staged s₀ s X slice) (hu : used s₀.gst b = true) : b ∉ X := by
  intro hb
  rw [(h.fresh b hb).2] at hu
  exact absurd hu (by simp)

/-- A block in use before the call, outside the map's slots, has kept its content. -/
theorem Staged.block_eq (h : Staged s₀ s X slice) (hu : used s₀.gst b = true)
    (hr : reservedBlock s₀.v.gm b = false) : s.disk.block b = s₀.disk.block b := by
  refine h.wrote.block_eq (St.disk_le h.le h.dev) ?_
  intro hw
  rcases hw with ⟨g, _, _, he⟩ | ⟨_, hf⟩
  · have hres : reservedBlock s₀.v.gm (slotBlock s₀.v.gm g (1 - s₀.v.gm.slot g)) = true :=
      h.start.map.reserved_slot (by omega)
    rw [← he, hr] at hres
    exact absurd hres (by simp)
  · rw [hf] at hu
    exact absurd hu (by simp)

/-- A step of the map. -/
theorem Staged.setMap (h : Staged s₀ s X slice) (ht : GInv t) (hm : Moved s.gst t) (hle : s.gst ≤ t)
    (hf : ∀ b ∈ Y, b < s₀.v.total ∧ used s₀.gst b = false)
    (hb : ∀ b < s₀.v.total, (used t b).toNat = (used s₀.gst b).toNat + Y.count b) :
    Staged s₀ (s.setMap t) Y slice where
  start := h.start
  caps := h.caps
  map := h.map.setMap ht hm
  le := le_trans h.le (St.le_setDisk hle _)
  vol := ⟨h.vol.core, h.vol.file, h.vol.list⟩
  ngroups := hm.ngroups.trans h.ngroups
  slot := hm.slot.trans h.slot
  wrote := by
    refine h.wrote.trans ?_
    have hw := hm.wrote
    rw [h.map.disk_eq] at hw
    rw [h.map.setMap_disk]
    have hp : Pending s.gst.map = Pending s₀.v.gm := h.pending_eq
    rw [hp] at hw
    exact hw.mono fun _ hb => Or.inl hb
  fresh := hf
  bits := by rw [St.setMap_gst]; exact hb
  pool := ⟨h.pool.ledger, h.pool.fits⟩

/-- The allocation hint is not part of what a call has taken. -/
theorem Staged.setHint (h : Staged s₀ s X slice) (hn : n ≤ s.v.total) :
    Staged s₀ { s with v := { s.v with hint := n } } X slice where
  start := h.start
  caps := h.caps
  map := ⟨h.map.dev, h.map.spb, h.map.total, h.map.gb, h.map.total_ge, h.map.total_le, hn,
    h.map.map⟩
  le := h.le
  vol := ⟨h.vol.core, h.vol.file, h.vol.list⟩
  ngroups := h.ngroups
  slot := h.slot
  wrote := h.wrote
  fresh := h.fresh
  bits := h.bits
  pool := ⟨h.pool.ledger, h.pool.fits⟩

/-- Requests, failed or not, that wrote taken blocks only. -/
theorem Staged.wroteOnly (h : Staged s₀ s X slice) (hle : s.disk ≤ d)
    (hw : Disk.WroteOnly (· ∈ X) s.disk d) : Staged s₀ (s.setDisk s.v.dev d) X slice := by
  have hres : ∀ b, b ∈ X → reservedBlock s.v.gm b = false ∨ b < dataStart := by
    intro b hb
    rw [h.reserved_eq]
    exact Or.inl (h.not_reserved hb)
  obtain ⟨hmap, hused⟩ := h.map.wrote hle hw hres
  refine ⟨h.start, h.caps, hmap, le_trans h.le (St.le_setDisk hle _), h.vol, h.ngroups, h.slot,
    ?_, h.fresh, fun x hx => ?_, h.pool⟩
  · refine h.wrote.trans ?_
    rw [St.setDisk_disk]
    exact hw.mono fun x hx => Or.inr (h.fresh x hx)
  · rw [hused x (h.total ▸ hx)]
    exact h.bits x hx

/-- A write of a taken block. -/
theorem Staged.put (h : Staged s₀ s X slice) (hb : b ∈ X) (p : Bytes) :
    Staged s₀ (s.put b p) X slice :=
  h.wroteOnly (s.le_put b p) ((Disk.wroteOnly_put _ _ _).mono fun _ hx => hx ▸ hb)

/-- A read. -/
theorem Staged.served (h : Staged s₀ s X slice) : Staged s₀ s.served X slice :=
  h.wroteOnly (Disk.le_served _) (Disk.wroteOnly_served _ _)

/-- Only the pool moves, so every field but the last carries over. -/
theorem Staged.movePool (h : Staged s₀ s X slice) (hd : s'.disks = s.disks) (hgm : s'.v.gm = s.v.gm)
    (hh : s'.v.hint = s.v.hint) (hm : PoolMoved s.v s'.v) (hp : PoolInv s'.v r) :
    Staged s₀ s' X r := by
  have hdev : s'.v.dev = s.v.dev := congrArg VolCore.dev hm.core
  have hgdev : s'.v.gmDev = s.v.gmDev := congrArg VolCore.gmDev hm.core
  have htot : s'.v.total = s.v.total := congrArg VolCore.total hm.core
  have hspb : s'.v.spb = s.v.spb := congrArg VolCore.spb hm.core
  have hgst : s'.gst = s.gst := by rw [St.gst, St.gst, hgm, hd, hgdev]
  have hdisk : s'.disk = s.disk := by rw [St.disk, St.disk, hd, hdev]
  refine ⟨h.start, h.caps, ⟨?_, ?_, ?_, ?_, ?_, ?_, ?_, ?_⟩, ?_,
    ⟨hm.core.trans h.vol.core, fun i => ?_, fun i hi hu hle => ?_⟩, ?_, ?_, ?_, h.fresh, ?_, hp⟩
  · rw [hgdev, hdev]; exact h.map.dev
  · rw [hgm, hspb]; exact h.map.spb
  · rw [hgm, htot]; exact h.map.total
  · rw [hgm]; exact h.map.gb
  · rw [htot]; exact h.map.total_ge
  · rw [htot]; exact h.map.total_le
  · rw [hh, htot]; exact h.map.hint
  · rw [hgst]; exact h.map.map
  · intro i
    rw [hd]
    exact h.le i
  · rw [hm.file i, h.file i]
  · rw [hm.list i hi (by rw [h.file i]; exact hu) (by rw [h.file i]; exact hle), h.list hi hu]
  · rw [hgm]; exact h.ngroups
  · rw [hgm]; exact h.slot
  · rw [hdisk]; exact h.wrote
  · rw [hgst]; exact h.bits

/-- Giving a reserved slice back. -/
theorem Staged.unreserve (h : Staged s₀ s X slice) :
    Staged s₀ { s with v := poolRelease s.v slice.1 slice.2 } X (0, 0) :=
  h.movePool rfl rfl rfl ((PoolMoved.refl _).mark _ _ _) h.pool.unmark

end Staged

/-! ## Taking and giving back -/

/-- Only the map, the hint and the device moved. -/
def MapOnly (s s' : St) : Prop := s'.v = { s.v with gm := s'.v.gm, hint := s'.v.hint }

section Steps

/-- **`take_extent`**: a run of at most `need` blocks, or an empty one when every free
count is zero. -/
theorem wp_takeExtent (h : Staged s₀ s X slice) (hneed : 0 < need) {Q : ExfsExtent → St → Prop}
    (hQ : ∀ e s', 1 ≤ e.len → e.len ≤ need → e.start + e.len ≤ s₀.v.total →
      Staged s₀ s' (X ++ List.range' e.start e.len) slice → MapOnly s s' → Q e s')
    (hnone : ∀ s', Staged s₀ s' X slice → MapOnly s s' →
      (∀ g < s.v.gm.ngroups, s.v.gm.free g = 0) → Q ⟨0, 0⟩ s') : (takeExtent need).wp Q E s := by
  have hhint : s.v.hint ≤ s.gst.map.total := by
    have h1 : s.gst.map.total = s.v.total := h.map.total
    rw [h1]
    exact h.map.hint
  simp only [takeExtent, wp_bind, wp_get]
  rw [wp_onMap]
  refine wp_mono (wp_gmapTake h.map.map hneed hhint (Q := fun r t => TakePost s.gst need r t)
    (E := fun _ t => GInv t ∧ Same s.gst t ∧ ∀ g < s.v.gm.ngroups, s.v.gm.free g = 0)
    (fun r t ht => ht) (fun t h1 h2 h3 => ⟨h1, h2, h3⟩)) (fun r t hle ht => ?_)
      (fun _ t hle ht => ?_)
  · have htot : s.gst.map.total = s₀.v.total := h.map.total.trans h.total
    have hin := ht.in_volume
    rw [htot] at hin
    have hfree : ∀ b, r.1 ≤ b → b < r.1 + r.2 → used s₀.gst b = false ∧ X.count b = 0 := by
      intro b h1 h2
      have h3 := h.bits b (by omega)
      rw [ht.was_free b h1 h2] at h3
      simp only [Bool.toNat_false] at h3
      refine ⟨?_, by omega⟩
      cases hu : used s₀.gst b with
      | false => rfl
      | true => rw [hu] at h3; simp at h3; omega
    have hst : Staged s₀ (s.setMap t) (X ++ List.range' r.1 r.2) slice := by
      refine h.setMap ht.inv ht.moved hle (fun b hb => ?_) fun b hb => ?_
      · rcases List.mem_append.mp hb with hb | hb
        · exact h.fresh b hb
        · rw [List.mem_range'_1] at hb
          exact ⟨by omega, (hfree b hb.1 hb.2).1⟩
      · rw [ht.now_used b (htot ▸ hb), List.count_append, ← Nat.add_assoc, ← h.bits b hb]
        by_cases hr : r.1 ≤ b ∧ b < r.1 + r.2
        · rw [ht.was_free b hr.1 hr.2, List.count_eq_one_of_mem List.nodup_range'
            (List.mem_range'_1.mpr hr)]
          simp [hr]
        · rw [List.count_eq_zero_of_not_mem fun hm => hr (List.mem_range'_1.mp hm)]
          simp [hr]
    simp only [modV, wp_bind, wp_modify, wp_pure]
    have hdone := hst.setHint (n := r.1 + r.2) (by rw [hst.total]; exact hin)
    exact hQ ⟨r.1, r.2⟩ _ ht.pos ht.le_need hin hdone rfl
  · simp only [wp_pure]
    refine hnone _ (h.setMap ht.1 ht.2.1.toMoved hle h.fresh fun b hb => ?_) rfl ht.2.2
    have htot : s.gst.map.total = s₀.v.total := h.map.total.trans h.total
    rw [ht.2.1.used_eq h.map.map (htot ▸ hb)]
    exact h.bits b hb

/-- Giving back one run. -/
theorem wp_onMap_release {e : ExfsExtent} (h : Staged s₀ s (List.range' e.start e.len ++ X) slice)
    (hlen : 1 ≤ e.len) {Q : Except GmapError Unit → St → Prop}
    (hQ : ∀ s', Staged s₀ s' X slice → MapOnly s s' → Q (.ok ()) s') :
    (onMap (gmapRelease e.start e.len)).wp Q E s := by
  have htot : s.gst.map.total = s₀.v.total := h.map.total.trans h.total
  have hmem : ∀ b, e.start ≤ b → b < e.start + e.len →
      b ∈ List.range' e.start e.len ++ X := fun b h1 h2 =>
    List.mem_append_left _ (List.mem_range'_1.mpr ⟨h1, h2⟩)
  have hend : e.start + e.len ≤ s.gst.map.total := by
    have := (h.fresh _ (hmem (e.start + e.len - 1) (by omega) (by omega))).1
    omega
  have hone : ∀ b, e.start ≤ b → b < e.start + e.len → X.count b = 0 ∧ used s₀.gst b = false ∧
      used s.gst b = true := by
    intro b h1 h2
    have hf := h.fresh b (hmem b h1 h2)
    have hb := h.bits b hf.1
    have hle := Bool.toNat_le (used s.gst b)
    rw [List.count_append, List.count_eq_one_of_mem List.nodup_range'
      (List.mem_range'_1.mpr ⟨h1, h2⟩), hf.2, Bool.toNat_false] at hb
    refine ⟨by omega, hf.2, ?_⟩
    cases hu : used s.gst b with
    | true => rfl
    | false => rw [hu] at hb; simp at hb; omega
  rw [wp_onMap]
  refine wp_mono (wp_gmapRelease h.map.map hend (fun b h1 h2 => ⟨(hone b h1 h2).2.2, ?_⟩)
    (Q := fun _ t => GInv t ∧ Moved s.gst t ∧ ∀ x < s.gst.map.total,
      used t x = (used s.gst x && !decide (e.start ≤ x ∧ x < e.start + e.len)))
    (E := fun _ _ => False) fun t h1 h2 h3 => ⟨h1, h2, h3⟩) (fun _ t hle ht => ?_)
    (fun _ _ _ hf => hf.elim)
  · have := h.not_reserved (hmem b h1 h2)
    rw [← h.reserved_eq] at this
    exact this
  · refine hQ _ (h.setMap ht.1 ht.2.1 hle (fun b hb => h.fresh b (List.mem_append_right _ hb))
      fun b hb => ?_) rfl
    have hbits := h.bits b hb
    rw [ht.2.2 b (htot ▸ hb)]
    by_cases hr : e.start ≤ b ∧ b < e.start + e.len
    · obtain ⟨h1, h2, _⟩ := hone b hr.1 hr.2
      rw [h1, h2]
      simp [hr]
    · rw [List.count_append, List.count_eq_zero_of_not_mem fun hm => hr (List.mem_range'_1.mp hm),
        Nat.zero_add] at hbits
      simpa [hr] using hbits

/-- **`release_fresh`** gives every taken block back. -/
theorem wp_releaseFresh (h : Staged s₀ s (blocks fresh) slice) (hw : ∀ e ∈ fresh, 1 ≤ e.len)
    (hQ : ∀ s', Staged s₀ s' [] slice → MapOnly s s' → Q () s') :
    (releaseFresh fresh).wp Q E s := by
  induction fresh generalizing s with
  | nil => exact hQ s h rfl
  | cons e es ih =>
    simp only [releaseFresh, wp_bind]
    refine wp_onMap_release (e := e) h (hw e List.mem_cons_self) fun t ht hmo => ?_
    refine ih ht (fun e' he' => hw e' (List.mem_cons_of_mem _ he')) fun s' hs' hmo' => ?_
    refine hQ s' hs' ?_
    unfold MapOnly at hmo hmo' ⊢
    rw [hmo', hmo]

/-- **The allocation loop** takes exactly `need` blocks, or gives everything back. -/
theorem wp_takeFresh {Q : List ExfsExtent → St → Prop} (h : Staged s₀ s (blocks fresh) slice)
    (hw : Within s₀.v.total fresh) (hgot : (blocks fresh).length = got) (hle : got ≤ need)
    (hQ : ∀ fresh' s', Staged s₀ s' (blocks fresh') slice → Within s₀.v.total fresh' →
      (blocks fresh').length = need → fresh'.length ≤ fresh.length + k → Q fresh' s')
    (hE : ∀ e s', Staged s₀ s' [] slice → E e s') : (takeFresh need k got fresh).wp Q E s := by
  induction k generalizing s got fresh with
  | zero =>
    simp only [takeFresh, wp_ite, wp_bind, wp_pure]
    refine ⟨fun _ => ?_, fun hn => ?_⟩
    · exact wp_releaseFresh h (fun e he => (hw e he).1) fun s' hs' _ => hE _ s' hs'
    · exact hQ fresh s h hw (by omega) (by omega)
  | succ k ih =>
    simp only [takeFresh, wp_ite, wp_bind, wp_pure]
    refine ⟨fun hlt => ?_, fun hn => hQ fresh s h hw (by omega) (by omega)⟩
    refine wp_takeExtent h (by omega) (fun e t h1 h2 h3 ht _ => ?_) fun t ht _ _ => ?_
    · rw [wp_ite]
      refine ⟨fun h0 => by omega, fun _ => ?_⟩
      have hb : blocks (fresh ++ [e]) = blocks fresh ++ List.range' e.start e.len := by
        rw [blocks_append, blocks_cons, blocks_nil, List.append_nil]
      rw [← hb] at ht
      refine ih ht (hw.append (Within.singleton h1 h3)) ?_ (by omega) (fun f s' a1 a2 a3 a4 => ?_)
      · rw [hb, List.length_append, List.length_range', hgot]
      · refine hQ f s' a1 a2 a3 ?_
        rw [List.length_append, List.length_singleton] at a4
        omega
    · rw [wp_ite, wp_bind]
      exact ⟨fun _ => wp_releaseFresh ht (fun e he => (hw e he).1) fun s' hs' _ => hE _ s' hs',
        fun h0 => absurd rfl h0⟩

/-- Reserving pool space while blocks are taken. -/
theorem wp_reserve (h : Staged s₀ s X (0, 0)) {Q : ℕ × ℕ → St → Prop}
    (hQ : ∀ r s', Staged s₀ s' X r → s'.disks = s.disks → r.2 = capFor n → Q r s')
    (hE : ∀ e s', Staged s₀ s' X (0, 0) → E e s') : (poolReserve n).wp Q E s := by
  refine wp_poolReserve h.pool (fun r s' hr => ?_) fun s' h1 h2 h3 h4 h5 _ => ?_
  · exact hQ r s' (h.movePool hr.disks hr.gm hr.hint hr.moved hr.inv) hr.disks hr.cap
  · exact hE _ s' (h.movePool h1 h2 h3 h4 h5)

theorem wp_orRelease {err : ExfsError} {x : FsProg α} {Q : α → St → Prop}
    (h : x.wp Q (fun _ t => (releaseFresh fresh).wp (fun _ => E err) E t) s) :
    (orRelease fresh err x).wp Q E s := by
  rw [orRelease, wp_bind, wp_attempt]
  refine wp_mono h (fun _ _ _ h => h) fun _ t _ h => ?_
  simp only [wp_bind]
  exact h

/-- A part that fails gives back what was taken. -/
theorem wp_orUndo {x : FsProg α} {Q : α → St → Prop} (hw : ∀ e ∈ fresh, 1 ≤ e.len)
    (h : x.wp Q (fun _ t => Staged s₀ t (blocks fresh) slice) s)
    (hE : ∀ s', Staged s₀ s' [] (0, 0) → E .eio s') : (orUndo fresh slice x).wp Q E s := by
  rw [orUndo, wp_bind, wp_attempt]
  refine wp_mono h (fun _ _ _ h => h) fun _ t _ ht => ?_
  simp only [modV, wp_bind, wp_modify]
  exact wp_releaseFresh ht.unreserve hw fun s' hs' _ => hE s' hs'

/-- The blocks `bs`, and no others, were written, with the given pages. -/
structure WrotePages (s s' : St) (bs : List ℕ) (page : ℕ → Bytes) : Prop where
  vol : s'.v = s.v
  page : ∀ k < bs.length, s'.disk.block (bs.getD k 0) = page k
  other : ∀ b, b ∉ bs → s'.disk.block b = s.disk.block b

/-- The page of block `k` of a buffer of `len` bytes. -/
def dataPage (buf : Bytes) (len k : ℕ) : Bytes :=
  fun j => if j < min (len - k * blockBytes) blockBytes then buf (k * blockBytes + j) else 0

theorem St.put_block (s : St) (b : ℕ) (p : Bytes) :
    (s.put b p).disk.block = Function.update s.disk.block b p := by
  rw [St.put, St.setDisk_disk, Disk.put_block, Disk.served_block]

@[simp] theorem St.served_block (s : St) : s.served.disk.block = s.disk.block := by
  rw [St.served, St.setDisk_disk, Disk.served_block]

/-- **The data loop of `exfs_write`**, from block `k` of the buffer on. -/
theorem wp_writeData (h : Staged s₀ s X slice) (hmem : ∀ b ∈ bs, b ∈ X) (hnd : bs.Nodup)
    (hleft : left = len - k * blockBytes) (ho : 0 < left → o = k * blockBytes)
    (hQ : ∀ s', Staged s₀ s' X slice → WrotePages s s' bs (fun j => dataPage buf len (k + j)) →
      Q () s')
    (hE : ∀ e s', Staged s₀ s' X slice → E e s') : (writeData buf bs o left).wp Q E s := by
  induction bs generalizing s k o left with
  | nil => exact hQ s h ⟨rfl, fun j hj => absurd hj (Nat.not_lt_zero j), fun _ _ => rfl⟩
  | cons b bs ih =>
    obtain ⟨hb, hnd'⟩ := List.nodup_cons.mp hnd
    have hbX := hmem b List.mem_cons_self
    have hpage : (fun j => if j < min left blockBytes then buf (o + j) else 0) =
        dataPage buf len k := by
      funext j
      rw [dataPage, ← hleft]
      by_cases hj : j < min left blockBytes
      · rw [if_pos hj, if_pos hj, ho (by omega)]
      · rw [if_neg hj, if_neg hj]
    simp only [writeData, wp_bind]
    rw [hpage]
    have hlt : b < s.v.total := by
      rw [h.total]
      exact (h.fresh b hbX).1
    refine wp_blkPut_any h.map.fits hlt ?_ fun _ d hle hw => hE _ _
      (h.wroteOnly hle (hw.mono fun _ hx => hx ▸ hbX))
    refine ih (k := k + 1) (h.put hbX _) (fun x hx => hmem x (List.mem_cons_of_mem _ hx)) hnd'
      ?_ ?_ fun s' hs' hw => ?_
    · simp only [blockBytes] at *
      omega
    · simp only [blockBytes] at *
      omega
    · refine hQ s' hs' ⟨hw.vol, fun j hj => ?_, fun x hx => ?_⟩
      · cases j with
        | zero =>
          rw [List.getD_cons_zero, hw.other b hb, St.put_block, Function.update_self]
          rfl
        | succ j =>
          rw [List.getD_cons_succ, hw.page j (by simpa using hj)]
          congr 1
          omega
      · rw [List.mem_cons, not_or] at hx
        rw [hw.other x hx.2, St.put_block, Function.update_of_ne hx.1]

/-- The page `exfs_write_at` starts from, given the old blocks `old` and their content. -/
def oldPage (c : ℕ → Bytes) (old : List ℕ) (size off stop l : ℕ) : Bytes :=
  if ¬ (off ≤ l * blockBytes ∧ l * blockBytes + blockBytes ≤ stop) ∧ l < old.length then
    fun j => if size - l * blockBytes ≤ j then 0 else c (old.getD l 0) j
  else fun _ => 0

/-- The page `exfs_write_at` writes for logical block `l`. -/
def rangePage (c : ℕ → Bytes) (old : List ℕ) (size : ℕ) (buf : Bytes) (off stop l : ℕ) : Bytes :=
  fun j =>
    if max off (l * blockBytes) ≤ l * blockBytes + j ∧
        l * blockBytes + j < min stop (l * blockBytes + blockBytes) then
      buf (l * blockBytes + j - off)
    else oldPage c old size off stop l j

/-- **The data loop of `exfs_write_at`.** -/
theorem wp_writeRange {fresh old : List ℕ} (h : Staged s₀ s X slice)
    (hold : blocks (exts s.v i) = old) (hin : ∀ b ∈ old, b < s₀.v.total ∧ b ∉ fresh)
    (hmem : ∀ b ∈ fresh, b ∈ X) (hnd : fresh.Nodup) (hn : fresh.length = n)
    (hQ : ∀ s', Staged s₀ s' X slice → WrotePages s s' fresh
      (fun k => rangePage s.disk.block old (s.v.files i).size buf off stop (w0 + k)) → Q () s')
    (hE : ∀ e s', Staged s₀ s' X slice → E e s') :
    (writeRange i buf off stop old.length w0 fresh n).wp Q E s := by
  rw [writeRange]
  -- the first `k` fresh blocks are written, nothing else
  refine wp_mono (wp_iterate (fun k _ t => Staged s₀ t X slice ∧ WrotePages s t (fresh.take k)
      (fun k => rangePage s.disk.block old (s.v.files i).size buf off stop (w0 + k)))
    ⟨h, rfl, fun k hk => absurd hk (by simp), fun _ _ => rfl⟩ (fun k _ t hk hI => ?_))
    (fun _ t _ hI => ?_) (fun e t _ he => he)
  · obtain ⟨ht, hw⟩ := hI
    have hget : fresh.getD k 0 ∈ fresh := by
      rw [List.getD_eq_getElem _ _ (by omega)]
      exact List.getElem_mem _
    have hbX := hmem _ hget
    have hbase : ∀ {Q : Bytes → St → Prop}, (∀ t', Staged s₀ t' X slice → t'.v = t.v →
        t'.disk.block = t.disk.block →
        Q (oldPage s.disk.block old (s.v.files i).size off stop (w0 + k)) t') →
        (basePage i (w0 + k) old.length off stop).wp Q E t := by
      intro Q hQ
      simp only [basePage, wp_bind, wp_get, wp_ite, wp_pure, oldPage] at hQ ⊢
      refine ⟨fun hc => ?_, fun hc => ?_⟩
      · have hl : (old)[w0 + k]? = some (old.getD (w0 + k) 0) := by
          rw [List.getD_eq_getElem _ _ hc.2, List.getElem?_eq_getElem hc.2]
        have hmem' : old.getD (w0 + k) 0 ∈ old := List.mem_of_getElem? hl
        have hphys : oldPhys (w0 + k) (exts t.v i) 0 = some (old.getD (w0 + k) 0) := by
          rw [oldPhys_eq _ _ _ (Nat.zero_le _), hw.vol, hold, Nat.sub_zero, hl]
        simp only [hphys, wp_bind]
        refine wp_blkGot_any ht.map.fits (by rw [ht.total]; exact (hin _ hmem').1) ?_
            fun _ d hle hd =>
          hE _ _ (ht.wroteOnly hle (.of_cache_eq hd))
        rw [wp_pure, hw.vol,
          hw.other _ fun hm => (hin _ hmem').2 (List.mem_of_mem_take hm)]
        have := hQ _ ht.served rfl t.served_block
        rwa [if_pos hc] at this
      · have := hQ t ht rfl rfl
        rwa [if_neg hc] at this
    simp only [wp_bind]
    refine hbase fun t' ht' hv hd => ?_
    refine wp_blkPut_any ht'.map.fits (by rw [ht'.total]; exact (h.fresh _ hbX).1) ?_
        fun _ d hle hw =>
      hE _ _ (ht'.wroteOnly hle (hw.mono fun _ hx => hx ▸ hbX))
    refine ⟨ht'.put hbX _, ?_⟩
    have htake : fresh.take (k + 1) = fresh.take k ++ [fresh.getD k 0] := by
      rw [List.getD_eq_getElem _ _ (by omega), List.take_append_getElem]
    have hnot : fresh.getD k 0 ∉ fresh.take k := by
      have hnd' : (fresh.take (k + 1)).Nodup := hnd.sublist (List.take_sublist _ _)
      rw [htake] at hnd'
      intro hm
      exact (List.nodup_append.mp hnd').2.2 _ hm _ (List.mem_singleton_self _) rfl
    rw [htake]
    refine ⟨hv.trans hw.vol, fun j hj => ?_, fun b hb => ?_⟩
    · rw [List.length_append, List.length_singleton] at hj
      by_cases hjk : j < (fresh.take k).length
      · rw [List.getD_append _ _ _ _ hjk, St.put_block, Function.update_of_ne, hd, hw.page j hjk]
        intro he
        refine hnot (he ▸ ?_)
        rw [List.getD_eq_getElem _ _ hjk]
        exact List.getElem_mem _
      · have hlen : (fresh.take k).length = k := by rw [List.length_take]; omega
        obtain rfl : j = k := by omega
        rw [List.getD_append_right _ _ _ _ (by omega), hlen, Nat.sub_self, List.getD_cons_zero,
          St.put_block, Function.update_self]
        rfl
    · rw [List.mem_append, List.mem_singleton, not_or] at hb
      rw [St.put_block, Function.update_of_ne hb.2, hd, hw.other b hb.1]
  · obtain ⟨ht, hw⟩ := hI
    rw [← hn, List.take_length] at hw
    exact hQ t ht hw

end Steps

end Xasmos.Exfs
