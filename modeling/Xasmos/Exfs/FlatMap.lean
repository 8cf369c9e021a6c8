import Xasmos.Exfs.GroupMapTxn

/-!
# The group map refines a flat bitmap

Runs of the map's calls beside a bitmap of one bit a block.  The bitmap is moved by the
answers alone: a run that `gmap_take` returns is set, a run that is released is cleared.
`FlatLaw` says that the map answers like that bitmap, and `MapRun.flatLaw` that it does so
in every state of every run, whatever the cache holds.

A run starts with `gmap_format`, or with `gmap_import` of the tables that an earlier commit
sequence exported, possibly after calls that were never committed.

## Main definitions

* `MapOp` — the calls; `MapOp.after` — what an answer does to a bitmap.
* `MapRun` — the runs; `FlatLaw` — the answers of a flat bitmap.
-/

namespace Xasmos.Exfs

open Bytes Prog

variable {B held : ℕ → Bool} {b gb hint len ss start total : ℕ} {m m' : GMap} {s s' t : GSt}

/-- A call of the map, other than the commit sequence. -/
inductive MapOp where
  | take (hint need : UInt64)
  | release (start len : UInt64)
  | isUsed (block : UInt64)

/-- What a call returns. -/
inductive MapAnswer where
  | run (start len : ℕ)
  | bit (b : Bool)
  | done
  deriving DecidableEq, Repr

/-- The function a call runs. -/
def MapOp.prog : MapOp → GProg MapAnswer
  | .take hint need => do
    let r ← gmapTake hint.toNat need.toNat
    pure (.run r.1 r.2)
  | .release start len => do
    gmapRelease start.toNat len.toNat
    pure .done
  | .isUsed block => do
    let b ← gmapIsUsed block.toNat
    pure (.bit b)

/-- The bitmap with the blocks of a run set to `v`. -/
def setRun (B : ℕ → Bool) (start len : ℕ) (v : Bool) : ℕ → Bool :=
  fun b => if start ≤ b ∧ b < start + len then v else B b

/-- What a call does to a bitmap, by its answer. -/
def MapOp.after (op : MapOp) (r : Except GmapError MapAnswer) (B : ℕ → Bool) : ℕ → Bool :=
  match op, r with
  | .take _ _, .ok (.run start len) => setRun B start len true
  | .release start len, _ => setRun B start.toNat len.toNat false
  | _, _ => B

/-- A call on a map of `total` blocks whose caller holds the blocks `held`: only blocks that
are held are released. -/
def MapOp.Legal (total : ℕ) (held : ℕ → Bool) : MapOp → Prop
  | .take hint _ => hint.toNat ≤ total
  | .release start len => ∀ b, start.toNat ≤ b → b < start.toNat + len.toNat → held b = true
  | .isUsed block => block.toNat < total

/-- Exported tables, and the bitmap at that time. -/
structure Exported where
  slot : ℕ → ℕ
  free : ℕ → ℕ
  bits : ℕ → Bool
  held : ℕ → Bool

variable {X : Exported}

/-- The flat bitmap, the blocks handed out by `gmap_take` and not released since, and the
tables of the last commit sequence. -/
structure Flat where
  bits : ℕ → Bool
  held : ℕ → Bool
  exported : Option Exported

variable {F : Flat}

/-- What `gmap_export` writes, with the bitmap. -/
def Flat.exportOf (F : Flat) (m : GMap) : Exported :=
  ⟨(gmapExport m).1, (gmapExport m).2, F.bits, F.held⟩

/-- The states of runs on a device without faults, each with its flat bitmap. -/
inductive MapRun : GSt → Flat → Prop where
  | format {m m' : GMap} {D : Disk} {s : GSt} {total gb : ℕ}
      (hinit : gmapInit m D.sectorSize total gb = .ok m') (htotal : 34 ≤ total) (hf : D.Faultless)
      (hfit : total * m'.spb ≤ D.sectorCount) (hrun : gmapFormat.run ⟨m', D⟩ = (.ok (), s)) :
      MapRun s ⟨reservedBlock m', fun _ => false, none⟩
  | call {s s' : GSt} {F : Flat} {op : MapOp} {r : Except GmapError MapAnswer} (h : MapRun s F)
      (hop : op.Legal s.map.total F.held) (hrun : op.prog.run s = (r, s')) :
      MapRun s' ⟨op.after r F.bits, op.after r F.held, F.exported⟩
  | sync {s t : GSt} {F : Flat} (h : MapRun s F) (hrun : gmapFlush.run s = (.ok (), t)) :
      MapRun (mapCommitted t)
        ⟨F.bits, F.held, some (F.exportOf t.map)⟩
  | restart {s : GSt} {F : Flat} {X : Exported} {m m' : GMap} (h : MapRun s F)
      (hX : F.exported = some X)
      (hinit : gmapInit m s.disk.sectorSize s.map.total s.map.gb = .ok m') :
      MapRun (imported ⟨m', s.disk⟩ X.slot X.free) ⟨X.bits, X.held, some X⟩

/-- The map answers like the bitmap `B`, of which the caller holds `held`. -/
structure FlatLaw (s : GSt) (B held : ℕ → Bool) : Prop where
  isUsed : ∀ b : UInt64, b.toNat < s.map.total → ∃ s',
    (gmapIsUsed b.toNat).run s = (.ok (B b.toNat), s')
  take : ∀ hint need : UInt64, hint.toNat ≤ s.map.total →
    (∃ start len s', (gmapTake hint.toNat need.toNat).run s = (.ok (start, len), s') ∧ 1 ≤ len ∧
      len ≤ need.toNat ∧ start + len ≤ s.map.total ∧ ∀ b, start ≤ b → b < start + len →
        B b = false) ∨
    (∃ s', (gmapTake hint.toNat need.toNat).run s = (.error .enospc, s') ∧
      (need = 0 ∨ ∀ b < s.map.total, B b = true))
  release : ∀ start len : UInt64,
    (∀ b, start.toNat ≤ b → b < start.toNat + len.toNat → held b = true) →
    ∃ s', (gmapRelease start.toNat len.toNat).run s = (.ok (), s')
  flush : ∃ s', gmapFlush.run s = (.ok (), s')
  free : ∀ g < s.map.ngroups,
    s.map.free g = Nat.count (fun i => B (g * s.map.gb + i) = false) (validBits s.map g)

/-! ## The invariant of runs -/

/-- The tables `X` are still on the device: the committed slots are theirs. -/
structure OnDevice (s : GSt) (X : Exported) :
    Prop extends MapOn s.map s.disk.block X.slot X.free where
  slot : ∀ g < s.map.ngroups, X.slot g = s.map.slot g
  bits : ∀ b < s.map.total,
    bitOf (s.disk.block (slotBlock s.map (b / s.map.gb) (X.slot (b / s.map.gb)))) (b % s.map.gb) =
      X.bits b

/-- The blocks a caller holds are used ones that it may release. -/
def HeldOk (m : GMap) (B held : ℕ → Bool) : Prop :=
  ∀ b, held b = true → b < m.total ∧ B b = true ∧ reservedBlock m b = false

/-- The map stands for the bitmap. -/
structure FlatInv (s : GSt) (F : Flat) : Prop extends GInv s where
  bit : ∀ b < s.map.total, used s b = F.bits b
  held : HeldOk s.map F.bits F.held
  exported : ∀ X, F.exported = some X → OnDevice s X ∧ HeldOk s.map X.bits X.held

section Steps

theorem HeldOk.congr (h : HeldOk m B held) (ht : m'.total = m.total) (hgb : m'.gb = m.gb) :
    HeldOk m' B held := by
  intro b hb
  obtain ⟨h1, h2, h3⟩ := h b hb
  rw [ht]
  refine ⟨h1, h2, ?_⟩
  rw [reservedBlock, hgb]
  exact h3

/-- Only pending slots are written, so the exported tables stay on the device. -/
theorem OnDevice.moved (h : OnDevice s X) (hi : GInv s) (hm : Moved s s') (hle : s.disk ≤ s'.disk) :
    OnDevice s' X := by
  have hblk : ∀ g < s.map.ngroups,
      s'.disk.block (slotBlock s.map g (X.slot g)) =
        s.disk.block (slotBlock s.map g (X.slot g)) := by
    intro g hg
    refine hm.wrote.block_eq hle ?_
    rintro ⟨g', hg', _, he⟩
    have h1 := hi.slot_le g' hg'
    have h2 := hi.slot_le g hg
    rw [h.slot g hg] at he
    obtain ⟨rfl, hslot⟩ := hi.slotBlock_inj (by omega) (by omega) he
    omega
  refine ⟨⟨fun g hg => h.slot_le g (hm.ngroups ▸ hg), fun g hg h1 => ?_, fun g hg => ?_,
    fun g hg i hi' => ?_⟩, fun g hg => ?_, fun b hb => ?_⟩
  · rw [slotBlock_congr hm.gb, hm.total]
    exact h.two_slots g (hm.ngroups ▸ hg) h1
  · rw [slotBlock_congr hm.gb, validBits_congr hm.gb hm.total, hblk g (hm.ngroups ▸ hg)]
    exact h.free_eq g (hm.ngroups ▸ hg)
  · rw [slotBlock_congr hm.gb, hblk g (hm.ngroups ▸ hg)]
    exact h.reserved g (hm.ngroups ▸ hg) i hi'
  · rw [hm.slot]
    exact h.slot g (hm.ngroups ▸ hg)
  · rw [hm.total] at hb
    rw [slotBlock_congr hm.gb, hm.gb, hblk _ (hi.group_lt hb)]
    exact h.bits b hb

/-- A step of the map, with the bitmaps after it. -/
theorem FlatInv.moved (h : FlatInv s F) (hi : GInv s') (hm : Moved s s') (hle : s.disk ≤ s'.disk)
    (hu : ∀ b < s.map.total, used s' b = B b) (hh : HeldOk s.map B held) :
    FlatInv s' ⟨B, held, F.exported⟩ := by
  refine ⟨hi, fun b hb => hu b (hm.total ▸ hb), hh.congr hm.total hm.gb, fun X hX => ?_⟩
  obtain ⟨h1, h2⟩ := h.exported X hX
  exact ⟨h1.moved h.toGInv hm hle, h2.congr hm.total hm.gb⟩

theorem HeldOk.take (h : HeldOk m B held) (hin : start + len ≤ m.total)
    (hres : ∀ b, start ≤ b → b < start + len → reservedBlock m b = false) :
    HeldOk m (setRun B start len true) (setRun held start len true) := by
  intro b hb
  by_cases hrun : start ≤ b ∧ b < start + len
  · simp only [setRun, if_pos hrun]
    exact ⟨by omega, trivial, hres b hrun.1 hrun.2⟩
  · simp only [setRun, if_neg hrun] at hb ⊢
    exact h b hb

theorem HeldOk.release (h : HeldOk m B held) (start len : ℕ) :
    HeldOk m (setRun B start len false) (setRun held start len false) := by
  intro b hb
  by_cases hrun : start ≤ b ∧ b < start + len
  · simp only [setRun, if_pos hrun] at hb
    exact absurd hb (by simp)
  · simp only [setRun, if_neg hrun] at hb ⊢
    exact h b hb

/-- A run of held blocks lies on the volume. -/
theorem HeldOk.run_le (h : HeldOk m B held) (hpos : 0 < len)
    (hrun : ∀ b, start ≤ b → b < start + len → held b = true) : start + len ≤ m.total := by
  have := (h (start + len - 1) (hrun _ (by omega) (by omega))).1
  omega

/-- With no free block in any group every block is used. -/
theorem MapOk.used_of_full (h : MapOk s) (hfull : ∀ g < s.map.ngroups, s.map.free g = 0)
    (hb : b < s.map.total) : used s b = true := by
  have hg := h.group_lt hb
  have hclear := h.free_eq _ hg
  rw [hfull _ hg] at hclear
  exact clearBits_eq_zero_iff.mp hclear.symm _ (h.bit_of_block hb)

theorem FlatInv.wp_take (h : FlatInv s F) (need : ℕ) (hhint : hint ≤ s.map.total) :
    (gmapTake hint need).wp
      (fun r s' => (1 ≤ r.2 ∧ r.2 ≤ need ∧ r.1 + r.2 ≤ s.map.total ∧
          ∀ b, r.1 ≤ b → b < r.1 + r.2 → F.bits b = false) ∧
        FlatInv s' ⟨setRun F.bits r.1 r.2 true, setRun F.held r.1 r.2 true, F.exported⟩)
      (fun e s' => (e = .enospc ∧ (need = 0 ∨ ∀ b < s.map.total, F.bits b = true)) ∧
        FlatInv s' F) s := by
  rcases Nat.eq_zero_or_pos need with h0 | hpos
  · simp only [gmapTake, wp_bind, wp_failIf]
    exact ⟨fun _ => ⟨⟨trivial, Or.inl h0⟩, h⟩, fun hne => absurd h0 hne⟩
  · refine wp_mono (wp_gmapTake h.toGInv hpos hhint (Q := fun r s' => TakePost s need r s')
      (E := fun e s' => e = .enospc ∧ GInv s' ∧ Same s s' ∧ ∀ g < s.map.ngroups, s.map.free g = 0)
      (fun _ _ hp => hp) fun _ hi hs hf => ⟨rfl, hi, hs, hf⟩) (fun r s' hle hp => ?_)
        fun e s' hle hp => ?_
    · have hfree : ∀ b, r.1 ≤ b → b < r.1 + r.2 → F.bits b = false := by
        intro b h1 h2
        have hin := hp.in_volume
        rw [← h.bit b (by omega)]
        exact hp.was_free b h1 h2
      refine ⟨⟨hp.pos, hp.le_need, hp.in_volume, hfree⟩, h.moved hp.inv hp.moved hle
        (fun b hb => ?_)
        (h.held.take hp.in_volume fun b h1 h2 => ?_)⟩
      · rw [hp.now_used b hb, h.bit b hb, setRun]
        by_cases hrun : r.1 ≤ b ∧ b < r.1 + r.2
        · rw [if_pos hrun, decide_eq_true hrun, Bool.or_true]
        · rw [if_neg hrun, decide_eq_false hrun, Bool.or_false]
      · have hin := hp.in_volume
        cases hr : reservedBlock s.map b with
        | false => rfl
        | true =>
          have hu := h.used_of_reserved (show b < s.map.total by omega) hr
          rw [hp.was_free b h1 h2] at hu
          exact absurd hu (by simp)
    · obtain ⟨rfl, hi, hs, hf⟩ := hp
      refine ⟨⟨rfl, Or.inr fun b hb => ?_⟩, h.moved hi hs.toMoved hle (fun b hb => ?_) h.held⟩
      · rw [← h.bit b hb]
        exact h.used_of_full hf hb
      · rw [hs.used_eq h.toGInv hb, h.bit b hb]

theorem FlatInv.wp_release (h : FlatInv s F)
    (hrun : ∀ b, start ≤ b → b < start + len → F.held b = true) :
    (gmapRelease start len).wp
      (fun _ s' => FlatInv s' ⟨setRun F.bits start len false, setRun F.held start len false,
        F.exported⟩)
      (fun _ _ => False) s := by
  rcases Nat.eq_zero_or_pos len with h0 | hpos
  · have hnone : (start + len) % 2 ^ 64 - start = 0 := by
      have := Nat.mod_le start (2 ^ 64)
      rw [h0, Nat.add_zero]
      omega
    have hid : ∀ B : ℕ → Bool, setRun B start len false = B := by
      intro B
      funext b
      rw [setRun, if_neg (by omega)]
    rw [gmapRelease, hnone, Prog.iterate, Prog.iterateFrom, wp_pure, hid, hid]
    exact h
  · have hin : start + len ≤ s.map.total := h.held.run_le hpos hrun
    have hheld : ∀ b, start ≤ b → b < start + len → used s b = true ∧
        reservedBlock s.map b = false := by
      intro b h1 h2
      obtain ⟨hb, hbit, hres⟩ := h.held b (hrun b h1 h2)
      exact ⟨(h.bit b hb).trans hbit, hres⟩
    refine wp_mono (wp_gmapRelease h.toGInv hin hheld
      (Q := fun _ s' => GInv s' ∧ Moved s s' ∧ ∀ x < s.map.total,
        used s' x = (used s x && !decide (start ≤ x ∧ x < start + len)))
      (E := fun _ _ => False) fun _ hi hm hu => ⟨hi, hm, hu⟩) (fun _ s' hle hp => ?_)
        fun _ _ _ hf => hf
    obtain ⟨hi, hm, hu⟩ := hp
    refine h.moved hi hm hle (fun b hb => ?_) (h.held.release start len)
    rw [hu b hb, h.bit b hb, setRun]
    by_cases hrun' : start ≤ b ∧ b < start + len
    · rw [if_pos hrun', decide_eq_true hrun', Bool.not_true, Bool.and_false]
    · rw [if_neg hrun', decide_eq_false hrun', Bool.not_false, Bool.and_true]

theorem FlatInv.wp_isUsed (h : FlatInv s F) (hb : b < s.map.total) :
    (gmapIsUsed b).wp (fun u s' => u = F.bits b ∧ FlatInv s' F) (fun _ _ => False) s := by
  refine wp_mono (wp_gmapIsUsed h.toGInv hb (Q := fun u s' => u = used s b ∧ GInv s' ∧ Same s s')
    (E := fun _ _ => False) fun _ hi hs => ⟨rfl, hi, hs⟩) (fun u s' hle hp => ?_) fun _ _ _ hf => hf
  obtain ⟨rfl, hi, hs⟩ := hp
  exact ⟨h.bit b hb, h.moved hi hs.toMoved hle
    (fun x hx => by rw [hs.used_eq h.toGInv hx, h.bit x hx]) h.held⟩

/-- **A call** keeps the map and the bitmap together. -/
theorem FlatInv.call {op : MapOp} {r : Except GmapError MapAnswer} (h : FlatInv s F)
    (hop : op.Legal s.map.total F.held) (hrun : op.prog.run s = (r, s')) :
    FlatInv s' ⟨op.after r F.bits, op.after r F.held, F.exported⟩ := by
  cases op with
  | take hint need =>
    have hwp : (MapOp.take hint need).prog.wp
        (fun a t => FlatInv t ⟨(MapOp.take hint need).after (.ok a) F.bits,
          (MapOp.take hint need).after (.ok a) F.held, F.exported⟩) (fun _ t => FlatInv t F) s := by
      simp only [MapOp.prog, wp_bind]
      exact wp_mono (h.wp_take _ hop) (fun _ _ _ hp => hp.2) fun _ _ _ hp => hp.2
    cases r with
    | ok a => exact hwp.ok hrun
    | error e => exact hwp.error hrun
  | release start len =>
    have hwp : (MapOp.release start len).prog.wp
        (fun _ t => FlatInv t ⟨setRun F.bits start.toNat len.toNat false,
          setRun F.held start.toNat len.toNat false, F.exported⟩) (fun _ _ => False) s := by
      simp only [MapOp.prog, wp_bind]
      exact h.wp_release hop
    cases r with
    | ok a => exact hwp.ok hrun
    | error e => exact absurd (hwp.error hrun) id
  | isUsed block =>
    have hwp : (MapOp.isUsed block).prog.wp (fun _ t => FlatInv t F) (fun _ _ => False) s := by
      simp only [MapOp.prog, wp_bind]
      exact wp_mono (h.wp_isUsed hop) (fun _ _ _ hp => hp.2) fun _ _ _ hf => hf
    cases r with
    | ok a => exact hwp.ok hrun
    | error e => exact absurd (hwp.error hrun) id

end Steps

/-! ## The start of a run, and the commit sequence -/

section Start

variable {D : Disk}

/-- What `gmap_init` accepts. -/
theorem gmapInit_spec (h : gmapInit m ss total gb = .ok m') :
    groupMin ≤ gb ∧ gb ≤ groupMax ∧ (total + gb - 1) / gb ≤ maxGroups ∧ 0 < ss ∧
      m'.spb * ss = blockBytes ∧
      m'.total = total ∧ m'.gb = gb ∧ m'.ngroups = (total + gb - 1) / gb := by
  unfold gmapInit at h
  split_ifs at h with h1 h2 h3 h4
  obtain rfl := Except.ok.inj h
  have hdvd : ss ∣ blockBytes := Nat.dvd_of_mod_eq_zero (by omega)
  exact ⟨by omega, by omega, by omega, by omega, Nat.div_mul_cancel hdvd, rfl, rfl, rfl⟩

theorem gmapInit_empty (h : gmapInit m ss total gb = .ok m') :
    Unused m' ∧ ∀ i, (m'.cache i).valid = false := by
  unfold gmapInit at h
  split_ifs at h
  obtain rfl := Except.ok.inj h
  exact ⟨⟨rfl, rfl⟩, fun _ => rfl⟩

theorem gmapInit_pos (h : gmapInit m ss total gb = .ok m') : 0 < m'.ngroups := by
  unfold gmapInit at h
  split_ifs at h with h1 h2 h3
  obtain rfl := Except.ok.inj h
  exact Nat.pos_of_ne_zero fun h0 => h3 (Or.inl h0)

/-- A map that was just initialised has sound geometry. -/
theorem gmapInit_geo (hinit : gmapInit m D.sectorSize total gb = .ok m')
    (htotal : dataStart < total) (hf : ∀ g t, t ≤ 1 → D.Serves (slotBlock m' g t))
    (hfit : total * m'.spb ≤ D.sectorCount) : MapGeo ⟨m', D⟩ := by
  obtain ⟨h1, h2, h3, h4, h5, h6, h7, h8⟩ := gmapInit_spec hinit
  have hpos : 0 < gb := lt_of_lt_of_le (by decide) h1
  have hspb : m'.spb ≤ 4096 := by
    have := Nat.le_mul_of_pos_right m'.spb h4
    rw [h5] at this
    exact this
  have hsmall : total * m'.spb < 2 ^ 64 := by
    have hdiv := Nat.lt_mul_div_succ (total + gb - 1) hpos
    have hle : gb * ((total + gb - 1) / gb + 1) ≤ 32768 * 513 :=
      Nat.mul_le_mul h2 (Nat.succ_le_succ h3)
    have hmul : total * m'.spb ≤ (32768 * 513) * 4096 := Nat.mul_le_mul (by omega) hspb
    omega
  refine ⟨hf, ⟨h5, ?_, ?_⟩, ?_, ?_, ?_, ?_, ?_⟩
  · rw [h6]; exact hfit
  · rw [h6]; exact hsmall
  · rw [h7]; exact h1
  · rw [h7]; exact h2
  · rw [h6]; exact htotal
  · rw [h6, h7, h8]
  · rw [h8]; exact h3

theorem FlatInv.of_format (hgeo : MapGeo ⟨m', D⟩) (hm : Unused m')
    (hrun : gmapFormat.run ⟨m', D⟩ = (.ok (), s)) :
    FlatInv s ⟨reservedBlock m', fun _ => false, none⟩ := by
  have hwp := wp_gmapFormat hgeo hm (Q := fun _ s => FormatPost ⟨m', D⟩ s) (E := fun _ _ => False)
    fun _ hp => hp
  have hp := hwp.ok hrun
  refine ⟨hp.inv, fun b hb => hp.used b (hp.total ▸ hb), fun b hb => absurd hb (by simp),
    fun X hX => ?_⟩
  exact absurd hX (by simp)

/-- The tables of a flushed map are on the device. -/
theorem OnDevice.of_flush (h : FlatInv t F) (hclean : ∀ i g, ¬ DirtyAt t.map i g) :
    OnDevice (mapCommitted t) (F.exportOf t.map) := by
  have hslot : ∀ g < t.map.ngroups, (F.exportOf t.map).slot g = newestSlot t.map g :=
    fun g hg => if_pos hg
  have hfree : ∀ g < t.map.ngroups, (F.exportOf t.map).free g = t.map.free g :=
    fun g hg => if_pos hg
  have hcur := h.toGInv.curBits_flush hclean
  refine ⟨⟨fun g hg => ?_, fun g hg h1 => ?_, fun g hg => ?_, fun g hg i hi => ?_⟩, fun g hg => ?_,
    fun b hb => ?_⟩
  · rw [hslot g hg]
    exact h.newest_le hg
  · have hlt := h.newest_lt hg
    rw [hslot g hg] at h1
    rw [h1] at hlt
    exact hlt
  · rw [hslot g hg, hfree g hg, h.free_eq g hg, hcur g]
    rfl
  · have hres := h.reserved g hg i hi
    rw [hcur g] at hres
    rw [hslot g hg]
    exact hres
  · rw [hslot g hg]
    exact (if_pos hg).symm
  · have hg : b / t.map.gb < t.map.ngroups := h.group_lt hb
    have hbit := h.bit b hb
    rw [used, hcur] at hbit
    have hgb : (mapCommitted t).map.gb = t.map.gb := rfl
    rw [hgb, hslot _ hg]
    exact hbit

/-- **The commit sequence** changes no bit. -/
theorem FlatInv.sync (h : FlatInv s F) (hrun : gmapFlush.run s = (.ok (), t)) :
    FlatInv (mapCommitted t)
      ⟨F.bits, F.held, some (F.exportOf t.map)⟩ := by
  have hwp := wp_gmapFlush h.toGInv (Q := fun _ t => GInv t ∧ Same s t ∧ ∀ i g, ¬ DirtyAt t.map i g)
    (E := fun _ _ => False) fun _ hi hs hc => ⟨hi, hs, hc⟩
  obtain ⟨hi, hs, hclean⟩ := hwp.ok hrun
  have hle : s.disk ≤ t.disk := by
    have := gmapFlush.le_run s
    rw [hrun] at this
    exact this
  have ht : FlatInv t F :=
    h.moved hi hs.toMoved hle (fun b hb => by rw [hs.used_eq h.toGInv hb, h.bit b hb]) h.held
  refine ⟨hi.committed hclean, fun b hb => ?_, ht.held, fun X hX => ?_⟩
  · have hgb : (mapCommitted t).map.gb = t.map.gb := rfl
    rw [← ht.bit b hb, used, used, hgb, curBits_committed (hi.group_lt hb)]
  · obtain rfl := Option.some.inj hX
    exact ⟨OnDevice.of_flush ht hclean, ht.held⟩

/-- **`gmap_import`** of exported tables is the map at the time of the export. -/
theorem FlatInv.restart (h : FlatInv s F) (hX : F.exported = some X)
    (hinit : gmapInit m s.disk.sectorSize s.map.total s.map.gb = .ok m') :
    FlatInv (imported ⟨m', s.disk⟩ X.slot X.free) ⟨X.bits, X.held, some X⟩ := by
  obtain ⟨hon, hheld⟩ := h.exported X hX
  obtain ⟨_, _, _, h4, h5, h6, h7, h8⟩ := gmapInit_spec hinit
  have hspb : m'.spb = s.map.spb := Nat.eq_of_mul_eq_mul_right h4 (h5.trans h.fits.spb_mul.symm)
  have hng : m'.ngroups = s.map.ngroups := h8.trans h.ngroups_eq.symm
  have hgeo : MapGeo ⟨m', s.disk⟩ :=
      gmapInit_geo hinit h.total_min (fun g t ht => slotBlock_congr h7 g t ▸ h.serves g t ht) (by
    rw [hspb]
    exact h.fits.fits)
  have himp : Importable ⟨m', s.disk⟩ X.slot X.free := by
    refine ⟨hgeo, fun g hg => hon.slot_le g (hng ▸ hg), fun g hg h1 => ?_, fun g hg => ?_,
      fun g hg i hi => ?_⟩
    · rw [slotBlock_congr h7, h6]
      exact hon.two_slots g (hng ▸ hg) h1
    · rw [slotBlock_congr h7, validBits_congr h7 h6]
      exact hon.free_eq g (hng ▸ hg)
    · rw [slotBlock_congr h7]
      exact hon.reserved g (hng ▸ hg) i hi
  have htot : (imported ⟨m', s.disk⟩ X.slot X.free).map.total = s.map.total := h6
  have hgb : (imported ⟨m', s.disk⟩ X.slot X.free).map.gb = s.map.gb := h7
  refine ⟨himp.inv, fun b hb => ?_, hheld.congr htot hgb, fun Y hY => ?_⟩
  · rw [htot] at hb
    have hg : b / s.map.gb < m'.ngroups := hng ▸ h.group_lt hb
    rw [used, hgb, curBits_imported (himp.slot_le _ hg) hg, slotBlock_congr h7]
    exact hon.bits b hb
  · obtain rfl := Option.some.inj hY
    refine ⟨⟨⟨himp.slot_le, himp.two_slots, himp.free_eq, himp.reserved⟩, fun g hg => ?_,
      fun b hb => ?_⟩, hheld.congr htot hgb⟩
    · have hg' : g < (⟨m', s.disk⟩ : GSt).map.ngroups := hg
      rw [imported_slot (himp.slot_le g hg') hg']
    · rw [htot] at hb
      rw [hgb]
      exact (congrArg (fun c => bitOf (s.disk.block c) (b % s.map.gb))
        (slotBlock_congr h7 _ _)).trans
        (hon.bits b hb)

end Start

/-! ## Every state of every run -/

section Run

/-- **The invariant holds in every state of a run.** -/
theorem MapRun.flatInv (h : MapRun s F) : FlatInv s F := by
  induction h with
  | format hinit htotal hf hfit hrun =>
    exact FlatInv.of_format (gmapInit_geo hinit (lt_of_lt_of_le (by decide) htotal)
      (fun _ _ _ => hf.serves _) hfit) (gmapInit_empty hinit).1 hrun
  | call _ hop hrun ih => exact ih.call hop hrun
  | sync _ hrun ih => exact ih.sync hrun
  | restart _ hX hinit ih => exact ih.restart hX hinit

/-- **The cached, two-slot map refines the flat bitmap**, in every state of every run. -/
theorem MapRun.flatLaw (s : GSt) (F : Flat) (h : MapRun s F) : FlatLaw s F.bits F.held := by
  have hinv := h.flatInv
  refine ⟨fun b hb => ?_, fun hint need hhint => ?_, fun start len hrun => ?_, ?_, fun g hg =>
    hinv.toGInv.free_eq_count hinv.bit hg⟩
  · obtain ⟨u, s', hr, hu, _⟩ := (hinv.wp_isUsed hb).exists_ok
    exact ⟨s', hu ▸ hr⟩
  · have hwp := hinv.wp_take need.toNat hhint
    cases hr : (gmapTake hint.toNat need.toNat).run s with
    | mk r s' =>
      cases r with
      | ok p =>
        obtain ⟨⟨h1, h2, h3, h4⟩, _⟩ := hwp.ok hr
        exact Or.inl ⟨p.1, p.2, s', rfl, h1, h2, h3, h4⟩
      | error e =>
        obtain ⟨⟨rfl, hfull⟩, _⟩ := hwp.error hr
        refine Or.inr ⟨s', rfl, hfull.imp_left fun h0 => ?_⟩
        exact UInt64.toNat_inj.mp h0
  · obtain ⟨_, s', hr, _⟩ := (hinv.wp_release hrun).exists_ok
    exact ⟨s', hr⟩
  · have hwp := wp_gmapFlush hinv.toGInv (Q := fun _ _ => True) (E := fun _ _ => False)
      fun _ _ _ _ => trivial
    obtain ⟨_, s', hr, _⟩ := hwp.exists_ok
    exact ⟨s', hr⟩

/-- The map before the first call: static data, all zero. -/
def bootMap : GMap :=
  ⟨0, 0, 0, 0, fun _ => 0, fun _ => false, fun _ => 0, fun _ => ⟨fun _ => 0, 0, false, false, 0⟩, 0⟩

/-- The map of nine groups of 64 blocks, one more than the cache holds. -/
def nineMap : GMap := { bootMap with spb := 1, total := 576, gb := 64, ngroups := 9 }

/-- The call that takes the first free block of group `g` after its first twenty. -/
def takeIn (g : ℕ) : MapOp := .take (UInt64.ofNat (64 * g + 20)) 1

/-- The state and the held blocks after a list of calls. -/
def afterCalls : GSt × (ℕ → Bool) → List MapOp → GSt × (ℕ → Bool)
  | e, [] => e
  | e, op :: ops => afterCalls ((op.prog.run e.1).2, op.after (op.prog.run e.1).1 e.2) ops

/-- Each call of the list is legal where it is made. -/
def LegalCalls : GSt × (ℕ → Bool) → List MapOp → Prop
  | _, [] => True
  | e, op :: ops => op.Legal e.1.map.total e.2 ∧
    LegalCalls ((op.prog.run e.1).2, op.after (op.prog.run e.1).1 e.2) ops

instance decidableLegal (total : ℕ) (held : ℕ → Bool) : (op : MapOp) →
    Decidable (op.Legal total held)
  | .take hint _ => inferInstanceAs (Decidable (hint.toNat ≤ total))
  | .release start len =>
    decidable_of_iff (∀ b < start.toNat + len.toNat, start.toNat ≤ b → held b = true)
      ⟨fun h b h1 h2 => h b h2 h1, fun h b h2 h1 => h b h1 h2⟩
  | .isUsed block => inferInstanceAs (Decidable (block.toNat < total))

instance decidableLegalCalls : (e : GSt × (ℕ → Bool)) → (ops : List MapOp) →
    Decidable (LegalCalls e ops)
  | _, [] => isTrue trivial
  | e, op :: ops =>
    @instDecidableAnd _ _ (decidableLegal e.1.map.total e.2 op)
      (decidableLegalCalls ((op.prog.run e.1).2, op.after (op.prog.run e.1).1 e.2) ops)

/-- A run goes on with a list of legal calls. -/
theorem MapRun.afterCalls (h : MapRun s F) {ops : List MapOp}
    (hlegal : LegalCalls (s, F.held) ops) :
    MapRun (Exfs.afterCalls (s, F.held) ops).1
      ⟨(Exfs.afterCalls (s, F.bits) ops).2, (Exfs.afterCalls (s, F.held) ops).2, F.exported⟩ := by
  induction ops generalizing s F with
  | nil => exact h
  | cons op ops ih =>
    have hstep : op.prog.run s = ((op.prog.run s).1, (op.prog.run s).2) := rfl
    exact ih (h.call hlegal.1 hstep) hlegal.2

/-- A device for `nineMap` that was never written. -/
def nineBlank : Disk := { blankDisk with sectorCount := 576 }

/-- The start of a run: `gmap_format`. -/
def nineStart : Except GmapError Unit × GSt := gmapFormat.run ⟨nineMap, nineBlank⟩

/-- A block is taken in each of the nine groups, so that the first leaves the cache, and the first
block is given back, for which its group is read again. -/
def nineCalls : List MapOp := (List.range 9).map takeIn ++ [.release 20 1]

theorem MapRun.flatLaw_nineGroups : ∃ s F, MapRun s F ∧ s.map.ngroups = 9 ∧ s.map.written 0 = true ∧
    F.bits 20 = false ∧ F.held 84 = true ∧ FlatLaw s F.bits F.held := by
  have hok : nineStart.1.toOption = some () := by decide +kernel
  have hcalls : LegalCalls (nineStart.2, fun _ => false) nineCalls ∧
      (Exfs.afterCalls (nineStart.2, fun _ => false) nineCalls).1.map.ngroups = 9 ∧
      (Exfs.afterCalls (nineStart.2, fun _ => false) nineCalls).1.map.written 0 = true ∧
      (Exfs.afterCalls (nineStart.2, reservedBlock nineMap) nineCalls).2 20 = false ∧
      (Exfs.afterCalls (nineStart.2, fun _ => false) nineCalls).2 84 = true := by decide +kernel
  have hinit : gmapInit bootMap nineBlank.sectorSize 576 64 = .ok nineMap := rfl
  have hfit : 576 * nineMap.spb ≤ nineBlank.sectorCount := by decide
  have hrun : gmapFormat.run ⟨nineMap, nineBlank⟩ = nineStart := rfl
  generalize nineStart = e at hok hcalls hrun
  obtain ⟨r, s⟩ := e
  cases r with
  | error _ => exact absurd hok (by simp [Except.toOption])
  | ok _ =>
    have hformat := MapRun.format hinit (by decide) (fun _ _ => rfl) hfit hrun
    obtain ⟨hlegal, hgroups, hwritten, hfreed, htaken⟩ := hcalls
    generalize nineCalls = ops at hlegal hgroups hwritten hfreed htaken
    have h := hformat.afterCalls hlegal
    exact ⟨_, _, h, hgroups, hwritten, hfreed, htaken, MapRun.flatLaw _ _ h⟩

end Run

end Xasmos.Exfs
