import Xasmos.Lib.LittleEndian
import Xasmos.Lib.Prog
import Xasmos.Lib.Replay

/-!
# Block devices

A device as `blk.h` presents it, with a volatile write cache: `stable` is what a
power loss leaves, `cache` the acknowledged writes since the last flush, oldest
first, and a read sees the cached writes.  A device whose cache is never dropped is
the in-order device; its whole history is the cache.

Content is kept by 4 KiB block, since every request the filesystem makes is one
aligned block (`spb` sectors from a multiple of `spb`).  A page is the `Bytes` a
buffer holds; nothing reads it past byte 4095.

`fault` decides the outcome of each request from its number and the block it names (a
flush names none).  A request that fails may be a write that left anything in its block;
`refused` counts the writes that failed, for what is said about them.

Devices are ordered by history: `d ≤ d'` when `d'` is `d` after some more requests.
No computation here flushes, so none of them can forget a cached write; `blkFlush`
is the one operation outside the order.
-/

namespace Xasmos.Exfs

open Prog

variable {P P' : ℕ → Prop} {b spb total : ℕ} {p : Bytes}

/-- `EXFS_BLOCK`, in bytes. -/
def blockBytes : ℕ := 4096

/-- The failures of `blk.h`: `BLK_E_ARG`, `BLK_E_RANGE` and `BLK_E_IO`. -/
inductive BlkError where
  | arg | range | io
  deriving DecidableEq, Repr

/-- How a driver serves a request.  A failing write leaves its block as it was, or
with the given bytes. -/
inductive Outcome where
  | done
  | fails (left : Option Bytes)

/-- A block device with a volatile write cache. -/
structure Disk where
  sectorSize : ℕ
  sectorCount : ℕ
  stable : ℕ → Bytes
  cache : List (ℕ × Bytes)
  fault : ℕ → Option ℕ → Outcome
  reqs : ℕ
  refused : ℕ

variable {E : BlkError → Disk → Prop} {Q : Bytes → Disk → Prop} {d d' : Disk}

namespace Disk

/-- The content a read sees. -/
def block (d : Disk) : ℕ → Bytes := replay d.cache d.stable

/-- No request ever fails. -/
def Faultless (d : Disk) : Prop := ∀ n r, d.fault n r = .done

/-- No request for block `b` ever fails. -/
def Serves (d : Disk) (b : ℕ) : Prop := ∀ n, d.fault n (some b) = .done

/-- `d'` is `d` after some more requests, none of them a flush. -/
structure Later (d d' : Disk) : Prop where
  sectorSize : d'.sectorSize = d.sectorSize
  sectorCount : d'.sectorCount = d.sectorCount
  stable : d'.stable = d.stable
  fault : d'.fault = d.fault
  cache : ∃ ws, d'.cache = d.cache ++ ws

instance : Preorder Disk where
  le := Later
  le_refl d := ⟨rfl, rfl, rfl, rfl, [], (List.append_nil _).symm⟩
  le_trans := by
    intro a b c hab hbc
    obtain ⟨ws, hws⟩ := hab.cache
    obtain ⟨vs, hvs⟩ := hbc.cache
    exact ⟨hbc.sectorSize.trans hab.sectorSize, hbc.sectorCount.trans hab.sectorCount,
      hbc.stable.trans hab.stable, hbc.fault.trans hab.fault, ws ++ vs,
      by rw [hvs, hws, List.append_assoc]⟩

theorem Faultless.later (h : d.Faultless) (hle : d ≤ d') : d'.Faultless := by
  intro n r
  rw [hle.fault]
  exact h n r

theorem Faultless.serves (h : d.Faultless) (b : ℕ) : d.Serves b := fun n => h n _

theorem Serves.later (h : d.Serves b) (hle : d ≤ d') : d'.Serves b := by
  intro n
  rw [hle.fault]
  exact h n

/-- The requests between two points wrote only blocks that satisfy `P`. -/
def WroteOnly (P : ℕ → Prop) (d d' : Disk) : Prop :=
  ∃ ws, d'.cache = d.cache ++ ws ∧ ∀ w ∈ ws, P w.1

theorem WroteOnly.of_cache_eq (h : d'.cache = d.cache) : WroteOnly P d d' :=
  ⟨[], by rw [h, List.append_nil], fun _ h => absurd h List.not_mem_nil⟩

theorem WroteOnly.refl (P : ℕ → Prop) (d : Disk) : WroteOnly P d d := .of_cache_eq rfl

theorem WroteOnly.trans {a b c : Disk} (hab : WroteOnly P a b) (hbc : WroteOnly P b c) :
    WroteOnly P a c := by
  obtain ⟨ws, hws, hP⟩ := hab
  obtain ⟨vs, hvs, hP'⟩ := hbc
  refine ⟨ws ++ vs, by rw [hvs, hws, List.append_assoc], fun w hw => ?_⟩
  rcases List.mem_append.mp hw with h | h
  · exact hP w h
  · exact hP' w h

theorem WroteOnly.mono (h : WroteOnly P d d') (hP : ∀ b, P b → P' b) : WroteOnly P' d d' := by
  obtain ⟨ws, hws, hw⟩ := h
  exact ⟨ws, hws, fun w hm => hP _ (hw w hm)⟩

/-- A block outside the written ones reads as before. -/
theorem WroteOnly.block_eq (h : WroteOnly P d d') (hle : d ≤ d') (hb : ¬ P b) :
    d'.block b = d.block b := by
  obtain ⟨ws, hws, hP⟩ := h
  rw [block, block, hws, hle.stable, replay_append]
  apply replay_of_forall_ne
  intro w hw he
  exact hb (he ▸ hP w hw)

/-- The device after one request. -/
def served (d : Disk) : Disk := { d with reqs := d.reqs + 1 }

/-- The device after an acknowledged write of one block. -/
def put (d : Disk) (b : ℕ) (p : Bytes) : Disk := { d with cache := d.cache ++ [(b, p)] }

/-- The device after a write that failed. -/
def refuse (d : Disk) : Disk := { d with refused := d.refused + 1 }

theorem le_refuse (d : Disk) : d ≤ d.refuse := ⟨rfl, rfl, rfl, rfl, [], (List.append_nil _).symm⟩

@[simp] theorem served_block (d : Disk) : d.served.block = d.block := rfl

theorem put_block (d : Disk) (b : ℕ) (p : Bytes) :
    (d.put b p).block = Function.update d.block b p := replay_concat _ _ _ _

theorem le_served (d : Disk) : d ≤ d.served := ⟨rfl, rfl, rfl, rfl, [], (List.append_nil _).symm⟩

theorem le_put (d : Disk) (b : ℕ) (p : Bytes) : d ≤ d.put b p := ⟨rfl, rfl, rfl, rfl, [(b, p)], rfl⟩

end Disk

/-! ## `blk.c` -/

/-- `check`. -/
def blkCheck (lba count : ℕ) : Prog BlkError Disk Unit := do
  let d ← Prog.get
  Prog.failIf (count = 0) .arg
  Prog.failIf (d.sectorCount < lba) .range
  Prog.failIf (d.sectorCount - lba < count) .range

/-- The outcome of the next request, for the block that starts at sector `lba`. -/
def serve (lba : ℕ) : Prog BlkError Disk Outcome := do
  let d ← Prog.get
  Prog.modify Disk.served Disk.le_served
  pure (d.fault d.reqs (some (lba * d.sectorSize / blockBytes)))

/-- `blk_read` of the block that starts at sector `lba`. -/
def blkRead (lba count : ℕ) : Prog BlkError Disk Bytes := do
  blkCheck lba count
  match ← serve lba with
  | .done => do
    let d ← Prog.get
    pure (d.block (lba * d.sectorSize / blockBytes))
  | .fails _ => Prog.throw .io

/-- Record a write of the block that starts at sector `lba`. -/
def putBlock (lba : ℕ) (p : Bytes) : Prog BlkError Disk Unit :=
  Prog.modify (fun d => d.put (lba * d.sectorSize / blockBytes) p) fun d => d.le_put _ _

/-- `blk_write` of the block that starts at sector `lba`. -/
def blkWrite (lba count : ℕ) (buf : Bytes) : Prog BlkError Disk Unit :=
  Prog.onError (do
    blkCheck lba count
    match ← serve lba with
    | .done => putBlock lba buf
    | .fails none => Prog.throw .io
    | .fails (some left) => do
      putBlock lba left
      Prog.throw .io) Disk.refuse Disk.le_refuse

/-- `blk_flush`: every cached write becomes stable. -/
def blkFlush (d : Disk) : Except BlkError Unit × Disk :=
  match d.fault d.reqs none with
  | .done => (.ok (), { d.served with stable := d.block, cache := [] })
  | .fails _ => (.error .io, d.served)

/-- What a power loss can leave: a subset of the cached writes, in order. -/
inductive PowerLoss : Disk → Disk → Prop where
  | mk (d : Disk) (kept : List (ℕ × Bytes)) (h : kept.Sublist d.cache) :
      PowerLoss d { d with stable := replay kept d.stable, cache := [] }

/-! ## Requests that cannot fail -/

/-- The requests of a volume of `total` blocks, `spb` sectors each, fit the device. -/
structure Fits (d : Disk) (spb total : ℕ) : Prop where
  spb_mul : spb * d.sectorSize = blockBytes
  fits : total * spb ≤ d.sectorCount
  no_wrap : total * spb < 2 ^ 64

theorem Fits.later (h : Fits d spb total) (hle : d ≤ d') : Fits d' spb total := by
  refine ⟨?_, ?_, h.no_wrap⟩
  · rw [hle.sectorSize]; exact h.spb_mul
  · rw [hle.sectorCount]; exact h.fits

theorem Disk.wroteOnly_put (d : Disk) (b : ℕ) (p : Bytes) :
    Disk.WroteOnly (· = b) d (d.served.put b p) :=
  ⟨[(b, p)], rfl, fun w hw => by rw [List.mem_singleton.mp hw]⟩

section Specs

/-- Block `b` of the volume passes the range check, and its sectors are its own. -/
theorem Fits.lba (h : Fits d spb total) (hb : b < total) :
    (b * spb) % 2 ^ 64 = b * spb ∧ b * spb + spb ≤ d.sectorCount ∧
      b * spb * d.sectorSize / blockBytes = b ∧ 0 < spb := by
  have hpos : 0 < spb := by
    rcases Nat.eq_zero_or_pos spb with h0 | h0
    · have := h.spb_mul
      rw [h0, Nat.zero_mul] at this
      exact absurd this (by decide)
    · exact h0
  have hstep : b * spb + spb ≤ total * spb := by
    rw [← Nat.succ_mul]
    exact Nat.mul_le_mul_right _ hb
  refine ⟨Nat.mod_eq_of_lt ?_, le_trans hstep h.fits, ?_, hpos⟩
  · have := h.no_wrap
    omega
  · rw [Nat.mul_assoc, h.spb_mul]
    exact Nat.mul_div_cancel _ (by decide)

theorem Fits.lba_lt (h : Fits d spb total) (hb : b < total) : b * spb < 2 ^ 64 :=
  lt_of_le_of_lt (Nat.mul_le_mul_right spb hb.le) h.no_wrap

/-- A block of the volume reads as it is. -/
theorem wp_blkRead (h : Fits d spb total) (hf : d.Serves b) (hb : b < total)
    (hQ : Q (d.block b) d.served) : (blkRead (b * spb % 2 ^ 64) spb).wp Q E d := by
  obtain ⟨hl, hfit, hblk, hpos⟩ := h.lba hb
  rw [hl]
  simp only [blkRead, blkCheck, serve, wp_bind, wp_get, wp_failIf, wp_modify,
    wp_pure, hblk, hf _]
  refine ⟨fun h0 => by
    omega, fun _ => ⟨fun h0 => by omega, fun _ => ⟨fun h0 => by omega, fun _ => ?_⟩⟩⟩
  have hsec : d.served.sectorSize = d.sectorSize := rfl
  rw [hsec, hblk]
  exact hQ

/-- A write of a block of the volume is acknowledged. -/
theorem wp_blkWrite (h : Fits d spb total) (hf : d.Serves b) (hb : b < total)
    {Q : Unit → Disk → Prop} (hQ : Q () (d.served.put b p)) :
    (blkWrite (b * spb % 2 ^ 64) spb p).wp Q E d := by
  obtain ⟨hl, hfit, hblk, hpos⟩ := h.lba hb
  rw [hl]
  simp only [blkWrite, blkCheck, serve, putBlock, wp_onError, wp_bind, wp_get, wp_failIf,
    wp_modify, wp_pure, hblk, hf _]
  refine ⟨fun h0 => by
    omega, fun _ => ⟨fun h0 => by omega, fun _ => ⟨fun h0 => by omega, fun _ => ?_⟩⟩⟩
  have hsec : d.served.sectorSize = d.sectorSize := rfl
  rw [hsec, hblk]
  exact hQ

/-! ## Requests that may fail -/

/-- A read gives the block, or fails and changes no block. -/
theorem wp_blkRead_any (hspb : spb * d.sectorSize = blockBytes) (hlt : b * spb < 2 ^ 64)
    (hQ : Q (d.block b) d.served) (hE : ∀ e, E e d ∧ E e d.served) :
    (blkRead (b * spb % 2 ^ 64) spb).wp Q E d := by
  have hblk : b * spb * d.served.sectorSize / blockBytes = b := by
    rw [Nat.mul_assoc, show d.served.sectorSize = d.sectorSize from rfl, hspb]
    exact Nat.mul_div_cancel _ (by decide)
  rw [Nat.mod_eq_of_lt hlt]
  simp only [blkRead, blkCheck, serve, wp_bind, wp_get, wp_failIf, wp_modify,
    wp_pure]
  refine ⟨fun _ => (hE _).1,
    fun _ => ⟨fun _ => (hE _).1, fun _ => ⟨fun _ => (hE _).1, fun _ => ?_⟩⟩⟩
  cases d.fault d.reqs _ with
  | done =>
    simp only [wp_bind, wp_get, wp_pure, hblk]
    exact hQ
  | fails left => exact (hE _).2

/-- A write puts the block, or is counted as refused and may leave anything in its block. -/
theorem wp_blkWrite_any (hspb : spb * d.sectorSize = blockBytes) (hlt : b * spb < 2 ^ 64)
    {Q : Unit → Disk → Prop} (hQ : Q () (d.served.put b p))
    (hE : ∀ e d', d ≤ d' → d'.refused = d.refused + 1 → Disk.WroteOnly (· = b) d d' → E e d') :
    (blkWrite (b * spb % 2 ^ 64) spb p).wp Q E d := by
  have hblk : b * spb * d.served.sectorSize / blockBytes = b := by
    rw [Nat.mul_assoc, show d.served.sectorSize = d.sectorSize from rfl, hspb]
    exact Nat.mul_div_cancel _ (by decide)
  have hsame : ∀ e, E e d.refuse := fun e => hE e _ d.le_refuse rfl (.of_cache_eq rfl)
  rw [Nat.mod_eq_of_lt hlt]
  simp only [blkWrite, blkCheck, serve, putBlock, wp_onError, wp_bind, wp_get,
    wp_failIf, wp_modify, wp_pure]
  refine ⟨fun _ => hsame _, fun _ => ⟨fun _ => hsame _, fun _ => ⟨fun _ => hsame _, fun _ => ?_⟩⟩⟩
  cases d.fault d.reqs _ with
  | done =>
    simp only [wp_modify, hblk]
    exact hQ
  | fails left =>
    cases left with
    | none => exact hE _ _ (le_trans d.le_served (Disk.le_refuse _)) rfl (.of_cache_eq rfl)
    | some page =>
      simp only [wp_bind, wp_modify, wp_throw, hblk]
      exact hE _ _ (le_trans d.le_served (le_trans (Disk.le_put _ b page) (Disk.le_refuse _))) rfl
        (d.wroteOnly_put b page)

/-- A read of a block of the volume, by what the device does with it. -/
theorem wp_blkRead_faults (h : Fits d spb total) (hb : b < total)
    (hQ : d.fault d.reqs (some b) = .done → Q (d.block b) d.served)
    (hE : d.fault d.reqs (some b) ≠ .done → E .io d.served) :
    (blkRead (b * spb % 2 ^ 64) spb).wp Q E d := by
  obtain ⟨hl, hfit, hblk, hpos⟩ := h.lba hb
  have hblk' : b * spb * d.served.sectorSize / blockBytes = b := hblk
  rw [hl]
  simp only [blkRead, blkCheck, serve, wp_bind, wp_get, wp_failIf, wp_modify, wp_pure, hblk]
  refine ⟨fun h0 => by
    omega, fun _ => ⟨fun h0 => by omega, fun _ => ⟨fun h0 => by omega, fun _ => ?_⟩⟩⟩
  cases hfault : d.fault d.reqs (some b) with
  | done =>
    simp only [wp_bind, wp_get, wp_pure, hblk']
    exact hQ hfault
  | fails left => exact hE (by simp [hfault])

/-- A write of a block of the volume, by what the device does with it. -/
theorem wp_blkWrite_faults (h : Fits d spb total) (hb : b < total) {Q : Unit → Disk → Prop}
    (hQ : d.fault d.reqs (some b) = .done → Q () (d.served.put b p))
    (hE : ∀ left e d', d.fault d.reqs (some b) = .fails left → d ≤ d' →
      d'.block = Function.update d.block b (left.getD (d.block b)) → E e d') :
    (blkWrite (b * spb % 2 ^ 64) spb p).wp Q E d := by
  obtain ⟨hl, hfit, hblk, hpos⟩ := h.lba hb
  have hblk' : b * spb * d.served.sectorSize / blockBytes = b := hblk
  rw [hl]
  simp only [blkWrite, blkCheck, serve, putBlock, wp_onError, wp_bind, wp_get, wp_failIf,
    wp_modify, wp_pure, hblk]
  refine ⟨fun h0 => by
    omega, fun _ => ⟨fun h0 => by omega, fun _ => ⟨fun h0 => by omega, fun _ => ?_⟩⟩⟩
  cases hfault : d.fault d.reqs (some b) with
  | done =>
    simp only [wp_modify, hblk']
    exact hQ hfault
  | fails left =>
    cases left with
    | none =>
      refine hE none _ _ hfault (le_trans d.le_served (Disk.le_refuse _)) ?_
      simp only [Option.getD_none, Function.update_eq_self]
      rfl
    | some page =>
      simp only [wp_bind, wp_modify, wp_throw, hblk']
      exact hE (some page) _ _ hfault
        (le_trans d.le_served (le_trans (Disk.le_put _ b page) (Disk.le_refuse _)))
        (d.served.put_block b page)

/-- A write, whether it succeeds or not, is a write of its block or nothing. -/
theorem wp_blkWrite_logged (hspb : spb * d.sectorSize = blockBytes) (hlt : b * spb < 2 ^ 64)
    (p : Bytes) :
    (blkWrite (b * spb % 2 ^ 64) spb p).wp
      (fun _ d' => Disk.WroteOnly (· = b) d d' ∧ d.refused ≤ d'.refused)
      (fun _ d' => Disk.WroteOnly (· = b) d d' ∧ d.refused ≤ d'.refused) d := by
  refine wp_blkWrite_any hspb hlt ⟨d.wroteOnly_put b p, le_refl _⟩ fun _ d' _ hr hw => ⟨hw, ?_⟩
  omega

end Specs

theorem Disk.wroteOnly_served (P : ℕ → Prop) (d : Disk) : Disk.WroteOnly P d d.served :=
  .of_cache_eq rfl

/-- A device of 34 blocks, the fewest a volume has, that was never written. -/
def blankDisk : Disk where
  sectorSize := 4096
  sectorCount := 34
  stable _ _ := 0
  cache := []
  fault _ _ := .done
  reqs := 0
  refused := 0

end Xasmos.Exfs
