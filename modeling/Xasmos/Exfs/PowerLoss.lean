import Xasmos.Exfs.Run

/-!
# Power loss behind a volatile cache

A device may keep the writes it has acknowledged in a volatile cache until it is flushed.
No call of the filesystem flushes: every write since the format is still in the cache, and
a power loss that drops exactly those leaves the device as it was before the format.  So
no commit, however long ago it returned, is ever safe from a power loss.
-/

namespace Xasmos.Exfs

open Bytes Prog

section PowerLoss

variable {d : ℕ} {s s' x : St}

/-- Without a superblock a mount returns `EXFS_ENOFS`. -/
theorem mount_none (hf : (x.disks d).Faultless)
    (hnone : ∀ b < 2, ∀ f, sbDecode ((x.disks d).block b) ≠ .ok f) :
    ∃ y, (exfsMount d).run x = (.error .enofs, y) := by
  have hskip : ∀ b best, b < 2 → newer best ((x.disks d).block b) = best := by
    intro b best hb
    cases hdec : sbDecode ((x.disks d).block b) with
    | error e => cases best <;> simp [newer, hdec]
    | ok f => exact absurd hdec (hnone b hb f)
  have hbest : newer (newer none ((x.disks d).block 0)) ((x.disks d).block 1) = none := by
    rw [hskip 1 _ (by decide), hskip 0 _ (by decide)]
  have hwp : (exfsMount d).wp (fun _ _ => False) (fun e _ => e = .enofs) x := by
    simp only [exfsMount, wp_bind, modV, wp_modify]
    refine wp_attach (fun hd => ?_) fun _ _ _ => rfl
    have hdisk : DiskOk (x.disks d) := hd
    have hmin := hdisk.total_min
    set a : St := attached ⟨x.disks, { x.v with mounted := false }⟩ d with ha
    have hseen : seenSb a.disk = none := (seenSb_eq fun k _ => hf.serves k).trans hbest
    rw [wp_bind]
    refine wp_bestSb (s := a) hdisk.fits (show 2 ≤ volTotal (x.disks d) by omega) fun t _ _ => ?_
    rw [hseen]
    rfl
  unfold Prog.wp at hwp
  cases hr : (exfsMount d).run x with
  | mk r y =>
    rw [hr] at hwp
    cases r with
    | ok a => exact hwp.elim
    | error e => exact ⟨y, by rw [hwp]⟩

/-- A power loss can undo everything that was written after `s`. -/
theorem powerLoss_undo {D D' : Disk} (hle : D ≤ D') :
    ∃ L, PowerLoss D' L ∧ L.block = D.block ∧ (D.Faultless → L.Faultless) := by
  obtain ⟨ws, hws⟩ := hle.cache
  refine ⟨_, PowerLoss.mk D' D.cache ?_, ?_, fun hf n => ?_⟩
  · rw [hws]
    exact List.sublist_append_left _ _
  · rw [Disk.block, Disk.block, hle.stable, replay_nil]
  · exact hf.later hle n

/-- **No commit survives every power loss.**  In every state of every run that starts with
a format, a power loss can leave a device that does not mount. -/
theorem run_power_loss (s₀ : St) (ops : List Op) (hstart : Start d s₀) :
    ∃ L, PowerLoss ((runOps d s₀ ops).disks d) L ∧
      ∀ x : St, x.disks d = L → ∃ y, (exfsMount d).run x = (.error .enofs, y) := by
  obtain ⟨s, hf, hnone, hrun⟩ := hstart.format
  have hle : s ≤ s₀ := by
    have := (exfsFormat d).le_run s
    rwa [hrun] at this
  obtain ⟨L, hL, hblock, hfault⟩ := powerLoss_undo (le_trans hle (le_runOps d s₀ ops) d)
  refine ⟨L, hL, fun x hx => mount_none (by rw [hx]; exact hfault hf) fun b hb f => ?_⟩
  rw [hx, hblock]
  exact hnone b hb f

theorem run_power_loss_blank :
    ∃ s₀, Start 0 s₀ ∧ ∃ L, PowerLoss ((runOps 0 s₀ [.commit]).disks 0) L ∧
    ∀ x : St, x.disks 0 = L → ∃ y, (exfsMount 0).run x = (.error .enofs, y) := by
  obtain ⟨s₀, h⟩ := exists_start
  exact ⟨s₀, h, run_power_loss s₀ [.commit] h⟩

/-- A blank device is formatted and `exfs_commit` returns `EXFS_OK` for generation 1; after
the power loss there is no volume. -/
theorem commit_lost : ∃ s₀ s₁ L y, Start 0 s₀ ∧ exfsCommit.run s₀ = (.ok (), s₁) ∧ s₁.v.gen = 1 ∧
    PowerLoss (s₁.disks 0) L ∧ (exfsMount 0).run ⟨fun _ => L, bootVol⟩ = (.error .enofs, y) := by
  obtain ⟨s₀, h⟩ := exists_start
  obtain ⟨s, hf, hnone, hformat⟩ := h.format
  have hle : s ≤ s₀ := by
    have := (exfsFormat 0).le_run s
    rwa [hformat] at this
  obtain ⟨L, hL, hblock, hfault⟩ := powerLoss_undo (hle 0)
  obtain ⟨y, hy⟩ := mount_none (d := 0) (x := ⟨fun _ => L, bootVol⟩) (hfault hf) fun b hb f => by
    rw [hblock]
    exact hnone b hb f
  exact ⟨s₀, s₀, L, y, h, h.commit, h.fresh.1, hL, hy⟩

end PowerLoss

end Xasmos.Exfs
