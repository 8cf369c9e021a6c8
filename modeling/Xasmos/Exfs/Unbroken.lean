import Xasmos.Exfs.Filled

/-!
# A commit that cannot break the volume

A commit breaks the volume when a step fails after it began to change things.  On a device
without failures no step does: the checks at its start predict what the later steps use,
so it is done or it is refused before anything changed.
-/

namespace Xasmos.Exfs

open Prog

/-- The steps of a commit that had something to do and was done: each chain block was handed
out, each deferred release found its blocks in use, and the superblock's fields were taken. -/
inductive CommitSteps (s s' : St) : Prop where
  | mk (s₁ s₂ s₃ s₄ t : St) (page : Bytes) (chains : commitChains.run s = (.ok (), s₁))
      (deferred : applyDeferred.run s₁ = (.ok (), s₂))
      (flush : (onMap gmapFlush).run s₂ = (.ok (.ok ()), s₃))
      (itab : (writeItab (nextGen s.v)).run s₃ = (.ok (), s₄))
      (encoded : sbEncode (commitFields s₄.v (nextGen s.v)) = .ok page)
      (put : (blkPut (nextGen s.v % 2) page).run s₄ = (.ok (), t))
      (finish : s' = ⟨t.disks, finishCommit t.v (nextGen s.v)⟩)

section

variable {d : ℕ} {s : St}

/-- A commit that returns took every step. -/
theorem wp_exfsCommit_steps (hd : s.v.dirty = true) :
    exfsCommit.wp (fun _ s' => CommitSteps s s') (fun _ _ => True) s := by
  simp only [exfsCommit, requireLive, wp_bind, wp_get, wp_failIf, wp_ite, hd]
  refine ⟨fun _ => trivial,
      fun _ => ⟨fun _ => trivial, fun _ => ⟨fun h => absurd h (by simp), fun _ =>
    ⟨fun _ => trivial, fun _ => ⟨fun _ => trivial, fun _ => ?_⟩⟩⟩⟩⟩
  refine wp_mono (wp_run commitChains s) (fun _ s₁ _ h₁ => ?_) fun _ _ _ _ => trivial
  rw [wp_bind, wp_orBreak_iff]
  refine wp_mono (wp_run applyDeferred s₁) (fun _ s₂ _ h₂ => ?_) fun _ _ _ _ => trivial
  rw [wp_bind]
  refine wp_mono (wp_run (onMap gmapFlush) s₂) (fun r s₃ _ h₃ => ?_) fun _ _ _ _ => trivial
  cases r with
  | error e => trivial
  | ok a =>
    simp only [wp_bind]
    refine wp_mono (wp_run (writeItab _) s₃) (fun _ s₄ _ h₄ => ?_) fun _ _ _ _ => trivial
    simp only [wp_bind, writeSb, wp_get]
    cases henc : sbEncode (commitFields s₄.v ((s.v.gen + 1) % 2 ^ 64)) with
    | error e => trivial
    | ok page =>
      simp only [wp_orBreak_iff]
      refine wp_mono (wp_run (blkPut _ page) s₄) (fun _ t _ h₅ => ?_) fun _ _ _ _ => trivial
      exact .mk s₁ s₂ s₃ s₄ t page h₁ h₂ h₃ h₄ henc h₅ rfl

/-- **A commit never breaks the volume.**  In every mounted state of a run of fewer than
`2 ^ 64 - 1` commits: the commit is done, in all its steps, or it is refused for lack of
space and changes nothing. -/
theorem run_commit_unbroken (s₀ : St) (ops : List Op) (hstart : Start d s₀)
    (hn : commits ops + 1 < 2 ^ 64) (hm : (runOps d s₀ ops).v.mounted = true) :
    (∃ s', exfsCommit.run (runOps d s₀ ops) = (.ok (), s') ∧ s'.v.broken = false ∧
      ((runOps d s₀ ops).v.dirty = true → CommitSteps (runOps d s₀ ops) s')) ∨
    exfsCommit.run (runOps d s₀ ops) = (.error .enospc, runOps d s₀ ops) := by
  obtain ⟨S, hS⟩ := (hstart.run hn).inv
  have hf := (hstart.run hn).disk_faultless
  generalize runOps d s₀ ops = s at hS hf hm ⊢
  have hwp : exfsCommit.wp (fun _ s' => s'.v.broken = false)
      (fun e s' => e = .enospc ∧ s' = s) s := by
    refine wp_exfsCommit hS.toRamInv hS.cleanChains hf (fun s' _ _ hc => hc.ram.broken)
      (fun _ _ => hS.broken) ?_
    rintro e (⟨hno, _⟩ | ⟨_, _, rfl⟩)
    · rw [hm] at hno
      exact absurd hno (by simp)
    · exact ⟨rfl, rfl⟩
  cases hr : exfsCommit.run s with
  | mk r s' =>
    cases r with
    | error e =>
      obtain ⟨rfl, rfl⟩ := hwp.error hr
      exact .inr rfl
    | ok a => exact .inl ⟨s', rfl, hwp.ok hr, fun hd => (wp_exfsCommit_steps hd).ok hr⟩

/-- The commit of a new file with a block. -/
theorem run_commit_unbroken_filled : ∃ s₀ s', Start 0 s₀ ∧
    exfsCommit.run (runOps 0 s₀ fillOps) = (.ok (), s') ∧ s'.v.broken = false ∧
      CommitSteps (runOps 0 s₀ fillOps) s' := by
  obtain ⟨s₀, i, b, b', h⟩ := exists_rewritten
  rcases run_commit_unbroken s₀ fillOps h.start (by decide) h.filled.mounted with hok | hno
  · obtain ⟨s', hrun, hb, hsteps⟩ := hok
    exact ⟨s₀, s', h.start, hrun, hb, hsteps h.filled_dirty⟩
  · rw [h.commit] at hno
    exact absurd (congrArg Prod.fst hno) (by simp)

end

end Xasmos.Exfs
