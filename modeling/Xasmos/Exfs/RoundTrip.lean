import Xasmos.Exfs.Ownership

/-!
# Commit, then mount

A mount after a commit gives back the state that was committed: every node with its whole
extent list and its chain blocks, every bit of the map, the free counts and the
generation.
-/

namespace Xasmos.Exfs

open Bytes

/-- The volume in memory is its committed state, with nothing to release. -/
structure Settled (s : St) (S : Snap) : Prop extends Inv s S where
  node : ∀ i < inodes, nodeOf s.v i = S.node i
  empty : s.v.defer = []

section Settled

variable {d n : ℕ} {s s' : St} {S : Snap} {b : ℕ}

theorem Settled.owned_eq (h : Settled s S) (b : ℕ) : owned s.v b = tableOwn S.node b := by
  rw [owned, tableOwn_congr h.node, h.empty]
  simp

theorem Mounted.settled (h : Mounted d s S s') : Settled s' S :=
  ⟨h.inv, fun i hi => h.inv.clean i hi (h.clean i hi), h.defer⟩

theorem Inv.settled_of_idle (h : Inv s S) (hd : s.v.dirty = false) : Settled s S := by
  refine ⟨h, fun i hi => h.clean i hi ?_, h.idle hd⟩
  cases hf : (s.v.files i).dirty with
  | false => rfl
  | true => rw [h.dirty i hi hf] at hd; exact absurd hd (by simp)

theorem Committed.settled (hc : Committed s s') (hS : Saved s' S) (hi : Inv s' S) : Settled s' S :=
  ⟨hi, hS.node, congrArg VolCore.defer hc.core⟩

/-- Two volumes over the same committed state with nothing to release have the same map. -/
theorem Settled.used_eq (h : Settled s S) (h' : Settled s' S) (htot : s'.v.total = s.v.total)
    (hb : b < s.v.total) : used s'.gst b = used s.gst b := by
  have hres : reservedBlock s'.v.gm b = reservedBlock s.v.gm b := by
    rw [reservedBlock, reservedBlock, h.map.gb, h'.map.gb]
  cases hr : reservedBlock s.v.gm b with
  | true =>
    rw [h.map.used_of_reserved hb hr, h'.map.used_of_reserved (htot ▸ hb) (hres.trans hr)]
  | false =>
    have h1 := h.ledger b
    have h2 := h'.ledger b
    rw [h.owned_eq, List.count_nil, taken, hr] at h1
    rw [h'.owned_eq, List.count_nil, taken, hres, hr, htot, h1] at h2
    have hdec : decide (b < s.v.total) = true := decide_eq_true hb
    rw [hdec] at h2
    cases hu : used s.gst b <;> cases hu' : used s'.gst b <;> simp_all

theorem Settled.free_eq (h : Settled s S) (h' : Settled s' S) (htot : s'.v.total = s.v.total)
    {g : ℕ} (hg : g < s.v.gm.ngroups) : s'.v.gm.free g = s.v.gm.free g :=
  h.map.free_congr h'.map htot (h'.good.ngroups.symm.trans h.good.ngroups)
    (fun _ hb => h.used_eq h' htot hb) hg

end Settled

/-! ## The round trip -/

/-- `s'` shows what `s` shows, in memory and in the map. -/
structure SameVolume (s s' : St) : Prop where
  find : ∀ name : CStr, find s'.v name.bytes = find s.v name.bytes
  node : ∀ i < inodes, nodeOf s'.v i = nodeOf s.v i
  total : s'.v.total = s.v.total
  used : ∀ b < s.v.total, used s'.gst b = used s.gst b
  free : ∀ g < s.v.gm.ngroups, s'.v.gm.free g = s.v.gm.free g
  freeBlocks : exfsFreeBlocks s'.v = exfsFreeBlocks s.v
  gen : s'.v.gen = s.v.gen

section RoundTrip

variable {d n : ℕ} {s s' : St} {S : Snap}

theorem Settled.sameVolume (h : Settled s S) (h' : Settled s' S) : SameVolume s s' := by
  have htot : s'.v.total = s.v.total := by
    rw [← h.map.total, ← h'.map.total]
    exact h'.good.total.symm.trans h.good.total
  have hnode : ∀ i < inodes, nodeOf s'.v i = nodeOf s.v i := fun i hi =>
    (h'.node i hi).trans (h.node i hi).symm
  refine ⟨fun name => ?_, hnode, htot, fun b hb => h.used_eq h' htot hb, fun g hg =>
    h.free_eq h' htot hg, ?_, h'.gen.trans h.gen.symm⟩
  · rw [find_eq h.toVolInv name.no_nul, find_eq h'.toVolInv name.no_nul, findNode_congr hnode]
  · rw [exfsFreeBlocks, exfsFreeBlocks, h.map.freeTotal, h'.map.freeTotal, Exfs.freeBlocks,
      Exfs.freeBlocks, htot]
    exact count_congr fun b hb => by rw [h.used_eq h' htot hb]

/-- A commit that succeeds leaves a settled volume, with the files as they were. -/
theorem wp_commit_settled (h : RunInv d n s) (hn : n + 1 < 2 ^ 64) :
    exfsCommit.wp (fun _ s' => RunInv d (n + 1) s' ∧ (∃ S, Settled s' S) ∧
      ∀ i < inodes, (nodeOf s'.v i).map (fun f => (f.type, f.size, f.name, f.exts)) =
        (nodeOf s.v i).map fun f => (f.type, f.size, f.name, f.exts)) (fun _ _ => True) s := by
  obtain ⟨S, hS⟩ := h.inv
  have hgen : s.v.gen + 1 < 2 ^ 64 := lt_of_le_of_lt (Nat.succ_le_succ h.gen_le) hn
  refine wp_exfsCommit hS.toRamInv hS.cleanChains h.disk_faultless (fun s' _ _ hc => ?_)
    (fun _ hd => ?_)
    fun _ _ => trivial
  · obtain ⟨S', hinv, hsaved⟩ := hc.saved_inv hS hgen s'.v.mounted
    have hmade : RunInv d (n + 1) (s'.flag s'.v.mounted) := h.made hS hc hn
    refine ⟨hmade, ⟨S', hc.settled hsaved hinv⟩, fun i hi => ?_⟩
    rw [nodeOf, nodeOf, hc.exts i hi, hc.file i hi]
    split <;> rfl
  · exact ⟨h.mono (Nat.le_succ n), ⟨S, hS.settled_of_idle hd⟩, fun _ _ => rfl⟩

/-- **Commit, then mount is the identity.**  In every state of a run of fewer than
`2 ^ 64 - 1` commits: after a commit that returns `EXFS_OK` a mount of the device
succeeds and gives the committed volume. -/
theorem run_commit_mount (s₀ : St) (ops : List Op) (hstart : Start d s₀)
    (hn : commits (ops ++ [.commit]) + 1 < 2 ^ 64) (s₁ : St)
    (hc : exfsCommit.run (runOps d s₀ ops) = (.ok (), s₁)) :
    ∃ s₂, (exfsMount d).run s₁ = (.ok (), s₂) ∧ SameVolume s₁ s₂ ∧
      ∀ i < inodes, (nodeOf s₂.v i).map (fun f => (f.type, f.size, f.name, f.exts)) =
        (nodeOf (runOps d s₀ ops).v i).map fun f => (f.type, f.size, f.name, f.exts) := by
  have hcount : commits (ops ++ [.commit]) = commits ops + 1 := by
    rw [commits, List.countP_append]
    rfl
  have hrun : RunInv d (1 + commits ops) (runOps d s₀ ops) := hstart.run (by omega)
  obtain ⟨hrun₁, ⟨S, hS⟩, hnodes⟩ := (wp_commit_settled hrun (by omega)).ok hc
  have hmount := wp_exfsMount hrun₁.disk hrun₁.faultless (hrun₁.good hS.toInv)
    (Q := fun _ s₂ => Mounted d s₁ S s₂) (E := fun _ _ => False) fun _ hm => hm
  obtain ⟨_, s₂, hrun₂, hm⟩ := hmount.exists_ok
  have hsame := hS.sameVolume hm.settled
  exact ⟨s₂, hrun₂, hsame, fun i hi => by rw [hsame.node i hi]; exact hnodes i hi⟩

/-- A new file with a block, which the commit writes. -/
theorem run_commit_mount_filled :
    ∃ s₀ i b s₁ s₂, Start 0 s₀ ∧ (runOps 0 s₀ fillOps).v.dirty = true ∧
    exfsCommit.run (runOps 0 s₀ fillOps) = (.ok (), s₁) ∧ (exfsMount 0).run s₁ = (.ok (), s₂) ∧
    SameVolume s₁ s₂ ∧ (nodeOf s₂.v i).map (fun f => (f.type, f.size, f.name, f.exts)) =
      some (typeFile, 1, nameA.bytes, [⟨b, 1⟩]) := by
  obtain ⟨s₀, i, b, b', h⟩ := exists_rewritten
  obtain ⟨s₂, hmount, hsame, hnode⟩ := run_commit_mount s₀ fillOps h.start (by decide) _ h.commit
  refine ⟨s₀, i, b, _, s₂, h.start, h.filled_dirty, h.commit, hmount, hsame, ?_⟩
  rw [hnode i h.filled.index, h.filled.node]
  rfl

/-- After the last generation: the file `|a` is deleted and the commit returns `EXFS_OK`, as
generation 0; the mount takes generation `2 ^ 64 - 1`, which still has the file. -/
theorem commit_mount_wraps :
    ∃ s₀ ops s₁ s₂ i, Start 0 s₀ ∧ exfsCommit.run (runOps 0 s₀ ops) = (.ok (), s₁) ∧
    (exfsMount 0).run s₁ = (.ok (), s₂) ∧ s₁.v.gen = 0 ∧ s₂.v.gen = 2 ^ 64 - 1 ∧
    find s₁.v nameA.bytes = none ∧ find s₂.v nameA.bytes = some i := by
  obtain ⟨s₀, h⟩ := exists_start
  obtain ⟨ops, i, S, u, hturn, _, hcommit, hwrap⟩ :=
    exists_wrapped h (show nameOk nameA.bytes = true by decide) (by decide) (by decide)
  obtain ⟨y, hy, hm⟩ := hwrap.mount hturn.run
  refine ⟨s₀, _, u, y, i, h, hcommit, hy, hwrap.gen, ?_, ?_, ?_⟩
  · rw [hm.inv.gen, ← hwrap.inv.gen, hturn.gen]
  · rw [find_eq hwrap.ram.toVolInv nameA.no_nul]
    exact findNode_none hwrap.gone
  · rw [find_eq hm.inv.toVolInv nameA.no_nul, ← hturn.find, find_eq hturn.ram.toVolInv nameA.no_nul]
    exact findNode_congr fun j hj => (hm.settled.node j hj).trans (hwrap.saved.node j hj).symm

end RoundTrip

end Xasmos.Exfs
