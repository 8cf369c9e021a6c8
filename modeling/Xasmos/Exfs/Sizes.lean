import Xasmos.Exfs.Content

/-!
# A file's extents cover its size

The number of blocks a file owns is its size in blocks, rounded up, after any run of the
filesystem's operations.  Each write computes that number from the caller's 64-bit
length, and `exfs_write` rounds it up before it divides: a length above `2 ^ 64 - 4096`
rounds to no block at all, so such a call succeeds and leaves a file of that size without
an extent.  `exfs_write_at` cannot, since it checks the end of its range for overflow.
-/

namespace Xasmos.Exfs

/-- The extents of file `i` are as many blocks as its size needs. -/
structure CoversSize (v : Vol) (i : ℕ) : Prop where
  sum : ((exts v i).map ExfsExtent.len).sum = ((v.files i).size + blockBytes - 1) / blockBytes
  pos : ∀ e ∈ exts v i, 1 ≤ e.len
  count : (v.files i).n ≤ maxExt
  size_le : (v.files i).size ≤ blockBytes * v.total

section

variable {s : St} {S : Snap} {i d : ℕ}

/-- A file's blocks are distinct blocks of the volume. -/
theorem VolInv.length_blocks_le {X : List ℕ} {slice : ℕ × ℕ} (h : VolInv s X slice)
    (hi : i < inodes) (hu : (s.v.files i).used = true) :
    (blocks (exts s.v i)).length ≤ s.v.total := by
  have hsub : blocks (exts s.v i) ⊆ List.range s.v.total := by
    intro b hb
    exact List.mem_range.mpr ((h.file i hi hu).within.lt hb)
  have hle := ((h.nodup hi hu).subperm hsub).length_le
  rwa [List.length_range] at hle

/-- In a state whose nodes hold their content every file is covered. -/
theorem ContentInv.coversSize {w : View} (h : ContentInv w s S) (hi : i < inodes)
    (hu : (s.v.files i).used = true) : CoversSize s.v i := by
  have hok := h.file i hi hu
  have hfull := h.full.full i hi _ (nodeOf_used hu)
  constructor
  · rw [← length_blocks]
    exact hfull.length
  · intro e he
    exact (hok.within e he).1
  · exact hok.n_le
  · calc (s.v.files i).size ≤ (blocks (exts s.v i)).length * blockBytes := hfull.size_le
      _ ≤ s.v.total * blockBytes := Nat.mul_le_mul_right _ (h.length_blocks_le hi hu)
      _ = blockBytes * s.v.total := Nat.mul_comm _ _

/-- `exfs_size` of a file. -/
theorem exfsSize_run {name : CStr} (hm : s.v.mounted = true) (hfind : find s.v name.bytes = some i)
    (htype : (s.v.files i).type = typeFile) :
    (exfsSize name).run s = (.ok (BitVec.ofNat 64 (s.v.files i).size).toInt, s) := by
  have hwp : (exfsSize name).wp (fun z s' => z = (BitVec.ofNat 64 (s.v.files i).size).toInt ∧
    s' = s)
      (fun _ _ => False) s := by
    simp [exfsSize, lookup, hm, hfind, htype]
  obtain ⟨_, _, hrun, rfl, rfl⟩ := hwp.exists_ok
  exact hrun

/-- The size of a covered file is a non-negative `int64_t`. -/
theorem CoversSize.toInt_nonneg {v : Vol} (h : CoversSize v i) (htotal : v.total ≤ maxBlocks) :
    0 ≤ (BitVec.ofNat 64 (v.files i).size).toInt := by
  have hlt : (v.files i).size < 2 ^ 63 := by
    have := h.size_le
    simp only [blockBytes, maxBlocks] at this htotal
    omega
  rw [BitVec.toInt_eq_toNat_of_lt]
  · exact Int.natCast_nonneg _
  · rw [BitVec.toNat_ofNat, Nat.mod_eq_of_lt (by omega)]
    omega

/-- **Extents cover the size** in every state of a run of fewer than `2 ^ 64 - 1` commits in
which no `exfs_write` is given more than `2 ^ 64 - 4096` bytes; whatever `exfs_write_at` is
given. -/
theorem run_coversSize (s₀ : St) (ops : List Op) (hstart : Start d s₀) (hop : ∀ op ∈ ops, op.Legal)
    (hn : commits ops + 1 < 2 ^ 64) :
    (∀ i < inodes, ((runOps d s₀ ops).v.files i).used = true → CoversSize (runOps d s₀ ops).v i) ∧
    ∀ (name : CStr) (i : ℕ), (runOps d s₀ ops).v.mounted = true →
      find (runOps d s₀ ops).v name.bytes = some i → ((runOps d s₀ ops).v.files i).type = typeFile →
      ∃ z, (exfsSize name).run (runOps d s₀ ops) = (.ok z, runOps d s₀ ops) ∧ 0 ≤ z := by
  obtain ⟨S, hS⟩ := hstart.content
  obtain ⟨S', hS'⟩ := hS.run hstart.saved.1 hop (by omega)
  refine ⟨fun i hi hu => hS'.coversSize hi hu, fun name i hm hfind htype => ?_⟩
  obtain ⟨hi, hu, _⟩ := find_some hfind
  exact ⟨_, exfsSize_run hm hfind htype, (hS'.coversSize hi hu).toInt_nonneg hS'.map.total_le⟩

/-- A file of two bytes, in one block. -/
theorem run_coversSize_rewritten : ∃ s₀ i z, Start 0 s₀ ∧
    let s := runOps 0 s₀ (savedOps ++ rewriteOps)
    (s.v.files i).used = true ∧ (s.v.files i).size = 2 ∧ CoversSize s.v i ∧
      (exfsSize nameA).run s = (.ok z, s) ∧ 0 ≤ z := by
  obtain ⟨s₀, i, b, b', h⟩ := exists_rewritten
  obtain ⟨hcovers, hsize⟩ := run_coversSize s₀ (savedOps ++ rewriteOps) h.start
    (by simp [savedOps, fillOps, rewriteOps, Op.Legal]) (by decide)
  obtain ⟨z, hz, h0⟩ := hsize nameA i h.again.mounted h.again.find h.again.file.1
  have hu := (find_some h.again.find).2.1
  have hnode := Option.some.inj ((nodeOf_used hu).symm.trans h.again.node)
  exact ⟨s₀, i, z, h.start, hu, congrArg Node.size hnode, hcovers i h.again.index hu, hz, h0⟩

end

/-- An `exfs_write` of `2 ^ 64 - 1` bytes to a new file succeeds without taking a block:
the file has that size and no extent, and `exfs_size` returns `-1`. -/
theorem write_wraps_size : ∃ s₀ i, Start 0 s₀ ∧
    let s := runOps 0 s₀ [.create nameA, .write nameA (fun _ => 0) (UInt64.ofNat (2 ^ 64 - 1))]
    i < inodes ∧ (s.v.files i).used = true ∧ (s.v.files i).size = 2 ^ 64 - 1 ∧
      ((exts s.v i).map ExfsExtent.len).sum = 0 ∧ (exfsSize nameA).run s = (.ok (-1), s) := by
  obtain ⟨s₀, h⟩ := exists_start
  obtain ⟨s₁, i, hcreate, hi, _, hc, hnode, _, hcore, hfind⟩ :=
    h.create (show nameOk nameA.bytes = true by decide) (by decide) (by decide)
  have hm : s₁.v.mounted = true := (congrArg VolCore.mounted hcore).trans h.fresh.2.1
  have hfile := Option.some.inj ((nodeOf_used (find_some hfind).2.1).symm.trans hnode)
  have htype : (s₁.v.files i).type = typeFile := congrArg Node.type hfile
  have hroom : s₁.v.defer.length + (s₁.v.files i).n + (s₁.v.files i).nchain ≤ deferMax := by
    obtain ⟨_, S, hS, _⟩ := h.saved
    have hdefer : s₁.v.defer = s₀.v.defer := congrArg VolCore.defer hcore
    have hn : (s₁.v.files i).n = 0 := by simpa [exts] using congrArg (List.length ∘ Node.exts) hfile
    have hchain : (s₁.v.files i).nchain = 0 := by
      simpa [chainOf] using congrArg (List.length ∘ Node.chain) hfile
    rw [hdefer, hS.idle h.fresh.2.2, hn, hchain]
    exact Nat.zero_le _
  have hneed : (2 ^ 64 - 1 + blockBytes - 1) % 2 ^ 64 / blockBytes = 0 := by decide
  obtain ⟨s₂, hwrite⟩ : ∃ s₂, (exfsWrite nameA (fun _ => 0) (2 ^ 64 - 1)).run s₁ = (.ok (), s₂) :=
    exists_write_none hneed hm hc.inv.broken hfind htype hroom
  have hwp : (exfsWrite nameA (fun _ => 0) (2 ^ 64 - 1)).wp
      (fun _ s' => ∃ fresh, Written i s₁ s' (2 ^ 64 - 1) fresh ∧ (blocks fresh).length = 0)
      (fun _ _ => True) s₁ := by
    refine wp_exfsWrite hc.inv (by decide) (fun j fresh s' _ hfind' hw hlen _ _ => ?_) fun _ _ _ =>
      trivial
    obtain rfl := Option.some.inj (hfind.symm.trans hfind')
    exact ⟨fresh, hw, hlen.trans hneed⟩
  obtain ⟨fresh, hw, hlen⟩ := hwp.ok hwrite
  have hrun : runOps 0 s₀ [.create nameA, .write nameA (fun _ => 0) (UInt64.ofNat (2 ^ 64 - 1))] =
      s₂ := by
    rw [runOps, List.foldl_cons, List.foldl_cons, List.foldl_nil, stepOp_create hcreate]
    exact congrArg Prod.snd (Prog.run_bind_ok hwrite)
  have hu₂ : (s₂.v.files i).used = true := used_of_nodeOf (by rw [hw.node]; simp)
  have hfile₂ := Option.some.inj ((nodeOf_used hu₂).symm.trans hw.node)
  have hsize : (s₂.v.files i).size = 2 ^ 64 - 1 := congrArg Node.size hfile₂
  have hexts : exts s₂.v i = fresh := congrArg Node.exts hfile₂
  have hfind₂ : find s₂.v nameA.bytes = some i := by
    rw [find_eq hw.inv.toVolInv nameA.no_nul, ← hfind, find_eq hc.inv.toVolInv nameA.no_nul]
    apply findNode_names
    intro j hj
    by_cases hji : j = i
    · rw [hji, hw.node, hw.before]
      rfl
    · rw [hw.other j hj hji]
  refine ⟨s₀, i, h, ?_⟩
  simp only [hrun]
  refine ⟨hi, hu₂, hsize, ?_, ?_⟩
  · rw [hexts, ← length_blocks, hlen]
  · rw [exfsSize_run (hw.mounted.trans hm) hfind₂ (congrArg Node.type hfile₂), hsize]
    rfl

end Xasmos.Exfs
