import Xasmos.Exfs.Wrap

/-!
# A file with content

On a volume with one small file another write of a block succeeds: a free block is left, and
there is room in the pool and in the deferred list (`Sole.write`).  The old block of the file
stays owned, in the deferred list, until the next commit.
-/

namespace Xasmos.Exfs

open Bytes Prog

variable {E : ExfsError → St → Prop} {Q : Unit → St → Prop} {b d g i k len size : ℕ} {buf : Bytes}
  {name : CStr} {s : St}

/-! ## Room -/

section Room

/-- The first group has blocks for files from block 20 on. -/
theorem VolInv.exists_free (h : VolInv s [] (0, 0)) (htotal : 34 ≤ s.v.total) {L : List ℕ}
    (hL : ∀ b, 0 < owned s.v b → b ∈ L) (hlen : L.length < 14) :
    ∃ g < s.v.gm.ngroups, s.v.gm.free g ≠ 0 := by
  by_contra hno
  simp only [not_exists, not_and, not_not] at hno
  -- then each of the fourteen blocks is used, so each has an owner
  have hused : ∀ b < s.v.total, used s.gst b = true := by
    intro b hb
    have hzero : exfsFreeBlocks s.v = 0 := by
      rw [exfsFreeBlocks, gmapFreeTotal]
      refine List.sum_eq_zero fun x hx => ?_
      obtain ⟨g, hg, rfl⟩ := List.mem_map.mp hx
      exact hno g (List.mem_range.mp hg)
    have hcount : Nat.count (fun b => used s.gst b = false) s.v.total = 0 :=
      h.map.freeTotal.symm.trans hzero
    rw [Nat.count_iff_forall_not] at hcount
    exact Bool.eq_true_of_not_eq_false (hcount b hb)
  have hsub : List.range' 20 14 ⊆ L := by
    intro b hb
    rw [List.mem_range'_1] at hb
    have hfree : reservedBlock s.v.gm b = false := by
      simp only [reservedBlock, h.map.gb, groupMax, reservedBits, decide_eq_false_iff_not]
      rw [Nat.div_eq_of_lt (by omega), Nat.mod_eq_of_lt (by omega), if_pos rfl]
      exact not_lt.mpr hb.1
    have htaken : taken s b = true := taken_iff.mpr ⟨by omega, hused b (by omega), hfree⟩
    have hledger := h.ledger b
    rw [htaken, List.count_nil] at hledger
    exact hL b (by rw [Bool.toNat_true] at hledger; omega)
  have hle := (List.Nodup.subperm List.nodup_range' hsub).length_le
  rw [List.length_range'] at hle
  omega

/-- Two turns of the allocation loop take one block, if one is free. -/
theorem wp_takeFresh_one {Q : List ExfsExtent → St → Prop} (h : RamInv s)
    (hfree : ∃ g < s.v.gm.ngroups, s.v.gm.free g ≠ 0)
    (hQ : ∀ b t, b < s.v.total → Staged s t [b] (0, 0) → MapOnly s t → Q [⟨b, 1⟩] t) :
    (takeFresh 1 (k + 2) 0 []).wp Q E s := by
  rw [takeFresh, if_pos (by decide), wp_bind]
  refine wp_takeExtent h.refl (by decide) (fun e t h1 h2 h3 ht hmo => ?_) fun t _ _ hno => ?_
  · obtain ⟨b, len⟩ := e
    obtain rfl : len = 1 := by simp only at h1 h2; omega
    rw [if_neg Nat.one_ne_zero, takeFresh, if_neg (show ¬ 0 + 1 < 1 from Nat.lt_irrefl 1), wp_pure]
    exact hQ b t h3 ht hmo
  · obtain ⟨g, hg, hne⟩ := hfree
    exact absurd (hno g hg) hne

/-- **A write of one block** reaches its data, if a block is free and there is room in the pool
and in the deferred list. -/
theorem wp_exfsWrite_one (h : RamInv s) (hm : s.v.mounted = true)
    (hfind : find s.v name.bytes = some i) (htype : (s.v.files i).type = typeFile) (hpos : 0 < len)
    (hle : len ≤ blockBytes) (hfree : ∃ g < s.v.gm.ngroups, s.v.gm.free g ≠ 0)
    (hroom : s.v.defer.length + (s.v.files i).n + (s.v.files i).nchain ≤ deferMax)
    (hpool : totalCap s.v + capFor 1 ≤ poolExt)
    (hdata : ∀ b slice t, b < s.v.total → Staged s t [b] slice →
      (orUndo [⟨b, 1⟩] slice (writeData buf [b] 0 len)).wp (fun _ _ => ∀ u, Q () u) E t) :
    (exfsWrite name buf len).wp Q E s := by
  have hneed : (len + blockBytes - 1) % 2 ^ 64 / blockBytes = 1 := by
    simp only [blockBytes] at hle ⊢
    omega
  obtain ⟨k, hk⟩ : ∃ k, maxExt = k + 2 := ⟨_, rfl⟩
  simp only [exfsWrite, requireLive, lookup, wp_bind, wp_get, wp_failIf, hm, h.broken, hfind,
    htype, hneed, hk, wp_pure]
  refine ⟨by simp, fun _ => ⟨by simp, fun _ => ⟨fun hno => absurd rfl hno, fun _ => ?_⟩⟩⟩
  refine wp_takeFresh_one h hfree fun b t hb ht hmo => ?_
  simp only [wp_bind, wp_get, wp_ite]
  refine ⟨fun hfull => ?_, fun _ => ?_⟩
  · have hfile := ht.file i
    rw [ht.defer, hfile] at hfull
    exact absurd hfull (not_lt.mpr hroom)
  have hcap : totalCap t.v = totalCap s.v := by rw [hmo]; rfl
  refine wp_orRelease (wp_poolReserve ht.pool (fun slice u hu => ?_) fun u _ _ _ _ _ hno => ?_)
  · rw [wp_bind]
    refine wp_mono (hdata b slice u hb (ht.movePool hu.disks hu.gm hu.hint hu.moved hu.inv))
      (fun _ w _ hQ => ?_) fun _ _ _ he => he
    simp only [wp_bind, wp_attempt, modV]
    exact wp_any _ (fun _ _ => hQ _) fun _ _ => hQ _
  · rw [List.length_singleton, hcap] at hno
    exact absurd hno (not_lt.mpr hpool)

end Room

/-! ## One more write -/

section Write

variable {es : List ExfsExtent}

/-- Only the file has blocks. -/
theorem Sole.mem_of_table (h : Sole d name i g size es s) (hb : 0 < tableOwn (nodeOf s.v) b) :
    b ∈ blocks es := by
  obtain ⟨j, hj, hpos⟩ := exists_pos_of_sum_pos hb
  cases hf : nodeOf s.v j with
  | none => rw [hf] at hpos; exact absurd hpos (Nat.lt_irrefl 0)
  | some f =>
    rw [hf] at hpos
    by_cases hji : j = i
    · rw [hji, h.node] at hf
      obtain rfl := Option.some.inj hf
      exact List.count_pos_iff.mp hpos
    · obtain ⟨_, hx, hc⟩ := h.other j hj hji f hf
      simp [nodeOwn, hx, hc] at hpos

/-- The other files hold no slice of the pool. -/
theorem Sole.totalCap_eq (h : Sole d name i g size es s) : totalCap s.v = capFor es.length := by
  have hu := (find_some h.find).2.1
  rw [totalCap, Finset.sum_eq_single i, if_pos hu, (h.ram.file i h.index hu).cap, h.file.2.1]
  · intro j hj hji
    split
    · rename_i hju
      have hj' := Finset.mem_range.mp hj
      have hn : (s.v.files j).n = 0 := by
        have hx := (h.other j hj' hji _ (nodeOf_used hju)).2.1
        simpa [exts] using congrArg List.length hx
      rw [(h.ram.file j hj' hju).cap, hn]
      rfl
    · rfl
  · intro hno
    exact absurd (Finset.mem_range.mpr h.index) hno

/-- A write of one block to the file gets as far as its data. -/
theorem Sole.wp_write (h : Sole d name i g size es s) (hdefer : s.v.defer = [])
    (hes : es.length ≤ 1) (hone : (blocks es).length ≤ 1) (hpos : 0 < len) (hle : len ≤ blockBytes)
    (hdata : ∀ b slice t, b < s.v.total → Staged s t [b] slice →
      (orUndo [⟨b, 1⟩] slice (writeData buf [b] 0 len)).wp (fun _ _ => ∀ u, Q () u) E t) :
    (exfsWrite name buf len).wp Q E s := by
  obtain ⟨htype, hn, hnc, _, _⟩ := h.file
  refine wp_exfsWrite_one h.ram h.mounted h.find htype hpos hle ?_ ?_ ?_ hdata
  · refine h.ram.exists_free h.ram.map.total_ge (L := blocks es) (fun b hb => ?_) (by omega)
    rw [owned, hdefer, blocks_nil, List.count_nil, Nat.add_zero] at hb
    exact h.mem_of_table hb
  · rw [hdefer, hn, hnc]
    exact le_trans (by simpa using hes) (by decide)
  · rw [h.totalCap_eq]
    rcases Nat.le_one_iff_eq_zero_or_eq_one.mp hes with h0 | h0 <;> rw [h0] <;> decide

/-- **A write of one block** succeeds.  The old blocks of the file are then deferred. -/
theorem Sole.write (h : Sole d name i g size es s) (hdefer : s.v.defer = []) (hes : es.length ≤ 1)
    (hone : (blocks es).length ≤ 1) (buf : Bytes) (hpos : 0 < len) (hle : len ≤ blockBytes) :
    ∃ b s', (exfsWrite name buf len).run s = (.ok (), s') ∧ Sole d name i g len [⟨b, 1⟩] s' ∧
      s'.v.dirty = true ∧ b ∉ blocks es ∧ ∀ x ∈ blocks es, x ∈ blocks s'.v.defer := by
  have hok : (exfsWrite name buf len).wp (fun _ _ => True) (fun _ _ => False) s := by
    refine h.wp_write hdefer hes hone hpos hle fun b slice t hb ht => ?_
    have hf : t.disk.Faultless := h.run.disk_faultless.later (St.disk_le ht.le ht.dev)
    simp only [orUndo, writeData, wp_bind, wp_attempt]
    refine wp_blkPut_any ht.map.fits (by rw [ht.total]; exact hb) ?_ fun hno => absurd hf hno
    exact fun _ => trivial
  obtain ⟨_, s', hrun, _⟩ := hok.exists_ok
  have hwp : (exfsWrite name buf len).wp (fun _ s' => ∃ fresh, Written i s s' len fresh ∧
      (blocks fresh).length = 1 ∧ ∀ b ∈ blocks fresh, used s.gst b = false)
        (fun _ _ => True) s := by
    refine wp_exfsWrite h.ram (lt_of_le_of_lt hle (by decide))
      (fun j fresh s' _ hfind hw hneed _ hnew => ?_) fun _ _ _ => trivial
    rw [h.find] at hfind
    obtain rfl := Option.some.inj hfind
    refine ⟨fresh, hw, hneed.trans ?_, hnew⟩
    simp only [blockBytes] at hle ⊢
    omega
  obtain ⟨fresh, hw, hlen, hnew⟩ := hwp.ok hrun
  obtain ⟨b, rfl⟩ := (hw.within h.index).eq_singleton hlen
  obtain ⟨S, hS⟩ := h.run.inv
  have hk := Keeps.of_changed hS hw.toChanged
  have hsole : Sole d name i g len [⟨b, 1⟩] s' := by
    refine ⟨h.run.kept hS hk, ?_, hw.mounted.trans h.mounted, h.index, ?_, fun j hj hji f hf => ?_⟩
    · rw [hk.inv.gen, ← hS.gen, h.gen]
    · rw [hw.node, h.file.2.2.2.2]
    · rw [hw.other j hj hji] at hf
      exact h.other j hj hji f hf
  have hold : ∀ x ∈ blocks es, 0 < owned s.v x := fun x hx =>
    owned_of_exts h.index (find_some h.find).2.1 (by rw [h.file.2.2.2.1]; exact hx)
  have hb : b ∉ blocks es := by
    intro hb
    have hused := (h.ram.taken_of_owned (hold b hb)).2.1
    rw [hnew b (by simp [blocks])] at hused
    exact absurd hused (by simp)
  refine ⟨b, s', hrun, hsole, hw.dirty, hb, fun x hx => ?_⟩
  have hown := hw.evolves.owned_mono x (hold x hx)
  rw [owned] at hown
  by_contra hno
  rw [List.count_eq_zero_of_not_mem hno, Nat.add_zero] at hown
  have hmem := hsole.mem_of_table hown
  simp only [blocks, List.flatMap_cons, List.flatMap_nil, List.append_nil, List.range'_one,
    List.mem_singleton] at hmem
  exact hb (hmem ▸ hx)

theorem Sole.view_size (h : Sole d name i g size es s) :
    (view s name.bytes).map Entry.size = some size := by
  rw [view, viewOf, ← find_eq h.ram.toVolInv name.no_nul, h.find, Option.bind_some, h.node]
  rfl

end Write

/-! ## A run -/

/-- Create a file and write a byte. -/
def fillOps : List Op := [.create nameA, .write nameA (fun _ => 1) 1]

/-- Commit it. -/
def savedOps : List Op := fillOps ++ [.commit]

/-- Write it again, with two bytes. -/
def rewriteOps : List Op := [.write nameA (fun _ => 2) 2]

/-- The states of the run `savedOps ++ rewriteOps`: after the first write the file has block `b`,
after the second one block `b'`, and `b` waits for the next commit. -/
structure Rewritten (s₀ : St) (i b b' : ℕ) : Prop where
  start : Start 0 s₀
  filled : Sole 0 nameA i 1 1 [⟨b, 1⟩] (runOps 0 s₀ fillOps)
  filled_dirty : (runOps 0 s₀ fillOps).v.dirty = true
  commit : exfsCommit.run (runOps 0 s₀ fillOps) = (.ok (), runOps 0 s₀ savedOps)
  saved : Turn 0 nameA i 2 1 [⟨b, 1⟩] (runOps 0 s₀ savedOps)
  rewrite : (exfsWrite nameA (fun _ => 2) 2).run (runOps 0 s₀ savedOps) =
    (.ok (), runOps 0 s₀ (savedOps ++ rewriteOps))
  again : Sole 0 nameA i 2 2 [⟨b', 1⟩] (runOps 0 s₀ (savedOps ++ rewriteOps))
  again_dirty : (runOps 0 s₀ (savedOps ++ rewriteOps)).v.dirty = true
  deferred : b ∈ blocks (runOps 0 s₀ (savedOps ++ rewriteOps)).v.defer

theorem exists_rewritten : ∃ s₀ i b b', Rewritten s₀ i b b' := by
  obtain ⟨s₀, h⟩ := exists_start
  obtain ⟨s₁, i, hcreate, h₁, _, hdefer⟩ :=
    h.sole (show nameOk nameA.bytes = true by decide) (by decide) (by decide)
  obtain ⟨b, s₂, hwrite, h₂, hd₂, _, _⟩ := h₁.write hdefer (by decide) (by decide) (fun _ => 1)
    (show 0 < 1 by decide) (by decide)
  obtain ⟨s₃, hcommit, h₃⟩ := h₂.commit (by simp [inlineExt]) hd₂ (by decide)
  obtain ⟨b', s₄, hagain, h₄, hd₄, _, hold⟩ := h₃.toSole.write h₃.defer (by simp) (by simp [blocks])
    (fun _ => 2) (show 0 < 2 by decide) (by decide)
  have hfill : runOps 0 s₀ fillOps = s₂ := by
    rw [fillOps, runOps, List.foldl_cons, List.foldl_cons, List.foldl_nil, stepOp_create hcreate]
    exact stepOp_write UInt64.toNat_one hwrite
  have hsaved : runOps 0 s₀ savedOps = s₃ := by
    rw [savedOps, runOps_append, hfill]
    exact stepOp_commit hcommit
  have hrewrite : runOps 0 s₀ (savedOps ++ rewriteOps) = s₄ := by
    rw [runOps_append, hsaved]
    exact stepOp_write (show (2 : UInt64).toNat = 2 by decide) hagain
  refine ⟨s₀, i, b, b', h, ?_, ?_, ?_, ?_, ?_, ?_, ?_, ?_⟩
  · rw [hfill]; exact h₂
  · rw [hfill]; exact hd₂
  · rw [hfill, hsaved]; exact hcommit
  · rw [hsaved]; exact h₃
  · rw [hsaved, hrewrite]; exact hagain
  · rw [hrewrite]; exact h₄
  · rw [hrewrite]; exact hd₄
  · rw [hrewrite]; exact hold b (by simp [blocks])

end Xasmos.Exfs
