import Xasmos.Exfs.Run

/-!
# The last generation

The generation is a 64-bit number and a mount takes the larger of two.  Writing nothing to
an empty file and committing makes one generation and changes nothing else, so every
generation below `2 ^ 64` is reached by some run (`exists_turn`).  The commit after
generation `2 ^ 64 - 1` makes generation 0, and a mount prefers the older volume
(`Turn.keeps_last`).
-/

namespace Xasmos.Exfs

open Bytes Prog

variable {S : Snap} {buf : Bytes} {d g i n size : ℕ} {name : CStr} {s s' s₀ u : St}

/-- A mounted volume of generation `g` in which inode `i` is the file `name`, of `size` bytes in
the blocks of `es`.  No other node has that name, or any block. -/
structure Sole (d : ℕ) (name : CStr) (i g size : ℕ) (es : List ExfsExtent) (s : St) : Prop where
  run : RunInv d g s
  gen : s.v.gen = g
  mounted : s.v.mounted = true
  index : i < inodes
  node : nodeOf s.v i = some ⟨typeFile, size, name.bytes, es, []⟩
  other : ∀ j < inodes, j ≠ i → ∀ f, nodeOf s.v j = some f →
    f.name ≠ name.bytes ∧ f.exts = [] ∧ f.chain = []

/-- Such a volume right after a commit. -/
structure Turn (d : ℕ) (name : CStr) (i g size : ℕ) (es : List ExfsExtent) (s : St) : Prop
    extends Sole d name i g size es s where
  saved : ∃ S, Inv s S ∧ Saved s S
  defer : s.v.defer = []

section Short

/-- A volume whose lists fit their inode records needs no chain blocks. -/
theorem commitNeed_of_short
    (h : ∀ j < inodes, (s.v.files j).used = true → (s.v.files j).n ≤ inlineExt) :
    commitNeed s.v = 0 := by
  refine List.sum_eq_zero fun x hx => ?_
  obtain ⟨j, hj, rfl⟩ := List.mem_map.mp hx
  by_cases hu : (s.v.files j).used = true
  · rw [chainNeed, if_neg (not_lt.mpr (h j (List.mem_range.mp hj) hu)), ite_self]
  · simp [hu]

/-- A commit of such a volume succeeds and keeps every node. -/
theorem commit_of_short (hS : Inv s S) (hf : s.disk.Faultless) (hm : s.v.mounted = true)
    (hd : s.v.dirty = true)
    (h : ∀ j < inodes, ∀ f, nodeOf s.v j = some f → f.exts.length ≤ inlineExt ∧ f.chain = []) :
    ∃ s', exfsCommit.run s = (.ok (), s') ∧ Committed s s' ∧
      ∀ j < inodes, nodeOf s'.v j = nodeOf s.v j := by
  have hn : ∀ j < inodes, (s.v.files j).used = true → (s.v.files j).n ≤ inlineExt := by
    intro j hj hu
    simpa [exts] using (h j hj _ (nodeOf_used hu)).1
  have hwp : exfsCommit.wp (fun _ s' => Committed s s') (fun _ _ => False) s := by
    refine wp_exfsCommit hS.toRamInv hS.cleanChains hf (fun _ _ _ hc => hc) (fun _ hno => ?_)
      fun _ hfail => ?_
    · rw [hd] at hno
      exact absurd hno (by simp)
    · rw [hm, commitNeed_of_short hn] at hfail
      rcases hfail with hfail | hfail
      · exact absurd hfail.1 (by simp)
      · exact absurd hfail.2.1 (Nat.not_lt_zero _)
  obtain ⟨_, s', hrun, hc⟩ := hwp.exists_ok
  refine ⟨s', hrun, hc, fun j hj => ?_⟩
  cases hu : (s.v.files j).used with
  | false =>
    rw [nodeOf_unused hu, nodeOf_unused]
    rw [hc.file j hj]
    exact hu
  | true =>
    rw [hc.nodeOf_short hj (hn j hj hu)]
    have hnode := nodeOf_used hu
    obtain ⟨_, hchain⟩ := h j hj _ hnode
    rw [hnode, Option.map_some]
    simp only at hchain
    rw [hchain]

theorem takeFresh_none (k : ℕ) : takeFresh 0 k 0 [] = pure [] := by
  cases k <;> rfl

/-- A write of a length that rounds to no block takes none and succeeds. -/
theorem exists_write_none {len : ℕ} (hneed : (len + blockBytes - 1) % 2 ^ 64 / blockBytes = 0)
    (hm : s.v.mounted = true) (hb : s.v.broken = false) (hfind : find s.v name.bytes = some i)
    (htype : (s.v.files i).type = typeFile)
    (hempty : s.v.defer.length + (s.v.files i).n + (s.v.files i).nchain ≤ deferMax) :
    ∃ s', (exfsWrite name buf len).run s = (.ok (), s') := by
  have hwp : (exfsWrite name buf len).wp (fun _ _ => True) (fun _ _ => False) s := by
    simp only [exfsWrite, requireLive, lookup, wp_bind, wp_get, wp_failIf, hm, hb, hfind,
      htype, hneed, takeFresh_none, wp_pure, wp_ite]
    refine ⟨by simp, fun _ => ⟨by simp, fun _ => ⟨fun h => absurd rfl h, fun _ =>
      ⟨fun hlt => absurd hlt (not_lt.mpr hempty), fun _ => ?_⟩⟩⟩⟩
    simp only [orRelease, orUndo, poolReserve, List.length_nil, if_true, blocks_nil, writeData,
      wp_bind, wp_attempt, wp_pure]
    exact wp_any _ (fun _ _ => trivial) fun _ _ => trivial
  obtain ⟨_, s', hrun, _⟩ := hwp.exists_ok
  exact ⟨s', hrun⟩

end Short

section Turn

variable {es : List ExfsExtent}

theorem Sole.ram (h : Sole d name i g size es s) : RamInv s := by
  obtain ⟨S, hS⟩ := h.run.inv
  exact hS.toRamInv

theorem Sole.find (h : Sole d name i g size es s) : find s.v name.bytes = some i := by
  rw [find_eq h.ram.toVolInv name.no_nul]
  exact findNode_of_node h.index h.node rfl fun j hj hji f hf => (h.other j hj hji f hf).1

theorem Sole.file (h : Sole d name i g size es s) : (s.v.files i).type = typeFile ∧
    (s.v.files i).n = es.length ∧ (s.v.files i).nchain = 0 ∧ exts s.v i = es ∧
    cname (s.v.files i).name = name.bytes := by
  have hnode := h.node
  rw [nodeOf_used (find_some h.find).2.1] at hnode
  have hf := Option.some.inj hnode
  have hexts : exts s.v i = es := congrArg Node.exts hf
  refine ⟨congrArg Node.type hf, ?_, ?_, hexts, congrArg Node.name hf⟩
  · rw [← hexts]
    simp [exts]
  · simpa [chainOf] using congrArg (List.length ∘ Node.chain) hf

/-- **A commit** of a short file makes the next generation and changes no node. -/
theorem Sole.commit (h : Sole d name i g size es s) (hes : es.length ≤ inlineExt)
    (hd : s.v.dirty = true) (hg : g + 1 < 2 ^ 64) :
    ∃ s', exfsCommit.run s = (.ok (), s') ∧ Turn d name i (g + 1) size es s' := by
  obtain ⟨S, hS⟩ := h.run.inv
  obtain ⟨s', hrun, hc, hnodes⟩ := commit_of_short hS h.run.disk_faultless h.mounted hd (by
    intro j hj f hf
    by_cases hji : j = i
    · rw [hji, h.node] at hf
      obtain rfl := Option.some.inj hf
      exact ⟨hes, rfl⟩
    · obtain ⟨_, hx, hc⟩ := h.other j hj hji f hf
      exact ⟨by rw [hx]; exact Nat.zero_le _, hc⟩)
  obtain ⟨S', hinv, hsaved⟩ := hc.saved_inv hS (by rw [h.gen]; exact hg) s'.v.mounted
  have hgen : s'.v.gen = g + 1 := by rw [hc.gen, nextGen, h.gen, Nat.mod_eq_of_lt hg]
  have hmade : RunInv d (g + 1) (s'.flag s'.v.mounted) := h.run.made hS hc hg
  refine ⟨s', hrun, ⟨hmade, hgen, ?_, h.index, ?_, fun j hj hji f hf => ?_⟩,
    ⟨S', hinv, hsaved⟩, congrArg VolCore.defer hc.core⟩
  · exact (congrArg VolCore.mounted hc.core).trans h.mounted
  · rw [hnodes i h.index, h.node]
  · rw [hnodes j hj] at hf
    exact h.other j hj hji f hf

/-- **Writing nothing** to the empty file marks the volume and changes no node. -/
theorem Turn.write (h : Turn d name i g 0 [] s) (buf : Bytes) :
    ∃ s', (exfsWrite name buf 0).run s = (.ok (), s') ∧ Sole d name i g 0 [] s' ∧
      s'.v.dirty = true ∧
      ∃ S, Inv s S ∧ Saved s S ∧ Keeps S s s' := by
  obtain ⟨S, hS, hsaved⟩ := h.saved
  obtain ⟨htype, hn, hnc, _, hname⟩ := h.file
  have hnone : (0 + blockBytes - 1) % 2 ^ 64 / blockBytes = 0 := by norm_num [blockBytes]
  obtain ⟨s', hrun⟩ := exists_write_none hnone h.mounted h.ram.broken h.find htype (by
    rw [h.defer, hn, hnc]
    exact Nat.zero_le _)
  have hwp : (exfsWrite name buf 0).wp (fun _ s' => ∃ fresh, Written i s s' 0 fresh ∧
    (blocks fresh).length = 0)
      (fun _ _ => True) s := by
    refine wp_exfsWrite h.ram (by decide) (fun j fresh s' _ hfind hw hneed _ _ => ?_) fun _ _ _ =>
      trivial
    rw [h.find] at hfind
    obtain rfl := Option.some.inj hfind
    refine ⟨fresh, hw, ?_⟩
    rw [hneed]
    norm_num [blockBytes]
  obtain ⟨fresh, hw, hlen⟩ := hwp.ok hrun
  have hk := Keeps.of_changed hS hw.toChanged
  have hnil : fresh = [] := by
    cases fresh with
    | nil => rfl
    | cons e es =>
      have := (hw.within h.index e List.mem_cons_self).1
      simp [blocks] at hlen
      omega
  refine ⟨s', hrun, ⟨h.run.kept hS hk, ?_, ?_, h.index, ?_, fun j hj hji f hf => ?_⟩, hw.dirty,
    S, hS, hsaved, hk⟩
  · rw [hk.inv.gen, ← hS.gen, h.gen]
  · exact hw.mounted.trans h.mounted
  · rw [hw.node, hname, hnil]
  · rw [hw.other j hj hji] at hf
    exact h.other j hj hji f hf

/-- A new file in a fresh volume. -/
theorem Start.sole (h : Start d s₀) (hok : nameOk name.bytes = true)
    (hroot : lastPipe name.bytes = 0) (hnew : name.bytes ∉ freshDirs) :
    ∃ s i, (exfsCreate name).run s₀ = (.ok (), s) ∧ Sole d name i 1 0 [] s ∧ s.v.dirty = true ∧
      s.v.defer = [] := by
  obtain ⟨s, i, hrun, hi, _, hc, hnode, _, hcore, _⟩ := h.create hok hroot hnew
  obtain ⟨hrun₀, S, hS, _⟩ := h.saved
  have hk := Keeps.of_changed hS hc
  refine ⟨s, i, hrun, ⟨hrun₀.kept hS hk, ?_, hc.mounted.trans h.fresh.2.1, hi, hnode,
    fun j hj hji f hf => ?_⟩, hc.dirty, (congrArg VolCore.defer hcore).trans (hS.idle h.fresh.2.2)⟩
  · rw [hk.inv.gen, ← hS.gen, h.fresh.1]
  · rw [hc.other j hj hji, h.node hj, freshNode] at hf
    obtain ⟨dir, hdir, rfl⟩ := Option.map_eq_some_iff.mp hf
    exact ⟨fun he => hnew (he ▸ List.mem_of_getElem? hdir), rfl, rfl⟩

/-- **Deleting the file** leaves no node of its name. -/
theorem Turn.delete (h : Turn d name i g 0 [] s) :
    ∃ s', (exfsDelete name).run s = (.ok (), s') ∧ Changed i s s' ∧ nodeOf s'.v i = none ∧
      s'.disks = s.disks := by
  obtain ⟨htype, hn, hnc, _⟩ := h.file
  have hok : (exfsDelete name).wp (fun _ _ => True) (fun _ _ => False) s := by
    simp only [exfsDelete, requireLive, lookup, wp_bind, wp_get, wp_failIf, h.mounted,
      h.ram.broken, h.find, htype, wp_pure]
    refine ⟨by simp, fun _ => ⟨by simp, fun _ =>
      ⟨fun hdir => absurd hdir.1 (by decide), fun _ => ?_⟩⟩⟩
    refine wp_deferFile (fun hfull => ?_) ?_
    · rw [h.defer, hn, hnc] at hfull
      exact absurd hfull (by decide)
    · simp only [modV, wp_modify]
  obtain ⟨_, s', hrun, _⟩ := hok.exists_ok
  refine ⟨s', hrun, ?_⟩
  have hwp : (exfsDelete name).wp (fun _ s' => Changed i s s' ∧ nodeOf s'.v i = none ∧
    s'.disks = s.disks)
      (fun _ _ => True) s := by
    refine wp_exfsDelete h.ram (fun j s' _ hfind hc hnone hd => ?_) fun _ => trivial
    rw [h.find] at hfind
    obtain rfl := Option.some.inj hfind
    exact ⟨hc, hnone, hd⟩
  exact hwp.ok hrun

/-! ## Every generation -/

theorem stepOp_create (h : (exfsCreate name).run s = (.ok (), s')) :
    stepOp d s (.create name) = s' :=
  congrArg Prod.snd (run_bind_ok h)

theorem stepOp_delete (h : (exfsDelete name).run s = (.ok (), s')) :
    stepOp d s (.delete name) = s' :=
  congrArg Prod.snd (run_bind_ok h)

theorem stepOp_write {len : UInt64} (hn : len.toNat = n)
    (h : (exfsWrite name buf n).run s = (.ok (), s')) : stepOp d s (.write name buf len) = s' := by
  subst hn
  exact congrArg Prod.snd (run_bind_ok h)

theorem stepOp_commit (h : exfsCommit.run s = (.ok (), s')) : stepOp d s .commit = s' :=
  congrArg Prod.snd (run_bind_ok h)

/-- **Every generation is reached.** -/
theorem exists_turn (h : Start d s₀) (hok : nameOk name.bytes = true)
    (hroot : lastPipe name.bytes = 0) (hnew : name.bytes ∉ freshDirs) (hg : g + 2 < 2 ^ 64) :
    ∃ ops i, Turn d name i (g + 2) 0 [] (runOps d s₀ ops) := by
  induction g with
  | zero =>
    obtain ⟨s, i, hcreate, hsole, hd, _⟩ := h.sole hok hroot hnew
    obtain ⟨s', hcommit, hturn⟩ := hsole.commit (Nat.zero_le _) hd hg
    refine ⟨[.create name, .commit], i, ?_⟩
    have hrun : runOps d s₀ [.create name, .commit] = s' := by
      rw [runOps, List.foldl_cons, List.foldl_cons, List.foldl_nil, stepOp_create hcreate,
        stepOp_commit hcommit]
    rw [hrun]
    exact hturn
  | succ g ih =>
    obtain ⟨ops, i, hturn⟩ := ih (by omega)
    obtain ⟨t, hwrite, hsole, hd, _⟩ := hturn.write (fun _ => 0)
    obtain ⟨s', hcommit, hturn'⟩ := hsole.commit (Nat.zero_le _) hd (by omega)
    refine ⟨ops ++ [.write name (fun _ => 0) 0, .commit], i, ?_⟩
    have hrun : runOps d s₀ (ops ++ [.write name (fun _ => 0) 0, .commit]) = s' := by
      rw [runOps_append, runOps, List.foldl_cons, List.foldl_cons, List.foldl_nil,
        stepOp_write UInt64.toNat_zero hwrite, stepOp_commit hcommit]
    rw [hrun]
    exact hturn'

/-! ## The commit after the last generation -/

/-- After the last generation the volume before the commit is still the newest one on the
device. -/
theorem Committed.good_wrap (hc : Committed s s') (hS : Inv s S) (hg : s.v.gen + 1 = 2 ^ 64) :
    Good s.v.gm s'.disk.block S ∧ ∀ b, Protected s.v.gm S b → s'.disk.block b = s.disk.block b := by
  have hzero : nextGen s.v = 0 := by rw [nextGen, hg, Nat.mod_self]
  have hkeep : ∀ b, Protected s.v.gm S b → s'.disk.block b = s.disk.block b := fun b hp =>
    hc.block_eq (fun hw => (hS.commitWritable hw).2 hp) (hS.protected_ne_next hp)
  refine ⟨hS.good.frame hkeep (fun f hf => ?_) fun b hb => hS.map.group_lt hb, hkeep⟩
  obtain ⟨S', hS'⟩ := hc.saved
  have hgen' : S'.sb.gen = 0 := by rw [← hS'.gen, hc.gen, hzero]
  have hsb := hS'.held.sb
  have hslot : (S.sb.gen + 1) % 2 = S'.sb.gen % 2 := by rw [← hS.gen, hg, hgen']; rfl
  rw [hslot, hsb, Except.ok.injEq] at hf
  rw [← hf, hgen', ← hS.gen]
  omega

/-- `u` is in memory, with generation 0 and without the file `name`, but the newest volume on
the device is that of `s`, which has the file. -/
structure Wrapped (d : ℕ) (name : CStr) (s u : St) (S : Snap) : Prop where
  inv : Inv s S
  saved : Saved s S
  le : s ≤ u
  dev : u.v.dev = d
  gen : u.v.gen = 0
  ram : RamInv u
  gone : ∀ j < inodes, ∀ f, nodeOf u.v j = some f → f.name ≠ name.bytes
  good : Good s.v.gm u.disk.block S
  keep : ∀ b, Protected s.v.gm S b → u.disk.block b = s.disk.block b

/-- **The commit after the last generation** returns `EXFS_OK` and is not the one a mount
takes. -/
theorem Turn.wraps (h : Turn d name i (2 ^ 64 - 1) 0 [] s) :
    ∃ S t u, (exfsDelete name).run s = (.ok (), t) ∧ t.v.gen = 2 ^ 64 - 1 ∧
      exfsCommit.run t = (.ok (), u) ∧
      Wrapped d name s u S := by
  obtain ⟨S, hS, hsaved⟩ := h.saved
  obtain ⟨t, hdelete, hch, hnone, hdisks⟩ := h.delete
  have hk := Keeps.of_changed hS hch
  have hgen : t.v.gen = 2 ^ 64 - 1 := by rw [hk.inv.gen, ← hS.gen, h.gen]
  have hnode : ∀ j < inodes, ∀ f, nodeOf t.v j = some f →
      f.name ≠ name.bytes ∧ f.exts = [] ∧ f.chain = [] := by
    intro j hj f hf
    by_cases hji : j = i
    · rw [hji, hnone] at hf
      exact absurd hf (by simp)
    · rw [hch.other j hj hji] at hf
      exact h.other j hj hji f hf
  obtain ⟨u, hcommit, hc, hnodes⟩ := commit_of_short hk.inv
    (h.run.kept hS hk).disk_faultless (hch.mounted.trans h.mounted) hch.dirty
    fun j hj f hf => ⟨by rw [(hnode j hj f hf).2.1]; exact Nat.zero_le _, (hnode j hj f hf).2.2⟩
  obtain ⟨hgood, hkeep⟩ := hc.good_wrap hk.inv (by rw [hgen]; norm_num)
  have hdisk : t.disk = s.disk := by rw [St.disk, St.disk, hdisks, hk.dev]
  have hgb : s.v.gm.gb = t.v.gm.gb := by rw [hS.map.gb, hk.inv.map.gb]
  have hprot : Protected s.v.gm S = Protected t.v.gm S := protected_congr hgb hk.ngroups.symm
  refine ⟨S, t, u, hdelete, hgen, hcommit, hS, hsaved, le_trans hk.le hc.le, ?_, ?_, hc.ram,
    fun j hj f hf => ?_, ?_, fun b hb => ?_⟩
  · rw [hc.dev, hk.dev, h.run.dev]
  · rw [hc.gen, nextGen, hgen]
    norm_num
  · rw [hnodes j hj] at hf
    exact (hnode j hj f hf).1
  · refine hgood.congr_map hgb ?_ hk.ngroups.symm
    rw [hS.map.total, hk.inv.map.total, hk.total]
  · rw [hkeep b (hprot ▸ hb), hdisk]

/-- A mount then shows the older volume. -/
theorem Wrapped.mount (h : Wrapped d name s u S) (hrun : RunInv d n s) :
    ∃ y, (exfsMount d).run u = (.ok (), y) ∧ Mounted d u S y := by
  have hvol : volTotal (u.disks d) = volTotal (s.disks d) := volTotal_later (h.le d)
  have htot : s.v.gm.total = volTotal (u.disks d) :=
    h.inv.map.total.trans (hrun.total.trans hvol.symm)
  have hng : s.v.gm.ngroups = (s.v.gm.total + s.v.gm.gb - 1) / s.v.gm.gb := h.inv.map.map.ngroups_eq
  have hgood := h.good
  rw [St.disk, h.dev] at hgood
  have hgood' : Good (geoMap u.v.gm (u.disks d)) (u.disks d).block S := by
    refine hgood.congr_map h.inv.map.gb.symm htot.symm ?_
    rw [hng, htot, h.inv.map.gb]
    rfl
  have hmount := wp_exfsMount (hrun.disk.later (h.le d)) (hrun.faultless.later (h.le d)) hgood'
    (Q := fun _ y => Mounted d u S y)
    (E := fun _ _ => False) fun _ hm => hm
  obtain ⟨_, y, hy, hm⟩ := hmount.exists_ok
  exact ⟨y, hy, hm⟩

/-- **A run that wraps.** -/
theorem exists_wrapped (h : Start d s₀) (hok : nameOk name.bytes = true)
    (hroot : lastPipe name.bytes = 0) (hnew : name.bytes ∉ freshDirs) :
    ∃ ops i S u, Turn d name i (2 ^ 64 - 1) 0 [] (runOps d s₀ ops) ∧
      (runOps d s₀ (ops ++ [.delete name])).v.gen = 2 ^ 64 - 1 ∧
      exfsCommit.run (runOps d s₀ (ops ++ [.delete name])) = (.ok (), u) ∧
      Wrapped d name (runOps d s₀ ops) u S := by
  obtain ⟨ops, i, hturn⟩ := exists_turn h hok hroot hnew (show 2 ^ 64 - 3 + 2 < 2 ^ 64 by norm_num)
  rw [show 2 ^ 64 - 3 + 2 = 2 ^ 64 - 1 by norm_num] at hturn
  obtain ⟨S, t, u, hdelete, hgen, hcommit, hwrap⟩ := hturn.wraps
  have hrun : runOps d s₀ (ops ++ [.delete name]) = t := by
    rw [runOps_append, runOps, List.foldl_cons, List.foldl_nil, stepOp_delete hdelete]
  exact ⟨ops, i, S, u, hturn, hrun ▸ hgen, hrun ▸ hcommit, hwrap⟩

end Turn

end Xasmos.Exfs
