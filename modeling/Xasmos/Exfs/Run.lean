import Xasmos.Exfs.Format
import Xasmos.Exfs.WriteSpecs
import Xasmos.Exfs.ReadSpecs
import Xasmos.Exfs.View

/-!
# Runs

A run formats a device and then makes any calls on it: the operations on files, commits,
unmounts and mounts of the same device.  `Stepped` says once what a call can do to a
volume over the committed state `S`: it leaves `S` on the device (`Keeps`), or it is a
commit that makes the next generation (`Committed`).  What holds of every state of a run
(`RunInv`) follows by induction.

The generation is a 64-bit number, so a run is one of fewer than `2 ^ 64 - 1` commits;
`commits` counts the calls that may make a generation.
-/

namespace Xasmos.Exfs

open Bytes Prog

variable {D D' : Disk} {S : Snap} {b d i n : ℕ} {m m' : GMap} {s s' s'' s₀ t : St}

/-! ## Calls -/

/-- A call.  Lengths and offsets are 64-bit numbers. -/
inductive Op where
  | create (name : CStr)
  | mkdir (name : CStr)
  | delete (name : CStr)
  | write (name : CStr) (buf : Bytes) (len : UInt64)
  | writeAt (name : CStr) (off : UInt64) (buf : Bytes) (len : UInt64)
  | readAt (name : CStr) (off cap : UInt64)
  | commit
  | unmount
  | mount

variable {ops : List Op}

/-- The call on device `d`, with the bytes a read returns. -/
def Op.prog (d : ℕ) : Op → FsProg (List UInt8)
  | .create name => do exfsCreate name; pure []
  | .mkdir name => do exfsMkdir name; pure []
  | .delete name => do exfsDelete name; pure []
  | .write name buf len => do exfsWrite name buf len.toNat; pure []
  | .writeAt name off buf len => do exfsWriteAt name off.toNat buf len.toNat; pure []
  | .readAt name off cap => exfsReadAt name off.toNat cap.toNat
  | .commit => do exfsCommit; pure []
  | .unmount => do exfsUnmount; pure []
  | .mount => do exfsMount d; pure []

/-- The calls that may make a generation. -/
def Op.commits : Op → Bool
  | .commit | .unmount => true
  | _ => false

/-- The state after a call. -/
def stepOp (d : ℕ) (s : St) (op : Op) : St := ((op.prog d).run s).2

/-- The state after a list of calls. -/
def runOps (d : ℕ) (s : St) (ops : List Op) : St := ops.foldl (stepOp d) s

/-- The number of calls that may make a generation. -/
def commits (ops : List Op) : ℕ := ops.countP Op.commits

/-- A run starts in `s`: `exfs_format` of a device without faults that holds no
superblock has succeeded. -/
structure Start (d : ℕ) (s : St) : Prop where
  format : ∃ s₀, (s₀.disks d).Faultless ∧ (∀ b < 2, ∀ f, sbDecode ((s₀.disks d).block b) ≠ .ok f) ∧
    (exfsFormat d).run s₀ = (.ok (), s)

theorem commits_cons (op : Op) (ops : List Op) :
    commits (op :: ops) = commits [op] + commits ops := by
  rw [commits, List.countP_cons, commits, List.countP_singleton, commits]
  omega

theorem runOps_append (d : ℕ) (s : St) (xs ys : List Op) :
    runOps d s (xs ++ ys) = runOps d (runOps d s xs) ys := List.foldl_append

/-! ## What a call can do -/

/-- `s'` is a state over the same committed state `S`, and nothing `S` reaches was written. -/
structure Keeps (S : Snap) (s s' : St) : Prop where
  inv : Inv s' S
  le : s ≤ s'
  dev : s'.v.dev = s.v.dev
  total : s'.v.total = s.v.total
  ngroups : s'.v.gm.ngroups = s.v.gm.ngroups
  wrote : Disk.WroteOnly (fun b => 2 ≤ b ∧ ¬ Protected s.v.gm S b) s.disk s'.disk

/-- The state with another mount flag. -/
def St.flag (s : St) (on : Bool) : St := ⟨s.disks, { s.v with mounted := on }⟩

/-- What a call can do to a volume over the committed state `S`. -/
inductive Stepped (op : Op) (S : Snap) (s s' : St) : Prop where
  | kept (h : Keeps S s s')
  | made (t : St) (on : Bool) (hop : op.commits = true) (h : Committed s t) (hs : s' = t.flag on)

section Keeps

theorem Keeps.refl (h : Inv s S) : Keeps S s s :=
  ⟨h, le_refl s, rfl, rfl, rfl, Disk.WroteOnly.refl _ _⟩

theorem protected_congr (hgb : m'.gb = m.gb) (hn : m'.ngroups = m.ngroups) :
    Protected m' S = Protected m S := by
  funext b
  have hs : slotBlock m' = slotBlock m := by
    funext g t
    exact slotBlock_congr hgb g t
  rw [Protected, Protected, hs, hn]

theorem Keeps.trans (h : Keeps S s s') (h' : Keeps S s' s'') (hm : MapInv s) : Keeps S s s'' := by
  have hp : Protected s'.v.gm S = Protected s.v.gm S :=
    protected_congr (by rw [h.inv.map.gb, hm.gb]) h.ngroups
  refine ⟨h'.inv, le_trans h.le h'.le, h'.dev.trans h.dev, h'.total.trans h.total,
    h'.ngroups.trans h.ngroups, h.wrote.trans ?_⟩
  have hw := h'.wrote
  rw [hp] at hw
  exact hw

/-- What a call may write is not reached by the committed state. -/
theorem Inv.writable (h : Inv s S) (hw : Writable s b) : 2 ≤ b ∧ ¬ Protected s.v.gm S b := by
  refine ⟨?_, fun hp => h.not_writable hp hw⟩
  by_contra hlt
  exact h.map.low_not_writable (lt_trans (not_le.mp hlt) (by decide)) hw

/-- An evolution keeps the committed state. -/
theorem Keeps.of_evolves (h : Inv s S) (hr : RamInv s') (he : Evolves s s') : Keeps S s s' :=
  ⟨h.evolves hr he, he.le, he.dev, he.total, he.ngroups, he.wrote.mono fun _ hb => h.writable hb⟩

theorem Keeps.of_staged (h : Inv s S) (hs : Staged s s' [] (0, 0)) : Keeps S s s' :=
  Keeps.of_evolves h (h.toRamInv.staged hs) hs.evolves

theorem Keeps.of_changed (h : Inv s S) (hc : Changed i s s') : Keeps S s s' :=
  Keeps.of_evolves h hc.inv hc.evolves

theorem Inv.cleanChains (h : Inv s S) : CleanChains s := by
  intro i hi hu hd
  have hn := h.clean i hi hd
  rw [nodeOf_used hu] at hn
  exact h.good.chain i hi _ hn.symm

/-- The mount flag is no part of the invariant. -/
theorem Inv.flag (h : Inv s S) (on : Bool) : Inv (s.flag on) S := by
  refine ⟨⟨⟨⟨h.map.dev, h.map.spb, h.map.total, h.map.gb, h.map.total_ge, h.map.total_le,
    h.map.hint, h.map.map⟩, h.broken,
    h.ledger, ⟨h.pool.ledger, h.pool.fits⟩, fun i hi hu => ?_, h.defer⟩, h.chain, h.dirty, h.idle⟩,
    h.good, h.gen, h.slot, h.keeps, h.clean⟩
  have hf := h.file i hi hu
  exact ⟨hf.n_le, hf.cap, hf.size_lt, hf.type_lt, hf.name_end, hf.within⟩

theorem Keeps.flag (h : Inv s S) (on : Bool) : Keeps S s (s.flag on) :=
  ⟨h.flag on, le_refl s, rfl, rfl, rfl, Disk.WroteOnly.refl _ _⟩

/-- A mount keeps the committed state it loads. -/
theorem Keeps.of_mounted (hi : Inv s S) (h : Mounted d s S s') (hdev : s.v.dev = d) :
    Keeps S s s' := by
  have hdev' : s'.v.dev = s.v.dev := h.dev.trans hdev.symm
  have hcache : s'.disk.cache = s.disk.cache := by
    rw [St.disk, St.disk, hdev', hdev]
    exact h.ro.cache
  have htot' : s'.v.total = s.v.total := by
    have h1 := h.inv.good.total
    have h2 := hi.good.total
    rw [h.inv.map.total] at h1
    rw [hi.map.total] at h2
    rw [← h1, h2]
  exact ⟨h.inv, h.ro.le, hdev', htot', h.inv.good.ngroups.symm.trans hi.good.ngroups,
    ⟨[], by rw [hcache, List.append_nil], fun _ hw => absurd hw List.not_mem_nil⟩⟩

end Keeps

/-! ## Every state of a run -/

/-- The volume record is about device `d`, which has no faults. -/
structure Attached (d : ℕ) (s : St) : Prop where
  dev : s.v.dev = d
  disk : DiskOk (s.disks d)
  total : s.v.total = volTotal (s.disks d)
  faultless : (s.disks d).Faultless

/-- What holds in every state of a run on device `d` with at most `n` generations made. -/
structure RunInv (d n : ℕ) (s : St) : Prop extends Attached d s where
  gen_le : s.v.gen ≤ n
  inv : ∃ S, Inv s S

section RunInv

variable {op : Op}

theorem DiskOk.later (h : DiskOk D) (hle : D ≤ D') : DiskOk D' := by
  refine ⟨?_, ?_, ?_, ?_⟩
  · rw [hle.sectorSize]; exact h.ss_pos
  · rw [hle.sectorSize]; exact h.ss_dvd
  · rw [volTotal, hle.sectorSize, hle.sectorCount]; exact h.total_min
  · rw [volTotal, hle.sectorSize, hle.sectorCount]; exact h.total_max

theorem volTotal_later (hle : D ≤ D') : volTotal D' = volTotal D := by
  rw [volTotal, volTotal, hle.sectorSize, hle.sectorCount]

theorem Attached.later (h : Attached d s) (hle : s ≤ s') (hdev : s'.v.dev = s.v.dev)
    (htotal : s'.v.total = s.v.total) : Attached d s' := by
  refine ⟨hdev.trans h.dev, h.disk.later (hle d), ?_, h.faultless.later (hle d)⟩
  rw [htotal, h.total, volTotal_later (hle d)]

/-- The device of a run holds its committed state as a mount sees it. -/
theorem Attached.good (h : Attached d s) (hS : Inv s S) :
    Good (geoMap s.v.gm (s.disks d)) (s.disks d).block S := by
  have hdisk : s.disk = s.disks d := by rw [St.disk, h.dev]
  have hgood := hS.good
  rw [hdisk] at hgood
  have htot : s.v.gm.total = volTotal (s.disks d) := hS.map.total.trans h.total
  refine hgood.congr_map hS.map.gb.symm htot.symm ?_
  have hng : s.v.gm.ngroups = (s.v.gm.total + s.v.gm.gb - 1) / s.v.gm.gb := hS.map.map.ngroups_eq
  rw [hng, htot, hS.map.gb]
  rfl

theorem Attached.disk_eq (h : Attached d s) : s.disk = s.disks d := by rw [St.disk, h.dev]

theorem RunInv.disk_faultless (h : RunInv d n s) : s.disk.Faultless := h.disk_eq ▸ h.faultless

/-- **What a call can do.** -/
theorem wp_stepped (h : RunInv d n s) (hS : Inv s S) (op : Op) :
    (op.prog d).wp (fun _ s' => Stepped op S s s') (fun _ s' => Stepped op S s s') s := by
  have hsame : ∀ {op}, Stepped op S s s := .kept (Keeps.refl hS)
  have hstaged : ∀ {op} s', Staged s s' [] (0, 0) → Stepped op S s s' := fun _ hs =>
    .kept (Keeps.of_staged hS hs)
  have hchanged : ∀ {op i} s', Changed i s s' → Stepped op S s s' := fun _ hc =>
    .kept (Keeps.of_changed hS hc)
  have hram := hS.toRamInv
  cases op with
  | create name | mkdir name =>
    rw [Op.prog, wp_bind]
    exact wp_newNode hram (by decide) (fun i s' _ _ _ _ hc _ _ _ => hchanged s' hc) fun _ _ => hsame
  | delete name =>
    rw [Op.prog, wp_bind]
    exact wp_exfsDelete hram (fun i s' _ _ hc _ _ => hchanged s' hc) fun _ => hsame
  | write name buf len =>
    rw [Op.prog, wp_bind]
    exact wp_exfsWrite hram len.toNat_lt (fun i _ s' _ _ hc _ _ _ => hchanged s' hc.toChanged)
      fun _ s' hs => hstaged s' hs
  | writeAt name off buf len =>
    rw [Op.prog, wp_bind]
    exact wp_exfsWriteAt hram off.toNat_lt len.toNat_lt (fun _ _ _ _ => hsame)
      (fun i _ _ s' _ _ _ hc => hchanged s' hc.toChanged) fun _ s' hs => hstaged s' hs
  | readAt name off cap =>
    rw [Op.prog]
    exact wp_exfsReadAt hram (fun _ s' _ _ _ hs => hstaged s' hs) fun _ s' hs _ _ => hstaged s' hs
  | commit =>
    rw [Op.prog, wp_bind]
    exact wp_exfsCommit hram hS.cleanChains h.disk_faultless
      (fun t _ _ hc => .made t t.v.mounted rfl hc rfl)
      (fun _ _ => hsame) fun _ _ => hsame
  | unmount =>
    rw [Op.prog, wp_bind]
    simp only [exfsUnmount, wp_bind, wp_get, wp_failIf]
    refine ⟨fun _ => hsame, fun _ => ?_⟩
    exact wp_exfsCommit hram hS.cleanChains h.disk_faultless
      (fun t _ _ hc => .made t false rfl hc rfl)
      (fun _ _ => .kept (Keeps.flag hS false)) fun _ _ => hsame
  | mount =>
    rw [Op.prog, wp_bind]
    exact wp_exfsMount h.disk h.faultless (h.good hS) fun s' hm => .kept
      (Keeps.of_mounted hS hm h.dev)

theorem stepped (h : RunInv d n s) (hS : Inv s S) (op : Op) : Stepped op S s (stepOp d s op) :=
  (wp_stepped h hS op).state

/-- The superblock of the committed state is older than the next generation. -/
theorem Inv.older (h : Inv s S) (hgen : s.v.gen + 1 < 2 ^ 64) (f : SbFields)
    (hf : sbDecode (s.disk.block (s.v.gen % 2)) = .ok f) : f.gen < nextGen s.v := by
  have hsb := h.good.sb
  rw [← h.gen, hf, Except.ok.injEq] at hsb
  rw [hsb, ← h.gen, nextGen, Nat.mod_eq_of_lt hgen]
  exact Nat.lt_succ_self _

theorem Saved.flag (h : Saved s S) (on : Bool) : Saved (s.flag on) S :=
  ⟨h.held, h.gen, h.slot, h.node⟩

/-- What a commit writes before its superblock is not reached by the state before it. -/
theorem Inv.commitWritable (h : Inv s S) (hw : CommitWritable s b) :
    2 ≤ b ∧ ¬ Protected s.v.gm S b := by
  rcases hw with hw | hw
  · exact h.writable hw
  · have hlow := hw.low
    refine ⟨hlow.1, fun hp => ?_⟩
    rcases hp with hp | hp | ⟨g, _, hp⟩ | hp
    · have := Nat.mod_lt S.sb.gen (by decide : 0 < 2)
      omega
    · -- the two generations use different areas
      have hmod := nextGen_mod s.v
      rw [InArea, itabArea, hmod] at hw
      rw [itabArea, ← h.gen] at hp
      simp only [itabArea0, itabArea1, itabBlocks] at hw hp
      split at hw <;> split at hp <;> omega
    · exact h.map.slotBlock_ne hlow.2 hp.symm
    · exact h.toVolInv.ne_low (h.keeps b hp) hlow.2 rfl

/-- The superblock a commit writes is not the one of the state before it. -/
theorem Inv.protected_ne_next (h : Inv s S) (hp : Protected s.v.gm S b) : b ≠ nextGen s.v % 2 := by
  have hlow : nextGen s.v % 2 < 2 := Nat.mod_lt _ (by decide)
  have harea := (itabArea_le S.sb.gen).1
  rcases hp with hp | hp | ⟨g, _, hp⟩ | hp
  · rw [hp, nextGen_mod, h.gen]
    omega
  · omega
  · rw [hp]
    exact h.map.slotBlock_ne (mod_two_lt _)
  · exact h.toVolInv.ne_low (h.keeps _ hp) (mod_two_lt _)

/-- A generation that was made is the committed state of what follows. -/
theorem Committed.saved_inv (hc : Committed s t) (hS : Inv s S) (hgen : s.v.gen + 1 < 2 ^ 64)
    (on : Bool) : ∃ S', Inv (t.flag on) S' ∧ Saved (t.flag on) S' := by
  obtain ⟨S', hinv, hsaved⟩ := hc.inv hS.map (hS.older hgen)
  exact ⟨S', hinv.flag on, hsaved.flag on⟩

theorem RunInv.mono {m : ℕ} (h : RunInv d n s) (hm : n ≤ m) : RunInv d m s :=
  ⟨h.toAttached, le_trans h.gen_le hm, h.inv⟩

theorem RunInv.kept (h : RunInv d n s) (hS : Inv s S) (hk : Keeps S s s') : RunInv d n s' := by
  refine ⟨h.toAttached.later hk.le hk.dev hk.total, ?_, S, hk.inv⟩
  rw [hk.inv.gen, ← hS.gen]
  exact h.gen_le

theorem RunInv.made {on : Bool} (h : RunInv d n s) (hS : Inv s S) (hc : Committed s t)
    (hn : n + 1 < 2 ^ 64) : RunInv d (n + 1) (t.flag on) := by
  have hgen : s.v.gen + 1 < 2 ^ 64 := lt_of_le_of_lt (Nat.succ_le_succ h.gen_le) hn
  obtain ⟨S', hinv, _⟩ := hc.saved_inv hS hgen on
  have hatt : Attached d (t.flag on) := h.toAttached.later hc.le hc.dev hc.total
  refine ⟨hatt, ?_, S', hinv⟩
  have hnext : (t.flag on).v.gen = nextGen s.v := hc.gen
  rw [hnext, nextGen, Nat.mod_eq_of_lt hgen]
  exact Nat.succ_le_succ h.gen_le

/-- **A step of a run.** -/
theorem RunInv.step (h : RunInv d n s) (hn : n + commits [op] < 2 ^ 64) :
    RunInv d (n + commits [op]) (stepOp d s op) := by
  obtain ⟨S, hS⟩ := h.inv
  rcases stepped h hS op with hk | ⟨t, on, hop, hc, hs⟩
  · exact (h.kept hS hk).mono (Nat.le_add_right _ _)
  · have hone : commits [op] = 1 := by simp [commits, hop]
    rw [hone] at hn ⊢
    rw [hs]
    exact h.made hS hc hn

/-- **Every state of a run.** -/
theorem RunInv.run (h : RunInv d n s) (hn : n + commits ops < 2 ^ 64) :
    RunInv d (n + commits ops) (runOps d s ops) := by
  induction ops generalizing s n with
  | nil => exact h
  | cons op ops ih =>
    have hsplit := commits_cons op ops
    rw [hsplit, ← Nat.add_assoc] at hn ⊢
    exact ih (h.step (by omega)) hn

/-- A run starts where `exfs_format` has committed a fresh volume. -/
theorem Start.committed (h : Start d s) : ∃ s₀ e, (s₀.disks d).Faultless ∧
    (∀ b < 2, ∀ f, sbDecode ((s₀.disks d).block b) ≠ .ok f) ∧ DiskOk (s₀.disks d) ∧
    Fresh d s₀ freshDirs.length e ∧ Committed e s := by
  obtain ⟨s₀, hf, hnone, hrun⟩ := h.format
  have hwp := wp_exfsFormat (E := fun _ _ => True) hf (Q := fun _ s' => ∃ e, DiskOk (s₀.disks d) ∧
    Fresh d s₀ freshDirs.length e ∧ Committed e s') (fun e s' h1 h2 h3 => ⟨e, h1, h2, h3⟩)
    fun _ _ _ => trivial
  obtain ⟨e, hd, he, hc⟩ := hwp.ok hrun
  exact ⟨s₀, e, hf, hnone, hd, he, hc⟩

/-- A run starts with the four directories. -/
theorem Start.node (h : Start d s) (hi : i < inodes) : nodeOf s.v i = freshNode i := by
  obtain ⟨s₀, e, _, _, _, he, hc⟩ := h.committed
  exact he.committed_node hc hi

/-- A run starts mounted, at generation 1, with nothing to commit. -/
theorem Start.fresh (h : Start d s) : s.v.gen = 1 ∧ s.v.mounted = true ∧ s.v.dirty = false := by
  obtain ⟨s₀, e, _, _, _, he, hc⟩ := h.committed
  exact ⟨by rw [hc.gen, nextGen, he.gen]; rfl,
    (congrArg VolCore.mounted hc.core).trans he.mounted, congrArg VolCore.dirty hc.core⟩

/-- A run starts over the state `exfs_format` committed. -/
theorem Start.saved (h : Start d s) : RunInv d 1 s ∧ ∃ S, Inv s S ∧ Saved s S := by
  obtain ⟨s₀, e, hf, hnone, hd, he, hc⟩ := h.committed
  have hlow : e.disk.block 0 = (s₀.disks d).block 0 := by
    refine he.wrote.block_eq he.disk_le fun hw => ?_
    obtain ⟨g, _, hg⟩ := hw
    exact he.ram.map.slotBlock_ne (c := 0) (by decide) hg.symm
  have hle : s₀ ≤ s := le_trans he.le hc.le
  have hat : Attached d s := by
    refine ⟨hc.dev.trans he.dev, hd.later (hle d), ?_, hf.later (hle d)⟩
    rw [hc.total, he.total, volTotal_later (hle d)]
  obtain ⟨S, hinv, hsaved⟩ := hc.inv he.ram.map fun f hdec => by
    rw [he.gen, hlow] at hdec
    exact absurd hdec (hnone 0 (by decide) f)
  exact ⟨⟨hat, h.fresh.1.le, S, hinv⟩, S, hinv, hsaved⟩

/-- A commit of a fresh volume has nothing to do. -/
theorem Start.commit (h : Start d s) : exfsCommit.run s = (.ok (), s) := by
  obtain ⟨_, hmounted, hdirty⟩ := h.fresh
  obtain ⟨hrun, S, hinv, _⟩ := h.saved
  have hwp : exfsCommit.wp (fun _ s' => s' = s) (fun _ _ => False) s := by
    refine wp_exfsCommit hinv.toRamInv hinv.cleanChains hrun.disk_faultless (fun _ _ hd _ => ?_)
      (fun _ _ => rfl)
      fun _ hfail => ?_
    · rw [hdirty] at hd
      exact absurd hd (by simp)
    · rw [hmounted, hdirty] at hfail
      simp at hfail
  obtain ⟨_, s', hrun, rfl⟩ := hwp.exists_ok
  exact hrun

/-- **Every state of a run** that starts with a format. -/
theorem Start.run (h : Start d s) (hn : commits ops + 1 < 2 ^ 64) :
    RunInv d (1 + commits ops) (runOps d s ops) :=
  h.saved.1.run (by omega)

/-- A new file directly below the root can be created in a fresh volume. -/
theorem Start.create (h : Start d s) {name : CStr} (hok : nameOk name.bytes = true)
    (hroot : lastPipe name.bytes = 0) (hnew : name.bytes ∉ freshDirs) :
    ∃ s' i, (exfsCreate name).run s = (.ok (), s') ∧ i < inodes ∧ nodeOf s.v i = none ∧
      Changed i s s' ∧
      nodeOf s'.v i = some ⟨typeFile, 0, name.bytes, [], []⟩ ∧ s'.disks = s.disks ∧
      s'.v.core = { s.v.core with dirty := true } ∧ find s'.v name.bytes = some i := by
  obtain ⟨_, S, hinv, _⟩ := h.saved
  have hother : ∀ i < inodes, ∀ f, nodeOf s.v i = some f → f.name ≠ name.bytes := by
    intro i hi f hf hname
    rw [h.node hi, freshNode] at hf
    obtain ⟨dir, hdir, rfl⟩ := Option.map_eq_some_iff.mp hf
    exact absurd (hname ▸ List.mem_of_getElem? hdir) hnew
  have hfind : find s.v name.bytes = none := by
    rw [find_eq hinv.toVolInv name.no_nul]
    exact findNode_none hother
  have hwp := wp_newNode (E := fun _ _ => False) hinv.toRamInv (by decide)
    (Q := fun _ s' => ∃ i < inodes, nodeOf s.v i = none ∧ Changed i s s' ∧
      nodeOf s'.v i = some ⟨typeFile, 0, name.bytes, [], []⟩ ∧ s'.disks = s.disks ∧
      s'.v.core = { s.v.core with dirty := true })
    (fun i s' hi _ _ hn hc hnode hd hcore => ⟨i, hi, hn, hc, hnode, hd, hcore⟩) fun e hfail => ?_
  · obtain ⟨_, s', hrun, i, hi, hn, hc, hnode, hd, hcore⟩ := hwp.exists_ok
    refine ⟨s', i, hrun, hi, hn, hc, hnode, hd, hcore, ?_⟩
    rw [find_eq hc.inv.toVolInv name.no_nul]
    exact findNode_of_node hi hnode rfl fun j hj hji f hf => hother j hj f
      (by rw [← hc.other j hj hji]; exact hf)
  · rcases hfail with hm | hn | hs | hp | hfull
    · rw [h.fresh.2.1] at hm
      exact absurd hm (by simp)
    · rw [hok] at hn
      exact absurd hn (by simp)
    · rw [hfind] at hs
      exact absurd hs (by simp)
    · rw [parentOk, if_pos hroot] at hp
      exact absurd hp (by simp)
    · have hlt : freshDirs.length < inodes := by decide
      have hnone : nodeOf s.v freshDirs.length = none := by
        rw [h.node hlt, freshNode, List.getElem?_eq_none le_rfl]
        rfl
      exact hfull _ hlt hnone

/-- A run only adds to the history of the devices. -/
theorem le_runOps (d : ℕ) (s : St) (ops : List Op) : s ≤ runOps d s ops := by
  induction ops generalizing s with
  | nil => exact le_refl s
  | cons op ops ih => exact le_trans ((op.prog d).le_run s) (ih _)

end RunInv

/-! ## A blank device -/

/-- The record before the first call: static data, all zero. -/
def bootVol : Vol where
  dev := 0
  gmDev := 0
  spb := 0
  total := 0
  gen := 0
  itabStart := 0
  mounted := false
  broken := false
  dirty := false
  gm := ⟨0, 0, 0, 0, fun _ => 0, fun _ => false, fun _ => 0,
    fun _ => ⟨fun _ => 0, 0, false, false, 0⟩, 0⟩
  hint := 0
  files _ := ⟨false, 0, 0, fun _ => 0, 0, 0, 0, 0, fun _ => 0, false⟩
  pool _ := ⟨0, 0⟩
  poolUsed _ := false
  defer := []

/-- The state before the first call, with blank devices. -/
def blank : St := ⟨fun _ => blankDisk, bootVol⟩

theorem sbDecode_zero (f : SbFields) : sbDecode (fun _ => 0) ≠ .ok f := by
  have hbad : (match sbDecode fun _ => 0 with | .ok _ => true | .error _ => false) =
    false := by decide
  intro h
  rw [h] at hbad
  exact absurd hbad (by simp)

theorem blank_diskOk : DiskOk (blank.disks 0) := by
  have htotal : volTotal (blank.disks 0) = 34 := by
    norm_num [volTotal, blank, blankDisk, blockBytes]
  refine ⟨by decide, by norm_num [blank, blankDisk, blockBytes], ?_, ?_⟩
  · rw [htotal]
    decide
  · rw [htotal, maxBlocks]
    norm_num [maxGroups, groupMax]

/-- A blank device can be formatted. -/
theorem exists_start : ∃ s, Start 0 s := by
  have hf : (blank.disks 0).Faultless := fun _ _ => rfl
  obtain ⟨s, hrun⟩ := exists_format hf blank_diskOk
  exact ⟨s, blank, hf, fun b _ f => sbDecode_zero f, hrun⟩

/-- The name `|a`. -/
def nameA : CStr := ⟨[0x7C, 0x61], by simp⟩

end Xasmos.Exfs
