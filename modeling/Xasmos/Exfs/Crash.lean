import Xasmos.Exfs.RoundTrip

/-!
# Crash atomicity on an in-order device

The writes since generation `N` was made reach the device in order, up to a cut; the write
at the cut may leave anything in its own block.  Whatever the committed state reaches is
not written before the superblock of `N + 1`, so a mount finds generation `N` up to there
and generation `N + 1` from there on, and never anything else.

## Main definitions

* `Cut` — the content a power cut leaves.
* `Made` — a state in which a generation has just been made.
-/

namespace Xasmos.Exfs

open Bytes

variable {D D' : Disk} {S : Snap} {b d k n : ℕ} {before mid : List Op} {c c' : ℕ → Bytes}
  {s s₀ t x : St}

/-- The content `c'` a cut of the writes `L` after the first `k` leaves of `c`.  The write
in flight may leave any bytes in its block, but a torn superblock does not decode. -/
inductive Cut (L : List (ℕ × Bytes)) (k : ℕ) (c : ℕ → Bytes) : (ℕ → Bytes) → Prop where
  | clean : Cut L k c (replay (L.take k) c)
  | torn (w : ℕ × Bytes) (p : Bytes) (hw : L[k]? = some w)
    (hp : w.1 < 2 → ∀ f, sbDecode p ≠ .ok f) :
      Cut L k c (Function.update (replay (L.take k) c) w.1 p)

/-- A power cut leaves device `D'` of `D`: the same geometry, the content `c`, and no fault. -/
structure CrashedTo (D D' : Disk) (c : ℕ → Bytes) : Prop where
  sectorSize : D'.sectorSize = D.sectorSize
  sectorCount : D'.sectorCount = D.sectorCount
  faultless : D'.Faultless
  block : D'.block = c

theorem CrashedTo.volTotal (h : CrashedTo D D' c) : volTotal D' = volTotal D := by
  rw [Exfs.volTotal, Exfs.volTotal, h.sectorSize, h.sectorCount]

theorem CrashedTo.diskOk (h : CrashedTo D D' c) (hd : DiskOk D) : DiskOk D' := by
  refine ⟨?_, ?_, ?_, ?_⟩
  · rw [h.sectorSize]; exact hd.ss_pos
  · rw [h.sectorSize]; exact hd.ss_dvd
  · rw [h.volTotal]; exact hd.total_min
  · rw [h.volTotal]; exact hd.total_max

/-- After the calls `before` a generation has just been made, by the format or by the last
call. -/
def Made (d : ℕ) (s₀ : St) (before : List Op) : Prop :=
  before = [] ∨ ∃ pre op, before = pre ++ [op] ∧
    (runOps d s₀ before).v.gen ≠ (runOps d s₀ pre).v.gen

/-- No call of `mid` makes a generation. -/
def Quiet (d : ℕ) (s : St) (mid : List Op) : Prop :=
  ∀ k ≤ mid.length, (runOps d s (mid.take k)).v.gen = s.v.gen

section Content

variable {L : List (ℕ × Bytes)}

/-- Writes that stay away from what `S` reaches leave it on the device, with the other
superblock as it was or not decodable. -/
theorem Inv.good_of_writes (h : Inv s S) (hc : ∀ b, Protected s.v.gm S b → c b = s.disk.block b)
    (hother : c ((S.sb.gen + 1) % 2) = s.disk.block ((S.sb.gen + 1) % 2) ∨
      ∀ f, sbDecode (c ((S.sb.gen + 1) % 2)) ≠ .ok f) : Good s.v.gm c S := by
  refine h.good.frame hc (fun f hf => ?_) fun b hb => h.map.group_lt hb
  rcases hother with he | hne
  · rw [he] at hf
    exact h.good.other f hf
  · exact absurd hf (hne f)

/-- A cut among writes that stay away from what `S` reaches. -/
theorem Inv.good_of_cut (h : Inv s S) (hcut : Cut L k s.disk.block c)
    (hL : ∀ w ∈ L.take k, 2 ≤ w.1 ∧ ¬ Protected s.v.gm S w.1)
    (hw : ∀ w, L[k]? = some w → ¬ Protected s.v.gm S w.1 ∧ (2 ≤ w.1 ∨ w.1 = (S.sb.gen + 1) % 2)) :
    Good s.v.gm c S ∧ ∀ b, Protected s.v.gm S b → c b = s.disk.block b := by
  have hrep : ∀ b, b < 2 ∨ Protected s.v.gm S b →
      replay (L.take k) s.disk.block b = s.disk.block b := by
    intro b hb
    refine replay_of_forall_ne fun w hmem he => ?_
    obtain ⟨h1, h2⟩ := hL w hmem
    rw [he] at h1 h2
    rcases hb with hb | hb
    · omega
    · exact h2 hb
  have hlt : (S.sb.gen + 1) % 2 < 2 := Nat.mod_lt _ (by decide)
  cases hcut with
  | clean =>
    exact ⟨h.good_of_writes (fun b hb => hrep b (Or.inr hb)) (Or.inl (hrep _ (Or.inl hlt))),
      fun b hb => hrep b (Or.inr hb)⟩
  | torn w p hk hp =>
    obtain ⟨hnot, hplace⟩ := hw w hk
    have hkeep : ∀ b, Protected s.v.gm S b →
        Function.update (replay (L.take k) s.disk.block) w.1 p b = s.disk.block b := by
      intro b hb
      have hne : b ≠ w.1 := fun he => hnot (by rw [← he]; exact hb)
      rw [Function.update_of_ne hne]
      exact hrep b (Or.inr hb)
    refine ⟨h.good_of_writes hkeep ?_, hkeep⟩
    by_cases he : (S.sb.gen + 1) % 2 = w.1
    · right
      rw [he, Function.update_self]
      exact hp (he ▸ hlt)
    · left
      rw [Function.update_of_ne he]
      exact hrep _ (Or.inl hlt)

end Content

section Mount

/-- **A mount of what a cut left** shows the committed state it holds. -/
theorem mount_crashed (h : RunInv d n s) (hS : Inv s S)
    (hnode : ∀ i < inodes, nodeOf s.v i = S.node i) (hx : CrashedTo (s.disks d) (x.disks d) c)
    (hgood : Good s.v.gm c S) (hkeep : ∀ b, Protected s.v.gm S b → c b = s.disk.block b) :
    ∃ y, (exfsMount d).run x = (.ok (), y) ∧ view y = view s ∧ y.v.gen = s.v.gen := by
  have htot : s.v.gm.total = volTotal (x.disks d) :=
    hS.map.total.trans (h.total.trans hx.volTotal.symm)
  have hng : s.v.gm.ngroups = (s.v.gm.total + s.v.gm.gb - 1) / s.v.gm.gb := hS.map.map.ngroups_eq
  have hgood' : Good (geoMap x.v.gm (x.disks d)) (x.disks d).block S := by
    rw [hx.block]
    refine hgood.congr_map hS.map.gb.symm htot.symm ?_
    rw [hng, htot, hS.map.gb]
    rfl
  have hmount := wp_exfsMount (hx.diskOk h.disk) hx.faultless hgood'
    (Q := fun _ y => Mounted d x S y)
    (E := fun _ _ => False) fun _ hm => hm
  obtain ⟨_, y, hrun, hm⟩ := hmount.exists_ok
  refine ⟨y, hrun, ?_, hm.inv.gen.trans hS.gen.symm⟩
  have hset := hm.settled
  have hyb : y.disk.block = c := by
    rw [St.disk, hm.dev, hm.ro.block, hx.block]
  rw [view, view]
  refine viewOf_congr (fun i hi => (hset.node i hi).trans (hnode i hi).symm) fun b hb => ?_
  rw [hyb]
  refine hkeep b (Or.inr (Or.inr (Or.inr ?_)))
  rwa [tableOwn_congr hnode] at hb

end Mount

/-! ## Every cut of a transaction -/

section Atomic

/-- A state in which a generation has just been made is over that generation. -/
theorem Made.saved (h : Made d s₀ before) (hstart : Start d s₀) (hn : commits before + 1 < 2 ^ 64) :
    ∃ S, Inv (runOps d s₀ before) S ∧ Saved (runOps d s₀ before) S := by
  rcases h with rfl | ⟨pre, op, rfl, hgen⟩
  · exact hstart.saved.2
  · have hcount : commits (pre ++ [op]) = commits pre + commits [op] := List.countP_append
    have hpre : RunInv d (1 + commits pre) (runOps d s₀ pre) := hstart.run (by omega)
    obtain ⟨S, hS⟩ := hpre.inv
    have hstep : runOps d s₀ (pre ++ [op]) = stepOp d (runOps d s₀ pre) op := by
      rw [runOps_append]
      rfl
    rw [hstep] at hgen ⊢
    rcases stepped hpre hS op with hk | ⟨t, on, hop, hc, hs⟩
    · exact absurd (hk.inv.gen.trans hS.gen.symm) hgen
    · have hone : commits [op] = 1 := by simp [commits, hop]
      have hlt : (runOps d s₀ pre).v.gen + 1 < 2 ^ 64 := by
        have := hpre.gen_le
        omega
      rw [hs]
      exact hc.saved_inv hS hlt on

/-- Calls that make no generation keep the committed state. -/
theorem Quiet.keeps (hq : Quiet d s mid) (h : RunInv d n s) (hS : Inv s S)
    (hn : n + commits mid < 2 ^ 64) : Keeps S s (runOps d s mid) := by
  induction mid generalizing s n with
  | nil => exact Keeps.refl hS
  | cons op mid ih =>
    have hcount : commits ([op] ++ mid) = commits [op] + commits mid := List.countP_append
    rw [List.singleton_append] at hcount
    have hgen : (stepOp d s op).v.gen = s.v.gen := hq 1 (by simp)
    have hk : Keeps S s (stepOp d s op) := by
      rcases stepped h hS op with hk | ⟨t, on, hop, hc, hs⟩
      · exact hk
      · have hone : commits [op] = 1 := by simp [commits, hop]
        have hle := h.gen_le
        have h1 : (t.flag on).v.gen = nextGen s.v := hc.gen
        rw [hs, h1, nextGen, Nat.mod_eq_of_lt (by omega)] at hgen
        omega
    refine hk.trans (ih (s := stepOp d s op) (fun k hk' => ?_) (h.step (by omega)) hk.inv
      (by omega)) hS.map
    rw [hgen]
    exact hq (k + 1) (Nat.succ_le_succ hk')

/-- **Crash atomicity.**  Take a run of fewer than `2 ^ 64 - 1` commits in which a generation
was just made after the calls `before`, then calls `mid` that make no generation, and a
commit.  A mount of what any cut of the writes since then leaves shows the committed state
if the cut is before the superblock, and the state after the commit otherwise. -/
theorem run_crash_atomic (s₀ : St) (before mid : List Op) (hstart : Start d s₀)
    (hn : commits (before ++ mid ++ [.commit]) + 1 < 2 ^ 64) (hmade : Made d s₀ before)
    (hquiet : Quiet d (runOps d s₀ before) mid) (L : List (ℕ × Bytes))
    (hL : ((runOps d s₀ (before ++ mid ++ [.commit])).disks d).cache =
      ((runOps d s₀ before).disks d).cache ++ L)
    (k : ℕ) (c : ℕ → Bytes) (hcut : Cut L k ((runOps d s₀ before).disks d).block c) (x : St)
    (hx : CrashedTo ((runOps d s₀ before).disks d) (x.disks d) c) :
    ∃ y, (exfsMount d).run x = (.ok (), y) ∧
      if ∃ w ∈ L.take k, w.1 < 2 then
        view y = view (runOps d s₀ (before ++ mid ++ [.commit])) ∧
          y.v.gen = (runOps d s₀ before).v.gen + 1
      else view y = view (runOps d s₀ before) ∧ y.v.gen = (runOps d s₀ before).v.gen := by
  have hcount : commits (before ++ mid ++ [.commit]) = commits before + commits mid + 1 := by
    rw [commits, List.countP_append, List.countP_append]
    rfl
  set a := runOps d s₀ before with ha
  set t := runOps d a mid with ht
  have hu : runOps d s₀ (before ++ mid ++ [.commit]) = stepOp d t .commit := by
    rw [runOps_append, runOps_append]
    rfl
  rw [hu] at hL ⊢
  obtain ⟨S, hS, hsaved⟩ := hmade.saved hstart (by omega)
  have hrun : RunInv d (1 + commits before) a := hstart.run (by omega)
  have hdisk : a.disk = a.disks d := by rw [St.disk, hrun.dev]
  have hkeep : Keeps S a t := hquiet.keeps hrun hS (by omega)
  have hrun' : RunInv d (1 + commits before + commits mid) t := hrun.run (by omega)
  have hprot : Protected t.v.gm S = Protected a.v.gm S :=
    protected_congr (by rw [hkeep.inv.map.gb, hS.map.gb]) hkeep.ngroups
  rw [← hdisk] at hcut
  -- a cut before the superblock
  have hbefore : (∀ w ∈ L.take k, 2 ≤ w.1 ∧ ¬ Protected a.v.gm S w.1) →
      (∀ w, L[k]? = some w → ¬ Protected a.v.gm S w.1 ∧ (2 ≤ w.1 ∨ w.1 = (S.sb.gen + 1) % 2)) →
      ∃ y, (exfsMount d).run x = (.ok (), y) ∧
        if ∃ w ∈ L.take k, w.1 < 2 then
          view y = view (stepOp d t .commit) ∧ y.v.gen = a.v.gen + 1
        else view y = view a ∧ y.v.gen = a.v.gen := by
    intro h1 h2
    obtain ⟨hgood, hsame⟩ := hS.good_of_cut hcut h1 h2
    obtain ⟨y, hy, hview, hgen⟩ := mount_crashed hrun hS hsaved.node hx hgood hsame
    refine ⟨y, hy, ?_⟩
    rw [if_neg]
    · exact ⟨hview, hgen⟩
    · rintro ⟨w, hw, hlt⟩
      exact absurd (h1 w hw).1 (by omega)
  obtain ⟨L₁, hL₁, hmid⟩ := hkeep.wrote
  rcases stepped hrun' hkeep.inv .commit with hk | ⟨u, on, _, hc, hs⟩
  · -- the commit made no generation, so nothing that was written matters
    obtain ⟨ws, hws, hall⟩ := (hkeep.trans hk hS.map).wrote
    have hdev : (stepOp d t .commit).disk = (stepOp d t .commit).disks d := by
      rw [St.disk, hk.dev, hrun'.dev]
    rw [hdev, hL, hdisk] at hws
    obtain rfl := List.append_cancel_left hws
    exact hbefore (fun w hw => hall w (List.mem_of_mem_take hw)) fun w hw =>
      ⟨(hall w (List.mem_of_getElem? hw)).2, Or.inl (hall w (List.mem_of_getElem? hw)).1⟩
  · obtain ⟨ws, page, hcache, hws⟩ := hc.wrote
    have hlt : t.v.gen + 1 < 2 ^ 64 := by
      have := hrun'.gen_le
      omega
    have hgenS : t.v.gen = S.sb.gen := hkeep.inv.gen
    have hnext : nextGen t.v = t.v.gen + 1 := Nat.mod_eq_of_lt hlt
    have hdev : u.disk = (stepOp d t .commit).disks d := by
      rw [hs, St.disk, hc.dev, hrun'.dev]
      rfl
    have hLeq : L = L₁ ++ ws ++ [(nextGen t.v % 2, page)] := by
      rw [hdev, hL, hL₁, hdisk, List.append_assoc, List.append_assoc] at hcache
      rw [List.append_cancel_left hcache, List.append_assoc]
    have hall : ∀ w ∈ L₁ ++ ws, 2 ≤ w.1 ∧ ¬ Protected a.v.gm S w.1 := by
      intro w hw
      rcases List.mem_append.mp hw with hw | hw
      · exact hmid w hw
      · rw [← hprot]
        exact hkeep.inv.commitWritable (hws w hw)
    by_cases hk : k < L.length
    · -- the first `k` writes do not reach the superblock
      have hklen : k ≤ (L₁ ++ ws).length := by
        rw [hLeq, List.length_append, List.length_singleton] at hk
        omega
      have htake : L.take k = (L₁ ++ ws).take k := by rw [hLeq, List.take_append_of_le_length hklen]
      refine hbefore (fun w hw => ?_) fun w hw => ?_
      · rw [htake] at hw
        exact hall w (List.mem_of_mem_take hw)
      · have hmem := List.mem_of_getElem? hw
        rw [hLeq] at hmem
        rcases List.mem_append.mp hmem with hmem | hmem
        · exact ⟨(hall w hmem).2, Or.inl (hall w hmem).1⟩
        · rw [List.mem_singleton] at hmem
          subst hmem
          have hsb : nextGen t.v % 2 = (S.sb.gen + 1) % 2 := by rw [hnext, hgenS]
          exact ⟨fun hp => hkeep.inv.protected_ne_next (hprot ▸ hp) rfl, Or.inr hsb⟩
    · -- everything was written
      have hfull : L.take k = L := List.take_of_length_le (not_lt.mp hk)
      obtain ⟨S', hinv, hsaved'⟩ := hc.saved_inv hkeep.inv hlt on
      rw [← hs] at hinv hsaved'
      have hend : RunInv d (1 + commits before + commits mid + 1) (stepOp d t .commit) :=
        @RunInv.step _ _ _ .commit hrun' (by rw [show commits [Op.commit] = 1 from rfl]; omega)
      have hcontent : c = (stepOp d t .commit).disk.block := by
        have hrep : replay L a.disk.block = (stepOp d t .commit).disk.block := by
          have hd' : (stepOp d t .commit).disk = (stepOp d t .commit).disks d := by
            rw [St.disk, hend.dev]
          have hstable : ((stepOp d t .commit).disks d).stable = (a.disks d).stable :=
            (le_trans (hkeep.le d) ((Op.commit.prog d).le_run t d)).stable
          rw [hd', Disk.block, Disk.block, hL, hstable, hdisk, replay_append]
        cases hcut with
        | clean => rw [hfull, hrep]
        | torn w p hw _ =>
          rw [List.getElem?_eq_none (not_lt.mp hk)] at hw
          exact absurd hw (by simp)
      have hgeo : CrashedTo ((stepOp d t .commit).disks d) (x.disks d) c := by
        have hle : a.disks d ≤ (stepOp d t .commit).disks d :=
          le_trans (hkeep.le d) ((Op.commit.prog d).le_run t d)
        exact ⟨hx.sectorSize.trans hle.sectorSize.symm, hx.sectorCount.trans hle.sectorCount.symm,
          hx.faultless, hx.block⟩
      obtain ⟨y, hy, hview, hgen⟩ := mount_crashed hend hinv hsaved'.node hgeo
        (hcontent ▸ hinv.good) fun b _ => by rw [hcontent]
      refine ⟨y, hy, ?_⟩
      rw [if_pos]
      · refine ⟨hview, ?_⟩
        rw [hgen, hs]
        have h1 : (u.flag on).v.gen = nextGen t.v := hc.gen
        rw [h1, hnext, hgenS, hS.gen]
      · exact ⟨(nextGen t.v % 2, page), by rw [hfull, hLeq]; simp, Nat.mod_lt _ (by decide)⟩

/-- A device with any content is what some cut leaves. -/
theorem exists_crashed (D : Disk) (c : ℕ → Bytes) : ∃ x : St, CrashedTo D (x.disks d) c :=
  ⟨⟨fun _ => { D with stable := c, cache := [], fault := fun _ _ => .done }, bootVol⟩, rfl, rfl,
    fun _ _ => rfl, rfl⟩

/-- The file `|a` was committed with one byte and is written again with two.  The commit is cut
right before its superblock, and right after it. -/
theorem run_crash_atomic_rewritten : ∃ s₀ L x₁ x₂ y₁ y₂, Start 0 s₀ ∧
    let a := runOps 0 s₀ savedOps
    let u := runOps 0 s₀ (savedOps ++ rewriteOps ++ [.commit])
    (u.disks 0).cache = (a.disks 0).cache ++ L ∧
    CrashedTo (a.disks 0) (x₁.disks 0) (replay (L.take (L.length - 1)) (a.disks 0).block) ∧
    (exfsMount 0).run x₁ = (.ok (), y₁) ∧ view y₁ = view a ∧ y₁.v.gen = 2 ∧
    CrashedTo (a.disks 0) (x₂.disks 0) (replay (L.take L.length) (a.disks 0).block) ∧
    (exfsMount 0).run x₂ = (.ok (), y₂) ∧ view y₂ = view u ∧ y₂.v.gen = 3 ∧
    (view a nameA.bytes).map Entry.size = some 1 ∧
      (view u nameA.bytes).map Entry.size = some 2 := by
  obtain ⟨s₀, i, b, b', h⟩ := exists_rewritten
  obtain ⟨u, hcommit, hu⟩ := h.again.commit (by simp [inlineExt]) h.again_dirty (by decide)
  have hrun : runOps 0 s₀ (savedOps ++ rewriteOps ++ [.commit]) = u := by
    rw [runOps_append]
    exact stepOp_commit hcommit
  have hmade : Made 0 s₀ savedOps := by
    refine Or.inr ⟨fillOps, .commit, rfl, ?_⟩
    rw [h.saved.gen, h.filled.gen]
    decide
  have hquiet : Quiet 0 (runOps 0 s₀ savedOps) rewriteOps := by
    intro k hk
    rcases Nat.le_one_iff_eq_zero_or_eq_one.mp hk with rfl | rfl
    · rfl
    · rw [← runOps_append]
      exact h.again.gen.trans h.saved.gen.symm
  obtain ⟨S, hS, _⟩ := hmade.saved h.start (by decide)
  have hkeep := hquiet.keeps (h.start.run (by decide)) hS (by decide)
  rw [← runOps_append] at hkeep
  obtain ⟨L₁, hL₁, hmid⟩ := hkeep.wrote
  obtain ⟨ws, page, hws, hlow⟩ : ∃ ws page, u.disk.cache =
      (runOps 0 s₀ (savedOps ++ rewriteOps)).disk.cache ++ ws ++ [(1, page)] ∧ ∀ w ∈ ws,
      2 ≤ w.1 := by
    have hstep : stepOp 0 (runOps 0 s₀ (savedOps ++ rewriteOps)) .commit = u :=
      stepOp_commit hcommit
    rcases stepped h.again.run hkeep.inv .commit with hk | ⟨t, on, _, hc, hs⟩
    · rw [hstep] at hk
      have := hk.inv.gen.trans hkeep.inv.gen.symm
      rw [hu.gen, h.again.gen] at this
      exact absurd this (by decide)
    · obtain ⟨ws, page, hcache, hlow⟩ := hc.wrote
      rw [hstep] at hs
      rw [nextGen, h.again.gen] at hcache
      exact ⟨ws, page, by rw [hs]; exact hcache,
        fun w hw => (hkeep.inv.commitWritable (hlow w hw)).1⟩
  have hL : (u.disks 0).cache =
      ((runOps 0 s₀ savedOps).disks 0).cache ++ (L₁ ++ ws ++ [(1, page)]) := by
    have h0 : u.disk = u.disks 0 := hu.run.disk_eq
    have h1 : (runOps 0 s₀ savedOps).disk = (runOps 0 s₀ savedOps).disks 0 := h.saved.run.disk_eq
    rw [← h0, hws, hL₁, h1, List.append_assoc, List.append_assoc, List.append_assoc]
  obtain ⟨x₁, hx₁⟩ := exists_crashed ((runOps 0 s₀ savedOps).disks 0) (replay
    ((L₁ ++ ws ++ [(1, page)]).take ((L₁ ++ ws ++ [(1, page)]).length - 1))
    ((runOps 0 s₀ savedOps).disks 0).block)
  obtain ⟨x₂, hx₂⟩ := exists_crashed ((runOps 0 s₀ savedOps).disks 0) (replay
    ((L₁ ++ ws ++ [(1, page)]).take (L₁ ++ ws ++ [(1, page)]).length)
    ((runOps 0 s₀ savedOps).disks 0).block)
  have hcuts := run_crash_atomic s₀ savedOps rewriteOps h.start (by decide) hmade hquiet
    (L₁ ++ ws ++ [(1, page)]) (by rw [hrun]; exact hL)
  obtain ⟨y₁, hy₁, hview₁⟩ := hcuts _ _ .clean x₁ hx₁
  obtain ⟨y₂, hy₂, hview₂⟩ := hcuts _ _ .clean x₂ hx₂
  rw [List.length_append, List.length_singleton, Nat.add_sub_cancel, List.take_left, if_neg (by
    rintro ⟨w, hw, hlt⟩
    rcases List.mem_append.mp hw with hw | hw
    · exact absurd (hmid w hw).1 (not_le.mpr hlt)
    · exact absurd (hlow w hw) (not_le.mpr hlt)), h.saved.gen] at hview₁
  rw [List.take_length, if_pos ⟨(1, page), by simp, Nat.one_lt_two⟩, h.saved.gen, hrun] at hview₂
  refine ⟨s₀, L₁ ++ ws ++ [(1, page)], x₁, x₂, y₁, y₂, h.start, ?_⟩
  simp only [hrun]
  exact ⟨hL, hx₁, hy₁, hview₁.1, hview₁.2, hx₂, hy₂, hview₂.1, hview₂.2, h.saved.view_size,
    hu.view_size⟩

/-- After the last generation: the file `|a` is deleted and the commit makes generation 0.  A
transaction that creates the file again is cut before its first write, and the mount shows
generation `2 ^ 64 - 1`, with the file, instead of generation 0. -/
theorem crash_wraps : ∃ s₀ before L y, Start 0 s₀ ∧ Made 0 s₀ before ∧
    Quiet 0 (runOps 0 s₀ before) [.create nameA] ∧
    ((runOps 0 s₀ (before ++ [.create nameA] ++ [.commit])).disks 0).cache =
      ((runOps 0 s₀ before).disks 0).cache ++ L ∧
    Cut L 0 ((runOps 0 s₀ before).disks 0).block ((runOps 0 s₀ before).disks 0).block ∧
    (exfsMount 0).run (runOps 0 s₀ before) = (.ok (), y) ∧
    (runOps 0 s₀ before).v.gen = 0 ∧ y.v.gen = 2 ^ 64 - 1 ∧
    view (runOps 0 s₀ before) nameA.bytes = none ∧ (view y nameA.bytes).isSome = true := by
  obtain ⟨s₀, h⟩ := exists_start
  obtain ⟨ops, i, S, u, hturn, hgen, hcommit, hwrap⟩ :=
    exists_wrapped h (show nameOk nameA.bytes = true by decide) (by decide) (by decide)
  have hu : runOps 0 s₀ (ops ++ [.delete nameA] ++ [.commit]) = u := by
    rw [runOps_append, runOps, List.foldl_cons, List.foldl_nil, stepOp_commit hcommit]
  obtain ⟨L, hL⟩ := (le_runOps 0 u ([.create nameA] ++ [.commit]) 0).cache
  obtain ⟨y, hy, hm⟩ := hwrap.mount hturn.run
  have hcreate : (stepOp 0 u (.create nameA)).v.gen = u.v.gen := by
    have hwp : ((Op.create nameA).prog 0).wp (fun _ s' => s'.v.gen = u.v.gen)
        (fun _ s' => s'.v.gen = u.v.gen) u := by
      simp only [Op.prog, exfsCreate, Prog.wp_bind]
      exact wp_newNode hwrap.ram (by decide)
        (fun _ _ _ _ _ _ _ _ _ hcore => congrArg VolCore.gen hcore)
        fun _ _ => rfl
    exact hwp.state
  refine ⟨s₀, ops ++ [.delete nameA] ++ [.commit], L, y, h, Or.inr ⟨_, .commit, rfl, ?_⟩,
    fun k hk => ?_, ?_, ?_, ?_⟩
  · rw [hu, hwrap.gen, hgen]
    norm_num
  · rw [hu]
    rcases Nat.le_one_iff_eq_zero_or_eq_one.mp hk with rfl | rfl
    · rfl
    · exact hcreate
  · rw [List.append_assoc, runOps_append, hu]
    exact hL
  · exact .clean
  · rw [hu]
    refine ⟨hy, hwrap.gen, ?_, ?_, ?_⟩
    · rw [hm.inv.gen, ← hwrap.inv.gen, hturn.gen]
    · rw [view, viewOf, findNode_none hwrap.gone, Option.bind_none]
    · have hnode : ∀ j < inodes, nodeOf y.v j = nodeOf (runOps 0 s₀ ops).v j := fun j hj =>
        (hm.settled.node j hj).trans (hwrap.saved.node j hj).symm
      rw [view, viewOf, findNode_congr hnode, ← find_eq hturn.ram.toVolInv nameA.no_nul, hturn.find,
        Option.bind_some, hnode i hturn.index, hturn.node]
      rfl

end Atomic

end Xasmos.Exfs
