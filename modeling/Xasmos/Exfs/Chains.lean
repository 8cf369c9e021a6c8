import Xasmos.Exfs.OnDisk
import Xasmos.Exfs.Lifecycle

/-!
# The chain blocks of a commit

The first step of a commit gives every changed file its chain blocks, taken from free
blocks only, and writes them.  Nothing a committed state reaches is touched, so the step
is an evolution like any call; in the end every file has on the device the part of its
extent list that its record has no room for.

## Main definitions

* `Kept` — the record is as it was, apart from chain blocks, the deferred list and the map.
* `Chained s₀ k s` — the files below `k` have their chain blocks.
-/

namespace Xasmos.Exfs

open Bytes Prog
open Function (update update_self update_of_ne)

variable {E : ExfsError → St → Prop} {Q : Unit → St → Prop} {X X' : List ℕ} {b i j k n : ℕ}
  {err : ExfsError} {s s' s₀ t t' : St} {slice : ℕ × ℕ} {α : Type}

/-! ## What a commit leaves of the record -/

/-- Apart from chain blocks, the deferred list and the map with its hint, the record is
as it was. -/
structure Kept (s₀ s : St) : Prop where
  core : s.v.core = { s₀.v.core with defer := s.v.defer }
  pool : s.v.pool = s₀.v.pool
  poolUsed : s.v.poolUsed = s₀.v.poolUsed
  file : ∀ i, s.v.files i =
    { s₀.v.files i with nchain := (s.v.files i).nchain, chain := (s.v.files i).chain }

section Kept

theorem Kept.refl (s : St) : Kept s s := ⟨rfl, rfl, rfl, fun _ => rfl⟩

theorem Kept.trans (h : Kept s₀ s) (h' : Kept s s') : Kept s₀ s' where
  core := by rw [h'.core, h.core]
  pool := h'.pool.trans h.pool
  poolUsed := h'.poolUsed.trans h.poolUsed
  file i := by rw [h'.file i, h.file i]

theorem Kept.of_vol (h : s'.v = s.v) : Kept s s' := by
  refine ⟨?_, ?_, ?_, fun i => ?_⟩ <;> rw [h]
  rfl

theorem Kept.of_mapOnly (h : MapOnly s s') : Kept s s' := by
  unfold MapOnly at h
  refine ⟨?_, ?_, ?_, fun i => ?_⟩ <;> rw [h]
  rfl

theorem Kept.exts_eq (h : Kept s₀ s) (i : ℕ) : exts s.v i = exts s₀.v i := by
  rw [exts, exts, h.pool, h.file i]

theorem Kept.used_eq (h : Kept s₀ s) (i : ℕ) : (s.v.files i).used = (s₀.v.files i).used := by
  rw [h.file i]

theorem Kept.dirty_eq (h : Kept s₀ s) (i : ℕ) : (s.v.files i).dirty = (s₀.v.files i).dirty := by
  rw [h.file i]

theorem Kept.n_eq (h : Kept s₀ s) (i : ℕ) : (s.v.files i).n = (s₀.v.files i).n := by rw [h.file i]

theorem Kept.total (h : Kept s₀ s) : s.v.total = s₀.v.total := congrArg VolCore.total h.core

theorem Kept.poolInv (h : Kept s₀ s) (hp : PoolInv s₀.v slice) : PoolInv s.v slice := by
  refine ⟨fun k => ?_, fun i hi hu => ?_⟩
  · have hcount : poolCount s.v k = poolCount s₀.v k :=
      Finset.sum_congr rfl fun i _ => by rw [h.file i]; rfl
    rw [hcount, h.poolUsed]
    exact hp.ledger k
  · rw [h.file i] at hu ⊢
    exact hp.fits i hi hu

theorem Kept.fileOk (h : Kept s₀ s) (hf : FileOk s₀.v i) : FileOk s.v i := by
  refine ⟨?_, ?_, ?_, ?_, ?_, ?_⟩
  · rw [h.file i]; exact hf.n_le
  · rw [h.file i]; exact hf.cap
  · rw [h.file i]; exact hf.size_lt
  · rw [h.file i]; exact hf.type_lt
  · rw [h.file i]; exact hf.name_end
  · rw [h.exts_eq, h.total]; exact hf.within

end Kept

/-! ## One file -/

/-- The state with chain fields of file `i` replaced. -/
def setChain (s : St) (i n : ℕ) (chain : ℕ → ℕ) : St :=
  ⟨s.disks, setFile s.v i { s.v.files i with nchain := n, chain := chain }⟩

section SetChain

variable {chain : ℕ → ℕ}

theorem setChain_file : (setChain s i n chain).v.files i =
    { s.v.files i with nchain := n, chain := chain } := update_self _ _ _

theorem setChain_other (h : j ≠ i) :
    (setChain s i n chain).v.files j = s.v.files j := update_of_ne h _ _

theorem setChain_kept : Kept s (setChain s i n chain) := by
  refine ⟨rfl, rfl, rfl, fun j => ?_⟩
  by_cases hj : j = i
  · rw [hj, setChain_file]
  · rw [setChain_other hj]

theorem setChain_step : FileStep i s (setChain s i n chain) := by
  refine ⟨rfl, rfl, rfl, rfl, fun j _ hj => setChain_other hj,
    fun j _ _ _ => setChain_kept.exts_eq j⟩

theorem nodeOwn_setChain (hu : (s.v.files i).used = true) (b : ℕ) :
    nodeOwn (nodeOf (setChain s i n chain).v i) b =
      (blocks (exts s.v i)).count b + ((List.range n).map chain).count b := by
  have hu' : ((setChain s i n chain).v.files i).used = true := by rw [setChain_file]; exact hu
  rw [nodeOwn_used hu', setChain_kept.exts_eq, setChain_file]
  rfl

/-- Chain fields may change when the blocks are conserved. -/
theorem VolInv.chain_step (h : VolInv s X slice) (hi : i < inodes) (hu : (s.v.files i).used = true)
    (hcount : ∀ b, ((List.range n).map chain).count b + X'.count b =
      (chainOf (s.v.files i)).count b + X.count b) : VolInv (setChain s i n chain) X' slice := by
  refine h.step setChain_step hi (fun b => ?_) (setChain_kept.poolInv h.pool)
    (fun _ => setChain_kept.fileOk (h.file i hi hu)) h.defer
  have hdefer : (setChain s i n chain).v.defer = s.v.defer := rfl
  have := hcount b
  rw [nodeOwn_setChain hu, nodeOwn_used hu, hdefer]
  omega

/-- A change of the chain fields of a marked file is an evolution when the file gives up
no chain block. -/
theorem setChain_evolves (hi : i < inodes) (hu : (s.v.files i).used = true)
    (hd : (s.v.files i).dirty = true)
    (hle : ∀ b, (chainOf (s.v.files i)).count b ≤ ((List.range n).map chain).count b) :
    Evolves s (setChain s i n chain) := by
  refine setChain_step.evolves (by rw [setChain_file]; exact hd) fun b hb => ?_
  have h1 := tableOwn_update (T := nodeOf s.v) (U := nodeOf (setChain s i n chain).v) hi
    (fun j hj hji => setChain_step.nodeOf_eq hj hji) b
  have hdefer : (setChain s i n chain).v.defer = s.v.defer := rfl
  have h2 := hle b
  rw [nodeOwn_setChain hu, nodeOwn_used hu] at h1
  rw [owned] at hb ⊢
  rw [hdefer]
  omega

end SetChain

/-- The chain blocks `chain 0`, …, `chain (k - 1)`. -/
def chainUpTo (f : ExfsFile) (k : ℕ) : List ℕ := (List.range k).map f.chain

/-- File `i` of `s` has been given `k` blocks for its chain; they are not its own yet. -/
structure Taking (i : ℕ) (s : St) (k : ℕ) (t : St) : Prop where
  vol : VolInv t (chainUpTo (t.v.files i) k) (0, 0)
  evolves : Evolves s t
  kept : Kept s t
  other : ∀ j, j ≠ i → t.v.files j = s.v.files j
  nchain : (t.v.files i).nchain = 0
  fresh : ∀ b ∈ chainUpTo (t.v.files i) k, b < s.v.total ∧ used s.gst b = false
  free : freeBlocks t + k = freeBlocks s

section Taking

theorem chainOf_nil {f : ExfsFile} (h : f.nchain = 0) : chainOf f = [] := by
  rw [chainOf, h]
  rfl

theorem VolInv.stagedRefl (h : VolInv s X slice) : Staged s s [] slice :=
  Staged.refl h.map (fun i hi hu => (h.file i hi hu).n_le_cap) h.pool

theorem chainUpTo_succ (f : ExfsFile) (k b : ℕ) :
    chainUpTo { f with chain := update f.chain k b } (k + 1) = chainUpTo f k ++ [b] := by
  simp only [chainUpTo, List.range_succ, List.map_append, List.map_singleton, update_self]
  refine congrArg (· ++ [b]) (List.map_congr_left fun j hj => ?_)
  exact update_of_ne (Nat.ne_of_lt (List.mem_range.mp hj)) _ _

/-- The block `b` becomes the next of the chain. -/
theorem Taking.push (h : Taking i s k t) (hi : i < inodes) (hm : MapInv s)
    (hu : (s.v.files i).used = true) (hd : (s.v.files i).dirty = true) (hs : Staged t t' [b] (0, 0))
    (hmo : MapOnly t t') :
    Taking i s (k + 1) (setChain t' i (t'.v.files i).nchain
      (update (t'.v.files i).chain k b)) := by
  have hfiles : t'.v.files = t.v.files := by
    unfold MapOnly at hmo
    rw [hmo]
  set u := setChain t' i (t'.v.files i).nchain (update (t'.v.files i).chain k b) with hudef
  have hufile : u.v.files i = { t.v.files i with chain := update (t.v.files i).chain k b } := by
    rw [hudef, setChain_file, hfiles]
  have hchain : chainUpTo (u.v.files i) (k + 1) = chainUpTo (t.v.files i) k ++ [b] := by
    rw [hufile, chainUpTo_succ]
  have hut : (t'.v.files i).used = true := by rw [hfiles, h.kept.used_eq]; exact hu
  have hdt : (t'.v.files i).dirty = true := by rw [hfiles, h.kept.dirty_eq]; exact hd
  have hn : (t'.v.files i).nchain = 0 := by rw [hfiles]; exact h.nchain
  have hnil : ∀ c : ℕ → ℕ, (List.range (t'.v.files i).nchain).map c = [] := fun c => by rw [hn]; rfl
  have hstep : Evolves t' u := setChain_evolves hi hut hdt fun x => by
    rw [hnil, chainOf_nil hn]
  refine ⟨?_, (h.evolves.trans hs.evolves hm h.vol.map).trans hstep hm hs.map,
    (h.kept.trans (Kept.of_mapOnly hmo)).trans setChain_kept, fun j hj => ?_, ?_, ?_, ?_⟩
  · rw [hchain]
    refine (hs.volInv h.vol).chain_step hi hut fun x => ?_
    rw [hnil, chainOf_nil hn]
  · rw [hudef, setChain_other hj, hfiles]
    exact h.other j hj
  · rw [hufile]
    exact h.nchain
  · rw [hchain]
    intro x hx
    rcases List.mem_append.mp hx with hx | hx
    · exact h.fresh x hx
    · have hf := hs.fresh x hx
      rw [h.evolves.total] at hf
      refine ⟨hf.1, ?_⟩
      cases hux : used s.gst x with
      | false => rfl
      | true => rw [h.evolves.used_mono x hf.1 hux] at hf; exact absurd hf.2 (by simp)
  · have h1 := hs.freeBlocks_add
    have h2 : freeBlocks u = freeBlocks t' := rfl
    have h3 := h.free
    rw [List.length_singleton] at h1
    omega

/-- **The allocation of a chain** succeeds when there are enough free blocks. -/
theorem wp_takeChain (h : VolInv s [] (0, 0)) (hi : i < inodes) (hu : (s.v.files i).used = true)
    (hd : (s.v.files i).dirty = true) (hc : (s.v.files i).nchain = 0) (hn : n ≤ freeBlocks s)
    (hQ : ∀ t, Taking i s n t → Q () t) : (takeChain i n).wp Q E s := by
  have h0 : Taking i s 0 s := ⟨h, Evolves.refl s, Kept.refl s, fun _ _ => rfl, hc,
    fun _ hb => absurd hb List.not_mem_nil, rfl⟩
  refine wp_mono (wp_iterate (fun k _ t => Taking i s k t) h0 fun k _ t hk ht => ?_)
    (fun _ t _ ht => hQ t ht) (fun _ _ _ he => he)
  rw [wp_bind]
  refine wp_takeExtent ht.vol.stagedRefl Nat.one_pos (fun e t' h1 h2 h3 hs hmo => ?_)
    fun t' _ _ hfree => ?_
  · have hlen : e.len = 1 := Nat.le_antisymm h2 h1
    rw [wp_ite]
    refine ⟨fun hne => absurd hlen hne, fun _ => ?_⟩
    rw [hlen] at hs
    simp only [modV, wp_modify]
    exact ht.push hi h.map hu hd hs hmo
  · have hzero : freeBlocks t = 0 := by
      rw [← ht.vol.map.freeTotal, gmapFreeTotal]
      refine List.sum_eq_zero fun x hx => ?_
      obtain ⟨g, hg, rfl⟩ := List.mem_map.mp hx
      exact hfree g (List.mem_range.mp hg)
    have := ht.free
    omega

end Taking

/-- File `i` of `s` owns `n` fresh chain blocks, the first `k` of them written. -/
structure Writing (i : ℕ) (s : St) (n k : ℕ) (t : St) : Prop where
  vol : VolInv t [] (0, 0)
  evolves : Evolves s t
  kept : Kept s t
  other : ∀ j, j ≠ i → t.v.files j = s.v.files j
  nchain : (t.v.files i).nchain = n
  fresh : ∀ b ∈ chainOf (t.v.files i), b < s.v.total ∧ used s.gst b = false
  free : freeBlocks t + n = freeBlocks s
  page : ∀ j < k, t.disk.block ((t.v.files i).chain j) =
    chainPage (exts t.v i) (chainOf (t.v.files i)) j

section Writing

theorem wp_orBreak_iff {x : FsProg α} {Q : α → St → Prop} :
    (orBreak err x).wp Q E s ↔
      x.wp Q (fun _ t => E err ⟨t.disks, { t.v with broken := true }⟩) s := by
  rw [orBreak, wp_bind, wp_attempt]
  exact Iff.rfl

theorem wp_orBreak {x : FsProg α} {Q : α → St → Prop} (h : x.wp Q (fun _ _ => False) s) :
    (orBreak err x).wp Q E s :=
  wp_orBreak_iff.mpr (wp_mono h (fun _ _ _ h => h) fun _ _ _ h => h.elim)

/-- The blocks become the file's chain. -/
theorem Taking.own (h : Taking i s n t) (hi : i < inodes) (hm : MapInv s)
    (hu : (s.v.files i).used = true) (hd : (s.v.files i).dirty = true) :
    Writing i s n 0 (setChain t i n (t.v.files i).chain) := by
  have hut : (t.v.files i).used = true := by rw [h.kept.used_eq]; exact hu
  have hdt : (t.v.files i).dirty = true := by rw [h.kept.dirty_eq]; exact hd
  have hnil := chainOf_nil h.nchain
  refine ⟨h.vol.chain_step hi hut fun b => ?_, h.evolves.trans ?_ hm h.vol.map,
    h.kept.trans setChain_kept, fun j hj => ?_, by rw [setChain_file], ?_, h.free,
    fun j hj => absurd hj (Nat.not_lt_zero j)⟩
  · rw [hnil, Nat.add_comm]
    rfl
  · exact setChain_evolves hi hut hdt fun b => by rw [hnil]; exact Nat.zero_le _
  · rw [setChain_other hj]
    exact h.other j hj
  · rw [setChain_file]
    exact h.fresh

/-- A chain block is owned, and owned once. -/
theorem Writing.chain_mem (h : Writing i s n k t) (hj : j < n) :
    (t.v.files i).chain j ∈ chainOf (t.v.files i) := by
  rw [chainOf, h.nchain]
  exact List.mem_map_of_mem (List.mem_range.mpr hj)

theorem VolInv.chain_nodup (h : VolInv s X slice) (hi : i < inodes)
    (hu : (s.v.files i).used = true) : (chainOf (s.v.files i)).Nodup := by
  rw [List.nodup_iff_count_le_one]
  intro b
  have h1 := h.owned_le b
  have h2 := le_tableOwn (nodeOf s.v) (b := b) hi
  rw [nodeOwn_used hu] at h2
  rw [owned] at h1
  omega

/-- A write of a block that was free when the call began. -/
theorem Evolves.put (h : Evolves s t) (hm : MapInv t) (hb : b < s.v.total)
    (hf : used s.gst b = false) (hr : reservedBlock t.v.gm b = false) (p : Bytes) :
    Evolves s (t.put b p) := by
  obtain ⟨_, hused⟩ := hm.put (p := p) (Or.inl hr)
  refine ⟨le_trans h.le (St.le_setDisk (t.le_put b p) _), h.dev, h.total, h.gen, h.gb, h.ngroups,
    h.slot, ?_, fun x hx hux => ?_, h.owned_mono, h.clean⟩
  · refine h.wrote.trans ?_
    rw [St.put, St.setDisk_disk]
    refine (Disk.wroteOnly_put _ _ _).mono fun x hx => ?_
    rw [hx]
    exact Or.inr ⟨hb, hf⟩
  · rw [hused x (h.total ▸ hx)]
    exact h.used_mono x hx hux

/-- The next chain block is written. -/
theorem Writing.put (h : Writing i s n k t) (hi : i < inodes) (hu : (s.v.files i).used = true)
    (hk : k < n) : Writing i s n (k + 1) (t.put ((t.v.files i).chain k)
      (chainPage (exts t.v i) (chainOf (t.v.files i)) k)) := by
  have hut : (t.v.files i).used = true := by rw [h.kept.used_eq]; exact hu
  have hmem := h.chain_mem hk
  obtain ⟨_, _, hres⟩ := h.vol.taken_of_owned (owned_of_chain hi hut hmem)
  obtain ⟨hlt, hfree⟩ := h.fresh _ hmem
  have hv : ∀ b p, (t.put b p).v = t.v := fun _ _ => rfl
  refine ⟨h.vol.put (Or.inl hres) _, h.evolves.put h.vol.map hlt hfree hres _,
    h.kept.trans (Kept.of_vol rfl), h.other, h.nchain, h.fresh, ?_, fun j hj => ?_⟩
  · rw [← h.free, freeBlocks, freeBlocks, hv]
    refine congrArg (· + n) (count_congr fun b hb => ?_)
    rw [(h.vol.map.put (Or.inl hres)).2 b hb]
  · rw [hv, St.put_block]
    by_cases hjk : j = k
    · rw [hjk, update_self]
    · rw [update_of_ne]
      · exact h.page j (by omega)
      · have hnd := h.vol.chain_nodup hi hut
        rw [chainOf, h.nchain] at hnd
        exact fun he => hjk (List.inj_on_of_nodup_map hnd (List.mem_range.mpr (by omega))
          (List.mem_range.mpr hk) he)

/-- **The writes of a chain.** -/
theorem wp_writeChain (h : Writing i s n 0 t) (hi : i < inodes) (hu : (s.v.files i).used = true)
    (hf : s.disk.Faultless) (hQ : ∀ t', Writing i s n n t' → Q () t') :
    (writeChain i n).wp Q E t := by
  refine wp_mono (wp_iterate (fun k _ t => Writing i s n k t) h fun k _ t hk ht => ?_)
    (fun _ t _ ht => hQ t ht) (fun _ _ _ he => he)
  simp only [wp_bind, wp_get]
  have hut : (t.v.files i).used = true := by rw [ht.kept.used_eq]; exact hu
  have hlt := (ht.vol.taken_of_owned (owned_of_chain hi hut (ht.chain_mem hk))).1
  exact wp_orBreak (wp_blkPut ht.vol.map.fits (hf.later ht.evolves.disk_le) hlt (ht.put hi hu hk))

/-- The chain blocks hold what the record has no room for. -/
theorem Writing.chainOn (h : Writing i s n n t) (hi : i < inodes) (hu : (s.v.files i).used = true)
    (hn : n = chainNeed (s.v.files i).n) :
    ChainOn t.disk.block (chainOf (t.v.files i)) ((exts t.v i).drop inlineExt) := by
  have hut : (t.v.files i).used = true := by rw [h.kept.used_eq]; exact hu
  have hsmall : t.v.total < 2 ^ 32 := lt_of_le_of_lt h.vol.map.total_le (by decide)
  have hlen : (chainOf (t.v.files i)).length = n := by simp [chainOf, h.nchain]
  refine chainOn_pages ((h.vol.file i hi hut).within.fit hsmall) ?_ (fun b hb => ?_) fun k hk => ?_
  · rw [hlen, hn, ← h.kept.n_eq i]
    simp [exts]
  · obtain ⟨h1, _, h3⟩ := h.vol.taken_of_owned (owned_of_chain hi hut hb)
    refine ⟨?_, by omega⟩
    intro h0
    have h4 : reservedBlock t.v.gm b = true := h.vol.map.map.reserved_low (by rw [h0]; decide)
    rw [h3] at h4
    exact absurd h4 (by simp)
  · rw [hlen] at hk
    have hget : (chainOf (t.v.files i)).getD k 0 = (t.v.files i).chain k := by
      simp [chainOf, h.nchain, hk]
    rw [hget]
    exact h.page k hk

end Writing

/-! ## All files -/

/-- The chain blocks a commit has to find for file `i`. -/
def fileNeed (v : Vol) (i : ℕ) : ℕ :=
  if (v.files i).used && (v.files i).dirty then chainNeed (v.files i).n else 0

/-- Every file that is not marked has its chain blocks on the device. -/
def CleanChains (s : St) : Prop :=
  ∀ i < inodes, (s.v.files i).used = true → (s.v.files i).dirty = false →
    ChainOn s.disk.block (chainOf (s.v.files i)) ((exts s.v i).drop inlineExt)

/-- The marked files below `k` have got their chain blocks. -/
structure Chained (s₀ : St) (k : ℕ) (s : St) : Prop where
  vol : VolInv s [] (0, 0)
  evolves : Evolves s₀ s
  kept : Kept s₀ s
  rest : ∀ j < inodes, k ≤ j → s.v.files j = s₀.v.files j
  need : ∀ j < k, (s.v.files j).used = true → (s.v.files j).nchain = chainNeed (s.v.files j).n
  on : ∀ j < inodes, (s.v.files j).used = true → (j < k ∨ (s.v.files j).dirty = false) →
    ChainOn s.disk.block (chainOf (s.v.files j)) ((exts s.v j).drop inlineExt)
  free : freeBlocks s + ((List.range k).map (fileNeed s₀.v)).sum = freeBlocks s₀

section Chained

theorem sum_need_succ (v : Vol) (k : ℕ) : ((List.range (k + 1)).map (fileNeed v)).sum =
    ((List.range k).map (fileNeed v)).sum + fileNeed v k := by
  rw [List.range_succ, List.map_append, List.sum_append, List.map_singleton, List.sum_singleton]

theorem sum_need_le (v : Vol) (hk : k < inodes) :
    ((List.range k).map (fileNeed v)).sum + fileNeed v k ≤ commitNeed v := by
  have hsplit : List.range inodes =
      List.range (k + 1) ++ (List.range (inodes - (k + 1))).map (k + 1 + ·) := by
    rw [← List.range_add, Nat.add_sub_cancel' hk]
  have hsum : commitNeed v = ((List.range inodes).map (fileNeed v)).sum := rfl
  rw [← sum_need_succ, hsum, hsplit, List.map_append, List.sum_append]
  exact Nat.le_add_right _ _

/-- A file that is not marked, or not used, needs nothing. -/
theorem Chained.skip (h : Chained s₀ k s) (hr : RamInv s₀) (hk : k < inodes)
    (hno : ¬ ((s.v.files k).used && (s.v.files k).dirty) = true) : Chained s₀ (k + 1) s where
  vol := h.vol
  evolves := h.evolves
  kept := h.kept
  rest j hj hkj := h.rest j hj (by omega)
  need j hj hu := by
    by_cases hjk : j = k
    · have hf := h.rest j (by omega) (by omega)
      have hd : (s.v.files j).dirty = false := by
        rw [← hjk, hu] at hno
        simpa using hno
      rw [hf] at hu hd ⊢
      have := hr.chain j (by omega) hu
      rw [ChainOk, hd] at this
      exact this
    · exact h.need j (by omega) hu
  on j hj hu hor := by
    refine h.on j hj hu ?_
    rcases hor with hlt | hd
    · by_cases hjk : j = k
      · right
        rw [← hjk, hu] at hno
        simpa using hno
      · left
        omega
    · exact Or.inr hd
  free := by
    have hz : fileNeed s₀.v k = 0 := by
      rw [fileNeed, ← h.kept.used_eq, ← h.kept.dirty_eq]
      exact if_neg hno
    rw [sum_need_succ, hz]
    exact h.free

/-- A marked file gets its chain. -/
theorem Chained.next (h : Chained s₀ k s) (hm : MapInv s₀) (hk : k < inodes)
    (hu : (s.v.files k).used = true) (hd : (s.v.files k).dirty = true)
    (ht : Writing k s (chainNeed (s.v.files k).n) (chainNeed (s.v.files k).n) t) :
    Chained s₀ (k + 1) t where
  vol := ht.vol
  evolves := h.evolves.trans ht.evolves hm h.vol.map
  kept := h.kept.trans ht.kept
  rest j hj hkj := by
    rw [ht.other j (by omega)]
    exact h.rest j hj (by omega)
  need j hj huj := by
    by_cases hjk : j = k
    · rw [hjk, ht.nchain, ht.kept.n_eq]
    · rw [ht.other j hjk] at huj ⊢
      exact h.need j (by omega) huj
  on j hj huj hor := by
    by_cases hjk : j = k
    · rw [hjk]
      exact ht.chainOn hk hu rfl
    · rw [ht.other j hjk] at huj hor ⊢
      rw [ht.kept.exts_eq]
      refine (h.on j hj huj (hor.imp_left fun hlt => by omega)).congr fun b hb => ?_
      exact ht.evolves.block_eq h.vol (owned_of_chain hj huj hb)
  free := by
    have hneed : fileNeed s₀.v k = chainNeed (s.v.files k).n := by
      rw [fileNeed, ← h.kept.used_eq, ← h.kept.dirty_eq, ← h.kept.n_eq, hu, hd]
      rfl
    have h1 := ht.free
    have h2 := h.free
    rw [sum_need_succ, hneed]
    omega

/-- **The chain step of a commit** succeeds when there are enough free blocks. -/
theorem wp_commitChains (hr : RamInv s₀) (hclean : CleanChains s₀) (hdisk : s₀.disk.Faultless)
    (hfree : commitNeed s₀.v ≤ freeBlocks s₀) (hQ : ∀ s, Chained s₀ inodes s → Q () s) :
    commitChains.wp Q E s₀ := by
  have h0 : Chained s₀ 0 s₀ := by
    refine ⟨hr.toVolInv, Evolves.refl _, Kept.refl _, fun _ _ _ => rfl,
      fun j hj => absurd hj (Nat.not_lt_zero j), fun j hj hu hor => ?_, rfl⟩
    exact hclean j hj hu (hor.resolve_left (Nat.not_lt_zero j))
  refine wp_mono (wp_iterate (fun k _ t => Chained s₀ k t) h0 fun k _ s hk hs => ?_)
    (fun _ t _ ht => hQ t ht) (fun _ _ _ he => he)
  simp only [wp_bind, wp_get, wp_ite, wp_pure]
  refine ⟨fun hyes => ?_, fun hno => hs.skip hr hk hno⟩
  obtain ⟨hu, hd⟩ := Bool.and_eq_true_iff.mp hyes
  have hf := hs.rest k hk le_rfl
  have hc : (s.v.files k).nchain = 0 := by
    have := hr.chain k hk (by rw [← hf]; exact hu)
    rw [← hf, ChainOk, hd] at this
    exact this
  have hneed : fileNeed s₀.v k = chainNeed (s.v.files k).n := by
    rw [fileNeed, ← hf, hu, hd]
    rfl
  have hroom : chainNeed (s.v.files k).n ≤ freeBlocks s := by
    have h1 := sum_need_le s₀.v hk
    have h2 := hs.free
    omega
  refine wp_takeChain hs.vol hk hu hd hc hroom fun t ht => ?_
  exact wp_writeChain (ht.own hk hs.vol.map hu hd) hk hu (hdisk.later hs.evolves.disk_le)
    fun t' ht' => hs.next hr.map hk hu hd ht'

end Chained

end Xasmos.Exfs
