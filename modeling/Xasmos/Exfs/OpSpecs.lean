import Xasmos.Exfs.Ledger

/-!
# What the operations do

One specification for each operation between two commits.  A call that fails leaves the
volume as it was, up to the map's cache and the pool (`Staged s s' [] (0, 0)`); a call
that succeeds changes one node (`Changed`).  Either way the invariant `RamInv` holds
again and the step is one a committed state survives (`Evolves`).
-/

namespace Xasmos.Exfs

open Bytes Prog
open Function (update_self update_of_ne)

variable {E : ExfsError → St → Prop} {Q : Unit → St → Prop} {X X' : List ℕ} {b i type : ℕ}
  {name : List UInt8} {s s' t : St} {slice : ℕ × ℕ}

/-! ## The invariant between calls -/

/-- The invariant of a volume in memory between two calls. -/
structure RamInv (s : St) : Prop extends VolInv s [] (0, 0) where
  chain : ∀ i < inodes, (s.v.files i).used = true → ChainOk (s.v.files i)
  dirty : ∀ i < inodes, (s.v.files i).dirty = true → s.v.dirty = true
  idle : s.v.dirty = false → s.v.defer = []

/-- A step that may have changed node `i` and no other. -/
structure Changed (i : ℕ) (s s' : St) : Prop where
  inv : RamInv s'
  evolves : Evolves s s'
  other : ∀ j < inodes, j ≠ i → nodeOf s'.v j = nodeOf s.v j
  dirty : s'.v.dirty = true
  mounted : s'.v.mounted = s.v.mounted

section Basics

theorem RamInv.staged (h : RamInv s) (hs : Staged s s' [] (0, 0)) : RamInv s' where
  toVolInv := hs.volInv h.toVolInv
  chain i hi hu := by
    rw [hs.file i] at hu ⊢
    exact h.chain i hi hu
  dirty i hi hd := by
    rw [hs.file i] at hd
    have hv : s'.v.dirty = s.v.dirty := congrArg VolCore.dirty hs.vol.core
    rw [hv]
    exact h.dirty i hi hd
  idle hd := by
    have hv : s'.v.dirty = s.v.dirty := congrArg VolCore.dirty hs.vol.core
    rw [hs.defer]
    exact h.idle (hv ▸ hd)

theorem RamInv.refl (h : RamInv s) : Staged s s [] (0, 0) :=
  Staged.refl h.map (fun i hi hu => (h.file i hi hu).n_le_cap) h.pool

/-- A change of one file, marked as it must be. -/
theorem Staged.changed (h : RamInv s) (ht : Staged s t X slice) (hs : FileStep i t s')
    (hv : VolInv s' [] (0, 0)) (hd : (s'.v.files i).dirty = true) (hn : (s'.v.files i).nchain = 0)
    (hvd : s'.v.dirty = true) (hown : ∀ b, 0 < owned t.v b → 0 < owned s'.v b) :
    Changed i s s' where
  inv := by
    refine ⟨hv, fun j hj hu => ?_, fun _ _ _ => hvd, fun h0 => absurd hvd (by simp [h0])⟩
    by_cases hji : j = i
    · rw [hji, ChainOk, hd, hn]
      rfl
    · rw [hs.other j hj hji, ht.file j] at hu ⊢
      exact h.chain j hj hu
  evolves := ht.evolves.trans (hs.evolves hd hown) h.map ht.map
  other j hj hji := by rw [hs.nodeOf_eq hj hji, ht.nodeOf_eq hj]
  dirty := hvd
  mounted := (congrArg VolCore.mounted hs.core).trans (congrArg VolCore.mounted ht.vol.core)

/-- More of the ledger is owned when a call's blocks become owned. -/
theorem owned_mono_of_count (hi : i < inodes) (hs : FileStep i t s')
    (hcount : ∀ b, nodeOwn (nodeOf s'.v i) b + (blocks s'.v.defer).count b + X'.count b =
      nodeOwn (nodeOf t.v i) b + (blocks t.v.defer).count b + X.count b)
    (b : ℕ) : owned s'.v b + X'.count b = owned t.v b + X.count b := by
  have h1 := tableOwn_update (T := nodeOf t.v) (U := nodeOf s'.v) hi
    (fun j hj hji => hs.nodeOf_eq hj hji) b
  have h2 := hcount b
  rw [owned, owned]
  omega

end Basics

/-! ## Names -/

section Names

theorem find_some {v : Vol} (h : find v name = some i) :
    i < inodes ∧ (v.files i).used = true ∧ nameEq (v.files i).name name 0 = true := by
  have hmem := List.mem_of_find?_eq_some h
  have hp := List.find?_some h
  simp only [Bool.and_eq_true] at hp
  exact ⟨List.mem_range.mp hmem, hp.1, hp.2⟩

theorem wp_requireLive (hE : ∀ e, s.v.mounted = false ∨ s.v.broken = true → E e s)
    (hQ : s.v.mounted = true → s.v.broken = false → Q () s) : requireLive.wp Q E s := by
  simp only [requireLive, wp_bind, wp_get, wp_failIf]
  exact ⟨fun hm => hE _ (Or.inl hm), fun hm => ⟨fun hb => hE _ (Or.inr hb), fun hb =>
    hQ (by simpa using hm) (by simpa using hb)⟩⟩

theorem wp_lookup {name : CStr} {Q : ℕ → St → Prop} (hE : find s.v name.bytes = none → E .enoent s)
    (hQ : ∀ i, find s.v name.bytes = some i → Q i s) : (lookup name).wp Q E s := by
  simp only [lookup, wp_bind, wp_get]
  cases h : find s.v name.bytes with
  | none => exact hE h
  | some i => exact hQ i h

/-- The copied name reads back. -/
theorem cname_copyName (old : Bytes) (hlen : name.length ≤ nameMax) (hnul : ∀ c ∈ name, c ≠ 0) :
    cname (copyName old name) = name := by
  have hsplit : (List.range nameMax).map (copyName old name) =
      name ++ ((List.range' name.length (nameMax - name.length)).map (copyName old name)) := by
    have hr : List.range nameMax =
        List.range name.length ++ List.range' name.length (nameMax - name.length) := by
      rw [List.range_eq_range', List.range_eq_range']
      have := List.range'_append_1 (s := 0) (m := name.length) (n := nameMax - name.length)
      rw [Nat.zero_add, Nat.add_sub_cancel' hlen] at this
      exact this.symm
    rw [hr, List.map_append]
    congr 1
    refine List.ext_getElem (by simp) fun k h1 h2 => ?_
    simp [copyName, h2]
  rw [cname, hsplit, List.takeWhile_append_of_pos fun c hc => by simpa using hnul c hc]
  have hrest : ((List.range' name.length (nameMax - name.length)).map (copyName old name)).takeWhile
      (· ≠ 0) = [] := by
    cases hk : nameMax - name.length with
    | zero => rfl
    | succ k =>
      rw [List.range'_succ, List.map_cons, List.takeWhile_cons]
      simp [copyName]
  rw [hrest, List.append_nil]

/-- The record `make_node` gives inode `i`. -/
def newFile (f : ExfsFile) (name : List UInt8) (type : ℕ) : ExfsFile :=
  { f with used := true, type := type, size := 0, n := 0, extOff := 0, extCap := 0, nchain := 0,
           dirty := true, name := copyName f.name name }

/-- **`make_node`** adds one empty node, or finds every inode used. -/
theorem wp_makeNode (h : RamInv s) (hlen : name.length ≤ nameMax) (hnul : ∀ c ∈ name, c ≠ 0)
    (htype : type < 2 ^ 32)
    (hQ : ∀ i s', i < inodes → nodeOf s.v i = none → (∀ j < i, nodeOf s.v j ≠ none) →
      Changed i s s' → nodeOf s'.v i = some ⟨type, 0, name, [], []⟩ → s'.disks = s.disks →
      s'.v.gm = s.v.gm → s'.v.core = { s.v.core with dirty := true } → Q () s')
    (hE : (∀ i < inodes, nodeOf s.v i ≠ none) → E .enospc s) : (makeNode name type).wp Q E s := by
  simp only [makeNode, wp_bind, wp_get]
  cases hf : (List.range inodes).find? fun i => !(s.v.files i).used with
  | none =>
    rw [List.find?_eq_none] at hf
    refine hE fun i hi => ?_
    have := hf i (List.mem_range.mpr hi)
    rw [nodeOf_used (by simpa using this)]
    simp
  | some i =>
    have hi : i < inodes := List.mem_range.mp (List.mem_of_find?_eq_some hf)
    have hu : (s.v.files i).used = false := by simpa using List.find?_some hf
    have hfirst : ∀ j < i, nodeOf s.v j ≠ none := by
      intro j hj
      have hpre := (List.find?_eq_some_iff_getElem.mp hf).2
      obtain ⟨k, hk, hki, hlt⟩ := hpre
      rw [List.getElem_range] at hki
      have := hlt j (by omega)
      rw [List.getElem_range] at this
      rw [nodeOf_used (by simpa using this)]
      simp
    simp only [modV, wp_modify]
    set s' : St := { s with v := { setFile s.v i (newFile (s.v.files i) name type) with
      dirty := true } }
      with hs'
    have hfi : s'.v.files i = newFile (s.v.files i) name type := update_self _ _ _
    have hstep : FileStep i s s' := by
      refine ⟨rfl, rfl, rfl, rfl, fun j _ hji => update_of_ne hji _ _, fun j _ hji _ => ?_⟩
      have hj : s'.v.files j = s.v.files j := update_of_ne hji _ _
      exact exts_congr (by rw [hj]) fun k _ => by rw [hj]; rfl
    have hnode : nodeOf s'.v i = some ⟨type, 0, name, [], []⟩ := by
      rw [nodeOf_used (by rw [hfi]; rfl), exts, hfi]
      simp only [newFile, chainOf, List.range_zero, List.map_nil]
      rw [cname_copyName _ hlen hnul]
    have hcount : ∀ b, nodeOwn (nodeOf s'.v i) b + (blocks s'.v.defer).count b + [].count b =
        nodeOwn (nodeOf s.v i) b + (blocks s.v.defer).count b + [].count b := by
      intro b
      rw [hnode, nodeOf_unused hu]
      rfl
    have hold : ∀ k, fileSlots (s.v.files i) k = 0 := fun k => by simp [fileSlots, hu]
    have hpool : PoolInv s'.v (0, 0) := by
      refine h.pool.give hi hold hstep.other rfl ?_ ?_ ?_ ?_
      · rw [hfi]; rfl
      · rw [hfi]; rfl
      · rw [hfi]; rfl
      · rw [hfi]; exact Nat.zero_le _
    have hfile : FileOk s'.v i := by
      have hx : exts s'.v i = [] := by rw [exts, hfi]; rfl
      refine ⟨?_, ?_, ?_, ?_, ⟨name.length, hlen, ?_⟩, ?_⟩
      · rw [hfi]; exact Nat.zero_le _
      · rw [hfi]; rfl
      · rw [hfi]; exact Nat.two_pow_pos 64
      · rw [hfi]; exact htype
      · rw [hfi]; simp [newFile, copyName]
      · rw [hx]; exact fun e he => absurd he List.not_mem_nil
    have hv := h.toVolInv.step hstep hi hcount hpool (fun _ => hfile) h.defer
    refine hQ i s' hi (nodeOf_unused hu) hfirst (Staged.changed h h.refl hstep hv ?_ ?_ rfl
      fun b hb => ?_) hnode rfl rfl rfl
    · rw [hfi]; rfl
    · rw [hfi]; rfl
    · have := owned_mono_of_count hi hstep hcount b
      simp only [List.count_nil] at this
      omega

/-- Why `exfs_create` and `exfs_mkdir` may fail. -/
def NewNodeFails (s : St) (name : CStr) : Prop :=
  s.v.mounted = false ∨ nameOk name.bytes = false ∨ (find s.v name.bytes).isSome ∨
    parentOk s.v name.bytes = false ∨ ∀ i < inodes, nodeOf s.v i ≠ none

/-- **`exfs_create` and `exfs_mkdir`.** -/
theorem wp_newNode {name : CStr} (h : RamInv s) (htype : type < 2 ^ 32)
    (hQ : ∀ i s', i < inodes → s.v.mounted = true → find s.v name.bytes = none →
      nodeOf s.v i = none → Changed i s s' →
      nodeOf s'.v i = some ⟨type, 0, name.bytes, [], []⟩ → s'.disks = s.disks →
      s'.v.core = { s.v.core with dirty := true } → Q () s')
    (hE : ∀ e, NewNodeFails s name → E e s) : (newNode name type).wp Q E s := by
  simp only [newNode, wp_bind]
  refine wp_requireLive (fun e hno => hE e (Or.inl ?_)) fun hm _ => ?_
  · rcases hno with hno | hno
    · exact hno
    · rw [h.broken] at hno
      exact absurd hno (by simp)
  simp only [wp_bind, wp_get, wp_failIf]
  refine ⟨fun hn => hE _ (Or.inr (Or.inl hn)),
    fun hok => ⟨fun hn => hE _ (Or.inr (Or.inr (Or.inl hn))),
    fun hf => ⟨fun hn => hE _ (Or.inr (Or.inr (Or.inr (Or.inl hn)))), fun _ => ?_⟩⟩⟩
  have hlen : name.bytes.length ≤ nameMax := by
    have hok' : nameOk name.bytes = true := by simpa using hok
    simp only [nameOk, Bool.and_eq_true, decide_eq_true_eq] at hok'
    exact hok'.1.1.2.2
  exact wp_makeNode h hlen name.no_nul htype
    (fun i s' hi hn _ hc hnode hd _ hcore => hQ i s' hi hm (by simpa using hf) hn hc hnode hd hcore)
    fun hfull =>
      hE _ (Or.inr (Or.inr (Or.inr (Or.inr hfull))))

end Names

/-! ## Deferred release -/

section Defer

/-- The record after the blocks of inode `i` went to the deferred list. -/
def deferVol (v : Vol) (i : ℕ) : Vol :=
  { v with defer := v.defer ++ exts v i ++ (chainOf (v.files i)).map fun b => ⟨b, 1⟩ }

/-- The state after `defer_file`. -/
def deferred (s : St) (i : ℕ) : St where
  disks := s.disks
  v := setFile (poolRelease (deferVol s.v i) (s.v.files i).extOff (s.v.files i).extCap) i
    { s.v.files i with extOff := 0, extCap := 0, n := 0, nchain := 0 }

theorem wp_deferFile
    (hE : deferMax < s.v.defer.length + ((s.v.files i).n + (s.v.files i).nchain) → E .enomem s)
    (hQ : Q () (deferred s i)) : (deferFile i).wp Q E s := by
  simp only [deferFile, wp_bind, wp_get, wp_ite, wp_throw, modV, wp_modify]
  exact ⟨hE, fun _ => hQ⟩

theorem deferred_file (s : St) (i : ℕ) : (deferred s i).v.files i =
    { s.v.files i with extOff := 0, extCap := 0, n := 0, nchain := 0 } := update_self _ _ _

theorem fileStep_deferred (s : St) (i : ℕ) : FileStep i s (deferred s i) := by
  refine ⟨rfl, rfl, rfl, rfl, fun j _ hji => update_of_ne hji _ _, fun j _ hji _ => ?_⟩
  have hj : (deferred s i).v.files j = s.v.files j := update_of_ne hji _ _
  exact exts_congr (by rw [hj]) fun k _ => by rw [hj]; rfl

theorem exts_deferred (s : St) (i : ℕ) : exts (deferred s i).v i = [] := by
  rw [exts, deferred_file]
  rfl

/-- The blocks of the file are now in the deferred list. -/
theorem deferred_count (h : (s.v.files i).used = true) (b : ℕ) :
    nodeOwn (nodeOf (deferred s i).v i) b + (blocks (deferred s i).v.defer).count b =
      nodeOwn (nodeOf s.v i) b + (blocks s.v.defer).count b := by
  have hd : (deferred s i).v.defer = s.v.defer ++ exts s.v i ++
      (chainOf (s.v.files i)).map fun b => ⟨b, 1⟩ := rfl
  have hc : chainOf ((deferred s i).v.files i) = [] := by rw [deferred_file]; rfl
  rw [nodeOwn_used h, nodeOwn_used (by rw [deferred_file]; exact h), exts_deferred, hc, hd,
    blocks_append, blocks_append, blocks_singletons, List.count_append, List.count_append]
  simp only [blocks_nil, List.count_nil]
  omega

/-- Chain blocks are blocks of the volume. -/
theorem VolInv.chain_lt (h : VolInv s X slice) (hi : i < inodes) (hu : (s.v.files i).used = true)
    (hb : b ∈ chainOf (s.v.files i)) : b < s.v.total :=
  (h.taken_of_owned (owned_of_chain hi hu hb)).1

/-- **`defer_file`** keeps the invariant. -/
theorem VolInv.deferred (h : VolInv s X slice) (hi : i < inodes) (hu : (s.v.files i).used = true) :
    VolInv (deferred s i) X slice := by
  have hf := h.file i hi hu
  refine h.step (fileStep_deferred s i) hi (fun b => ?_) ?_ (fun _ => ?_) ?_
  · rw [deferred_count hu b]
  · exact PoolInv.drop (v := deferVol s.v i) ⟨h.pool.ledger, h.pool.fits⟩ hi hu rfl
  · refine ⟨?_, ?_, ?_, ?_, ?_, ?_⟩
    · rw [deferred_file]; exact Nat.zero_le _
    · rw [deferred_file]; rfl
    · rw [deferred_file]; exact hf.size_lt
    · rw [deferred_file]; exact hf.type_lt
    · rw [deferred_file]; exact hf.name_end
    · rw [exts_deferred]; exact fun e he => absurd he List.not_mem_nil
  · refine (h.defer.append hf.within).append fun e he => ?_
    obtain ⟨b, hb, rfl⟩ := List.mem_map.mp he
    exact ⟨le_rfl, h.chain_lt hi hu hb⟩

end Defer

/-! ## Delete -/

/-- **`exfs_delete`** removes one node. -/
theorem wp_exfsDelete {name : CStr} (h : RamInv s)
    (hQ : ∀ i s', s.v.mounted = true → find s.v name.bytes = some i → Changed i s s' →
      nodeOf s'.v i = none → s'.disks = s.disks → Q () s')
    (hE : ∀ e, E e s) : (exfsDelete name).wp Q E s := by
  simp only [exfsDelete, wp_bind]
  refine wp_requireLive (fun e _ => hE e) fun hm _ => ?_
  rw [wp_bind]
  refine wp_lookup (fun _ => hE _) fun i hfind => ?_
  obtain ⟨hi, hu, _⟩ := find_some hfind
  simp only [wp_bind, wp_get, wp_failIf]
  refine ⟨fun _ => hE _, fun _ => wp_deferFile (fun _ => hE _) ?_⟩
  simp only [modV, wp_modify]
  set t := deferred s i with ht
  set s' : St := { t with
    v := { setFile t.v i { t.v.files i with used := false, dirty := true } with
    dirty := true } } with hs'
  have hfi : s'.v.files i = { t.v.files i with used := false, dirty := true } :=
    update_self _ _ _
  have hstep : FileStep i t s' := by
    refine ⟨rfl, rfl, rfl, rfl, fun j _ hji => update_of_ne hji _ _, fun j _ hji _ => ?_⟩
    have hj : s'.v.files j = t.v.files j := update_of_ne hji _ _
    exact exts_congr (by rw [hj]) fun k _ => by rw [hj]; rfl
  have hv := h.toVolInv.deferred hi hu
  have hnode : nodeOf s'.v i = none := nodeOf_unused (by rw [hfi])
  have hut : (t.v.files i).used = true := by rw [ht, deferred_file]; exact hu
  have hcount : ∀ b, nodeOwn (nodeOf s'.v i) b + (blocks s'.v.defer).count b + [].count b =
      nodeOwn (nodeOf t.v i) b + (blocks t.v.defer).count b + [].count b := by
    intro b
    have hc : chainOf (t.v.files i) = [] := by rw [ht, deferred_file]; rfl
    rw [hnode, nodeOwn_used hut, ht, exts_deferred, ← ht, hc]
    rfl
  have hpool : PoolInv s'.v (0, 0) := by
    refine hv.pool.replace hi hstep.other (fun k => ?_) fun hf => ?_
    · have h1 : fileSlots (t.v.files i) k = 0 := by
        rw [ht, deferred_file]
        simp [fileSlots, inSlice]
      have h2 : fileSlots (s'.v.files i) k = 0 := by
        rw [hfi]
        simp [fileSlots]
      rw [h1, h2]
      rfl
    · rw [hfi] at hf
      exact absurd hf (by simp)
  have hfull : FileStep i s s' := (fileStep_deferred s i).trans hstep
  refine hQ i s' hm hfind (Staged.changed h h.refl hfull (hv.step hstep hi hcount hpool
    (fun hf => ?_) hv.defer) ?_ ?_ rfl fun b hb => ?_) hnode rfl
  · rw [hfi] at hf
    exact absurd hf (by simp)
  · rw [hfi]
  · rw [hfi, ht, deferred_file]
  · have h1 := owned_mono_of_count hi hstep hcount b
    have h2 := owned_mono_of_count (X := []) hi (fileStep_deferred s i)
      (fun b => by rw [deferred_count hu b]) b
    simp only [List.count_nil] at h1 h2
    rw [← ht] at h2
    omega

end Xasmos.Exfs
