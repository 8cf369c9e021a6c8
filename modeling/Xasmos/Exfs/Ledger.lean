import Xasmos.Exfs.Staging

/-!
# The ledger of blocks

What the files of a volume stand for, apart from where the pool keeps their lists:
`nodeOf`, a table of nodes.  The blocks a node owns, the deferred releases and the
blocks a call in progress has taken make up one ledger: each block has exactly one
owner if it is marked used and not reserved, and none otherwise (`VolInv.ledger`).
Exact ownership, no leak and no double use are all that one equation.

`Evolves s s'` is what a step that is not a commit may do with a volume whose committed
state has to survive.

## Main definitions

* `Node`, `nodeOf`, `tableOwn` — the files and what they own.
* `VolInv s X slice` — the invariant of a volume in memory, with the blocks `X` and the
  pool slice `slice` taken by a call in progress.
* `Evolves` — the steps between two commits.
-/

namespace Xasmos.Exfs

open Bytes

variable {X X' Y : List ℕ} {b c g i j : ℕ} {s s' s'' s₀ : St} {slice slice' slice₀ : ℕ × ℕ}
  {v v' : Vol}

/-! ## Nodes -/

/-- What one used inode stands for. -/
structure Node where
  type : ℕ
  size : ℕ
  name : List UInt8
  exts : List ExfsExtent
  chain : List ℕ
  deriving DecidableEq

variable {T T' U : ℕ → Option Node}

/-- The name in a name array: its bytes up to the terminator. -/
def cname (a : Bytes) : List UInt8 := ((List.range nameMax).map a).takeWhile (· ≠ 0)

/-- The node of inode `i`, if the inode is used. -/
def nodeOf (v : Vol) (i : ℕ) : Option Node :=
  if (v.files i).used then
    some ⟨(v.files i).type, (v.files i).size, cname (v.files i).name, exts v i, chainOf (v.files i)⟩
  else none

/-- How often a node owns block `b`. -/
def nodeOwn : Option Node → ℕ → ℕ
  | none, _ => 0
  | some f, b => (blocks f.exts).count b + f.chain.count b

/-- How often a table of nodes owns block `b`. -/
def tableOwn (T : ℕ → Option Node) (b : ℕ) : ℕ := ∑ i ∈ Finset.range inodes, nodeOwn (T i) b

/-- How often the volume owns block `b`: through a file or the deferred list. -/
def owned (v : Vol) (b : ℕ) : ℕ := tableOwn (nodeOf v) b + (blocks v.defer).count b

theorem owned_of_tableOwn (h : 0 < tableOwn (nodeOf v) b) : 0 < owned v b :=
  Nat.lt_of_lt_of_le h (Nat.le_add_right _ _)

/-- Block `b` is in use by something that is not reserved. -/
def taken (s : St) (b : ℕ) : Bool :=
  decide (b < s.v.total) && used s.gst b && !reservedBlock s.v.gm b

/-- The facts about one file that do not concern other files. -/
structure FileOk (v : Vol) (i : ℕ) : Prop where
  n_le : (v.files i).n ≤ maxExt
  cap : (v.files i).extCap = capFor (v.files i).n
  size_lt : (v.files i).size < 2 ^ 64
  type_lt : (v.files i).type < 2 ^ 32
  name_end : ∃ j ≤ nameMax, (v.files i).name j = 0
  within : Within v.total (exts v i)

/-- The invariant of a volume in memory, with `X` and `slice` taken by a call in
progress. -/
structure VolInv (s : St) (X : List ℕ) (slice : ℕ × ℕ) : Prop where
  map : MapInv s
  broken : s.v.broken = false
  ledger : ∀ b, owned s.v b + X.count b = (taken s b).toNat
  pool : PoolInv s.v slice
  file : ∀ i < inodes, (s.v.files i).used = true → FileOk s.v i
  defer : Within s.v.total s.v.defer

/-- A changed file has no chain blocks; an unchanged one has those its list needs. -/
def ChainOk (f : ExfsFile) : Prop := f.nchain = if f.dirty then 0 else chainNeed f.n

section Own

theorem nodeOf_used (h : (v.files i).used = true) :
    nodeOf v i = some ⟨(v.files i).type, (v.files i).size, cname (v.files i).name, exts v i,
      chainOf (v.files i)⟩ := if_pos h

theorem nodeOf_unused (h : (v.files i).used = false) : nodeOf v i = none := by
  rw [nodeOf, h]
  rfl

theorem used_of_nodeOf (h : nodeOf v i ≠ none) : (v.files i).used = true := by
  by_contra hu
  exact h (nodeOf_unused (by simpa using hu))

theorem nodeOwn_used (h : (v.files i).used = true) :
    nodeOwn (nodeOf v i) b = (blocks (exts v i)).count b + (chainOf (v.files i)).count b := by
  rw [nodeOf_used h]
  rfl

theorem le_tableOwn (T : ℕ → Option Node) (hi : i < inodes) : nodeOwn (T i) b ≤ tableOwn T b :=
  le_sum (fun i => nodeOwn (T i) b) hi

theorem tableOwn_congr (h : ∀ i < inodes, T' i = T i) (b : ℕ) : tableOwn T' b = tableOwn T b :=
  Finset.sum_congr rfl fun i hi => by rw [h i (Finset.mem_range.mp hi)]

/-- Changing one node changes the sum by that node alone. -/
theorem tableOwn_update (hi : i < inodes) (h : ∀ j < inodes, j ≠ i → U j = T j) (b : ℕ) :
    tableOwn U b + nodeOwn (T i) b = tableOwn T b + nodeOwn (U i) b := by
  have hup : ∀ j < inodes, U j = Function.update T i (U i) j := by
    intro j hj
    by_cases hji : j = i
    · rw [hji, Function.update_self]
    · rw [Function.update_of_ne hji, h j hj hji]
  rw [tableOwn_congr hup b]
  exact sum_update_add T (U i) (fun _ f => nodeOwn f b) hi

end Own

section VolInv

theorem taken_iff : taken s b = true ↔
    b < s.v.total ∧ used s.gst b = true ∧ reservedBlock s.v.gm b = false := by
  simp [taken, and_assoc]

/-- An owned block is in use and not reserved. -/
theorem VolInv.taken_of_owned (h : VolInv s X slice) (hb : 0 < owned s.v b) :
    b < s.v.total ∧ used s.gst b = true ∧ reservedBlock s.v.gm b = false := by
  have hl := h.ledger b
  rw [← taken_iff]
  cases ht : taken s b with
  | true => rfl
  | false => rw [ht, Bool.toNat_false] at hl; omega

theorem VolInv.owned_le (h : VolInv s X slice) (b : ℕ) : owned s.v b + X.count b ≤ 1 := by
  rw [h.ledger b]
  exact Bool.toNat_le _

theorem owned_of_node (hi : i < inodes) (h : 0 < nodeOwn (nodeOf v i) b) : 0 < owned v b := by
  have := le_tableOwn (nodeOf v) (b := b) hi
  rw [owned]
  omega

theorem owned_of_exts (hi : i < inodes) (hu : (v.files i).used = true)
    (hb : b ∈ blocks (exts v i)) : 0 < owned v b := by
  refine owned_of_node hi ?_
  have := List.count_pos_iff.mpr hb
  rw [nodeOwn_used hu]
  omega

theorem owned_of_chain (hi : i < inodes) (hu : (v.files i).used = true)
    (hb : b ∈ chainOf (v.files i)) : 0 < owned v b := by
  refine owned_of_node hi ?_
  have := List.count_pos_iff.mpr hb
  rw [nodeOwn_used hu]
  omega

theorem FileOk.n_le_cap (h : FileOk v i) : (v.files i).n ≤ (v.files i).extCap := by
  rw [h.cap]
  exact le_capFor h.n_le

/-- An owned block is none of the superblocks and inode tables. -/
theorem VolInv.ne_low (h : VolInv s X slice) (hb : 0 < owned s.v b) (hc : c < dataStart) :
    b ≠ c := by
  intro he
  have hr : reservedBlock s.v.gm b = true := h.map.map.reserved_low (by rw [he]; exact hc)
  rw [(h.taken_of_owned hb).2.2] at hr
  exact absurd hr (by simp)

/-- The blocks of a file are distinct. -/
theorem VolInv.nodup (h : VolInv s X slice) (hi : i < inodes) (hu : (s.v.files i).used = true) :
    (blocks (exts s.v i)).Nodup := by
  rw [List.nodup_iff_count_le_one]
  intro b
  have h1 := h.owned_le b
  have h2 := le_tableOwn (nodeOf s.v) (b := b) hi
  rw [nodeOwn_used hu] at h2
  rw [owned] at h1
  omega

end VolInv

/-! ## Calls in progress -/

section Staged

theorem Staged.nodeOf_eq (h : Staged s₀ s X slice) (hi : i < inodes) :
    nodeOf s.v i = nodeOf s₀.v i := by
  cases hu : (s₀.v.files i).used with
  | false => rw [nodeOf_unused hu, nodeOf_unused (by rw [h.file i]; exact hu)]
  | true =>
    rw [nodeOf_used hu, nodeOf_used (by rw [h.file i]; exact hu), h.list hi hu, h.file i]
    rfl

theorem Staged.owned_eq (h : Staged s₀ s X slice) (b : ℕ) : owned s.v b = owned s₀.v b := by
  rw [owned, owned, tableOwn_congr (fun i hi => h.nodeOf_eq hi), h.defer]

theorem Staged.taken_eq (h : Staged s₀ s X slice) (b : ℕ) :
    (taken s b).toNat = (taken s₀ b).toNat + X.count b := by
  rw [taken, taken, h.total, h.reserved_eq]
  by_cases hb : b < s₀.v.total
  · have hbits := h.bits b hb
    cases hr : reservedBlock s₀.v.gm b with
    | false => simpa [hb] using hbits
    | true =>
      rw [h.start.used_of_reserved hb hr] at hbits
      have := Bool.toNat_le (used s.gst b)
      simp at hbits
      simp
      omega
  · have hX : X.count b = 0 := List.count_eq_zero_of_not_mem fun hm => hb (h.fresh b hm).1
    simp [hb, hX]

/-- A call in progress keeps the invariant, with what it has taken in addition. -/
theorem Staged.volInv (h : Staged s₀ s X slice) (hv : VolInv s₀ Y slice₀) :
    VolInv s (Y ++ X) slice where
  map := h.map
  broken := (congrArg VolCore.broken h.vol.core).trans hv.broken
  ledger b := by
    rw [h.owned_eq, h.taken_eq, ← hv.ledger b, List.count_append, Nat.add_assoc]
  pool := h.pool
  file i hi hu := by
    have hu₀ : (s₀.v.files i).used = true := by rw [h.file i] at hu; exact hu
    have hf := hv.file i hi hu₀
    refine ⟨?_, ?_, ?_, ?_, ?_, ?_⟩
    · rw [h.file i]; exact hf.n_le
    · rw [h.file i]; exact hf.cap
    · rw [h.file i]; exact hf.size_lt
    · rw [h.file i]; exact hf.type_lt
    · rw [h.file i]; exact hf.name_end
    · rw [h.list hi hu₀, h.total]; exact hf.within
  defer := by rw [h.defer, h.total]; exact hv.defer

/-- The number of free blocks. -/
def freeBlocks (s : St) : ℕ := Nat.count (fun b => used s.gst b = false) s.v.total

theorem MapInv.freeTotal (h : MapInv s) : gmapFreeTotal s.v.gm = freeBlocks s := by
  rw [freeBlocks, ← h.total]
  exact h.map.freeTotal_eq

/-- The free count of a group is that of its bits. -/
theorem MapInv.free_congr (h : MapInv s) (h' : MapInv s') (htot : s'.v.total = s.v.total)
    (hng : s'.v.gm.ngroups = s.v.gm.ngroups) (hused : ∀ b < s.v.total, used s'.gst b = used s.gst b)
    (hg : g < s.v.gm.ngroups) : s'.v.gm.free g = s.v.gm.free g := by
  have hgb : s'.v.gm.gb = s.v.gm.gb := by rw [h.gb, h'.gb]
  have hgt : s'.v.gm.total = s.v.gm.total := by rw [h.total, h'.total, htot]
  have hf : s.v.gm.free g = clearBits (curBits s.gst g) (validBits s.v.gm g) := h.map.free_eq g hg
  have hf' : s'.v.gm.free g = clearBits (curBits s'.gst g) (validBits s'.v.gm g) :=
    h'.map.free_eq g (by rw [← hng] at hg; exact hg)
  rw [hf, hf', validBits_congr hgb hgt]
  refine clearBits_congr fun i hi => ?_
  have hpos : 0 < s.v.gm.gb := h.map.gb_pos
  have hi' : i < s.v.gm.gb := lt_of_lt_of_le hi (by rw [validBits]; split <;> omega)
  have hblk : (g * s.v.gm.gb + i) / s.v.gm.gb = g ∧ (g * s.v.gm.gb + i) % s.v.gm.gb = i := by
    rw [Nat.mul_comm, Nat.mul_add_div hpos, Nat.div_eq_of_lt hi', Nat.mul_add_mod,
      Nat.mod_eq_of_lt hi']
    exact ⟨rfl, rfl⟩
  have hb : g * s.v.gm.gb + i < s.v.total := by
    have h0 : g * s.v.gm.gb < s.v.gm.total := h.map.lt_ngroups_iff.mp hg
    rw [h.total] at h0
    rw [validBits, h.total] at hi
    split at hi <;> omega
  have hu := hused _ hb
  have e1 : used s'.gst (g * s.v.gm.gb + i) = bitOf (curBits s'.gst g) i := by
    have hgs : s'.gst.map.gb = s.v.gm.gb := hgb
    rw [used, hgs, hblk.1, hblk.2]
  have e2 : used s.gst (g * s.v.gm.gb + i) = bitOf (curBits s.gst g) i := by
    have hgs : s.gst.map.gb = s.v.gm.gb := rfl
    rw [used, hgs, hblk.1, hblk.2]
  rw [← e1, ← e2, hu]

/-- What a call has taken is missing from the free blocks. -/
theorem Staged.freeBlocks_add (h : Staged s₀ s X slice) :
    freeBlocks s + X.length = freeBlocks s₀ := by
  rw [freeBlocks, freeBlocks, h.total]
  refine count_add_length h.nodup h.fresh fun b hb => ?_
  have hbits := h.bits b hb
  by_cases hX : b ∈ X
  · have := List.count_pos_iff.mpr hX
    have : used s.gst b = true := by
      cases hu : used s.gst b with
      | true => rfl
      | false => rw [hu, Bool.toNat_false] at hbits; omega
    simp [this, hX]
  · rw [List.count_eq_zero_of_not_mem hX, Nat.add_zero] at hbits
    cases h1 : used s.gst b <;> cases h2 : used s₀.gst b <;> simp_all

/-- A write to a block that is not reserved, or to the superblocks and the inode tables,
is not seen by the ledger. -/
theorem VolInv.put (h : VolInv s X slice) (hb : reservedBlock s.v.gm b = false ∨ b < dataStart)
    (p : Bytes) : VolInv (s.put b p) X slice where
  map := (h.map.put hb).1
  broken := h.broken
  ledger x := by
    have hv : (s.put b p).v = s.v := rfl
    have ht : taken (s.put b p) x = taken s x := by
      rw [taken, taken, hv]
      by_cases hx : x < s.v.total
      · rw [(h.map.put hb).2 x hx]
      · simp [hx]
    rw [hv, ht]
    exact h.ledger x
  pool := h.pool
  file := h.file
  defer := h.defer

end Staged

/-! ## Changing one file -/

/-- Apart from the pool bitmap, only file `i`, the deferred list and the dirty flag may
differ. -/
structure FileStep (i : ℕ) (s s' : St) : Prop where
  disks : s'.disks = s.disks
  gm : s'.v.gm = s.v.gm
  hint : s'.v.hint = s.v.hint
  core : s'.v.core = { s.v.core with dirty := s'.v.dirty, defer := s'.v.defer }
  other : ∀ j < inodes, j ≠ i → s'.v.files j = s.v.files j
  list : ∀ j < inodes, j ≠ i → (s.v.files j).used = true → exts s'.v j = exts s.v j

section FileStep

theorem FileStep.trans (h : FileStep i s s') (h' : FileStep i s' s'') : FileStep i s s'' where
  disks := h'.disks.trans h.disks
  gm := h'.gm.trans h.gm
  hint := h'.hint.trans h.hint
  core := by rw [h'.core, h.core]
  other j hj hji := (h'.other j hj hji).trans (h.other j hj hji)
  list j hj hji hu := (h'.list j hj hji (by rw [h.other j hj hji]; exact hu)).trans
    (h.list j hj hji hu)

theorem FileStep.total (h : FileStep i s s') :
    s'.v.total = s.v.total := congrArg VolCore.total h.core

theorem FileStep.dev (h : FileStep i s s') : s'.v.dev = s.v.dev := congrArg VolCore.dev h.core

theorem FileStep.disk (h : FileStep i s s') : s'.disk = s.disk := by
  rw [St.disk, St.disk, h.disks, h.dev]

theorem FileStep.gst (h : FileStep i s s') : s'.gst = s.gst := by
  have hg : s'.v.gmDev = s.v.gmDev := congrArg VolCore.gmDev h.core
  rw [St.gst, St.gst, h.gm, h.disks, hg]

theorem FileStep.taken_eq (h : FileStep i s s') (b : ℕ) : taken s' b = taken s b := by
  rw [taken, taken, h.total, h.gst, h.gm]

theorem FileStep.mapInv (h : FileStep i s s') (hm : MapInv s) : MapInv s' := by
  have hg : s'.v.gmDev = s.v.gmDev := congrArg VolCore.gmDev h.core
  have hs : s'.v.spb = s.v.spb := congrArg VolCore.spb h.core
  refine ⟨?_, ?_, ?_, ?_, ?_, ?_, ?_, ?_⟩
  · rw [hg, h.dev]; exact hm.dev
  · rw [h.gm, hs]; exact hm.spb
  · rw [h.gm, h.total]; exact hm.total
  · rw [h.gm]; exact hm.gb
  · rw [h.total]; exact hm.total_ge
  · rw [h.total]; exact hm.total_le
  · rw [h.hint, h.total]; exact hm.hint
  · rw [h.gst]; exact hm.map

theorem FileStep.nodeOf_eq (h : FileStep i s s') (hj : j < inodes) (hji : j ≠ i) :
    nodeOf s'.v j = nodeOf s.v j := by
  cases hu : (s.v.files j).used with
  | false => rw [nodeOf_unused hu, nodeOf_unused (by rw [h.other j hj hji]; exact hu)]
  | true =>
    rw [nodeOf_used hu, nodeOf_used (by rw [h.other j hj hji]; exact hu), h.list j hj hji hu,
      h.other j hj hji]

/-- **Changing one file** keeps the invariant when the blocks are conserved: what the
file, the deferred list and the call hold together stays the same. -/
theorem VolInv.step (h : VolInv s X slice) (hs : FileStep i s s') (hi : i < inodes)
    (hcount : ∀ b, nodeOwn (nodeOf s'.v i) b + (blocks s'.v.defer).count b + X'.count b =
      nodeOwn (nodeOf s.v i) b + (blocks s.v.defer).count b + X.count b)
    (hpool : PoolInv s'.v slice') (hfile : (s'.v.files i).used = true → FileOk s'.v i)
    (hdefer : Within s'.v.total s'.v.defer) : VolInv s' X' slice' where
  map := hs.mapInv h.map
  broken := (congrArg VolCore.broken hs.core).trans h.broken
  ledger b := by
    have h1 := tableOwn_update (T := nodeOf s.v) (U := nodeOf s'.v) hi
      (fun j hj hji => hs.nodeOf_eq hj hji) b
    have h2 := hcount b
    have h3 := h.ledger b
    rw [owned] at h3 ⊢
    rw [hs.taken_eq]
    omega
  pool := hpool
  file j hj hu := by
    by_cases hji : j = i
    · rw [hji] at hu ⊢
      exact hfile hu
    · have hof := hs.other j hj hji
      have hu' : (s.v.files j).used = true := by rw [← hof]; exact hu
      have hf := h.file j hj hu'
      refine ⟨?_, ?_, ?_, ?_, ?_, ?_⟩
      · rw [hof]; exact hf.n_le
      · rw [hof]; exact hf.cap
      · rw [hof]; exact hf.size_lt
      · rw [hof]; exact hf.type_lt
      · rw [hof]; exact hf.name_end
      · rw [hs.list j hj hji hu', hs.total]; exact hf.within
  defer := hdefer

end FileStep

/-! ## Between two commits -/

/-- A step that is not a commit: it writes nothing that is in use, gives up no block,
and marks every file it changes. -/
structure Evolves (s s' : St) : Prop where
  le : s ≤ s'
  dev : s'.v.dev = s.v.dev
  total : s'.v.total = s.v.total
  gen : s'.v.gen = s.v.gen
  gb : s'.v.gm.gb = s.v.gm.gb
  ngroups : s'.v.gm.ngroups = s.v.gm.ngroups
  slot : s'.v.gm.slot = s.v.gm.slot
  wrote : Disk.WroteOnly (Writable s) s.disk s'.disk
  used_mono : ∀ b < s.v.total, used s.gst b = true → used s'.gst b = true
  owned_mono : ∀ b, 0 < owned s.v b → 0 < owned s'.v b
  clean : ∀ i < inodes, (s'.v.files i).dirty = false →
    (s.v.files i).dirty = false ∧ nodeOf s'.v i = nodeOf s.v i

section Evolves

theorem Evolves.refl (s : St) : Evolves s s :=
  ⟨le_refl s, rfl, rfl, rfl, rfl, rfl, rfl, Disk.WroteOnly.refl _ _, fun _ _ h => h, fun _ h => h,
    fun _ _ h => ⟨h, rfl⟩⟩

theorem Evolves.disk_le (h : Evolves s s') : s.disk ≤ s'.disk := St.disk_le h.le h.dev

/-- What may be written later could be written before. -/
theorem Evolves.writable (h : Evolves s s') (hm : MapInv s) (hm' : MapInv s') (hw : Writable s' b) :
    Writable s b := by
  have htot : s'.v.gm.total = s.v.gm.total := by rw [hm'.total, hm.total, h.total]
  rcases hw with hp | ⟨hlt, hf⟩
  · left
    rwa [pending_congr h.gb htot h.ngroups h.slot] at hp
  · right
    rw [h.total] at hlt
    refine ⟨hlt, ?_⟩
    cases hu : used s.gst b with
    | false => rfl
    | true => rw [h.used_mono b hlt hu] at hf; exact absurd hf (by simp)

theorem Evolves.trans (h : Evolves s s') (h' : Evolves s' s'') (hm : MapInv s) (hm' : MapInv s') :
    Evolves s s'' where
  le := le_trans h.le h'.le
  dev := h'.dev.trans h.dev
  total := h'.total.trans h.total
  gen := h'.gen.trans h.gen
  gb := h'.gb.trans h.gb
  ngroups := h'.ngroups.trans h.ngroups
  slot := h'.slot.trans h.slot
  wrote := h.wrote.trans (h'.wrote.mono fun _ hw => h.writable hm hm' hw)
  used_mono b hb hu := h'.used_mono b (h.total ▸ hb) (h.used_mono b hb hu)
  owned_mono b hb := h'.owned_mono b (h.owned_mono b hb)
  clean i hi hd := by
    obtain ⟨h1, h2⟩ := h'.clean i hi hd
    obtain ⟨h3, h4⟩ := h.clean i hi h1
    exact ⟨h3, h2.trans h4⟩

/-- What a call has taken is an evolution. -/
theorem Staged.evolves (h : Staged s₀ s X slice) : Evolves s₀ s where
  le := h.le
  dev := h.dev
  total := h.total
  gen := congrArg VolCore.gen h.vol.core
  gb := h.gb
  ngroups := h.ngroups
  slot := h.slot
  wrote := h.wrote
  used_mono b hb hu := by
    have := h.bits b hb
    rw [hu] at this
    cases hc : used s.gst b with
    | true => rfl
    | false => rw [hc] at this; simp at this; omega
  owned_mono b hb := by rw [h.owned_eq]; exact hb
  clean i hi hd := by
    rw [h.file i] at hd
    exact ⟨hd, h.nodeOf_eq hi⟩

/-- A change of one file that marks it is an evolution. -/
theorem FileStep.evolves (h : FileStep i s s') (hd : (s'.v.files i).dirty = true)
    (hown : ∀ b, 0 < owned s.v b → 0 < owned s'.v b) : Evolves s s' where
  le := by
    intro j
    rw [h.disks]
  dev := h.dev
  total := h.total
  gen := congrArg VolCore.gen h.core
  gb := by rw [h.gm]
  ngroups := by rw [h.gm]
  slot := by rw [h.gm]
  wrote := by
    rw [h.disk]
    exact Disk.WroteOnly.refl _ _
  used_mono b _ hu := by rw [h.gst]; exact hu
  owned_mono := hown
  clean j hj hdj := by
    have hji : j ≠ i := by
      intro he
      rw [he, hd] at hdj
      exact absurd hdj (by simp)
    rw [h.other j hj hji] at hdj
    exact ⟨hdj, h.nodeOf_eq hj hji⟩

/-- An owned block may not be written. -/
theorem VolInv.not_writable (h : VolInv s X slice) (hb : 0 < owned s.v b) : ¬ Writable s b := by
  obtain ⟨_, hu, hr⟩ := h.taken_of_owned hb
  intro hw
  rcases hw with ⟨g, _, _, he⟩ | ⟨_, hf⟩
  · have hres : reservedBlock s.v.gm (slotBlock s.v.gm g (1 - s.v.gm.slot g)) = true :=
      h.map.map.reserved_slot (by omega)
    rw [← he, hr] at hres
    exact absurd hres (by simp)
  · rw [hf] at hu
    exact absurd hu (by simp)

/-- An owned block keeps its content. -/
theorem Evolves.block_eq (h : Evolves s s') (hv : VolInv s X slice) (hb : 0 < owned s.v b) :
    s'.disk.block b = s.disk.block b :=
  h.wrote.block_eq h.disk_le (hv.not_writable hb)

end Evolves

end Xasmos.Exfs
