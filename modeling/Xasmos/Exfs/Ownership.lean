import Xasmos.Exfs.Filled

/-!
# Exact block ownership

Every block of a volume is in exactly one class: reserved, a logical position of one
file, a chain block of one file, a position of the deferred list, or free.  The ledger
of `RunInv` says that a block has one owner if it is marked used and not reserved, and
none otherwise; here that equation is read as a partition.

## Main definitions

* `Reserved` — the superblocks, the inode tables and the map's slots.
* `Class`, `InClass` — the classes of blocks.
-/

namespace Xasmos.Exfs

open Bytes Prog

/-- The blocks no file may have: the first eighteen, and both map slots of each group. -/
def ReservedBlock (m : GMap) (b : ℕ) : Prop :=
  b < dataStart ∨ ∃ g t, g < m.ngroups ∧ t ≤ 1 ∧ b = slotBlock m g t

/-- What a block can be. -/
inductive Class where
  | reserved
  | data (file position : ℕ)
  | chain (file position : ℕ)
  | deferred (position : ℕ)
  | free

/-- Block `b` is of class `c`. -/
def InClass (s : St) (b : ℕ) : Class → Prop
  | .reserved => ReservedBlock s.v.gm b
  | .data i k => i < inodes ∧ (s.v.files i).used = true ∧ (blocks (exts s.v i))[k]? = some b
  | .chain i k => i < inodes ∧ (s.v.files i).used = true ∧ (chainOf (s.v.files i))[k]? = some b
  | .deferred k => (blocks s.v.defer)[k]? = some b
  | .free => used s.gst b = false

section Reserved

variable {s : St} {b : ℕ}

/-- The map's own test for reserved blocks. -/
theorem MapInv.reserved_iff (h : MapInv s) (hb : b < s.v.total) :
    ReservedBlock s.v.gm b ↔ reservedBlock s.v.gm b = true := by
  have hgb := h.gb
  rw [← h.total] at hb
  have hlt := h.group_lt hb
  refine ⟨fun hr => ?_, fun hr => ?_⟩
  · rcases hr with hlow | ⟨g, t, _, ht, he⟩
    · exact h.map.reserved_low hlow
    · rw [he]
      exact h.map.reserved_slot ht
  · rw [reservedBlock, decide_eq_true_eq, reservedBits] at hr
    have hdiv := Nat.div_add_mod b s.v.gm.gb
    by_cases hg : b / s.v.gm.gb = 0
    · rw [if_pos hg] at hr
      rw [hg, Nat.mul_zero, Nat.zero_add] at hdiv
      by_cases hd : b < dataStart
      · exact Or.inl hd
      · refine Or.inr ⟨0, b - dataStart, hg ▸ hlt, by omega, ?_⟩
        rw [slotBlock, if_pos rfl]
        omega
    · rw [if_neg hg] at hr
      refine Or.inr ⟨b / s.v.gm.gb, b % s.v.gm.gb, hlt, by omega, ?_⟩
      rw [slotBlock, if_neg hg, Nat.mul_comm]
      exact hdiv.symm

end Reserved

/-! ## The partition -/

/-- A value that occurs once has one position. -/
theorem position_unique {l : List ℕ} {b k k' : ℕ} (hc : l.count b ≤ 1) (h : l[k]? = some b)
    (h' : l[k']? = some b) : k = k' := by
  -- of two positions the first lies in a prefix that ends before the second
  have hlt : ∀ {i j : ℕ}, l[i]? = some b → l[j]? = some b → ¬ i < j := by
    intro i j hi hj hij
    have h1 : b ∈ l.take j := List.mem_of_getElem? (by rw [List.getElem?_take_of_lt hij]; exact hi)
    have h2 : b ∈ l.drop j := List.mem_of_getElem? (i := 0) (by rw [List.getElem?_drop]; exact hj)
    have h3 := List.count_pos_iff.mpr h1
    have h4 := List.count_pos_iff.mpr h2
    have h5 : l.count b = (l.take j).count b + (l.drop j).count b := by
      rw [← List.count_append, List.take_append_drop]
    omega
  have h1 := hlt h h'
  have h2 := hlt h' h
  omega

section Partition

variable {s : St} {b i j k : ℕ} {c c' : Class}

theorem count_pos_of_getElem? {l : List ℕ} (h : l[k]? = some b) : 0 < l.count b :=
  List.count_pos_iff.mpr (List.mem_of_getElem? h)

theorem exists_getElem?_of_count {l : List ℕ} (h : 0 < l.count b) : ∃ k : ℕ, l[k]? = some b :=
  List.mem_iff_getElem?.mp (List.count_pos_iff.mp h)

/-- A class that owns its block. -/
def Class.owns : Class → Bool
  | .reserved | .free => false
  | _ => true

/-- A block with an owner has one. -/
theorem InClass.owned_pos (h : InClass s b c) (hc : c.owns = true) : 0 < owned s.v b := by
  cases c with
  | reserved | free => exact absurd hc (by simp [Class.owns])
  | data i k =>
    obtain ⟨hi, hu, hk⟩ := h
    exact owned_of_exts hi hu (List.mem_of_getElem? hk)
  | chain i k =>
    obtain ⟨hi, hu, hk⟩ := h
    exact owned_of_chain hi hu (List.mem_of_getElem? hk)
  | deferred k =>
    have := count_pos_of_getElem? h
    rw [owned]
    omega

/-- An owned block is of a class that owns it. -/
theorem exists_inClass_of_owned (h : 0 < owned s.v b) : ∃ c, InClass s b c ∧ c.owns = true := by
  rw [owned] at h
  by_cases hd : 0 < (blocks s.v.defer).count b
  · obtain ⟨k, hk⟩ := exists_getElem?_of_count hd
    exact ⟨.deferred k, hk, rfl⟩
  · obtain ⟨i, hi, hpos⟩ := exists_pos_of_sum_pos (f := fun i => nodeOwn (nodeOf s.v i) b)
      (n := inodes) (by rw [tableOwn] at h; omega)
    cases hu : (s.v.files i).used with
    | false =>
      rw [nodeOf_unused hu] at hpos
      exact absurd hpos (Nat.lt_irrefl 0)
    | true =>
      rw [nodeOwn_used hu] at hpos
      by_cases hx : 0 < (blocks (exts s.v i)).count b
      · obtain ⟨k, hk⟩ := exists_getElem?_of_count hx
        exact ⟨.data i k, ⟨hi, hu, hk⟩, rfl⟩
      · obtain ⟨k, hk⟩ := exists_getElem?_of_count (l := chainOf (s.v.files i)) (b := b) (by omega)
        exact ⟨.chain i k, ⟨hi, hu, hk⟩, rfl⟩

/-- The file of a class, if it is one of a file. -/
def Class.file? : Class → Option ℕ
  | .data i _ | .chain i _ => some i
  | _ => none

theorem InClass.nodeOwn_pos (h : InClass s b c) (hf : c.file? = some i) :
    i < inodes ∧ (s.v.files i).used = true ∧ 0 < nodeOwn (nodeOf s.v i) b := by
  cases c with
  | reserved | free | deferred k => exact absurd hf (by simp [Class.file?])
  | data i' k | chain i' k =>
    obtain rfl : i' = i := by simpa [Class.file?] using hf
    obtain ⟨hi, hu, hk⟩ := h
    have := count_pos_of_getElem? hk
    exact ⟨hi, hu, by rw [nodeOwn_used hu]; omega⟩

/-- A block with one owner has one class among those that own. -/
theorem InClass.unique_of_owned (hone : owned s.v b ≤ 1) (h : InClass s b c) (h' : InClass s b c')
    (hc : c.owns = true) (hc' : c'.owns = true) : c = c' := by
  rw [owned] at hone
  -- two files, or a file and the deferred list, would own the block twice
  have hfile : ∀ {x y : Class} {i j}, InClass s b x → InClass s b y → x.file? = some i →
      y.file? = some j → i = j := by
    intro x y i j hx hy hi hj
    by_contra hij
    obtain ⟨h1, _, h2⟩ := hx.nodeOwn_pos hi
    obtain ⟨h3, _, h4⟩ := hy.nodeOwn_pos hj
    have h5 := add_le_sum (fun i => nodeOwn (nodeOf s.v i) b) h1 h3 hij
    have h6 : tableOwn (nodeOf s.v) b = ∑ i ∈ Finset.range inodes, nodeOwn (nodeOf s.v i) b := rfl
    omega
  have hdefer : ∀ {x : Class} {i k : ℕ}, InClass s b x → x.file? = some i →
      ¬ (blocks s.v.defer)[k]? = some b := by
    intro x i k hx hi hk
    obtain ⟨h1, _, h2⟩ := hx.nodeOwn_pos hi
    have h3 := le_tableOwn (nodeOf s.v) (b := b) h1
    have h4 := count_pos_of_getElem? hk
    omega
  have hsum : ∀ {i}, i < inodes → (s.v.files i).used = true →
      (blocks (exts s.v i)).count b + (chainOf (s.v.files i)).count b ≤ 1 := by
    intro i hi hu
    have := le_tableOwn (nodeOf s.v) (b := b) hi
    rw [nodeOwn_used hu] at this
    omega
  have hboth : ∀ {i j k k' : ℕ}, InClass s b (.data i k) → ¬ InClass s b (.chain j k') := by
    intro i j k k' hx hy
    obtain rfl := hfile hx hy rfl rfl
    have hle := hsum hx.1 hx.2.1
    have h1 := count_pos_of_getElem? hx.2.2
    have h2 := count_pos_of_getElem? hy.2.2
    omega
  cases c with
  | reserved | free => exact absurd hc (by simp [Class.owns])
  | data i k =>
    cases c' with
    | reserved | free => exact absurd hc' (by simp [Class.owns])
    | deferred k' => exact absurd h' (hdefer h rfl)
    | data j k' =>
      obtain rfl := hfile h h' rfl rfl
      have hle := hsum h.1 h.2.1
      rw [position_unique (by omega) h.2.2 h'.2.2]
    | chain j k' => exact absurd h' (hboth h)
  | chain i k =>
    cases c' with
    | reserved | free => exact absurd hc' (by simp [Class.owns])
    | deferred k' => exact absurd h' (hdefer h rfl)
    | data j k' => exact absurd h (hboth h')
    | chain j k' =>
      obtain rfl := hfile h h' rfl rfl
      have hle := hsum h.1 h.2.1
      rw [position_unique (by omega) h.2.2 h'.2.2]
  | deferred k =>
    cases c' with
    | reserved | free => exact absurd hc' (by simp [Class.owns])
    | data j k' | chain j k' => exact absurd h (hdefer h' rfl)
    | deferred k' => rw [position_unique (by omega) h h']

/-- **The ledger is a partition.** -/
theorem VolInv.existsUnique_class (h : VolInv s [] (0, 0)) (hb : b < s.v.total) :
    ∃! c, InClass s b c := by
  have hone : owned s.v b ≤ 1 := le_trans (Nat.le_add_right _ _) (h.owned_le b)
  have hres := h.map.reserved_iff hb
  -- an owned block is neither reserved nor free
  have howned : ∀ {c}, InClass s b c → c.owns = true →
      ¬ ReservedBlock s.v.gm b ∧ used s.gst b = true := by
    intro c hc ho
    obtain ⟨_, h2, h3⟩ := h.taken_of_owned (hc.owned_pos ho)
    exact ⟨fun hr => by rw [hres.mp hr] at h3; exact absurd h3 (by simp), h2⟩
  by_cases hr : ReservedBlock s.v.gm b
  · refine ⟨.reserved, hr, fun c hc => ?_⟩
    cases c with
    | reserved => rfl
    | free =>
      have hu := h.map.used_of_reserved hb (hres.mp hr)
      rw [show used s.gst b = false from hc] at hu
      exact absurd hu (by simp)
    | data i k | chain i k | deferred k => exact absurd hr (howned hc rfl).1
  · cases hu : used s.gst b with
    | false =>
      refine ⟨.free, hu, fun c hc => ?_⟩
      cases c with
      | reserved => exact absurd hc hr
      | free => rfl
      | data i k | chain i k | deferred k => rw [(howned hc rfl).2] at hu; exact absurd hu (by simp)
    | true =>
      have ht : taken s b = true := taken_iff.mpr ⟨hb, hu, by
        rw [← Bool.not_eq_true, ← hres]; exact hr⟩
      have hl := h.ledger b
      rw [ht, List.count_nil] at hl
      obtain ⟨c, hc, ho⟩ := exists_inClass_of_owned (s := s) (b := b)
        (by rw [Bool.toNat_true] at hl; omega)
      refine ⟨c, hc, fun c' hc' => ?_⟩
      cases c' with
      | reserved => exact absurd hc' hr
      | free =>
        rw [show used s.gst b = false from hc'] at hu
        exact absurd hu (by simp)
      | data i k | chain i k | deferred k => exact hc'.unique_of_owned hone hc rfl ho

end Partition

/-! ## Every state of a run -/

section Run

variable {d : ℕ} {s : St} {b : ℕ}

/-- **`exfs_is_used`** reports the bit of the map. -/
theorem wp_exfsIsUsed (h : MapInv s) (hm : s.v.mounted = true) (hb : b < s.v.total)
    {Q : ℤ → St → Prop} {E : ExfsError → St → Prop}
    (hQ : ∀ s', Q (if used s.gst b then 1 else 0) s') : (exfsIsUsed b).wp Q E s := by
  simp only [exfsIsUsed, wp_bind, wp_get, wp_failIf, hm]
  refine ⟨fun hno => absurd hno (by simp), fun _ => ?_⟩
  rw [wp_onMap]
  have hb' : b < s.gst.map.total := lt_of_lt_of_eq hb h.total.symm
  exact wp_mono (wp_gmapIsUsed h.map hb' (Q := fun r _ => r = used s.gst b)
    (E := fun _ _ => False) fun _ _ _ => rfl) (fun r t _ hr => by rw [hr]; exact hQ _)
    (fun _ _ _ hf => hf.elim)

/-- **Exact ownership.**  In every state of a run of fewer than `2 ^ 64 - 1` commits each
block is of exactly one class, the map reports it used unless it is free, and the free
count is the number of free blocks. -/
theorem run_blocks_partitioned (s₀ : St) (ops : List Op) (hstart : Start d s₀)
    (hn : commits ops + 1 < 2 ^ 64) :
    (∀ b < (runOps d s₀ ops).v.total, ∃! c, InClass (runOps d s₀ ops) b c) ∧
    ((runOps d s₀ ops).v.mounted = true → ∀ b < (runOps d s₀ ops).v.total, ∃ s',
      (exfsIsUsed b).run (runOps d s₀ ops) =
        (.ok (if used (runOps d s₀ ops).gst b then 1 else 0), s')) ∧
    exfsFreeBlocks (runOps d s₀ ops).v =
      Nat.count (fun b => used (runOps d s₀ ops).gst b = false) (runOps d s₀ ops).v.total := by
  obtain ⟨S, hS⟩ := (hstart.run hn).inv
  refine ⟨fun b hb => hS.toVolInv.existsUnique_class hb, fun hm b hb => ?_, hS.map.freeTotal⟩
  have hwp := wp_exfsIsUsed hS.map hm hb (E := fun _ _ => False)
    (Q := fun r _ => r = if used (runOps d s₀ ops).gst b then 1 else 0) fun _ => rfl
  obtain ⟨r, s', hrun, rfl⟩ := hwp.exists_ok
  exact ⟨s', hrun⟩

/-- A file was committed and written again: it has one block, and its old one is deferred. -/
theorem run_blocks_partitioned_rewritten : ∃ s₀ i b b' k s', Start 0 s₀ ∧
    let s := runOps 0 s₀ (savedOps ++ rewriteOps)
    InClass s b' (.data i 0) ∧ InClass s b (.deferred k) ∧
      (∀ x < s.v.total, ∃! c, InClass s x c) ∧ (exfsIsUsed b).run s = (.ok 1, s') := by
  obtain ⟨s₀, i, b, b', h⟩ := exists_rewritten
  obtain ⟨hpart, hused, _⟩ := run_blocks_partitioned s₀ (savedOps ++ rewriteOps) h.start (by decide)
  have hlt := h.again.ram.defer.lt h.deferred
  have howned : 0 < owned (runOps 0 s₀ (savedOps ++ rewriteOps)).v b := by
    rw [owned]
    exact Nat.add_pos_right _ (List.count_pos_iff.mpr h.deferred)
  obtain ⟨k, hk⟩ := List.mem_iff_getElem?.mp h.deferred
  obtain ⟨s', hs'⟩ := hused h.again.mounted b hlt
  rw [(h.again.ram.taken_of_owned howned).2.1, if_pos rfl] at hs'
  refine ⟨s₀, i, b, b', k, s', h.start, ⟨h.again.index, (find_some h.again.find).2.1, ?_⟩, hk,
    hpart, hs'⟩
  rw [h.again.file.2.2.2.1]
  rfl

end Run

end Xasmos.Exfs
