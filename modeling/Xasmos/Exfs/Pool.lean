import Xasmos.Exfs.Extents
import Xasmos.Lib.Sums
import Mathlib.Data.List.GetD

/-!
# The extent pool

Every file's extent list lives in a slice of one shared pool.  `PoolInv` is a ledger
over the pool's slots: each slot is in as many slices as its bit says, one or none.
Disjointness of the slices, their fit in the pool and the exactness of the bitmap are
all read off that one equation.

`pool_compact` keeps every list (`poolCompact_spec`), and `pool_reserve` finds room
whenever the capacities in use leave any (`wp_poolReserve`).
-/

namespace Xasmos.Exfs

open Prog
open Function (update update_self update_of_ne)

variable {N a c cap dst i j k n off run src : ℕ} {slice slice' : ℕ × ℕ} {v v' w : Vol}

/-! ## The ledger of slots -/

/-- Slot `k` lies in `cap` slots from `off`. -/
def inSlice (off cap k : ℕ) : ℕ := if off ≤ k ∧ k < off + cap then 1 else 0

/-- What a file holds of slot `k`. -/
def fileSlots (f : ExfsFile) (k : ℕ) : ℕ := if f.used then inSlice f.extOff f.extCap k else 0

/-- The slices that hold slot `k`. -/
def poolCount (v : Vol) (k : ℕ) : ℕ := ∑ i ∈ Finset.range inodes, fileSlots (v.files i) k

/-- The capacity `pool_reserve` gives a list of `n` extents. -/
def capFor (n : ℕ) : ℕ := if n = 0 then 0 else sliceCapFor n

/-- The pool's invariant, with one more slice reserved and not yet given to a file. -/
structure PoolInv (v : Vol) (slice : ℕ × ℕ) : Prop where
  ledger : ∀ k, poolCount v k + inSlice slice.1 slice.2 k =
    if k < poolExt ∧ v.poolUsed k = true then 1 else 0
  fits : ∀ i < inodes, (v.files i).used = true → 0 < (v.files i).extCap →
    (v.files i).n ≤ (v.files i).extCap

/-! ## Capacities -/

theorem sliceCapFrom_le (n k c : ℕ) : c ≤ sliceCapFrom n k c := by
  induction k generalizing c with
  | zero => exact le_rfl
  | succ k ih =>
    rw [sliceCapFrom]
    split
    · exact le_trans (by omega) (ih (c * 2))
    · exact le_rfl

theorem le_sliceCapFrom (n k c : ℕ) (h : n ≤ c * 2 ^ k) : n ≤ sliceCapFrom n k c := by
  induction k generalizing c with
  | zero => simpa [sliceCapFrom] using h
  | succ k ih =>
    rw [sliceCapFrom]
    split
    · exact ih (c * 2) (by rw [pow_succ] at h; linarith)
    · omega

theorem sliceCapFor_pos (n : ℕ) : 0 < sliceCapFor n :=
  lt_of_lt_of_le (by decide) (sliceCapFrom_le n 29 poolMinCap)

/-- A capacity holds the list. -/
theorem le_sliceCapFor (h : n ≤ maxExt) : n ≤ sliceCapFor n :=
  le_sliceCapFrom n 29 poolMinCap (le_trans h (by decide))

theorem le_capFor (h : n ≤ maxExt) : n ≤ capFor n := by
  rw [capFor]
  split
  · omega
  · exact le_sliceCapFor h

/-! ## Reading the ledger -/

section Ledger

theorem inSlice_pos_iff : 0 < inSlice off cap k ↔ off ≤ k ∧ k < off + cap := by
  unfold inSlice
  split <;> simp_all

theorem PoolInv.count_le (h : PoolInv v slice) (k : ℕ) :
    poolCount v k + inSlice slice.1 slice.2 k ≤ 1 := by
  rw [h.ledger k]
  split <;> omega

/-- A slot of a file's slice is in the pool. -/
theorem PoolInv.slot_lt (h : PoolInv v slice) (hi : i < inodes) (hk : 0 < fileSlots (v.files i) k) :
    k < poolExt := by
  have h1 := le_sum (fun i => fileSlots (v.files i) k) hi
  have h2 := h.ledger k
  unfold poolCount at h2
  by_contra hlt
  rw [if_neg (by omega)] at h2
  omega

/-- The slices of two files are disjoint. -/
theorem PoolInv.disjoint (h : PoolInv v slice) (hi : i < inodes) (hj : j < inodes) (hij : i ≠ j)
    (hk : 0 < fileSlots (v.files i) k) : fileSlots (v.files j) k = 0 := by
  have h1 := add_le_sum (fun i => fileSlots (v.files i) k) hi hj hij
  have h2 := h.count_le k
  unfold poolCount at h2
  omega

/-- A file's slice is disjoint from the reserved one. -/
theorem PoolInv.disjoint_slice (h : PoolInv v slice) (hi : i < inodes)
    (hk : 0 < fileSlots (v.files i) k) : inSlice slice.1 slice.2 k = 0 := by
  have h1 := le_sum (fun i => fileSlots (v.files i) k) hi
  have h2 := h.count_le k
  unfold poolCount at h2
  omega

/-- The list of a file lies in its slice. -/
theorem list_slot (hu : (v.files i).used = true) (hn : (v.files i).n ≤ (v.files i).extCap)
    (hk : k < (v.files i).n) : 0 < fileSlots (v.files i) ((v.files i).extOff + k) := by
  rw [fileSlots, if_pos hu, inSlice_pos_iff]
  omega

end Ledger

/-! ## Searching -/

section Find

variable {u : ℕ → Bool}

/-- A found run is free and inside the pool. -/
theorem poolFindFrom_some (hcap : 0 < cap) (hrun : run < cap) (hri : run ≤ i)
    (hfree : ∀ k, i - run ≤ k → k < i → u k = false) (h : poolFindFrom u cap n i run = some off) :
    off + cap ≤ i + n ∧ ∀ k, off ≤ k → k < off + cap → u k = false := by
  induction n generalizing i run with
  | zero => exact absurd h (by simp [poolFindFrom])
  | succ n ih =>
    rw [poolFindFrom] at h
    by_cases hu : u i = true
    · rw [if_pos hu] at h
      have := ih hcap (Nat.zero_le _) (fun k h1 h2 => by omega) h
      exact ⟨by omega, this.2⟩
    · have hu' : u i = false := by simpa using hu
      have hfree' : ∀ k, i - run ≤ k → k < i + 1 → u k = false := by
        intro k h1 h2
        by_cases hk : k = i
        · rw [hk]; exact hu'
        · exact hfree k h1 (by omega)
      rw [if_neg hu] at h
      by_cases hr : run + 1 = cap
      · rw [if_pos hr] at h
        obtain rfl := Option.some.inj h
        exact ⟨by omega, fun k h1 h2 => hfree' k (by omega) (by omega)⟩
      · rw [if_neg hr] at h
        have := ih (i := i + 1) (by omega) (by omega)
          (fun k h1 h2 => hfree' k (by omega) h2) h
        exact ⟨by omega, this.2⟩

/-- A free run that does not start before the one behind the scan is not missed. -/
theorem poolFindFrom_ne_none (hrun : run < cap) (ha : i - run ≤ a) (hend : a + cap ≤ i + n)
    (hri : run ≤ i) (hfree : ∀ k, a ≤ k → k < a + cap → u k = false) :
    poolFindFrom u cap n i run ≠ none := by
  induction n generalizing i run with
  | zero => omega
  | succ n ih =>
    rw [poolFindFrom]
    by_cases hu : u i = true
    · -- a used slot cannot lie in the free run, so the run starts after it
      have hai : i < a := by
        by_contra hlt
        rw [hfree i (by omega) (by omega)] at hu
        exact absurd hu (by simp)
      rw [if_pos hu]
      exact ih (by omega) (by omega) (by omega) (by omega)
    · rw [if_neg hu]
      by_cases hr : run + 1 = cap
      · rw [if_pos hr]
        simp
      · rw [if_neg hr]
        exact ih (by omega) (by omega) (by omega) (by omega)

/-- **`pool_find`** returns a free run. -/
theorem poolFind_some (hcap : 0 < cap) (h : poolFind u cap = some off) :
    off + cap ≤ poolExt ∧ ∀ k, off ≤ k → k < off + cap → u k = false := by
  have := poolFindFrom_some hcap hcap le_rfl (fun k h1 h2 => by omega) h
  rwa [Nat.zero_add] at this

/-- **`pool_find`** fails only when there is no free run. -/
theorem poolFind_ne_none (hcap : 0 < cap) (hend : a + cap ≤ poolExt)
    (hfree : ∀ k, a ≤ k → k < a + cap → u k = false) : poolFind u cap ≠ none :=
  poolFindFrom_ne_none hcap (by omega) (by omega) le_rfl hfree

end Find

/-! ## Compaction -/

section Order

variable {key : ℕ → ℕ}

theorem insertOrder_perm (x : ℕ) (l : List ℕ) : (insertOrder key x l).Perm (x :: l) := by
  induction l with
  | nil => exact List.Perm.refl _
  | cons y ys ih =>
    rw [insertOrder]
    split
    · exact (ih.cons y).trans (List.Perm.swap x y ys)
    · exact List.Perm.refl _

theorem insertOrder_sorted (x : ℕ) (l : List ℕ) (h : l.Pairwise fun a b => key b ≤ key a) :
    (insertOrder key x l).Pairwise fun a b => key b ≤ key a := by
  induction l with
  | nil => simp [insertOrder]
  | cons y ys ih =>
    obtain ⟨hy, hys⟩ := List.pairwise_cons.mp h
    rw [insertOrder]
    by_cases hxy : key x < key y
    · rw [if_pos hxy, List.pairwise_cons]
      refine ⟨fun z hz => ?_, ih hys⟩
      rcases List.mem_cons.mp ((insertOrder_perm x ys).mem_iff.mp hz) with rfl | hz'
      · omega
      · exact hy z hz'
    · rw [if_neg hxy, List.pairwise_cons]
      refine ⟨fun z hz => ?_, h⟩
      rcases List.mem_cons.mp hz with rfl | hz'
      · omega
      · have := hy z hz'
        omega

/-- Inserting one by one sorts. -/
theorem foldl_insertOrder (l acc : List ℕ) (h : acc.Pairwise fun a b => key b ≤ key a) :
    (l.foldl (fun acc x => insertOrder key x acc) acc).Pairwise (fun a b => key b ≤ key a) ∧
      (l.foldl (fun acc x => insertOrder key x acc) acc).Perm (l ++ acc) := by
  induction l generalizing acc with
  | nil => exact ⟨h, List.Perm.refl _⟩
  | cons x l ih =>
    obtain ⟨h1, h2⟩ := ih _ (insertOrder_sorted x acc h)
    exact ⟨h1, h2.trans (((insertOrder_perm x acc).append_left l).trans List.perm_middle)⟩

end Order

/-- The inodes that own a slice. -/
def sliceOwners (v : Vol) : List ℕ :=
  (List.range inodes).filter fun i => (v.files i).used && decide (0 < (v.files i).extCap)

theorem mem_sliceOwners :
    i ∈ sliceOwners v ↔ i < inodes ∧ (v.files i).used = true ∧ 0 < (v.files i).extCap := by
  simp [sliceOwners]

theorem compactOrder_spec (v : Vol) :
    (compactOrder v).Perm (sliceOwners v) ∧
      (compactOrder v).Pairwise fun a b => (v.files a).extOff ≤ (v.files b).extOff := by
  obtain ⟨h1, h2⟩ := foldl_insertOrder (sliceOwners v) []
    List.Pairwise.nil
  rw [List.append_nil] at h2
  exact ⟨(List.reverse_perm _).trans h2, List.pairwise_reverse.mpr h1⟩

/-- The forward copy to a lower place moves the list and touches nothing else. -/
theorem copySlots_spec (p : ℕ → ExfsExtent) (n : ℕ) (h : dst ≤ src) (j : ℕ) :
    copySlots p src dst n j = if dst ≤ j ∧ j < dst + n then p (src + (j - dst)) else p j := by
  induction n generalizing j with
  | zero => rw [if_neg (by omega)]; rfl
  | succ n ih =>
    have hstep : copySlots p src dst (n + 1) =
        update (copySlots p src dst n) (dst + n) (copySlots p src dst n (src + n)) := by
      simp [copySlots, List.range_succ]
    rw [hstep]
    by_cases hj : j = dst + n
    · -- the source slot lies past everything copied so far
      rw [hj, update_self, ih, if_neg (by omega), if_pos (by omega)]
      congr 1
      omega
    · rw [update_of_ne hj, ih]
      exact if_congr (by omega) rfl rfl

/-- The end of a slice. -/
def sliceEnd (f : ExfsFile) : ℕ := f.extOff + f.extCap

/-- What packing the files `l` from slot `c` on does to a volume. -/
structure Packed (l : List ℕ) (w : Vol) (c : ℕ) (w' : Vol) (c' : ℕ) : Prop where
  rest : w' = { w with files := w'.files, pool := w'.pool, poolUsed := w'.poolUsed }
  file : ∀ i, w'.files i = { w.files i with extOff := (w'.files i).extOff }
  other : ∀ i, i ∉ l → w'.files i = w.files i
  list : ∀ i ∈ l, exts w' i = exts w i
  below : ∀ k < c, w'.pool k = w.pool k
  bits : ∀ k, w'.poolUsed k = (w.poolUsed k || decide (c ≤ k ∧ k < c'))
  cursor : c' = c + (l.map fun i => (w.files i).extCap).sum
  slots : ∀ k, (l.map fun i => inSlice (w'.files i).extOff (w'.files i).extCap k).sum =
    inSlice c (c' - c) k
  ends : ∀ top, c ≤ top → (∀ a ∈ l, sliceEnd (w.files a) ≤ top) → c' ≤ top

theorem inSlice_append (c m n k : ℕ) :
    inSlice c m k + inSlice (c + m) n k = inSlice c (m + n) k := by
  unfold inSlice
  split_ifs <;> omega

/-- A list lies below the bound when its slice does. -/
theorem exts_congr (hn : (v.files i).n = (w.files j).n)
    (h : ∀ k < (v.files i).n, v.pool ((v.files i).extOff + k) = w.pool ((w.files j).extOff + k)) :
    exts v i = exts w j := by
  unfold exts
  rw [← hn]
  exact List.map_congr_left fun k hk => h k (List.mem_range.mp hk)

/-- One turn of the packing loop. -/
theorem compactStep_spec (hc : c ≤ (w.files a).extOff) (hn : (w.files a).n ≤ (w.files a).extCap) :
    Packed [a] w c (compactStep (w, c) a).1 (compactStep (w, c) a).2 ∧
      ((compactStep (w, c) a).1.files a).extOff = c ∧
      ∀ k, c + (w.files a).extCap ≤ k → (compactStep (w, c) a).1.pool k = w.pool k := by
  have hends : ∀ top, c ≤ top → (∀ b ∈ [a], sliceEnd (w.files b) ≤ top) →
      c + (w.files a).extCap ≤ top := by
    intro top _ h
    have := h a (by simp)
    unfold sliceEnd at this
    omega
  by_cases h : (w.files a).extOff = c
  · -- the slice is in its place already
    have hstep : compactStep (w, c) a =
        (poolMark w c (w.files a).extCap true, c + (w.files a).extCap) := by
      simp [compactStep, h]
    rw [hstep]
    refine ⟨⟨rfl, fun i => rfl, fun i _ => rfl, fun i _ => rfl, fun k _ => rfl, fun k => ?_, ?_,
      fun k => ?_, hends⟩, h, fun k _ => rfl⟩
    · by_cases hk : c ≤ k ∧ k < c + (w.files a).extCap <;> simp [poolMark, hk]
    · simp
    · simp [poolMark, h]
  · have hstep : compactStep (w, c) a =
        (poolMark (setFile { w with pool := copySlots w.pool (w.files a).extOff c (w.files a).n } a
          { w.files a with extOff := c }) c (w.files a).extCap true, c + (w.files a).extCap) := by
      simp [compactStep, h]
    rw [hstep]
    have hcopy := copySlots_spec w.pool (w.files a).n hc
    refine ⟨⟨rfl, fun i => ?_, fun i hi => ?_, fun i hi => ?_, fun k hk => ?_, fun k => ?_, ?_,
      fun k => ?_, hends⟩, ?_, fun k hk => ?_⟩
    · by_cases hi : i = a
      · subst hi
        simp [poolMark, setFile]
      · simp [poolMark, setFile, hi]
    · have hi : i ≠ a := by simpa using hi
      simp [poolMark, setFile, hi]
    · obtain rfl : i = a := by simpa using hi
      refine exts_congr (by simp [poolMark, setFile]) fun k hk => ?_
      simp only [poolMark, setFile, update_self] at hk ⊢
      rw [hcopy, if_pos (by omega)]
      congr 1
      omega
    · simp only [poolMark, setFile]
      rw [hcopy, if_neg (by omega)]
    · by_cases hk : c ≤ k ∧ k < c + (w.files a).extCap <;> simp [poolMark, setFile, hk]
    · simp
    · simp [poolMark, setFile]
    · simp [poolMark, setFile]
    · simp only [poolMark, setFile]
      rw [hcopy, if_neg (by omega)]

/-- The packing loop over files in offset order. -/
theorem compact_foldl (l : List ℕ) (w : Vol) (c : ℕ) (hnd : l.Nodup)
    (hsort : l.Pairwise fun a b => sliceEnd (w.files a) ≤ (w.files b).extOff)
    (hc : ∀ a ∈ l, c ≤ (w.files a).extOff) (hn : ∀ a ∈ l, (w.files a).n ≤ (w.files a).extCap) :
    Packed l w c (l.foldl compactStep (w, c)).1 (l.foldl compactStep (w, c)).2 := by
  induction l generalizing w c with
  | nil =>
    exact ⟨rfl, fun i => rfl, fun i _ => rfl, fun i h => by simp at h, fun k _ => rfl,
      fun k => by rw [List.foldl_nil, decide_eq_false (by omega), Bool.or_false], by simp,
      fun k => by simp [inSlice], fun top h _ => h⟩
  | cons a l ih =>
    obtain ⟨ha, hl⟩ := List.nodup_cons.mp hnd
    obtain ⟨hsa, hsl⟩ := List.pairwise_cons.mp hsort
    obtain ⟨h1, hoff, hup⟩ := compactStep_spec (hc a (by simp)) (hn a (by simp))
    rw [List.foldl_cons]
    generalize hw1 : compactStep (w, c) a = r1 at h1 hoff hup
    obtain ⟨w1, c1⟩ := r1
    simp only at h1 hoff hup
    have hne : ∀ b ∈ l, b ≠ a := fun b hb hba => ha (hba ▸ hb)
    have hfile : ∀ b ∈ l, w1.files b = w.files b := fun b hb => h1.other b (by simpa using hne b hb)
    have hc1 : c1 = c + (w.files a).extCap := by simpa using h1.cursor
    have hcb : ∀ b ∈ l, c1 ≤ (w.files b).extOff := by
      intro b hb
      have h2 := hsa b hb
      have h3 := hc a (by simp)
      unfold sliceEnd at h2
      omega
    have h2 := ih w1 c1 hl
      (hsl.imp_of_mem fun hx hy h => by rw [hfile _ hx, hfile _ hy]; exact h)
      (fun b hb => by rw [hfile b hb]; exact hcb b hb)
      (fun b hb => by rw [hfile b hb]; exact hn b (by simp [hb]))
    generalize l.foldl compactStep (w1, c1) = r2 at h2 ⊢
    obtain ⟨w2, c2⟩ := r2
    simp only at h2 ⊢
    have hc2 : c1 ≤ c2 := by have := h2.cursor; omega
    have hna := hn a (by simp)
    have hfa : w2.files a = w1.files a := h2.other a ha
    have hcap : (w1.files a).extCap = (w.files a).extCap := by rw [h1.file a]
    have hnn : (w1.files a).n = (w.files a).n := by rw [h1.file a]
    refine ⟨?_, fun i => ?_, fun i hi => ?_, fun i hi => ?_, fun k hk => ?_, fun k => ?_, ?_,
      fun k => ?_, fun top hct hl => ?_⟩
    · rw [h2.rest, h1.rest]
    · rw [h2.file i, h1.file i]
    · rw [h2.other i (by simp_all), h1.other i (by simp_all)]
    · rcases List.mem_cons.mp hi with rfl | hi
      · rw [← h1.list i (by simp)]
        refine exts_congr (by rw [hfa]) fun k hk => ?_
        rw [hfa] at hk ⊢
        exact h2.below _ (by omega)
      · rw [h2.list i hi]
        refine exts_congr (by rw [hfile i hi]) fun k hk => ?_
        rw [hfile i hi]
        have := hcb i hi
        exact hup _ (by omega)
    · rw [h2.below k (by omega), h1.below k hk]
    · rw [h2.bits k, h1.bits k, Bool.or_assoc, ← Bool.decide_or]
      congr 2
      simp only [eq_iff_iff]
      omega
    · have hsum : (l.map fun i => (w1.files i).extCap) = l.map fun i => (w.files i).extCap :=
        List.map_congr_left fun b hb => by rw [hfile b hb]
      rw [List.map_cons, List.sum_cons, ← hsum, h2.cursor, hc1, Nat.add_assoc]
    · rw [List.map_cons, List.sum_cons, h2.slots k, hfa, hoff, hcap, hc1, inSlice_append]
      congr 1
      omega
    · refine h2.ends top (h1.ends top hct fun b hb => hl b ?_) fun b hb => ?_
      · rw [List.mem_singleton.mp hb]
        exact List.mem_cons_self
      · rw [hfile b hb]
        exact hl b (List.mem_cons_of_mem a hb)

/-- The slots all files hold together. -/
def totalCap (v : Vol) : ℕ :=
  ∑ i ∈ Finset.range inodes, if (v.files i).used then (v.files i).extCap else 0

section Capacity

theorem mem_slice_iff (hu : (v.files i).used = true) :
    0 < fileSlots (v.files i) k ↔ (v.files i).extOff ≤ k ∧
      k < (v.files i).extOff + (v.files i).extCap := by
  rw [fileSlots, if_pos hu, inSlice_pos_iff]

theorem sum_inSlice (h : 0 < cap → off + cap ≤ N) :
    ∑ k ∈ Finset.range N, inSlice off cap k = cap := by
  rcases Nat.eq_zero_or_pos cap with rfl | hpos
  · exact Finset.sum_eq_zero fun k _ => if_neg (by omega)
  · have hfilter : (Finset.range N).filter (fun k => off ≤ k ∧ k < off + cap) =
        Finset.Ico off (off + cap) := by
      ext k
      have := h hpos
      simp only [Finset.mem_filter, Finset.mem_range, Finset.mem_Ico]
      omega
    simp only [inSlice]
    rw [← Finset.sum_filter, hfilter, Finset.sum_const, Nat.card_Ico]
    simp

/-- The slices of a pool fit into it together. -/
theorem PoolInv.totalCap_le (h : PoolInv v slice) : totalCap v + slice.2 ≤ poolExt := by
  have hin : ∀ k, 0 < inSlice slice.1 slice.2 k → k < poolExt := by
    intro k hpos
    have hled := h.ledger k
    by_contra hk
    rw [if_neg (by omega)] at hled
    omega
  have hslice : ∑ k ∈ Finset.range poolExt, inSlice slice.1 slice.2 k = slice.2 := by
    refine sum_inSlice fun hpos => ?_
    have := hin (slice.1 + slice.2 - 1) (inSlice_pos_iff.mpr (by omega))
    omega
  have hfiles : ∑ k ∈ Finset.range poolExt, poolCount v k = totalCap v := by
    simp only [poolCount]
    rw [Finset.sum_comm]
    refine Finset.sum_congr rfl fun i hi => ?_
    by_cases hu : (v.files i).used = true
    · simp only [fileSlots, hu, if_true]
      refine sum_inSlice fun hpos => ?_
      have := h.slot_lt (Finset.mem_range.mp hi)
        ((mem_slice_iff (k := (v.files i).extOff + (v.files i).extCap - 1) hu).mpr (by omega))
      omega
    · simp [fileSlots, hu]
  calc totalCap v + slice.2 = ∑ k ∈ Finset.range poolExt,
      (poolCount v k + inSlice slice.1 slice.2 k) := by
        rw [Finset.sum_add_distrib, hfiles, hslice]
    _ ≤ ∑ _k ∈ Finset.range poolExt, 1 := Finset.sum_le_sum fun k _ => h.count_le k
    _ = poolExt := by simp

end Capacity

/-- The part of the record apart from the group map, the files and the pool. -/
structure VolCore where
  dev : ℕ
  gmDev : ℕ
  spb : ℕ
  total : ℕ
  gen : ℕ
  itabStart : ℕ
  mounted : Bool
  broken : Bool
  dirty : Bool
  defer : List ExfsExtent

/-- The core of a record. -/
def Vol.core (v : Vol) : VolCore :=
  ⟨v.dev, v.gmDev, v.spb, v.total, v.gen, v.itabStart, v.mounted, v.broken, v.dirty, v.defer⟩

/-- Two volumes with the same files, up to the places of the extent lists. -/
structure PoolMoved (v v' : Vol) : Prop where
  core : v'.core = v.core
  file : ∀ i, v'.files i = { v.files i with extOff := (v'.files i).extOff }
  list : ∀ i < inodes, (v.files i).used = true → (v.files i).n ≤ (v.files i).extCap →
    exts v' i = exts v i

theorem PoolMoved.refl (v : Vol) : PoolMoved v v := ⟨rfl, fun _ => rfl, fun _ _ _ _ => rfl⟩

theorem PoolMoved.mark (h : PoolMoved v v') (off cap : ℕ) (on : Bool) :
    PoolMoved v (poolMark v' off cap on) :=
  ⟨h.core, h.file, h.list⟩

/-- A sum over the slice owners is a sum over all inodes. -/
theorem sum_compactOrder (v : Vol) (F : ℕ → ℕ) (hF : ∀ i < inodes, i ∉ sliceOwners v → F i = 0) :
    ((compactOrder v).map F).sum = ∑ i ∈ Finset.range inodes, F i := by
  have hnd : (sliceOwners v).Nodup := List.nodup_range.filter _
  rw [((compactOrder_spec v).1.map F).sum_eq, ← List.sum_toFinset F hnd]
  refine Finset.sum_subset (fun i hi => ?_) fun i hlt hi => ?_
  · exact Finset.mem_range.mpr (mem_sliceOwners.mp (List.mem_toFinset.mp hi)).1
  · exact hF i (Finset.mem_range.mp hlt) fun h => hi (List.mem_toFinset.mpr h)

/-- A file that owns no slice holds no slot. -/
theorem extCap_eq_zero (hi : i < inodes) (h : i ∉ sliceOwners v) (hu : (v.files i).used = true) :
    (v.files i).extCap = 0 := by
  by_contra hc
  exact h (mem_sliceOwners.mpr ⟨hi, hu, by omega⟩)

section Compact

variable (h : PoolInv v (0, 0))

include h

/-- The owners in offset order have their slices one after the other. -/
theorem PoolInv.compactOrder_ends :
    (compactOrder v).Pairwise fun a b => sliceEnd (v.files a) ≤ (v.files b).extOff := by
  obtain ⟨hperm, hsort⟩ := compactOrder_spec v
  have hnd : (compactOrder v).Nodup := hperm.nodup_iff.mpr (List.nodup_range.filter _)
  refine (hsort.and hnd).imp_of_mem fun {a b} ha hb hab => ?_
  obtain ⟨hle, hne⟩ := hab
  obtain ⟨ha1, ha2, ha3⟩ := mem_sliceOwners.mp (hperm.mem_iff.mp ha)
  obtain ⟨hb1, hb2, hb3⟩ := mem_sliceOwners.mp (hperm.mem_iff.mp hb)
  -- the first slot of `b` is not one of `a`
  have hslot : 0 < fileSlots (v.files b) (v.files b).extOff := by
    rw [fileSlots, if_pos hb2, inSlice_pos_iff]
    omega
  have hz := h.disjoint hb1 ha1 (Ne.symm hne) hslot
  rw [fileSlots, if_pos ha2] at hz
  have hnot : ¬ ((v.files a).extOff ≤ (v.files b).extOff ∧
      (v.files b).extOff < (v.files a).extOff + (v.files a).extCap) :=
    fun hc => absurd (inSlice_pos_iff.mpr hc) (by omega)
  unfold sliceEnd
  omega

/-- The last slot of a slice is in the pool. -/
theorem PoolInv.sliceEnd_le (ha : a ∈ sliceOwners v) : sliceEnd (v.files a) ≤ poolExt := by
  obtain ⟨h1, h2, h3⟩ := mem_sliceOwners.mp ha
  have := h.slot_lt (i := a) (k := sliceEnd (v.files a) - 1) h1
    (by rw [fileSlots, if_pos h2, inSlice_pos_iff, sliceEnd]; omega)
  omega

/-- **`pool_compact`** keeps every list and packs the slices at the bottom. -/
theorem poolCompact_spec : PoolMoved v (poolCompact v) ∧ PoolInv (poolCompact v) (0, 0) ∧
    ((poolCompact v).gm = v.gm ∧ (poolCompact v).hint = v.hint) ∧
    (∀ k, (poolCompact v).poolUsed k = decide (k < totalCap v)) ∧ totalCap v ≤ poolExt := by
  have hperm := (compactOrder_spec v).1
  have hmem : ∀ a, a ∈ compactOrder v → a ∈ sliceOwners v := fun a ha => hperm.mem_iff.mp ha
  have hnd : (compactOrder v).Nodup := hperm.nodup_iff.mpr (List.nodup_range.filter _)
  have hp := compact_foldl (compactOrder v) { v with poolUsed := fun _ => false } 0 hnd
    h.compactOrder_ends (fun a _ => Nat.zero_le _) fun a ha =>
      let ho := mem_sliceOwners.mp (hmem a ha)
      h.fits a ho.1 ho.2.1 ho.2.2
  generalize hr : List.foldl compactStep ({ v with poolUsed := fun _ => false }, 0)
    (compactOrder v) = r at hp
  have hcomp : poolCompact v = r.1 := by rw [← hr]; rfl
  rw [hcomp]
  have husd : ∀ i, (r.1.files i).used = (v.files i).used := fun i => by rw [hp.file i]
  have htot : r.2 = totalCap v := by
    rw [hp.cursor, Nat.zero_add, totalCap, ← sum_compactOrder v]
    · refine congrArg List.sum (List.map_congr_left fun i hi => ?_)
      rw [if_pos (mem_sliceOwners.mp (hmem i hi)).2.1]
    · intro i hi hni
      split
      · exact extCap_eq_zero hi hni ‹_›
      · rfl
  have hcount : ∀ k, poolCount r.1 k = inSlice 0 r.2 k := by
    intro k
    rw [poolCount, ← sum_compactOrder v, ← Nat.sub_zero r.2, ← hp.slots k]
    · refine congrArg List.sum (List.map_congr_left fun i hi => ?_)
      rw [fileSlots, husd, if_pos (mem_sliceOwners.mp (hmem i hi)).2.1]
    · intro i hi hni
      rw [fileSlots, husd]
      split
      · rw [show (r.1.files i).extCap = (v.files i).extCap by rw [hp.file i],
          extCap_eq_zero hi hni ‹_›, inSlice, if_neg (by omega)]
      · rfl
  have hbits : ∀ k, r.1.poolUsed k = decide (k < r.2) := by
    intro k
    rw [hp.bits k]
    simp
  have hend : r.2 ≤ poolExt :=
    hp.ends poolExt (Nat.zero_le _) fun a ha => h.sliceEnd_le (hmem a ha)
  refine ⟨⟨by rw [hp.rest]; rfl, hp.file, fun i hi hu hle => ?_⟩,
    ⟨fun k => ?_, fun i hi hu hpos => ?_⟩,
    by rw [hp.rest]; exact ⟨rfl, rfl⟩, fun k => ?_, ?_⟩
  · by_cases hio : i ∈ compactOrder v
    · exact hp.list i hio
    · -- a file without a slice has no extents
      have hz := extCap_eq_zero hi (fun h => hio (hperm.mem_iff.mpr h)) hu
      refine exts_congr (by rw [hp.other i hio]) fun k hk => ?_
      rw [hp.other i hio] at hk
      simp only at hk
      omega
  · rw [hcount k, hbits k]
    simp only [inSlice, decide_eq_true_eq]
    split_ifs <;> omega
  · rw [hp.file i] at hpos ⊢
    exact h.fits i hi (by rw [← husd]; exact hu) hpos
  · rw [hbits, htot]
  · rw [← htot]
    exact hend

end Compact

/-! ## Reserving -/

/-- A free run taken is one more slice. -/
theorem PoolInv.mark (h : PoolInv v (0, 0)) (hend : off + cap ≤ poolExt)
    (hfree : ∀ k, off ≤ k → k < off + cap → v.poolUsed k = false) :
    PoolInv (poolMark v off cap true) (off, cap) := by
  refine ⟨fun k => ?_, h.fits⟩
  have hk := h.ledger k
  have hz : inSlice 0 0 k = 0 := by simp [inSlice]
  have hc : poolCount (poolMark v off cap true) k = poolCount v k := rfl
  simp only [hz] at hk
  rw [hc]
  simp only [poolMark, inSlice]
  by_cases hin : off ≤ k ∧ k < off + cap
  · rw [hfree k hin.1 hin.2] at hk
    simp only [hin, and_self, if_true]
    rw [if_neg (by simp)] at hk
    rw [if_pos (by simp; omega)]
    omega
  · simp only [hin, if_false]
    exact hk

theorem poolCompact_core (v : Vol) : (poolCompact v).core = v.core := by
  have hfold : ∀ (l : List ℕ) (r : Vol × ℕ), (l.foldl compactStep r).1.core = r.1.core := by
    intro l
    induction l with
    | nil => exact fun _ => rfl
    | cons i l ih =>
      intro r
      rw [List.foldl_cons, ih]
      simp only [compactStep, poolMark, setFile]
      split <;> rfl
  exact hfold _ _

/-- `pool_reserve` keeps whatever depends on the devices and the scalars of the volume only. -/
theorem preserves_poolReserve {P : St → Prop} (h : ∀ s v, v.core = s.v.core → P s → P ⟨s.disks, v⟩)
    (n : ℕ) : Preserves (poolReserve n) P := by
  have hmark : ∀ r : ℕ × ℕ, Preserves (do modV fun v => poolMark v r.1 r.2 true; pure r :
      FsProg (ℕ × ℕ)) P :=
    fun r => Preserves.bind (Preserves.modify fun s hs => h s _ rfl hs) fun _ => Preserves.pure _
  refine Preserves.ite (Preserves.pure _) (Preserves.get fun s hs => ?_)
  cases poolFind s.v.poolUsed (sliceCapFor n) with
  | some off => exact hmark (off, sliceCapFor n) s hs
  | none =>
    refine Preserves.bind (P := P) (Preserves.modify fun t ht => h t _ (poolCompact_core t.v) ht)
      (fun _ => Preserves.get fun t ht => ?_) s hs
    cases poolFind t.v.poolUsed (sliceCapFor n) with
    | some off => exact hmark (off, sliceCapFor n) t ht
    | none => exact ht

/-- A slice given back is free again. -/
theorem PoolInv.unmark (h : PoolInv v slice) : PoolInv (poolRelease v slice.1 slice.2) (0, 0) := by
  refine ⟨fun k => ?_, h.fits⟩
  have hk := h.ledger k
  have hc : poolCount (poolRelease v slice.1 slice.2) k = poolCount v k := rfl
  rw [hc]
  simp only [poolRelease, poolMark, inSlice] at hk ⊢
  by_cases hin : slice.1 ≤ k ∧ k < slice.1 + slice.2
  · simp only [hin, and_self, if_true] at hk ⊢
    split_ifs at hk
    simp
    omega
  · simp only [hin, if_false] at hk ⊢
    simpa using hk

/-- What `pool_reserve` leaves, with the slice it returns. -/
structure Reserved (n : ℕ) (s : St) (r : ℕ × ℕ) (s' : St) : Prop where
  disks : s'.disks = s.disks
  gm : s'.v.gm = s.v.gm
  hint : s'.v.hint = s.v.hint
  moved : PoolMoved s.v s'.v
  inv : PoolInv s'.v r
  cap : r.2 = capFor n

/-- **`pool_reserve`**: a slice of the list's capacity; it fails only when the
capacities in use leave no room. -/
theorem wp_poolReserve {s : St} {Q : (ℕ × ℕ) → St → Prop} {E : ExfsError → St → Prop}
    (h : PoolInv s.v (0, 0)) (hQ : ∀ r s', Reserved n s r s' → Q r s')
    (hE : ∀ s', s'.disks = s.disks → s'.v.gm = s.v.gm → s'.v.hint = s.v.hint →
      PoolMoved s.v s'.v → PoolInv s'.v (0, 0) → poolExt < totalCap s.v + capFor n →
      E .enomem s') : (poolReserve n).wp Q E s := by
  rw [poolReserve]
  by_cases hz : n = 0
  · rw [if_pos hz, wp_pure]
    exact hQ _ _ ⟨rfl, rfl, rfl, PoolMoved.refl _, h, by simp [capFor, hz]⟩
  have hcap : 0 < sliceCapFor n := sliceCapFor_pos n
  have hcf : capFor n = sliceCapFor n := by simp [capFor, hz]
  rw [if_neg hz]
  simp only [wp_bind, wp_get]
  cases hf : poolFind s.v.poolUsed (sliceCapFor n) with
  | some off =>
    obtain ⟨hend, hfree⟩ := poolFind_some hcap hf
    simp only [wp_bind, modV, wp_modify, wp_pure]
    exact hQ _ _ ⟨rfl, rfl, rfl, (PoolMoved.refl _).mark _ _ _, h.mark hend hfree, hcf.symm⟩
  | none =>
    obtain ⟨hmoved, hinv, ⟨hgm, hhint⟩, hbits, hle⟩ := poolCompact_spec h
    simp only [wp_bind, modV, wp_modify, wp_get]
    cases hf2 : poolFind (poolCompact s.v).poolUsed (sliceCapFor n) with
    | some off =>
      obtain ⟨hend, hfree⟩ := poolFind_some hcap hf2
      simp only [wp_bind, wp_modify, wp_pure]
      exact hQ _ _ ⟨rfl, hgm, hhint, hmoved.mark _ _ _, hinv.mark hend hfree, hcf.symm⟩
    | none =>
      rw [wp_throw]
      refine hE _ rfl hgm hhint hmoved hinv ?_
      by_contra hroom
      refine poolFind_ne_none (a := totalCap s.v) hcap (by omega) (fun k hk _ => ?_) hf2
      rw [hbits]
      exact decide_eq_false (by omega)

/-! ## Giving a file another slice -/

/-- The bit of slot `k`, as a count. -/
def slotBit (v : Vol) (k : ℕ) : ℕ := if k < poolExt ∧ v.poolUsed k = true then 1 else 0

section Replace

/-- The ledger after file `i` changed its slice. -/
theorem PoolInv.replace (h : PoolInv v slice) (hi : i < inodes)
    (hother : ∀ j < inodes, j ≠ i → v'.files j = v.files j)
    (hbits : ∀ k, slotBit v' k + fileSlots (v.files i) k + inSlice slice.1 slice.2 k =
      slotBit v k + fileSlots (v'.files i) k + inSlice slice'.1 slice'.2 k)
    (hfit : (v'.files i).used = true → 0 < (v'.files i).extCap →
      (v'.files i).n ≤ (v'.files i).extCap) : PoolInv v' slice' := by
  refine ⟨fun k => ?_, fun j hj hu hpos => ?_⟩
  · have hsum : poolCount v' k + fileSlots (v.files i) k =
        poolCount v k + fileSlots (v'.files i) k := by
      have hup : ∀ j ∈ Finset.range inodes, fileSlots (v'.files j) k =
          fileSlots (update v.files i (v'.files i) j) k := by
        intro j hj
        by_cases hji : j = i
        · rw [hji, update_self]
        · rw [update_of_ne hji, hother j (Finset.mem_range.mp hj) hji]
      rw [poolCount, Finset.sum_congr rfl hup]
      exact sum_update_add v.files (v'.files i) (fun _ f => fileSlots f k) hi
    have h1 := h.ledger k
    have h2 := hbits k
    unfold slotBit at h2
    omega
  · by_cases hji : j = i
    · rw [hji] at hu hpos ⊢
      exact hfit hu hpos
    · rw [hother j hj hji] at hu hpos ⊢
      exact h.fits j hj hu hpos

/-- A file's slice is marked. -/
theorem PoolInv.slotBit_of_slot (h : PoolInv v slice) (hi : i < inodes)
    (hk : 0 < fileSlots (v.files i) k) : slotBit v k = 1 := by
  have h1 := le_sum (fun i => fileSlots (v.files i) k) hi
  have h2 := h.ledger k
  unfold poolCount at h2
  unfold slotBit
  split at h2
  · rw [if_pos ‹_›]
  · omega

/-- Dropping a file's slice. -/
theorem PoolInv.drop (h : PoolInv v slice) (hi : i < inodes) (hu : (v.files i).used = true)
    {f : ExfsFile} (hf : f.extCap = 0) :
    PoolInv (setFile (poolRelease v (v.files i).extOff (v.files i).extCap) i f) slice := by
  refine h.replace hi (fun j _ hji => ?_) (fun k => ?_) fun _ hpos => ?_
  · exact update_of_ne hji _ _
  · have hnew : fileSlots
      ((setFile (poolRelease v (v.files i).extOff (v.files i).extCap) i f).files i)
        k = 0 := by
      simp only [setFile, update_self, fileSlots, hf]
      split
      · rw [inSlice, if_neg (by omega)]
      · rfl
    rw [hnew]
    by_cases hk : (v.files i).extOff ≤ k ∧ k < (v.files i).extOff + (v.files i).extCap
    · have hold : fileSlots (v.files i) k = 1 := by
        rw [fileSlots, if_pos hu, inSlice, if_pos hk]
      rw [h.slotBit_of_slot hi (by omega), hold]
      have hz : slotBit (setFile (poolRelease v (v.files i).extOff (v.files i).extCap) i f) k =
          0 := by
        simp [slotBit, setFile, poolRelease, poolMark, hk]
      omega
    · have hold : fileSlots (v.files i) k = 0 := by
        rw [fileSlots, if_pos hu, inSlice, if_neg hk]
      have hz : slotBit (setFile (poolRelease v (v.files i).extOff (v.files i).extCap) i f) k =
          slotBit v k := by
        simp only [slotBit, setFile, poolRelease, poolMark, if_neg hk]
      omega
  · simp [setFile, hf] at hpos

/-- A file without slots takes the reserved slice. -/
theorem PoolInv.give (h : PoolInv v slice) (hi : i < inodes)
    (hfile : ∀ k, fileSlots (v.files i) k = 0)
    (hother : ∀ j < inodes, j ≠ i → v'.files j = v.files j) (hbits : v'.poolUsed = v.poolUsed)
    (hu : (v'.files i).used = true) (hoff : (v'.files i).extOff = slice.1)
    (hcap : (v'.files i).extCap = slice.2) (hn : (v'.files i).n ≤ slice.2) : PoolInv v' (0, 0) := by
  refine h.replace hi hother (fun k => ?_) fun _ _ => hn.trans_eq hcap.symm
  have hz : inSlice 0 0 k = 0 := by rw [inSlice, if_neg (by omega)]
  have hb : slotBit v' k = slotBit v k := by rw [slotBit, slotBit, hbits]
  rw [hb, hfile k, hz, fileSlots, if_pos hu, hoff, hcap]
  omega

end Replace

/-! ## Storing a list -/

section Store

variable {es : List ExfsExtent}

/-- A list stored in the reserved slice does not touch another file's. -/
theorem PoolInv.store_other (h : PoolInv v slice) (hi : i < inodes) (hu : (v.files i).used = true)
    (hn : (v.files i).n ≤ (v.files i).extCap) (hlen : es.length ≤ slice.2) :
    ∀ k < (v.files i).n,
      storeExts v.pool slice.1 es ((v.files i).extOff + k) = v.pool ((v.files i).extOff + k) := by
  intro k hk
  have hz := h.disjoint_slice hi (list_slot hu hn hk)
  rw [storeExts, if_neg]
  intro hin
  have : 0 < inSlice slice.1 slice.2 ((v.files i).extOff + k) := inSlice_pos_iff.mpr (by omega)
  omega

/-- A stored list reads back. -/
theorem exts_store {p : ℕ → ExfsExtent} (hp : v.pool = storeExts p off es)
    (hoff : (v.files i).extOff = off) (hn : (v.files i).n = es.length) : exts v i = es := by
  refine List.ext_getElem (by simp [exts, hn]) fun k h1 h2 => ?_
  simp only [exts, List.getElem_map, List.getElem_range, hp, hoff, storeExts]
  rw [if_pos (by omega), Nat.add_sub_cancel_left, List.getD_eq_getElem _ _ h2]

end Store

end Xasmos.Exfs
