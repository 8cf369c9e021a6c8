import Mathlib.Order.Bounds.Basic
import Xasmos.Exfs.Admit
import Xasmos.Exfs.Tables

/-!
# The extent pool in every run

The slices of the files are kept apart on any device: nothing the pool depends on comes from a disk
except the number of extents of an inode, and that is bounded when the inode is decoded.  So the
invariant of the pool holds in every mounted state, whatever was mounted and whichever requests
fail; only the blocks that the extents name are a matter of the device.

## Main results

* `run_pool` — the slices of a mounted volume, and what `pool_compact` and `pool_reserve` do to
  them.
-/

namespace Xasmos.Exfs

open Bytes Prog
open Function (update update_self update_of_ne)

variable {P : St → Prop} {d i k n : ℕ} {fresh st : List ExfsExtent} {op : Op} {s s' t : St}
  {slice slice' : ℕ × ℕ} {v v' : Vol}

/-! ## Capacities -/

theorem sliceCapFrom_isLeast (k j : ℕ) (hn : n ≤ 2 ^ (j + k)) :
    IsLeast {c | (∃ m, j ≤ m ∧ c = 2 ^ m) ∧ n ≤ c} (sliceCapFrom n k (2 ^ j)) := by
  induction k generalizing j with
  | zero =>
    refine ⟨⟨⟨j, le_rfl, rfl⟩, hn⟩, ?_⟩
    rintro c ⟨⟨m, hm, rfl⟩, -⟩
    exact Nat.pow_le_pow_right Nat.two_pos hm
  | succ k ih =>
    rw [sliceCapFrom]
    split
    next hlt =>
      have hnext := ih (j + 1) (by rwa [Nat.add_right_comm])
      rw [pow_succ] at hnext
      refine ⟨⟨?_, hnext.1.2⟩, ?_⟩
      · obtain ⟨m, hm, hc⟩ := hnext.1.1
        exact ⟨m, by omega, hc⟩
      · -- the next power up is the first that can hold the list
        rintro c ⟨⟨m, hm, rfl⟩, hle⟩
        refine hnext.2 ⟨⟨m, ?_, rfl⟩, hle⟩
        rcases Nat.lt_or_eq_of_le hm with h | rfl
        · exact h
        · omega
    next hge =>
      refine ⟨⟨⟨j, le_rfl, rfl⟩, not_lt.mp hge⟩, ?_⟩
      rintro c ⟨⟨m, hm, rfl⟩, -⟩
      exact Nat.pow_le_pow_right Nat.two_pos hm

/-- `slice_cap_for`: the smallest power of two from 8 on that holds the list. -/
theorem sliceCapFor_isLeast (hn : n ≤ 2 ^ 31) :
    IsLeast {c | (∃ m, c = 2 ^ m) ∧ 8 ≤ c ∧ n ≤ c} (sliceCapFor n) := by
  have hset : {c | (∃ m, 3 ≤ m ∧ c = 2 ^ m) ∧ n ≤ c} = {c | (∃ m, c = 2 ^ m) ∧ 8 ≤ c ∧ n ≤ c} := by
    ext c
    constructor
    · rintro ⟨⟨m, hm, rfl⟩, hle⟩
      exact ⟨⟨m, rfl⟩, Nat.pow_le_pow_right Nat.two_pos hm, hle⟩
    · rintro ⟨⟨m, rfl⟩, h8, hle⟩
      refine ⟨⟨m, ?_, rfl⟩, hle⟩
      by_contra hm
      have hsmall : 2 ^ m ≤ 2 ^ 2 := Nat.pow_le_pow_right Nat.two_pos (by omega)
      omega
  have hleast := sliceCapFrom_isLeast 29 3
    (le_trans hn (Nat.pow_le_pow_right Nat.two_pos (by omega)))
  rw [hset] at hleast
  exact hleast

/-! ## The invariant -/

/-- The pool of a volume, with one more slice reserved: every file has the capacity of its list. -/
structure PoolOk (v : Vol) (slice : ℕ × ℕ) : Prop where
  pool : PoolInv v slice
  file : ∀ i < inodes, (v.files i).used = true → (v.files i).n ≤ maxExt ∧
    (v.files i).extCap = capFor (v.files i).n

section Inv

/-- What a file has of the pool. -/
def poolPart (f : ExfsFile) : Bool × ℕ × ℕ × ℕ := (f.used, f.n, f.extOff, f.extCap)

/-- The invariant reads the slices and the bitmap. -/
theorem PoolOk.congr (h : PoolOk v slice)
    (hfile : ∀ i < inodes, poolPart (v'.files i) = poolPart (v.files i))
    (hbits : v'.poolUsed = v.poolUsed) : PoolOk v' slice := by
  have heq : ∀ i < inodes, (v'.files i).used = (v.files i).used ∧ (v'.files i).n = (v.files i).n ∧
      (v'.files i).extOff = (v.files i).extOff ∧ (v'.files i).extCap = (v.files i).extCap := by
    intro i hi
    have h1 := hfile i hi
    simpa only [poolPart, Prod.mk.injEq] using h1
  have hcount : ∀ k, poolCount v' k = poolCount v k := by
    intro k
    refine Finset.sum_congr rfl fun i hi => ?_
    obtain ⟨hu, -, ho, hc⟩ := heq i (Finset.mem_range.mp hi)
    rw [fileSlots, fileSlots, hu, ho, hc]
  refine ⟨⟨fun k => ?_, fun i hi => ?_⟩, fun i hi => ?_⟩
  · rw [hcount, hbits]
    exact h.pool.ledger k
  · obtain ⟨hu, hn, -, hc⟩ := heq i hi
    rw [hu, hn, hc]
    exact h.pool.fits i hi
  · obtain ⟨hu, hn, -, hc⟩ := heq i hi
    rw [hu, hn, hc]
    exact h.file i hi

theorem tablesOnly_poolOk (slice : ℕ × ℕ) : TablesOnly fun s => PoolOk s.v slice := by
  intro s s' hv h
  have hf := congrArg Tables.files hv
  exact h.congr (fun i _ => by rw [show s'.v.files = s.v.files from hf])
    (congrArg Tables.poolUsed hv)

theorem PoolOk.le_cap (h : PoolOk v slice) (hi : i < inodes) (hu : (v.files i).used = true) :
    (v.files i).n ≤ (v.files i).extCap := by
  obtain ⟨hn, hcap⟩ := h.file i hi hu
  rw [hcap]
  exact le_capFor hn

/-- A reserved slice, with the lists possibly moved. -/
theorem PoolOk.reserved (h : PoolOk s.v (0, 0)) (hr : Reserved n s slice s') :
    PoolOk s'.v slice := by
  refine ⟨hr.inv, fun i hi hu => ?_⟩
  rw [hr.moved.file i] at hu ⊢
  exact h.file i hi hu

/-- Replacing the slice of one file. -/
theorem PoolOk.replace (h : PoolOk v slice) (hp : PoolInv v' slice')
    (hother : ∀ j < inodes, j ≠ i → v'.files j = v.files j)
    (hfile : (v'.files i).used = true → (v'.files i).n ≤ maxExt ∧
      (v'.files i).extCap = capFor (v'.files i).n) :
    PoolOk v' slice' := by
  refine ⟨hp, fun j hj hu => ?_⟩
  by_cases hji : j = i
  · subst hji
    exact hfile hu
  · rw [hother j hj hji] at hu ⊢
    exact h.file j hj hu

/-- `defer_file` gives the slice back. -/
theorem PoolOk.deferred (h : PoolOk s.v slice) (hi : i < inodes) (hu : (s.v.files i).used = true) :
    PoolOk (deferred s i).v slice := by
  refine h.replace (i := i) ?_ (fun j _ hji => update_of_ne hji _ _) fun _ => ?_
  · exact PoolInv.drop (v := deferVol s.v i) ⟨h.pool.ledger, h.pool.fits⟩ hi hu rfl
  · rw [deferred_file]
    exact ⟨Nat.zero_le _, rfl⟩

/-- The end of a write: the old slice is given back and the new list is installed. -/
theorem PoolOk.installed (D : List ExfsExtent) (size : ℕ) (h : PoolOk t.v slice) (hi : i < inodes)
    (hu : (t.v.files i).used = true) (hlen : st.length ≤ maxExt)
    (hcap : slice.2 = capFor st.length) : PoolOk (installed t i slice D st size).v (0, 0) := by
  have hle : st.length ≤ slice.2 := by
    rw [hcap]
    exact le_capFor hlen
  refine h.replace (i := i) ?_ (fun j _ hji => update_of_ne hji _ _) fun _ => ?_
  · have hdrop := h.pool.drop hi hu (f := { t.v.files i with extCap := 0 }) rfl
    refine hdrop.give hi (fun k => ?_) (fun j _ hji => ?_) rfl ?_ ?_ ?_ ?_
    · simp [setFile, fileSlots, inSlice]
    · simp [Exfs.installed, setFile, poolRelease, poolMark, hji]
    · rw [installed_file]
      exact hu
    · rw [installed_file]
    · rw [installed_file]
    · rw [installed_file]
      exact hle
  · rw [installed_file]
    exact ⟨hlen, hcap⟩

end Inv

/-! ## Calls -/

section Calls

variable {name : CStr}

/-- The pool between calls. -/
abbrev PoolSt (s : St) : Prop := PoolOk s.v (0, 0)

/-- File `i` is in use while a slice is reserved for it. -/
structure Holding (i : ℕ) (slice : ℕ × ℕ) (t : St) : Prop where
  ok : PoolOk t.v slice
  used : (t.v.files i).used = true

theorem tablesOnly_holding (i : ℕ) (slice : ℕ × ℕ) : TablesOnly (Holding i slice) := by
  intro s s' hv h
  refine ⟨tablesOnly_poolOk slice s s' hv h.ok, ?_⟩
  rw [show s'.v.files = s.v.files from congrArg Tables.files hv]
  exact h.used

/-- The deferred list has room for the blocks of file `i`. -/
def Room (i : ℕ) (t : St) : Prop := t.v.defer.length + ((t.v.files i).n + (t.v.files i).nchain) ≤
    deferMax

theorem tablesOnly_room (i : ℕ) : TablesOnly (Room i) := by
  intro s s' hv h
  rw [Room, show s'.v.files = s.v.files from congrArg Tables.files hv,
    show s'.v.defer = s.v.defer from congrArg Tables.defer hv]
  exact h

theorem TablesOnly.and {Q : St → Prop} (hP : TablesOnly P) (hQ : TablesOnly Q) :
    TablesOnly fun s => P s ∧ Q s :=
  fun s s' hv h => ⟨hP s s' hv h.1, hQ s s' hv h.2⟩

theorem Holding.reserved (h : Holding i (0, 0) s) (hr : Reserved n s slice s') :
    Holding i slice s' := by
  refine ⟨h.ok.reserved hr, ?_⟩
  rw [hr.moved.file i]
  exact h.used

theorem Room.reserved (h : Room i s) (hr : Reserved n s slice s') : Room i s' := by
  have hdefer : s'.v.defer = s.v.defer := congrArg VolCore.defer hr.moved.core
  rw [Room, hdefer, hr.moved.file i]
  exact h

/-- Reserving for a list, or failing with the fresh blocks given back. -/
theorem wp_reserveFresh (h : PoolSt s) {Q : ℕ × ℕ → St → Prop}
    (hQ : ∀ slice s', Reserved n s slice s' → Q slice s') :
    (orRelease fresh .enomem (poolReserve n)).wp Q (fun _ => PoolSt) s := by
  refine wp_orRelease (wp_poolReserve h.pool hQ fun s' _ _ _ hmoved hinv _ => ?_)
  refine tables_releaseFresh (tablesOnly_poolOk (0, 0)) fresh s' ⟨hinv, fun i hi hu => ?_⟩
  rw [hmoved.file i] at hu ⊢
  exact h.file i hi hu

/-- A part that fails gives slice and fresh blocks back. -/
theorem wp_undoSlice {α : Type} {x : FsProg α} (hP : ∀ t, P t → Holding i slice t)
    (hx : Preserves x P) (h : P s) {Q : α → St → Prop} (hQ : ∀ a t, P t → Q a t) :
    (orUndo fresh slice x).wp Q (fun _ => PoolSt) s := by
  rw [orUndo, wp_bind, wp_attempt]
  refine wp_mono (hx s h) (fun a t _ ht => hQ a t ht) fun _ t _ ht => ?_
  have hok := (hP t ht).ok
  simp only [modV, wp_bind, wp_modify]
  exact tables_releaseFresh (tablesOnly_poolOk (0, 0)) fresh _ ⟨hok.pool.unmark, hok.file⟩

theorem poolSt_makeNode (bytes : List UInt8) (type : ℕ) :
    Preserves (makeNode bytes type) PoolSt := by
  refine Preserves.get fun s h => ?_
  cases hfind : (List.range inodes).find? fun i => !(s.v.files i).used with
  | none => exact h
  | some i =>
    have hi := List.mem_range.mp (List.mem_of_find?_eq_some hfind)
    have hu : (s.v.files i).used = false := by simpa using List.find?_some hfind
    have hold : ∀ k, fileSlots (s.v.files i) k = 0 := fun k => by simp [fileSlots, hu]
    refine PoolOk.replace (i := i) h ?_ (fun j _ hji => update_of_ne hji _ _) fun _ => ?_
    · refine h.pool.give hi hold (fun j _ hji => update_of_ne hji _ _) rfl ?_ ?_ ?_ ?_
      all_goals simp [setFile]
    · simp [setFile, capFor]

theorem poolSt_newNode (name : CStr) (type : ℕ) : Preserves (newNode name type) PoolSt := by
  refine Preserves.bind preserves_requireLive fun _ => Preserves.get fun s h => ?_
  refine Preserves.bind (Preserves.failIf _ _) (fun _ => ?_) s h
  refine Preserves.bind (Preserves.failIf _ _) fun _ => ?_
  exact Preserves.bind (Preserves.failIf _ _) fun _ => poolSt_makeNode _ _

theorem poolSt_exfsDelete (name : CStr) : Preserves (exfsDelete name) PoolSt := by
  intro s h
  simp only [exfsDelete, wp_bind]
  refine wp_requireLive (fun _ _ => h) fun _ _ => ?_
  rw [wp_bind]
  refine wp_lookup (fun _ => h) fun i hfind => ?_
  obtain ⟨hi, hu, -⟩ := find_some hfind
  simp only [wp_bind, wp_get, wp_failIf]
  refine ⟨fun _ => h, fun _ => wp_deferFile (fun _ => h) ?_⟩
  simp only [modV, wp_modify]
  have hd := h.deferred hi hu
  refine PoolOk.replace (i := i) hd ?_ (fun j _ hji => update_of_ne hji _ _) fun hu' => ?_
  · refine hd.pool.replace hi (fun j _ hji => update_of_ne hji _ _) (fun k => ?_) fun hu' => ?_
    · have hfree : fileSlots ((deferred s i).v.files i) k = 0 := by
        rw [deferred_file]
        simp [fileSlots, inSlice]
      have hgone : fileSlots (update (deferred s i).v.files i
          { (deferred s i).v.files i with used := false, dirty := true } i) k = 0 := by
        simp [fileSlots]
      rw [hfree]
      exact congrArg (slotBit (deferred s i).v k + · + inSlice 0 0 k) hgone.symm
    · simp [setFile] at hu'
  · simp [setFile] at hu'

/-- **`exfs_write`** keeps the pool. -/
theorem poolSt_exfsWrite (name : CStr) (buf : Bytes) (len : ℕ) :
    Preserves (exfsWrite name buf len) PoolSt := by
  intro s h
  simp only [exfsWrite, wp_bind]
  refine wp_requireLive (fun _ _ => h) fun _ _ => ?_
  rw [wp_bind]
  refine wp_lookup (fun _ => h) fun i hfind => ?_
  obtain ⟨hi, hu, -⟩ := find_some hfind
  simp only [wp_bind, wp_get, wp_failIf]
  refine ⟨fun _ => h, fun _ => ?_⟩
  have hfresh := wp_and (tables_takeFresh (tablesOnly_holding i (0, 0)) _ maxExt 0 [] s ⟨h, hu⟩)
    (wp_takeFresh_length ((len + blockBytes - 1) % 2 ^ 64 / blockBytes) maxExt 0 [] s)
  refine wp_mono hfresh (fun fresh t _ ht => ?_) fun _ t _ ht => ht.1.ok
  obtain ⟨hhold, hlen⟩ := ht
  rw [List.length_nil, Nat.zero_add] at hlen
  simp only [wp_bind, wp_get, wp_ite]
  refine ⟨fun _ => ?_, fun hroom => ?_⟩
  · exact tables_releaseFresh (tablesOnly_poolOk (0, 0)) fresh t hhold.ok
  refine wp_reserveFresh hhold.ok fun slice t₂ hr => ?_
  have hroom₂ : Room i t₂ := Room.reserved (by unfold Room; omega) hr
  have hhold₂ := hhold.reserved hr
  have hP := (tablesOnly_holding i slice).and (tablesOnly_room i)
  rw [wp_bind]
  refine wp_undoSlice (fun t ht => ht.1) (tables_writeData hP buf (blocks fresh) 0 len)
    ⟨hhold₂, hroom₂⟩ fun _ t₃ h₃ => ?_
  obtain ⟨hhold₃, hroom₃⟩ := h₃
  rw [wp_bind, wp_attempt]
  refine wp_deferFile (fun hfull => ?_) ?_
  · unfold Room at hroom₃
    omega
  simp only [wp_bind, modV, wp_modify]
  have hdone := PoolOk.installed (deferVol t₃.v i).defer len hhold₃.ok hi hhold₃.used hlen hr.cap
  rw [← installed_deferred] at hdone
  exact hdone

theorem poolOk_deferPush (start len : ℕ) : Preserves (deferPush start len) (Holding i slice) := by
  refine Preserves.get fun s h => Preserves.ite (Preserves.throw _) ?_ s h
  exact Preserves.modify fun t ht => ⟨ht.ok.congr (fun _ _ => rfl) rfl, ht.used⟩

theorem poolOk_walkDefer (lo hi : ℕ) (es : List ExfsExtent) (lpos : ℕ) :
    Preserves (walkDefer lo hi es lpos) (Holding i slice) := by
  induction es generalizing lpos with
  | nil => exact Preserves.pure _
  | cons e es ih =>
    refine Preserves.ite (Preserves.pure _) ?_
    cases clip e lpos lo hi with
    | none => exact ih _
    | some r => exact Preserves.bind (poolOk_deferPush _ _) fun _ => ih _

theorem poolOk_deferChain (bs : List ℕ) :
    Preserves (exfsWriteAt.deferChain bs) (Holding i slice) := by
  induction bs with
  | nil => exact Preserves.pure _
  | cons b bs ih => exact Preserves.bind (poolOk_deferPush _ _) fun _ => ih

/-- **`exfs_write_at`** keeps the pool. -/
theorem poolSt_exfsWriteAt (name : CStr) (off : ℕ) (buf : Bytes) (len : ℕ) :
    Preserves (exfsWriteAt name off buf len) PoolSt := by
  intro s h
  simp only [exfsWriteAt, wp_bind]
  refine wp_requireLive (fun _ _ => h) fun _ _ => ?_
  rw [wp_bind]
  refine wp_lookup (fun _ => h) fun i hfind => ?_
  obtain ⟨hi, hu, -⟩ := find_some hfind
  simp only [wp_bind, wp_get, wp_failIf, wp_ite]
  refine ⟨fun _ => h, fun _ =>
    ⟨fun _ => h, fun _ => ⟨fun _ => h, fun _ => ⟨fun _ => h, fun _ => ⟨fun _ => h, fun _ => ?_⟩⟩⟩⟩⟩
  refine wp_mono (tables_takeFresh (tablesOnly_holding i (0, 0)) _ maxExt 0 [] s ⟨h, hu⟩)
    (fun fresh t _ hhold => ?_)
    fun _ t _ ht => ht.ok
  rw [wp_bind, wp_get]
  generalize ((exts s.v i).map ExfsExtent.len).sum = oldb
  cases hst : stageRange (exts t.v i) fresh (min (off / blockBytes) oldb)
    ((off + len - 1) / blockBytes) oldb with
  | error e =>
    exact Preserves.bind (tables_releaseFresh (tablesOnly_poolOk (0, 0)) fresh)
      (fun _ => Preserves.throw _) t hhold.ok
  | ok st =>
    have hlen := stageRange_length hst
    simp only [wp_bind]
    refine wp_reserveFresh hhold.ok fun slice t₂ hr => ?_
    rw [wp_bind]
    refine wp_undoSlice (fun t ht => ht)
      (tables_writeRange (tablesOnly_holding i slice) i buf _ _ _ _ _ _) (hhold.reserved hr)
      fun _ t₃ h₃ => ?_
    rw [wp_bind, wp_get, wp_bind]
    refine wp_attempt_of_preserves (poolOk_walkDefer _ _ _ _) h₃ fun _ t₄ h₄ => ?_
    rw [wp_bind]
    refine wp_attempt_of_preserves (poolOk_deferChain _) h₄ fun _ t₅ h₅ => ?_
    simp only [wp_bind, modV, wp_modify]
    exact PoolOk.installed t₅.v.defer _ h₅.ok hi h₅.used hlen hr.cap

theorem poolSt_exfsReadAt (name : CStr) (off cap : ℕ) :
    Preserves (exfsReadAt name off cap) PoolSt := by
  refine Preserves.get fun s h => ?_
  refine Preserves.bind (Preserves.failIf _ _) (fun _ => ?_) s h
  refine Preserves.bind (preserves_lookup name) fun i => ?_
  refine Preserves.bind (Preserves.failIf _ _) fun _ => ?_
  refine Preserves.ite (Preserves.pure _) ?_
  exact Preserves.ite (Preserves.throw _) (tables_readLoop (tablesOnly_poolOk (0, 0)) _ _ _ _ _ _ _)

/-! ## Commit -/

theorem poolSt_setFile {f : ExfsFile → ExfsFile} (hf : ∀ g, poolPart (f g) = poolPart g) (i : ℕ) :
    Preserves (modV fun v => setFile v i (f (v.files i))) PoolSt := by
  refine Preserves.modify fun s h => PoolOk.congr h (fun j _ => ?_) rfl
  by_cases hji : j = i
  · subst hji
    simp only [setFile, update_self]
    exact hf _
  · simp only [setFile, update_of_ne hji]

theorem poolSt_takeChain (i n : ℕ) : Preserves (takeChain i n) PoolSt := by
  have hP := tablesOnly_poolOk (0, 0)
  refine Preserves.iterate fun k _ => Preserves.bind (tables_takeExtent hP 1)
    fun e => Preserves.ite ?_ ?_
  · exact Preserves.bind (tables_modV hP fun _ => rfl) fun _ => Preserves.throw _
  · exact poolSt_setFile (f := fun f => { f with chain := update f.chain k e.start })
      (fun _ => rfl) i

theorem poolSt_commitChains : Preserves commitChains PoolSt := by
  have hP := tablesOnly_poolOk (0, 0)
  refine Preserves.iterate fun i _ => Preserves.get fun s h => Preserves.ite ?_
    (Preserves.pure _) s h
  refine Preserves.bind (poolSt_takeChain _ _) fun _ => ?_
  refine Preserves.bind
    (poolSt_setFile (f := fun f => { f with nchain := chainNeed (s.v.files i).n }) (fun _ => rfl) i)
    fun _ => ?_
  refine Preserves.iterate fun k _ => Preserves.get fun t ht => ?_
  exact tables_orBreak hP (tables_blkPut hP _ _) t ht

theorem poolSt_applyDeferred : Preserves applyDeferred PoolSt := by
  refine Preserves.get fun s h => ?_
  refine Preserves.bind (tables_releaseAll (tablesOnly_poolOk (0, 0)) _) (fun _ => ?_) s h
  exact Preserves.modify fun t ht => PoolOk.congr ht (fun _ _ => rfl) rfl

/-- **`exfs_commit`** keeps the pool, whether or not it succeeds. -/
theorem poolSt_exfsCommit : Preserves exfsCommit PoolSt := by
  have hP := tablesOnly_poolOk (0, 0)
  refine Preserves.bind preserves_requireLive fun _ => Preserves.get fun s h => ?_
  refine Preserves.ite (Preserves.pure _) ?_ s h
  refine Preserves.bind (Preserves.failIf _ _) fun _ => ?_
  intro t ht
  rw [wp_bind, wp_failIf]
  refine ⟨fun _ => ht, fun _ => ?_⟩
  refine Preserves.bind poolSt_commitChains (fun _ => ?_) t ht
  refine Preserves.bind (tables_orBreak hP poolSt_applyDeferred) fun _ => ?_
  refine Preserves.bind (tables_onMap hP _) fun r => ?_
  cases r with
  | error _ => exact Preserves.bind (tables_modV hP fun _ => rfl) fun _ => Preserves.throw _
  | ok _ =>
    refine Preserves.bind (tables_writeItab hP _) fun _ => ?_
    refine Preserves.bind (tables_writeSb hP _) fun _ => ?_
    refine Preserves.modify fun t ht => PoolOk.congr ht (fun i _ => ?_) rfl
    simp only [finishCommit]
    split <;> rfl

/-! ## Format -/

theorem poolOk_emptyVol (v : Vol) : PoolOk (emptyVol v) (0, 0) := by
  have hu : ∀ i < inodes, ((emptyVol v).files i).used = false := fun i hi => by simp [emptyVol, hi]
  refine ⟨⟨fun k => ?_, fun i hi husd => ?_⟩, fun i hi husd => ?_⟩
  · have hz : poolCount (emptyVol v) k = 0 := by
      refine Finset.sum_eq_zero fun i hi => ?_
      simp [fileSlots, hu i (Finset.mem_range.mp hi)]
    rw [hz]
    simp [inSlice, emptyVol]
  · simp [hu i hi] at husd
  · simp [hu i hi] at husd

theorem poolSt_makeDirs (names : List (List UInt8)) : Preserves (makeDirs names) PoolSt := by
  induction names with
  | nil => exact Preserves.pure _
  | cons name names ih => exact Preserves.bind (Preserves.attempt (poolSt_makeNode _ _)) fun _ => ih

/-- The tables of `s`, and its mount flag. -/
def SameRecord (s t : St) : Prop := t.v.tables = s.v.tables ∧ t.v.mounted = s.v.mounted

/-- **`exfs_format`** makes a pool, or leaves the record's as it was. -/
theorem wp_exfsFormat_pool (d : ℕ) (s : St) :
    (exfsFormat d).wp (fun _ => PoolSt) (fun _ t => PoolSt t ∨ SameRecord s t) s := by
  have hattach : Preserves (attach d) (SameRecord s) :=
    preserves_attach (fun t v h1 h2 h => ⟨h1.trans h.1, h2.trans h.2⟩) d
  rw [exfsFormat, wp_bind]
  refine wp_mono (hattach s ⟨rfl, rfl⟩) (fun _ t _ ht => ?_) fun _ t _ ht => .inr ht
  have hmap : Preserves (onMap gmapFormat) (SameRecord s) := Preserves.zoom fun t _ h => h
  rw [wp_bind]
  refine wp_mono (hmap t ht) (fun r t₁ _ ht₁ => ?_) fun _ t₁ _ ht₁ => .inr ht₁
  cases r with
  | error e => exact .inr ht₁
  | ok _ =>
    have hnew : PoolSt ⟨t₁.disks, emptyVol t₁.v⟩ := poolOk_emptyVol t₁.v
    simp only [wp_bind, modV, wp_modify]
    -- the names are generalized, so that the list is not run through here
    generalize freshDirs = names
    refine wp_mono (poolSt_makeDirs names _ hnew) (fun _ t₂ _ h₂ => ?_) fun _ _ _ h => .inl h
    exact wp_mono (poolSt_exfsCommit t₂ h₂) (fun _ _ _ h => h) fun _ _ _ h => .inl h

end Calls

/-! ## Mount -/

section Mount

/-- **One turn of the inode loop**, on any record. -/
theorem wp_mountInode_pool (itab : Bytes) (h : SlicesBelow i t) (hi : i < inodes) :
    (mountInode itab i).wp (fun _ => SlicesBelow (i + 1)) (fun _ _ => True) t := by
  rw [mountInode, wp_bind, wp_attempt]
  refine wp_mono (wp_inodeDecode_any _ fun _ _ => trivial) (fun es t₁ _ h₁ => ?_) fun _ _ _ _ =>
    trivial
  have hbelow := h.filled hi h₁
  simp only [wp_bind, wp_get, wp_ite, wp_pure]
  refine ⟨fun hu => ?_, fun hu => ?_⟩
  · rw [h₁.n]
    refine wp_poolReserve hbelow.pool (fun slice t₂ h₂ => ?_) fun _ _ _ _ _ _ _ => trivial
    simp only [wp_bind, modV, wp_modify, wp_get, wp_failIf]
    exact ⟨fun _ => trivial, fun _ => hbelow.stored hi hu h₁.n h₁.length_le h₂⟩
  · refine ⟨hbelow.pool, fun j hj => hbelow.rest j (by omega), fun j hj hu' => ?_⟩
    exact hbelow.file j (by_contra fun hji => hu (by rwa [show j = i by omega] at hu')) hu'

/-- Nothing is mounted. -/
def Unmounted (s : St) : Prop := s.v.mounted = false

theorem unmounted_modV {f : Vol → Vol} (hf : ∀ v, (f v).mounted = v.mounted) :
    Preserves (modV f) Unmounted :=
  Preserves.modify fun s h => (hf s.v).trans h

theorem unmounted_blkGot (b : ℕ) : Preserves (blkGot b) Unmounted := by
  have hio : ∀ x : Prog BlkError Disk Bytes, Preserves (devIo x) Unmounted :=
    fun _ => Preserves.zoom fun _ _ h => h
  exact Preserves.get fun s h => hio _ s h

theorem unmounted_readChain (i k blk : ℕ) (es : List ExfsExtent) :
    Preserves (readChain i k blk es) Unmounted := by
  induction k generalizing blk es with
  | zero => exact Preserves.ite (Preserves.pure _) (Preserves.throw _)
  | succ k ih =>
    refine Preserves.ite (Preserves.pure _) (Preserves.bind (unmounted_blkGot blk) fun page => ?_)
    exact Preserves.ite (Preserves.throw _)
      (Preserves.bind (unmounted_modV fun _ => rfl) fun _ => ih _ _)

theorem unmounted_mountInode (itab : Bytes) (i : ℕ) : Preserves (mountInode itab i) Unmounted := by
  have hdecode : ∀ r, Preserves (inodeDecode r i) Unmounted := by
    intro r
    rw [inodeDecode]
    generalize maxChain = k
    refine Preserves.bind (unmounted_modV fun _ => rfl) fun _ => ?_
    refine Preserves.ite (Preserves.pure _) (Preserves.ite (Preserves.throw _) ?_)
    exact Preserves.bind (unmounted_modV fun _ => rfl) fun _ => unmounted_readChain _ _ _ _
  rw [mountInode]
  refine Preserves.bind (Preserves.attempt (hdecode _)) fun r => ?_
  cases r with
  | error e => exact Preserves.throw _
  | ok es =>
    refine Preserves.get fun s h => Preserves.ite ?_ (Preserves.pure _) s h
    refine Preserves.bind
      (preserves_poolReserve (fun _ _ hv hs => (congrArg VolCore.mounted hv).trans hs) _)
      fun _ => ?_
    refine Preserves.bind (unmounted_modV fun _ => rfl) fun _ => ?_
    refine Preserves.bind (unmounted_modV fun _ => rfl) fun _ => ?_
    exact Preserves.get fun s h => Preserves.failIf _ _ s h

theorem unmounted_bestSb : Preserves bestSb Unmounted := by
  refine Preserves.iterate fun k best => Preserves.bind (Preserves.attempt (unmounted_blkGot k))
    fun r => ?_
  cases r with
  | error e => exact Preserves.pure _
  | ok page =>
    dsimp only
    cases sbDecode page with
    | error e => exact Preserves.pure _
    | ok f =>
      cases best with
      | none => exact Preserves.pure _
      | some b => exact Preserves.ite (Preserves.pure _) (Preserves.pure _)

/-- A mount that fails leaves nothing mounted. -/
theorem wp_exfsMount_fails (d : ℕ) (s : St) :
    (exfsMount d).wp (fun _ _ => True) (fun _ t => Unmounted t) s := by
  have hnext : ∀ {α : Type} {x : FsProg α} {f : α → FsProg Unit}, Preserves x Unmounted →
      (∀ a u, Unmounted u → (f a).wp (fun _ _ => True) (fun _ t => Unmounted t) u) →
        ∀ u, Unmounted u →
      (x >>= f).wp (fun _ _ => True) (fun _ t => Unmounted t) u := by
    intro α x f hx hf u hu
    rw [wp_bind]
    exact wp_mono (hx u hu) (fun a u' _ hu' => hf a u' hu') fun _ _ _ h => h
  rw [exfsMount, wp_bind, modV, wp_modify]
  refine hnext (preserves_attach (fun _ _ _ hm h => hm.trans h) d)
    (fun _ => hnext unmounted_bestSb fun best => ?_) _ rfl
  cases best with
  | none => exact fun u hu => hu
  | some best =>
    refine hnext Preserves.get_self fun s => hnext (Preserves.failIf _ _) fun _ => ?_
    refine hnext (Preserves.iterate fun _ _ => Preserves.bind (unmounted_blkGot _)
      fun _ => Preserves.pure _) fun itab => ?_
    refine hnext (unmounted_modV fun _ => rfl) fun _ => ?_
    exact hnext (Preserves.iterate fun i _ => unmounted_mountInode itab i) fun _ _ _ => trivial

/-- **`exfs_mount`** of any device loads a pool, or leaves nothing mounted. -/
theorem wp_exfsMount_pool (d : ℕ) (s : St) :
    (exfsMount d).wp (fun _ => PoolSt) (fun _ t => Unmounted t) s := by
  have hload : (exfsMount d).wp (fun _ => PoolSt) (fun _ _ => True) s := by
    apply wp_exfsMount_turns SlicesBelow
    · exact fun _ _ _ => trivial
    · exact fun f t _ _ _ => slicesBelow_import t f
    · exact fun _ k u _ hk hu => wp_mountInode_pool _ hu hk
    · exact fun f u _ hu => ⟨⟨hu.pool.ledger, hu.pool.fits⟩, hu.file⟩
  exact wp_mono (wp_and hload (wp_exfsMount_fails d s)) (fun _ _ _ h => h.1) fun _ _ _ h => h.2

end Mount

/-! ## Runs -/

/-- The states that calls reach from a record with no volume mounted.  Devices are of any content
and may change between two calls. -/
inductive VolRun : St → Prop where
  | boot {s : St} : s.v.mounted = false → VolRun s
  | format {s : St} (d : ℕ) : VolRun s → VolRun ((exfsFormat d).run s).2
  | call {s : St} (d : ℕ) (op : Op) : VolRun s → VolRun (stepOp d s op)
  | devices {s : St} (disks : ℕ → Disk) : VolRun s → VolRun ⟨disks, s.v⟩

theorem poolSt_exfsUnmount : Preserves exfsUnmount PoolSt := by
  refine Preserves.get fun s h => ?_
  refine Preserves.bind (Preserves.failIf _ _) (fun _ => ?_) s h
  refine Preserves.bind poolSt_exfsCommit fun _ => ?_
  exact Preserves.modify fun t ht => PoolOk.congr ht (fun _ _ => rfl) rfl

/-- Every call but a mount keeps the pool. -/
theorem poolSt_prog (d : ℕ) (hop : op ≠ .mount) : Preserves (op.prog d) PoolSt := by
  cases op with
  | create name => exact Preserves.bind (poolSt_newNode name typeFile) fun _ => Preserves.pure _
  | mkdir name => exact Preserves.bind (poolSt_newNode name typeDir) fun _ => Preserves.pure _
  | delete name => exact Preserves.bind (poolSt_exfsDelete name) fun _ => Preserves.pure _
  | write name buf len =>
    exact Preserves.bind (poolSt_exfsWrite name buf _) fun _ => Preserves.pure _
  | writeAt name off buf len =>
    exact Preserves.bind (poolSt_exfsWriteAt name _ buf _) fun _ => Preserves.pure _
  | readAt name off cap => exact poolSt_exfsReadAt name _ _
  | commit => exact Preserves.bind poolSt_exfsCommit fun _ => Preserves.pure _
  | unmount => exact Preserves.bind poolSt_exfsUnmount fun _ => Preserves.pure _
  | mount => exact absurd rfl hop

/-- Where nothing is mounted every call but a mount fails at its first check. -/
theorem Unmounted.wp_prog (h : Unmounted s) (hop : op ≠ .mount) :
    (op.prog d).wp (fun _ _ => False) (fun _ t => t = s) s := by
  have hm : s.v.mounted = false := h
  cases op with
  | create name => simp [Op.prog, exfsCreate, newNode, requireLive, hm]
  | mkdir name => simp [Op.prog, exfsMkdir, newNode, requireLive, hm]
  | delete name => simp [Op.prog, exfsDelete, requireLive, hm]
  | write name buf len => simp [Op.prog, exfsWrite, requireLive, hm]
  | writeAt name off buf len => simp [Op.prog, exfsWriteAt, requireLive, hm]
  | readAt name off cap => simp [Op.prog, exfsReadAt, hm]
  | commit => simp [Op.prog, exfsCommit, requireLive, hm]
  | unmount => simp [Op.prog, exfsUnmount, hm]
  | mount => exact absurd rfl hop

/-- **In every run** a mounted volume has its pool. -/
theorem VolRun.poolSt (h : VolRun s) : s.v.mounted = true → PoolSt s := by
  induction h with
  | boot hs =>
    intro hm
    simp [hs] at hm
  | @format s d _ ih =>
    have hstep : (exfsFormat d).wp (fun _ t => PoolSt t ∨ SameRecord s t)
        (fun _ t => PoolSt t ∨ SameRecord s t) s :=
      wp_mono (wp_exfsFormat_pool d s) (fun _ _ _ h => .inl h) fun _ _ _ h => h
    intro hm
    rcases hstep.state with h | h
    · exact h
    · exact tablesOnly_poolOk (0, 0) s _ h.1 (ih (h.2.symm.trans hm))
  | @call s d op _ ih =>
    by_cases hop : op = .mount
    · have hstep : (op.prog d).wp (fun _ t => t.v.mounted = true → PoolSt t)
          (fun _ t => t.v.mounted = true → PoolSt t) s := by
        rw [hop, Op.prog, wp_bind]
        exact wp_mono (wp_exfsMount_pool d s) (fun _ _ _ h _ => h)
          fun _ _ _ h hm => by simp [show _ = false from h] at hm
      exact hstep.state
    · cases hs : s.v.mounted with
      | true => exact fun _ => (poolSt_prog d hop s (ih hs)).state
      | false =>
        intro hm
        have hsame : stepOp d s op = s :=
          (wp_mono (Unmounted.wp_prog (d := d) hs hop) (fun _ _ _ hno => hno.elim) fun _ _ _ ht =>
            ht).state
        rw [hsame, hs] at hm
        exact absurd hm (by decide)
  | devices _ _ ih => exact ih

/-! ## What the pool is for -/

/-- The slices of a mounted volume. -/
structure PoolIntact (v : Vol) : Prop where
  inside : ∀ i < inodes, (v.files i).used = true → 0 < (v.files i).n →
    (v.files i).extOff + (v.files i).extCap ≤ poolExt
  apart : ∀ i j, i < inodes → j < inodes → i ≠ j → (v.files i).used = true → 0 < (v.files i).n →
    (v.files j).used = true →
    0 < (v.files j).n → ∀ k, (v.files i).extOff ≤ k → k < (v.files i).extOff + (v.files i).extCap →
      ¬ ((v.files j).extOff ≤ k ∧ k < (v.files j).extOff + (v.files j).extCap)
  cap : ∀ i < inodes, (v.files i).used = true → 0 < (v.files i).n →
    IsLeast {c | (∃ m, c = 2 ^ m) ∧ 8 ≤ c ∧ (v.files i).n ≤ c} (v.files i).extCap
  marks : ∀ k < poolExt, (v.poolUsed k = true ↔ ∃ i < inodes, (v.files i).used = true ∧
    0 < (v.files i).n ∧
    (v.files i).extOff ≤ k ∧ k < (v.files i).extOff + (v.files i).extCap)

/-- `pool_compact` and `pool_reserve` in a state whose lists are those of the inodes below `k`.  A
list of more than `2 ^ 31` extents has no 32-bit capacity, and the loop of `slice_cap_for` does not
end on it. -/
structure PoolCalls (k : ℕ) (s : St) : Prop where
  compact : ∀ i < k, (s.v.files i).used = true → exts (poolCompact s.v) i = exts s.v i
  need : ∀ n, 0 < n → n ≤ 2 ^ 31 → IsLeast {c | (∃ m, c = 2 ^ m) ∧ 8 ≤ c ∧ n ≤ c} (capFor n)
  lists : ∀ n r t, n ≤ 2 ^ 31 → (poolReserve n).run s = (r, t) →
    ∀ i < k, (s.v.files i).used = true → exts t.v i = exts s.v i
  full : ∀ n ≤ 2 ^ 31, poolExt < totalCap s.v + capFor n →
    ∃ t, (poolReserve n).run s = (.error .enomem, t)
  room : ∀ n ≤ 2 ^ 31, totalCap s.v + capFor n ≤ poolExt → ∃ slice t,
    (poolReserve n).run s = (.ok slice, t) ∧
    slice.2 = capFor n ∧ ∀ j, slice.1 ≤ j → j < slice.1 + slice.2 → j < poolExt ∧
      t.v.poolUsed j = true ∧
      ∀ i < inodes, (t.v.files i).used = true →
        ¬ ((t.v.files i).extOff ≤ j ∧ j < (t.v.files i).extOff + (t.v.files i).extCap)

section Purpose

/-- A slot is marked when a file has it. -/
theorem PoolInv.marked_iff (h : PoolInv v (0, 0)) (hk : k < poolExt) :
    v.poolUsed k = true ↔ ∃ i < inodes, 0 < fileSlots (v.files i) k := by
  have hled := h.ledger k
  have hz : inSlice (0, 0).1 (0, 0).2 k = 0 := by simp [inSlice]
  rw [hz, Nat.add_zero] at hled
  constructor
  · intro hmark
    rw [if_pos ⟨hk, hmark⟩, poolCount] at hled
    obtain ⟨i, hi, hpos⟩ := Finset.exists_ne_zero_of_sum_ne_zero (by rw [hled]; exact one_ne_zero)
    exact ⟨i, Finset.mem_range.mp hi, Nat.pos_of_ne_zero hpos⟩
  · rintro ⟨i, hi, hpos⟩
    by_contra hmark
    rw [if_neg fun hc => hmark hc.2, poolCount] at hled
    have := Finset.sum_eq_zero_iff.mp hled i (Finset.mem_range.mpr hi)
    omega

theorem PoolOk.intact (h : PoolOk v (0, 0)) : PoolIntact v := by
  have hcap : ∀ i < inodes, (v.files i).used = true → 0 < (v.files i).n →
      (v.files i).extCap = sliceCapFor (v.files i).n := by
    intro i hi hu hn
    rw [(h.file i hi hu).2, capFor, if_neg (by omega)]
  have hmax : maxExt ≤ 2 ^ 31 := by decide
  constructor
  · intro i hi hu hn
    have hpos := sliceCapFor_pos (v.files i).n
    rw [← hcap i hi hu hn] at hpos
    have := h.pool.slot_lt hi
      ((mem_slice_iff (k := (v.files i).extOff + (v.files i).extCap - 1) hu).mpr (by omega))
    omega
  · intro i j hi hj hij hu _ hu' _ k hlo hhi hin
    have hz := h.pool.disjoint hi hj hij ((mem_slice_iff hu).mpr ⟨hlo, hhi⟩)
    have := (mem_slice_iff hu').mpr hin
    omega
  · intro i hi hu hn
    rw [hcap i hi hu hn]
    exact sliceCapFor_isLeast (le_trans (h.file i hi hu).1 hmax)
  · intro k hk
    rw [h.pool.marked_iff hk]
    constructor
    · rintro ⟨i, hi, hpos⟩
      have hu : (v.files i).used = true := by
        by_contra hu
        simp [fileSlots, hu] at hpos
      obtain ⟨hlo, hhi⟩ := (mem_slice_iff hu).mp hpos
      refine ⟨i, hi, hu, ?_, hlo, hhi⟩
      by_contra hn
      have hzero : (v.files i).n = 0 := by omega
      rw [(h.file i hi hu).2, hzero] at hhi
      simp only [capFor, if_true] at hhi
      omega
    · rintro ⟨i, hi, hu, -, hin⟩
      exact ⟨i, hi, (mem_slice_iff hu).mpr hin⟩

/-- **The calls of the pool**, where the lists of the inodes below `k` fit their slices. -/
theorem PoolInv.calls (h : PoolInv s.v (0, 0)) (hk : k ≤ inodes)
    (hfit : ∀ i < k, (s.v.files i).used = true → (s.v.files i).n ≤ (s.v.files i).extCap) :
    PoolCalls k s := by
  have hreserve : ∀ n, (poolReserve n).wp (fun slice t => Reserved n s slice t)
      (fun e t => e = .enomem ∧ PoolMoved s.v t.v ∧ poolExt < totalCap s.v + capFor n) s := by
    intro n
    refine wp_poolReserve h (fun slice t ht => ht) fun t _ _ _ hmoved _ hfull =>
      ⟨rfl, hmoved, hfull⟩
  have hroom : ∀ n slice t, Reserved n s slice t → totalCap s.v + capFor n ≤ poolExt := by
    intro n slice t ht
    have hle := ht.inv.totalCap_le
    have hsame : totalCap t.v = totalCap s.v := by
      refine Finset.sum_congr rfl fun i _ => ?_
      rw [ht.moved.file i]
    rwa [hsame, ht.cap] at hle
  constructor
  · intro i hi hu
    exact (poolCompact_spec h).1.list i (by omega) hu (hfit i hi hu)
  · intro n hpos hn
    rw [capFor, if_neg (Nat.ne_of_gt hpos)]
    exact sliceCapFor_isLeast hn
  · intro n r t _ hrun i hi hu
    have hmoved : PoolMoved s.v t.v := by
      cases r with
      | ok slice => exact ((hreserve n).ok hrun).moved
      | error e => exact ((hreserve n).error hrun).2.1
    exact hmoved.list i (by omega) hu (hfit i hi hu)
  · intro n _ hfull
    cases hrun : (poolReserve n).run s with
    | mk r t =>
      cases r with
      | ok slice =>
        have := hroom n slice t ((hreserve n).ok hrun)
        omega
      | error e =>
        rw [((hreserve n).error hrun).1]
        exact ⟨t, rfl⟩
  · intro n _ hle
    cases hrun : (poolReserve n).run s with
    | mk r t =>
      cases r with
      | error e =>
        have := ((hreserve n).error hrun).2.2
        omega
      | ok slice =>
        have ht := (hreserve n).ok hrun
        refine ⟨slice, t, rfl, ht.cap, fun j hlo hhi => ?_⟩
        have hin : 0 < inSlice slice.1 slice.2 j := inSlice_pos_iff.mpr ⟨hlo, hhi⟩
        have hled := ht.inv.ledger j
        have hbit : j < poolExt ∧ t.v.poolUsed j = true := by
          by_contra hc
          rw [if_neg hc] at hled
          omega
        refine ⟨hbit.1, hbit.2, fun i hi hu hin' => ?_⟩
        have := ht.inv.disjoint_slice hi ((mem_slice_iff hu).mpr hin')
        omega

end Purpose

/-- **The pool keeps every list intact**: in every mounted state of a run, and in the middle of a
mount, where only the inodes before the one being loaded have lists. -/
theorem run_pool :
    (∀ s, VolRun s → s.v.mounted = true → PoolIntact s.v ∧ PoolCalls inodes s) ∧
    ∀ (itab : Bytes) (disks : ℕ → Disk) (v : Vol) (f : SbFields) (k : ℕ) (t t' : St)
        (es : List ExfsExtent), k < inodes →
      (Prog.iterate k (fun i _ => mountInode itab i) ()).run ⟨disks, importVol v f⟩ = (.ok (), t) →
      (inodeDecode (fun j => itab (k * inodeBytes + j)) k).run t = (.ok es, t') →
        PoolCalls k t' := by
  constructor
  · intro s hs hm
    have hpool := hs.poolSt hm
    exact ⟨hpool.intact, hpool.pool.calls le_rfl fun i hi hu => hpool.le_cap hi hu⟩
  · intro itab disks v f k t t' es hk hloop hdecode
    have hbelow : SlicesBelow k t := by
      have hwp := wp_iterate (f := fun i _ => mountInode itab i) (E := fun _ _ => True)
        (fun j _ u => SlicesBelow j u)
        (slicesBelow_import ⟨disks, v⟩ f) (n := k) (a := ()) fun j _ u hj hu =>
        wp_mountInode_pool itab hu (by omega)
      exact hwp.ok hloop
    have hfilled : Filled k t es t' := (wp_inodeDecode_any _ fun _ _ => trivial).ok hdecode
    have hbelow' := hbelow.filled hk hfilled
    refine hbelow'.pool.calls hk.le fun i hi hu => ?_
    obtain ⟨hn, hcap⟩ := hbelow'.file i hi hu
    rw [hcap]
    exact le_capFor hn

/-- A formatted volume, and a mount that has loaded one file. -/
theorem run_pool_formatted :
    (∃ s, VolRun s ∧ s.v.mounted = true ∧ PoolIntact s.v ∧ PoolCalls inodes s) ∧
    ∃ t, (t.v.files 0).used = true ∧ exts t.v 0 = [wrapExtent] ∧ PoolCalls 1 t := by
  constructor
  · have hf : (blank.disks 0).Faultless := fun _ _ => rfl
    obtain ⟨s, hrun⟩ := exists_format hf blank_diskOk
    have hstart : Start 0 s := ⟨blank, hf, fun b _ f => sbDecode_zero f, hrun⟩
    have hreach : VolRun s := by
      have h := VolRun.format 0 (VolRun.boot (s := blank) rfl)
      rwa [hrun] at h
    exact ⟨s, hreach, hstart.fresh.2.1, run_pool.1 s hreach hstart.fresh.2.1⟩
  · obtain ⟨page, -⟩ := exists_oldPage
    set s : St := ⟨fun _ => wrapDisk page, bootVol⟩
    let a := attached s 0
    have htable : TableOk (volTotal (s.disks 0)) (s.disks 0).block (itabArea 2) := by
      rw [show volTotal (s.disks 0) = 34 from tableDisk_volTotal _ _]
      exact (wrap_tableOk page).1
    have hinit : Admitting 0 s oldFields 0 ⟨a.disks, importVol a.v oldFields⟩ :=
      ⟨slicesBelow_import a oldFields, ⟨tableDisk_diskOk _ _, .of_disks rfl, rfl, rfl, rfl⟩,
        rfl, rfl,
        fun j hj => absurd hj (Nat.not_lt_zero j)⟩
    have hrest := wrap_record_none page (i := 1) (by decide) (by decide)
    have hfirst : ∀ v, Admitted (volTotal (s.disks 0)) (s.disks 0).block
        (recordOf (s.disks 0).block (itabArea 2) 0) v 0 → (v.files 0).used = true ∧
          exts v 0 = [wrapExtent] :=
      fun v h => h.wrapping
    have hf : (s.disks 0).Faultless := fun _ _ => rfl
    have hitab : itabOf (wrapDisk page).block (itabArea 2) = itabOf (s.disks 0).block
      (itabArea 2) := rfl
    rw [hitab] at hrest
    -- the device is generalized, so that its bytes are not computed here
    clear_value s
    have hloop : (Prog.iterate 1 (fun i _ => mountInode (itabOf (s.disks 0).block (itabArea 2)) i)
      ()).wp
        (fun _ t => Admitting 0 s oldFields 1 t) (fun _ _ => False)
        ⟨a.disks, importVol a.v oldFields⟩ := by
      refine wp_iterate (fun k _ t => Admitting 0 s oldFields k t) hinit fun k _ t hk ht => ?_
      exact wp_mono (ht.wp_mountInode (hk.trans (by decide))) (fun _ _ _ ht' => ht')
        fun _ _ _ hno => hno hf htable
    obtain ⟨_, t, hrun, ht⟩ := hloop.exists_ok
    obtain ⟨hu, hx⟩ := hfirst t.v (ht.node 0 Nat.one_pos)
    generalize itabOf (s.disks 0).block (itabArea 2) = itab at hrest hrun
    have hdecode : (inodeDecode (fun j => itab (1 * inodeBytes + j)) 1).wp
        (fun _ t' => (t'.v.files 0).used = true ∧ exts t'.v 0 = [wrapExtent])
        (fun _ _ => False) t := by
      have h0 : getLE 4 (fun j => itab (1 * inodeBytes + j)) 0 = 0 := hrest
      simp only [inodeDecode, wp_bind, modV, wp_modify]
      rw [if_pos h0]
      refine ⟨?_, (exts_setFile (by decide)).trans hx⟩
      simpa [setFile, update_of_ne Nat.zero_ne_one] using hu
    obtain ⟨es, t', hrun', hu', hx'⟩ := hdecode.exists_ok
    exact ⟨t', hu', hx', run_pool.2 itab a.disks a.v oldFields 1 t t' es (by decide) hrun hrun'⟩

end Xasmos.Exfs
