import Xasmos.Exfs.OpSpecs

/-!
# What the writes do

`exfs_write` and `exfs_write_at` end alike: a new extent list goes into the reserved
slice, the old slice is given back, and the blocks the file no longer uses join the
deferred list (`installed`).  The blocks are conserved in that step, so the ledger holds
(`VolInv.install`).
-/

namespace Xasmos.Exfs

open Bytes Prog

variable {D es st : List ExfsExtent} {E : ExfsError → St → Prop} {Q : Unit → St → Prop}
  {X bs old : List ℕ} {buf : Bytes} {c c' : ℕ → Bytes} {hi i l len lo lpos off size start top w : ℕ}
  {name : CStr} {s s' t : St} {slice : ℕ × ℕ}

/-! ## Giving a file its new list -/

/-- The state after file `i` got the list `st`, in `slice`, with the deferred list `D`. -/
def installed (t : St) (i : ℕ) (slice : ℕ × ℕ) (D st : List ExfsExtent) (size : ℕ) : St where
  disks := t.disks
  v :=
    let w := poolRelease t.v (t.v.files i).extOff (t.v.files i).extCap
    { setFile { w with pool := storeExts w.pool slice.1 st, defer := D } i { t.v.files i with
        extOff := slice.1, extCap := slice.2, nchain := 0, n := st.length, size := size,
        dirty := true } with
      dirty := true }

section Install

theorem installed_file : (installed t i slice D st size).v.files i =
    { t.v.files i with extOff := slice.1, extCap := slice.2, nchain := 0, n := st.length,
                       size := size, dirty := true } := Function.update_self _ _ _

theorem installed_disk : (installed t i slice D st size).disk = t.disk := rfl

theorem exts_installed : exts (installed t i slice D st size).v i = st := by
  refine exts_store (p := t.v.pool) rfl ?_ ?_ <;> rw [installed_file]

theorem nodeOf_installed (hu : (t.v.files i).used = true) :
    nodeOf (installed t i slice D st size).v i =
      some ⟨(t.v.files i).type, size, cname (t.v.files i).name, st, []⟩ := by
  have hu' : ((installed t i slice D st size).v.files i).used = true := by
    rw [installed_file]
    exact hu
  have hc : chainOf ((installed t i slice D st size).v.files i) = [] := by
    rw [installed_file]
    rfl
  rw [nodeOf_used hu', exts_installed, hc, installed_file]

theorem fileStep_installed (h : VolInv t X slice) (hlen : st.length ≤ slice.2) :
    FileStep i t (installed t i slice D st size) := by
  refine ⟨rfl, rfl, rfl, rfl, fun j _ hji => Function.update_of_ne hji _ _, fun j hj hji hu => ?_⟩
  have hfj : (installed t i slice D st size).v.files j = t.v.files j :=
    Function.update_of_ne hji _ _
  refine exts_congr (by rw [hfj]) fun k hk => ?_
  rw [hfj] at hk ⊢
  exact h.pool.store_other hj hu (h.file j hj hu).n_le_cap hlen k hk

/-- **Installing a list** whose blocks are conserved keeps the invariant. -/
theorem VolInv.install (h : VolInv t X slice) (hi : i < inodes) (hu : (t.v.files i).used = true)
    (hst : Within t.v.total st) (hlen : st.length ≤ maxExt) (hcap : slice.2 = capFor st.length)
    (hsize : size < 2 ^ 64) (hD : Within t.v.total D)
    (hcount : ∀ b, (blocks st).count b + (blocks D).count b =
      nodeOwn (nodeOf t.v i) b + (blocks t.v.defer).count b + X.count b) :
    VolInv (installed t i slice D st size) [] (0, 0) ∧
      ∀ b, 0 < owned t.v b → 0 < owned (installed t i slice D st size).v b := by
  have hf := h.file i hi hu
  have hle : st.length ≤ slice.2 := by
    rw [hcap]
    exact le_capFor hlen
  have hstep : FileStep i t (installed t i slice D st size) := fileStep_installed h hle
  have hc : ∀ b, nodeOwn (nodeOf (installed t i slice D st size).v i) b +
      (blocks (installed t i slice D st size).v.defer).count b + [].count b =
      nodeOwn (nodeOf t.v i) b + (blocks t.v.defer).count b + X.count b := by
    intro b
    rw [nodeOf_installed hu, ← hcount b]
    rfl
  refine ⟨h.step hstep hi hc ?_ (fun _ => ?_) hD, fun b hb => ?_⟩
  · -- first the old slice is dropped, then the new one is given
    have hdrop := h.pool.drop hi hu (f := { t.v.files i with extCap := 0 }) rfl
    refine hdrop.give hi (fun k => ?_) (fun j _ hji => ?_) rfl ?_ ?_ ?_ ?_
    · simp [setFile, fileSlots, inSlice]
    · simp [installed, setFile, poolRelease, poolMark, hji]
    · rw [installed_file]; exact hu
    · rw [installed_file]
    · rw [installed_file]
    · rw [installed_file]; exact hle
  · refine ⟨?_, ?_, ?_, ?_, ?_, ?_⟩
    · rw [installed_file]; exact hlen
    · rw [installed_file]; exact hcap
    · rw [installed_file]; exact hsize
    · rw [installed_file]; exact hf.type_lt
    · rw [installed_file]; exact hf.name_end
    · rw [exts_installed]; exact hst
  · have := owned_mono_of_count hi hstep hc b
    simp only [List.count_nil] at this
    omega

end Install

/-- After `defer_file` the new list is installed over an empty one. -/
theorem installed_deferred (t : St) (i : ℕ) (slice : ℕ × ℕ) (st : List ExfsExtent) (size : ℕ) :
    (⟨t.disks, { setFile { (deferred t i).v with
        pool := storeExts (deferred t i).v.pool slice.1 st } i { (deferred t i).v.files i with
          extOff := slice.1, extCap := slice.2, n := st.length, size := size, dirty := true } with
      dirty := true }⟩ : St) = installed t i slice (deferVol t.v i).defer st size := by
  simp [deferred, installed, setFile, deferVol, poolRelease, poolMark]

section DeferVol

theorem deferVol_eq (ht : Staged s t X slice) (hi : i < inodes) (hu : (s.v.files i).used = true) :
    (deferVol t.v i).defer = (deferVol s.v i).defer := by
  simp only [deferVol]
  rw [ht.defer, ht.list hi hu, ht.file i]
  rfl

theorem count_deferVol (hu : (s.v.files i).used = true) (b : ℕ) :
    (blocks (deferVol s.v i).defer).count b =
      nodeOwn (nodeOf s.v i) b + (blocks s.v.defer).count b := by
  rw [nodeOwn_used hu]
  simp only [deferVol, blocks_append, blocks_singletons, List.count_append]
  omega

theorem VolInv.within_deferVol (h : VolInv s X slice) (hi : i < inodes)
    (hu : (s.v.files i).used = true) : Within s.v.total (deferVol s.v i).defer := by
  refine (h.defer.append (h.file i hi hu).within).append fun e he => ?_
  obtain ⟨b, hb, rfl⟩ := List.mem_map.mp he
  exact ⟨le_rfl, h.chain_lt hi hu hb⟩

end DeferVol

/-! ## `exfs_write` -/

/-- What a successful write of file `i` leaves: its node has the new size and list, and
every other node is unchanged. -/
structure Written (i : ℕ) (s s' : St) (size : ℕ) (st : List ExfsExtent) : Prop extends
    Changed i s s' where
  used : (s.v.files i).used = true
  is_file : (s.v.files i).type = typeFile
  node : nodeOf s'.v i = some ⟨typeFile, size, cname (s.v.files i).name, st, []⟩

theorem Written.before (hw : Written i s s' size st) :
    nodeOf s.v i = some ⟨typeFile, (s.v.files i).size, cname (s.v.files i).name, exts s.v i,
      chainOf (s.v.files i)⟩ := by
  rw [nodeOf_used hw.used, hw.is_file]

/-- The new list lies in the volume. -/
theorem Written.within (hw : Written i s s' size st) (hi : i < inodes) : Within s'.v.total st := by
  have hu := used_of_nodeOf (v := s'.v) (i := i) (by rw [hw.node]; simp)
  have hexts : exts s'.v i = st :=
    congrArg Node.exts (Option.some.inj ((nodeOf_used hu).symm.trans hw.node))
  exact hexts ▸ (hw.inv.file i hi hu).within

section Write

/-- The last steps of a write, from the state after the data blocks were written. -/
theorem Staged.written (h : RamInv s) (ht : Staged s t X slice) (hi : i < inodes)
    (hu : (s.v.files i).used = true) (hf : (s.v.files i).type = typeFile)
    (hst : Within s.v.total st) (hlen : st.length ≤ maxExt) (hcap : slice.2 = capFor st.length)
    (hsize : size < 2 ^ 64) (hD : Within s.v.total D)
    (hcount : ∀ b, (blocks st).count b + (blocks D).count b =
      nodeOwn (nodeOf s.v i) b + (blocks s.v.defer).count b + X.count b) :
    Written i s (installed t i slice D st size) size st := by
  have hut : (t.v.files i).used = true := by rw [ht.file i]; exact hu
  have hle : st.length ≤ slice.2 := by
    rw [hcap]
    exact le_capFor hlen
  have hvt := ht.volInv h.toVolInv
  obtain ⟨hv, hown⟩ := hvt.install hi hut (by rw [ht.total]; exact hst) hlen hcap hsize
    (by rw [ht.total]; exact hD) fun b => by rw [ht.nodeOf_eq hi, ht.defer]; exact hcount b
  have hstep : FileStep i t (installed t i slice D st size) := fileStep_installed hvt hle
  refine ⟨Staged.changed h ht hstep hv ?_ ?_ rfl hown, hu, hf, ?_⟩
  · rw [installed_file]
  · rw [installed_file]
  · rw [nodeOf_installed hut, ht.file i, ← hf]

/-- **`exfs_write`.** -/
theorem wp_exfsWrite (h : RamInv s) (hlen : len < 2 ^ 64)
    (hQ : ∀ i fresh s', s.v.mounted = true → find s.v name.bytes = some i →
      Written i s s' len fresh →
      (blocks fresh).length = (len + blockBytes - 1) % 2 ^ 64 / blockBytes →
      (∀ k < (blocks fresh).length,
        s'.disk.block ((blocks fresh).getD k 0) = dataPage buf len k) →
      (∀ b ∈ blocks fresh, used s.gst b = false) → Q () s')
    (hE : ∀ e s', Staged s s' [] (0, 0) → E e s') : (exfsWrite name buf len).wp Q E s := by
  have hE0 : ∀ e, E e s := fun e => hE e s h.refl
  simp only [exfsWrite, wp_bind]
  refine wp_requireLive (fun e _ => hE0 e) fun hm _ => ?_
  rw [wp_bind]
  refine wp_lookup (fun _ => hE0 _) fun i hfind => ?_
  obtain ⟨hi, hu, _⟩ := find_some hfind
  simp only [wp_bind, wp_get, wp_failIf]
  refine ⟨fun _ => hE0 _, fun htype => ?_⟩
  have hfile : (s.v.files i).type = typeFile := not_not.mp htype
  refine wp_takeFresh h.refl (fun e he => absurd he List.not_mem_nil) rfl (Nat.zero_le _)
    (fun fresh t₁ ht₁ hw hneed hlen₁ => ?_) hE
  simp only [List.length_nil, Nat.zero_add] at hlen₁
  have hpos : ∀ e ∈ fresh, 1 ≤ e.len := fun e he => (hw e he).1
  simp only [wp_bind, wp_get, wp_ite]
  refine ⟨fun _ => wp_releaseFresh ht₁ hpos fun s' hs' _ => hE _ s' hs', fun hroom => ?_⟩
  refine wp_orRelease (wp_reserve ht₁ (fun slice t₂ ht₂ _ hcap => ?_)
    fun e t₂ ht₂ => wp_releaseFresh ht₂ hpos fun s' hs' _ => hE _ s' hs')
  rw [wp_bind]
  refine wp_orUndo hpos
    (wp_writeData ht₂ (fun b hb => hb) ht₂.nodup (show len = len - 0 * blockBytes by omega)
    (fun _ => by omega) (fun t ht hpages => ?_) fun _ _ ht => ht) fun s' hs' => hE _ s' hs'
  simp only [wp_bind, wp_attempt]
  have hn : (t.v.files i).n = (t₁.v.files i).n := by rw [ht.file i, ht₁.file i]
  have hnc : (t.v.files i).nchain = (t₁.v.files i).nchain := by rw [ht.file i, ht₁.file i]
  refine wp_deferFile (fun hfull => ?_) ?_
  · rw [ht.defer, ← ht₁.defer, hn, hnc] at hfull
    omega
  simp only [wp_bind, modV, wp_modify]
  have hres := Staged.written (D := (deferVol t.v i).defer) h ht hi hu
    hfile hw hlen₁ hcap hlen ?_ ?_
  · have hdone := hQ i fresh _ hm hfind hres hneed (fun k hk => by
      rw [installed_disk, hpages.page k hk, Nat.zero_add]) fun b hb => (ht₁.fresh b hb).2
    rw [← installed_deferred] at hdone
    exact hdone
  · rw [deferVol_eq ht hi hu]
    exact h.toVolInv.within_deferVol hi hu
  · intro b
    rw [deferVol_eq ht hi hu, count_deferVol hu]
    omega

end Write

/-! ## `exfs_write_at` -/

section Defer

/-- The state with more deferred releases. -/
def deferAdd (t : St) (D : List ExfsExtent) : St :=
  { t with v := { t.v with defer := t.v.defer ++ D } }

theorem deferAdd_nil (t : St) : deferAdd t [] = t := by
  simp [deferAdd]

theorem deferAdd_append (t : St) (D D' : List ExfsExtent) :
    deferAdd (deferAdd t D) D' = deferAdd t (D ++ D') := by
  simp [deferAdd]

theorem wp_deferPush (hroom : t.v.defer.length < deferMax) (hQ : Q () (deferAdd t [⟨start, len⟩])) :
    (deferPush start len).wp Q E t := by
  simp only [deferPush, wp_bind, wp_get, wp_ite, modV, wp_modify]
  exact ⟨fun h => by omega, fun _ => hQ⟩

/-- **Walking in mode 1** defers the blocks of the logical range, one entry an extent at
most. -/
theorem wp_walkDefer (htop : top < 2 ^ 32) (hes : Within top es)
    (hroom : t.v.defer.length + es.length ≤ deferMax)
    (hQ : ∀ D, blocks D = sliceOf (blocks es) lpos lo hi → Within top D → D.length ≤ es.length →
      Q () (deferAdd t D)) : (walkDefer lo hi es lpos).wp Q E t := by
  have hnil : Within top [] := fun e he => absurd he List.not_mem_nil
  induction es generalizing t lpos Q with
  | nil =>
    have := hQ [] (by simp [sliceOf]) hnil le_rfl
    rwa [deferAdd_nil] at this
  | cons e es ih =>
    obtain ⟨hclip, hrun⟩ := clip_spec e lpos lo hi (by omega)
      (hes e List.mem_cons_self).2
    have hes' : Within top es := fun e' he' => hes e' (List.mem_cons_of_mem _ he')
    have hsplit : sliceOf (blocks (e :: es)) lpos lo hi =
        blocks (clip e lpos lo hi).toList ++ sliceOf (blocks es) (lpos + e.len) lo hi := by
      rw [blocks_cons, sliceOf_append, hclip, List.length_range']
    rw [List.length_cons] at hroom
    rw [walkDefer, wp_ite]
    refine ⟨fun hle => ?_, fun _ => ?_⟩
    · have := hQ [] (by rw [sliceOf_of_le hle]; rfl) hnil (Nat.zero_le _)
      rwa [deferAdd_nil] at this
    · cases hc : clip e lpos lo hi with
      | none =>
        rw [hc] at hsplit
        simp only
        refine ih hes' (by omega) fun D hD hw hl => hQ D ?_ hw ?_
        · rw [hsplit, hD]
          rfl
        · rw [List.length_cons]
          omega
      | some r =>
        obtain ⟨h1, h2, h3⟩ := hrun r hc
        have hmod : r.len % 2 ^ 32 = r.len := Nat.mod_eq_of_lt (by omega)
        rw [hc] at hsplit
        simp only [wp_bind, hmod]
        refine wp_deferPush (by omega) (ih hes' ?_ fun D hD hw hl => ?_)
        · simp only [deferAdd, List.length_append, List.length_singleton]
          omega
        · rw [deferAdd_append]
          refine hQ _ ?_ ((Within.singleton h1 h2).append hw) ?_
          · rw [hsplit, blocks_append, hD]
            rfl
          · simp only [List.length_append, List.length_cons, List.length_nil]
            omega

theorem wp_deferChain (hroom : t.v.defer.length + bs.length ≤ deferMax)
    (hQ : Q () (deferAdd t (bs.map fun b => ⟨b, 1⟩))) : (exfsWriteAt.deferChain bs).wp Q E t := by
  induction bs generalizing t with
  | nil =>
    rw [List.map_nil, deferAdd_nil] at hQ
    exact hQ
  | cons b bs ih =>
    rw [List.length_cons] at hroom
    rw [exfsWriteAt.deferChain, wp_bind]
    refine wp_deferPush (by omega) (ih ?_ ?_)
    · simp only [deferAdd, List.length_append, List.length_singleton]
      omega
    · rw [deferAdd_append]
      exact hQ

end Defer

/-- Cutting a list at two places loses nothing. -/
theorem count_splice (bs : List ℕ) (h : w ≤ l) (b : ℕ) :
    (bs.take w).count b + (bs.drop l).count b + ((bs.take (min l bs.length)).drop w).count b =
      bs.count b := by
  have h1 : bs.take (min l bs.length) = bs.take l := by
    rcases Nat.le_total l bs.length with hl | hl
    · rw [Nat.min_eq_left hl]
    · rw [Nat.min_eq_right hl, List.take_length, List.take_of_length_le hl]
  have h2 : (bs.take l).count b + (bs.drop l).count b = bs.count b := by
    rw [← List.count_append, List.take_append_drop]
  have h3 : ((bs.take l).take w).count b + ((bs.take l).drop w).count b = (bs.take l).count b := by
    rw [← List.count_append, List.take_append_drop]
  rw [List.take_take, Nat.min_eq_left h] at h3
  rw [h1]
  omega

theorem rangePage_congr (h : ∀ b ∈ old, c b = c' b) (size : ℕ) (buf : Bytes) (off stop l : ℕ) :
    rangePage c old size buf off stop l = rangePage c' old size buf off stop l := by
  have hold : oldPage c old size off stop l = oldPage c' old size off stop l := by
    unfold oldPage
    by_cases hl : l < old.length
    · have hmem : old.getD l 0 ∈ old := by
        rw [List.getD_eq_getElem _ _ hl]
        exact List.getElem_mem _
      rw [h _ hmem]
    · simp [hl]
  unfold rangePage
  rw [hold]

section WriteAt

/-- What a successful `exfs_write_at` of at least one byte leaves. -/
structure WrittenAt (s s' : St) (i off : ℕ) (buf : Bytes) (len : ℕ) (st fresh : List ExfsExtent) :
    Prop extends Written i s s' (max (s.v.files i).size (off + len)) st where
  no_wrap : off + len < 2 ^ 64
  splice : blocks st = (blocks (exts s.v i)).take
    (min (off / blockBytes) (blocks (exts s.v i)).length) ++
    blocks fresh ++ (blocks (exts s.v i)).drop ((off + len - 1) / blockBytes + 1)
  length : (blocks fresh).length = (off + len - 1) / blockBytes -
    min (off / blockBytes) (blocks (exts s.v i)).length + 1
  page : ∀ k < (blocks fresh).length, s'.disk.block ((blocks fresh).getD k 0) =
    rangePage s.disk.block (blocks (exts s.v i)) (s.v.files i).size buf off (off + len)
      (min (off / blockBytes) (blocks (exts s.v i)).length + k)

/-- **`exfs_write_at`.** -/
theorem wp_exfsWriteAt (h : RamInv s) (hoff : off < 2 ^ 64) (hlen : len < 2 ^ 64)
    (hnone : ∀ i, s.v.mounted = true → find s.v name.bytes = some i → len = 0 → Q () s)
    (hQ : ∀ i st fresh s', s.v.mounted = true → find s.v name.bytes = some i → 0 < len →
      WrittenAt s s' i off buf len st fresh → Q () s')
    (hE : ∀ e s', Staged s s' [] (0, 0) → E e s') : (exfsWriteAt name off buf len).wp Q E s := by
  have hE0 : ∀ e, E e s := fun e => hE e s h.refl
  simp only [exfsWriteAt, wp_bind]
  refine wp_requireLive (fun e _ => hE0 e) fun hm _ => ?_
  rw [wp_bind]
  refine wp_lookup (fun _ => hE0 _) fun i hfind => ?_
  obtain ⟨hi, hu, _⟩ := find_some hfind
  simp only [wp_bind, wp_get, wp_failIf, wp_ite, wp_pure]
  refine ⟨fun _ => hE0 _, fun htype => ⟨hnone i hm hfind, fun hpos => ⟨fun _ => hE0 _, fun hwrap =>
    ⟨fun _ => hE0 _, fun _ => ⟨fun _ => hE0 _, fun hroom => ?_⟩⟩⟩⟩⟩
  have hfile : (s.v.files i).type = typeFile := not_not.mp htype
  have hstop : off + len < 2 ^ 64 := by
    by_contra hge
    refine hwrap ?_
    rw [Nat.mod_eq_sub_mod (by omega), Nat.mod_eq_of_lt (by omega)]
    omega
  have hf := h.file i hi hu
  have htop : s.v.total < 2 ^ 32 := by
    have := h.map.total_le
    simp only [maxBlocks] at this
    omega
  have hown : ∀ b ∈ blocks (exts s.v i), used s.gst b = true ∧ b < s.v.total ∧
      reservedBlock s.v.gm b = false := by
    intro b hb
    obtain ⟨h1, h2, h3⟩ := h.toVolInv.taken_of_owned (owned_of_exts hi hu hb)
    exact ⟨h2, h1, h3⟩
  rw [← length_blocks]
  set old := blocks (exts s.v i) with hold
  set w0 := min (off / blockBytes) old.length with hw0
  set l1 := (off + len - 1) / blockBytes with hl1
  have hw0l : w0 ≤ l1 + 1 := by
    have h1 : off / blockBytes ≤ l1 := Nat.div_le_div_right (by omega)
    have h2 : w0 ≤ off / blockBytes := Nat.min_le_left _ _
    omega
  refine wp_takeFresh h.refl (fun e he => absurd he List.not_mem_nil) rfl (Nat.zero_le _)
    (fun fresh t₁ ht₁ hw hneed _ => ?_) hE
  have hpos' : ∀ e ∈ fresh, 1 ≤ e.len := fun e he => (hw e he).1
  simp only [wp_bind, wp_get, ht₁.list hi hu]
  cases hst : stageRange (exts s.v i) fresh w0 l1 old.length with
  | error e =>
    simp only [wp_bind]
    exact wp_releaseFresh ht₁ hpos' fun s' hs' _ => hE _ s' hs'
  | ok st =>
    obtain ⟨hblk, hwst, hlst⟩ := stageRange_spec htop hf.within hw hst
    simp only [wp_bind]
    refine wp_orRelease (wp_reserve ht₁ (fun slice t₂ ht₂ _ hcap => ?_)
      fun e t₂ ht₂ => wp_releaseFresh ht₂ hpos' fun s' hs' _ => hE _ s' hs')
    rw [wp_bind]
    refine wp_orUndo hpos' (wp_writeRange ht₂ (by rw [ht₂.list hi hu])
      (fun b hb => ⟨(hown b hb).2.1, ht₂.not_mem (hown b hb).1⟩) (fun b hb => hb) ht₂.nodup hneed
      (fun t ht hpages => ?_) fun _ _ ht => ht) fun s' hs' => hE _ s' hs'
    simp only [wp_bind, wp_get, wp_attempt]
    have hxt : exts t.v i = exts s.v i := ht.list hi hu
    have hnt : (exts s.v i).length = (s.v.files i).n := by simp [exts]
    have hct : chainOf (t.v.files i) = chainOf (s.v.files i) := by rw [ht.file i]; rfl
    have hcl : (chainOf (s.v.files i)).length = (s.v.files i).nchain := by simp [chainOf]
    have hdl : t.v.defer = s.v.defer := ht.defer
    rw [hxt, hct]
    refine wp_walkDefer htop hf.within (by rw [hdl]; omega) fun D hD hwD hlD => ?_
    rw [wp_bind, wp_attempt]
    refine wp_deferChain ?_ ?_
    · simp only [deferAdd, List.length_append, hdl]
      omega
    rw [deferAdd_append]
    simp only [wp_bind, modV, wp_modify]
    have hsz : (t.v.files i).size = (s.v.files i).size := by rw [ht.file i]
    have hres := Staged.written
      (D := t.v.defer ++ (D ++ (chainOf (s.v.files i)).map fun b => ⟨b, 1⟩))
      h ht hi hu hfile hwst hlst hcap
      (show max (s.v.files i).size (off + len) < 2 ^ 64 from ?_) ?_ ?_
    · have hdone := hQ i st fresh _ hm hfind (by omega) ⟨hres, hstop, hblk, hneed, fun k hk => by
        rw [installed_disk, hpages.page k hk, ht₂.file i]
        exact rangePage_congr (fun b hb => ht₂.block_eq (hown b hb).1 (hown b hb).2.2) _ _ _ _ _⟩
      rw [← hsz] at hdone
      exact hdone
    · have := hf.size_lt
      omega
    · rw [hdl]
      refine h.defer.append (hwD.append fun e he => ?_)
      obtain ⟨b, hb, rfl⟩ := List.mem_map.mp he
      exact ⟨le_rfl, h.toVolInv.chain_lt hi hu hb⟩
    · intro b
      have hsplice := count_splice old hw0l b
      rw [nodeOwn_used hu, hblk, hdl, blocks_append, blocks_append, blocks_singletons, hD,
        sliceOf, Nat.sub_zero, Nat.sub_zero]
      simp only [List.count_append, ← hold]
      omega

end WriteAt

end Xasmos.Exfs
