import Xasmos.Kernel.Sys

/-!
# The end of a process

`xproc_reap` unmaps and reclaims the tokens of an owner, 64 at a time, and then destroys
the address space.  `OthersKept` says what it leaves alone: the tokens, records, address
spaces, tables and frames of everybody else.

## Main results

* `reapToken_spec` — one token: it can always be reclaimed after it is revoked.
* `reapLoop_spec` — the loop ends, with the number of tokens the owner had.
* `xprocReap_spec` — nothing of the process is left, and of others nothing has changed.
-/

namespace Xasmos.Kernel

open Radix

variable {B D : ℕ → Prop} {L L' : Ledger} {a f fuel i k r : ℕ} {o : OwnerId} {s s' s'' : Xeret}
  {u : FrameUse}

/-- The frame is used on behalf of the owner: for a token of its, or for a table of an address space
of its. -/
def UseOf (o : OwnerId) (s : Xeret) : FrameUse → Prop
  | .boot => False
  | .token k => (s.ledger.table k).ownerId = o
  | .table r _ =>
    ∃ a, (s.spaces a).live = true ∧ (s.spaces a).pml4Phys = r * frameSize ∧ (s.spaces a).ownerId = o

/-- From `s` to `s'` only things of the owner `o` were given up. -/
structure OthersKept (B : ℕ → Prop) (o : OwnerId) (s s' : Xeret) : Prop where
  inv : KInv B s'
  table : ∀ k, ¬ ((s.ledger.table k).live = true ∧ (s.ledger.table k).ownerId = o) →
    s'.ledger.table k = s.ledger.table k
  alive : ∀ k, (s'.ledger.table k).live = true →
    s'.ledger.table k = { s.ledger.table k with mapCount := (s'.ledger.table k).mapCount }
  maps : ∀ i, ¬ (LiveRec s i ∧ (s.maps i).owner = o) → s'.maps i = s.maps i
  spaces : ∀ b, ¬ ((s.spaces b).live = true ∧ (s.spaces b).ownerId = o) → s'.spaces b = s.spaces b
  closed : ∀ b, (s'.spaces b).live = true → s'.spaces b = s.spaces b
  quota : s'.quota = s.quota
  pml4Phys : s'.pml4Phys = s.pml4Phys
  total : s'.phys.totalFrames = s.phys.totalFrames
  uses : ∀ f u, Uses B s' f u → Uses B s f u
  kept : ∀ f u, Uses B s f u → ¬ UseOf o s u → Uses B s' f u ∧ s'.mem f = s.mem f
  pages : ∀ r q, IsRoot s r → ¬ UseOf o s (.table r []) → UserPage q → pteAt s' r q = pteAt s r q

section Others

theorem OthersKept.refl (h : KInv B s) : OthersKept B o s s :=
  ⟨h, fun _ _ => rfl, fun _ _ => rfl, fun _ _ => rfl, fun _ _ => rfl, fun _ _ => rfl, rfl, rfl, rfl,
    fun _ _ hu => hu, fun _ _ hu _ => ⟨hu, rfl⟩, fun _ _ _ _ _ => rfl⟩

/-- What others hold before they hold after. -/
theorem OthersKept.not_useOf (h : OthersKept B o s s') (hu : ¬ UseOf o s u) : ¬ UseOf o s' u := by
  cases u with
  | boot => exact hu
  | token k =>
    intro ho
    have hk : s'.ledger.table k = s.ledger.table k := h.table k fun hown => hu hown.2
    exact hu (by rw [UseOf] at ho ⊢; rwa [hk] at ho)
  | table r π =>
    rintro ⟨a, h1, h2, h3⟩
    have ha := h.closed a h1
    rw [ha] at h1 h2 h3
    exact hu ⟨a, h1, h2, h3⟩

theorem OthersKept.trans (h : OthersKept B o s s') (h' : OthersKept B o s' s'') :
    OthersKept B o s s'' := by
  refine ⟨h'.inv, fun k hk => ?_, fun k hk => ?_, fun i hi => ?_, fun b hb => ?_, fun b hb => ?_,
    h'.quota.trans h.quota,
    h'.pml4Phys.trans h.pml4Phys, h'.total.trans h.total, fun f u hu => h.uses f u (h'.uses f u hu),
    fun f u hu hne => ?_, fun r q hr hne hq => ?_⟩
  · have heq := h.table k hk
    rw [h'.table k (by rwa [heq]), heq]
  · have heq := h'.alive k hk
    have hk' : (s'.ledger.table k).live = true := by
      rw [heq] at hk
      exact hk
    rw [heq, h.alive k hk']
  · have heq := h.maps i hi
    rw [h'.maps i, heq]
    rintro ⟨hl, ho⟩
    have hlive := hl.live
    rw [heq] at hlive ho
    exact hi ⟨⟨hl.lt, hlive⟩, ho⟩
  · have heq := h.spaces b hb
    rw [h'.spaces b (by rwa [heq]), heq]
  · have heq := h'.closed b hb
    rw [heq] at hb
    rw [heq, h.closed b hb]
  · obtain ⟨h1, h2⟩ := h.kept f u hu hne
    obtain ⟨h3, h4⟩ := h'.kept f u h1 (h.not_useOf hne)
    exact ⟨h3, h4.trans h2⟩
  · have hr' : IsRoot s' r := (h.kept r (.table r []) ⟨hr, userPath_nil, rfl⟩ hne).1.root
    rw [h'.pages r q hr' (h.not_useOf hne) hq, h.pages r q hr hne hq]

/-- A record belongs to the owner of its address space. -/
theorem KInv.useOf_of_record (h : KInv B s) (hi : LiveRec s i)
    (hr : (s.maps i).asPml4 = r * frameSize) (π : List ℕ) :
    UseOf (s.maps i).owner s (.table r π) := by
  obtain ⟨a, r', p, k, perms, hm⟩ := h.mapped.record i hi
  exact ⟨a, hm.space, hm.root.trans (hm.asPml4.symm.trans hr), hm.owner⟩

/-- The entries of tokens of others do not change when records of the owner are dropped: a map count
is the number of records. -/
theorem KInv.table_eq_of_dropped (h : KInv B s) (h' : KInv B s')
    (htok : SameTokens s.ledger s'.ledger) (hD : ∀ i, D i → LiveRec s i ∧ (s.maps i).owner = o)
    (hdead : ∀ i, D i → s'.maps i = { s.maps i with live := false })
    (hother : ∀ i, ¬ D i → s'.maps i = s.maps i)
    (hk : ¬ ((s.ledger.table k).live = true ∧ (s.ledger.table k).ownerId = o)) :
    s'.ledger.table k = s.ledger.table k := by
  have hcount : (s'.ledger.table k).mapCount = (s.ledger.table k).mapCount := by
    cases hlive : (s.ledger.table k).live with
    | false =>
      have hlive' : (s'.ledger.table k).live = false := by rw [htok.table k]; exact hlive
      rw [h.tokens.unmapped k hlive, h'.tokens.unmapped k hlive']
    | true =>
      have hheld : Held s.ledger (packToken k (s.ledger.table k).generation) k :=
        ⟨h.tokens.slot_lt k hlive, hlive, rfl⟩
      rw [h'.mapped.count k _ (htok.held_iff.mpr hheld), h.mapped.count k _ hheld]
      refine count_congr fun i hi => ?_
      by_cases hDi : D i
      · obtain ⟨hli, ho⟩ := hD i hDi
        obtain ⟨a, r, p, k', perms, hm⟩ := h.mapped.record i hli
        have hne : (s.maps i).tok ≠ packToken k (s.ledger.table k).generation := by
          intro heq
          have hkk := hm.held.slot_unique h.tokens.gens (heq ▸ hheld)
          subst hkk
          exact hk ⟨hlive, hm.tokenOwner.trans ho⟩
        rw [hdead i hDi]
        simp [hne]
      · rw [hother i hDi]
  rw [htok.table k, hcount]

/-- Records of the owner are dropped. -/
theorem Dropped.othersKept (hd : Dropped B s D s') (h : KInv B s)
    (hD : ∀ i, D i → LiveRec s i ∧ (s.maps i).owner = o) : OthersKept B o s s' := by
  refine ⟨hd.inv, fun k hk => h.table_eq_of_dropped hd.inv hd.tokens hD hd.dead hd.other hk,
    fun k _ => hd.tokens.table k,
    fun i hi => hd.other i fun hDi => hi (hD i hDi), fun b _ => by rw [hd.spaces],
    fun b _ => by rw [hd.spaces], hd.quota, hd.pml4Phys, by rw [hd.phys],
    fun f u hu => (hd.uses f u).mp hu, fun f u hu hne => ?_, fun r q hr hne hq => ?_⟩
  · refine ⟨(hd.uses f u).mpr hu, hd.mem f u hu fun i r π hDi hr heq => hne ?_⟩
    obtain ⟨hli, ho⟩ := hD i hDi
    rw [heq, ← ho]
    exact h.useOf_of_record hli hr π
  · refine hd.kept r q hr hq fun i hDi hc => hne ?_
    obtain ⟨hli, ho⟩ := hD i hDi
    rw [← ho]
    exact h.useOf_of_record hli hc.asPml4 []

/-- A token of the owner is released. -/
theorem Released.othersKept (hr : Released s k s') (h : KInv B s)
    (ho : (s.ledger.table k).ownerId = o) : OthersKept B o s s' := by
  have hother : ∀ j, j ≠ k → s'.ledger.table j = s.ledger.table j := by
    intro j hj
    rw [hr.ledger]
    simp [retireSlot, hj]
  refine ⟨h.released hr, fun j hj => hother j ?_, fun j hj => ?_,
    fun i _ => by rw [hr.maps], fun b _ => by rw [hr.spaces],
    fun b _ => by rw [hr.spaces], hr.quota, hr.pml4Phys, hr.gave.total,
    fun f u hu => ((hr.uses_iff f u).mp hu).1,
    fun f u hu hne => ⟨(hr.uses_iff f u).mpr ⟨hu, ?_⟩, by rw [hr.mem]⟩,
      fun r q hroot _ hq => hr.sameTables.pteAt_eq hroot hq⟩
  · rintro rfl
    exact hj ⟨hr.live, ho⟩
  · by_cases hjk : j = k
    · rw [hr.ledger] at hj
      simp [hjk, retireSlot, retired] at hj
    · rw [hother j hjk]
  · rintro rfl
    exact hne ho

/-- An address space of the owner is destroyed. -/
theorem Destroyed.othersKept (hd : Destroyed B s a r s') (h : KInv B s)
    (hlive : (s.spaces a).live = true) (hroot : (s.spaces a).pml4Phys = r * frameSize)
    (ho : (s.spaces a).ownerId = o) : OthersKept B o s s' := by
  have hD : ∀ i, LiveRec s i ∧ (s.maps i).asPml4 = r * frameSize → LiveRec s i ∧
      (s.maps i).owner = o := by
    rintro i ⟨hi, hpml4⟩
    obtain ⟨b, r', p, k, perms, hm⟩ := h.mapped.record i hi
    have hba : b = a := h.space_inj b a hm.space hlive
      (hm.root.trans (hm.asPml4.symm.trans (hpml4.trans hroot.symm)))
    rw [← ho, ← hba]
    exact ⟨hi, hm.owner.symm⟩
  have hmine : ∀ π, UseOf o s (.table r π) := fun _ => ⟨a, hlive, hroot, ho⟩
  refine ⟨hd.inv, fun k hk => h.table_eq_of_dropped hd.inv hd.tokens hD
    (fun i hi => hd.dead i hi.1 hi.2) hd.other hk,
    fun k _ => hd.tokens.table k, fun i hi => hd.other i fun hDi => hi (hD i hDi), fun b hb => ?_,
    fun b hb => ?_, hd.quota,
    hd.pml4Phys, hd.total, fun f u hu => ((hd.uses f u).mp hu).1, fun f u hu hne => ?_,
      fun r' q hr' hne hq => ?_⟩
  · rw [hd.spaces, Function.update_of_ne]
    rintro rfl
    exact hb ⟨hlive, ho⟩
  · rw [hd.spaces] at hb ⊢
    by_cases hba : b = a
    · rw [hba, Function.update_self] at hb
      exact absurd hb (by simp)
    · rw [Function.update_of_ne hba]
  · have hnot : ∀ π, u ≠ .table r π := by
      rintro π rfl
      exact hne (hmine π)
    exact ⟨(hd.uses f u).mpr ⟨hu, hnot⟩, hd.mem f u hu hnot⟩
  · refine hd.kept r' q hr' ?_ hq
    rintro rfl
    exact hne (hmine [])

end Others

/-! ## One token -/

section Token

theorem mem_ownerSlots :
    k ∈ ownerSlots o L ↔ k < tableSlots ∧ (L.table k).live = true ∧ (L.table k).ownerId = o := by
  simp [ownerSlots]

theorem nodup_ownerSlots (L : Ledger) : (ownerSlots o L).Nodup := List.nodup_range.filter _

/-- The slots of an owner, after the token in the first of them is gone. -/
theorem ownerSlots_of_retired {ks : List ℕ} (hslots : ownerSlots o L = k :: ks)
    (hdead : (L'.table k).live = false)
    (hother : ∀ j, j ≠ k → (L'.table j).live = (L.table j).live ∧
      (L'.table j).ownerId = (L.table j).ownerId) :
    ownerSlots o L' = ks := by
  have hfilter : ownerSlots o L' = (ownerSlots o L).filter fun j => j ≠ k := by
    rw [ownerSlots, ownerSlots, List.filter_filter]
    refine List.filter_congr fun j _ => ?_
    by_cases hj : j = k
    · simp [hj, hdead]
    · simp [hother j hj, hj]
  have hnodup := nodup_ownerSlots (o := o) L
  rw [hslots] at hnodup
  rw [hfilter, hslots, List.filter_cons_of_neg (by simp)]
  refine List.filter_eq_self.mpr fun j hj => ?_
  have hne : j ≠ k := by
    rintro rfl
    exact (List.nodup_cons.mp hnodup).1 hj
  simpa using hne

/-- The token of a slot. -/
def tokenOf (s : Xeret) (k : ℕ) : XToken := packToken k (s.ledger.table k).generation

/-- **One token of the owner is reaped.** -/
theorem reapToken_spec (h : KInv B s) (hmem : k ∈ ownerSlots o s.ledger) (n : ℕ) :
    ∃ s', reapToken (n, s) (tokenOf s k) = (n + 1, s') ∧ OthersKept B o s s' ∧
      s'.spaces = s.spaces ∧
      (s'.ledger.table k).live = false ∧
      ∀ j, j ≠ k → s'.ledger.table j = { s.ledger.table j with
        mapCount := (s'.ledger.table j).mapCount } := by
  obtain ⟨hlt, hlive, ho⟩ := mem_ownerSlots.mp hmem
  have hk : Held s.ledger (tokenOf s k) k := ⟨hlt, hlive, rfl⟩
  obtain ⟨hd, _, hzero⟩ := xasRevokeToken_spec h (tokenOf s k)
  simp only [reapToken]
  generalize (xasRevokeToken (tokenOf s k) s).2 = t at hd hzero
  have hkt := hd.tokens.held_iff.mpr hk
  have hentry := hd.tokens.table k
  obtain ⟨hok, hrel⟩ := releaseImpl_ok hd.inv.toLayout hkt false false (by simp) (by simp)
    (hzero k hk)
  rw [xtokReclaim, hok]
  have hown : (t.ledger.table k).ownerId = o := by rw [hentry]; exact ho
  have hkept := (hd.othersKept h fun i hi => ⟨hi.1, ?_⟩).trans (hrel.othersKept hd.inv hown)
  · refine ⟨_, rfl, hkept, hrel.spaces.trans hd.spaces, ?_, fun j hj => ?_⟩
    · rw [hrel.ledger]
      simp [retireSlot, retired]
    · rw [hrel.ledger]
      simp only [retireSlot, Function.update_of_ne hj]
      exact hd.tokens.table j
  · -- a record of the token has its owner
    obtain ⟨a, r, p, k', perms, hm⟩ := h.mapped.record i hi.1
    have hkk := hm.held.slot_unique h.tokens.gens (hi.2 ▸ hk)
    rw [← hm.tokenOwner, hkk, ho]

end Token

/-! ## The loop -/

section Loop

/-- **One pass** over tokens of the owner. -/
theorem foldl_reapToken (ks rest : List ℕ) (n : ℕ) (s : Xeret) (h : KInv B s)
    (hslots : ownerSlots o s.ledger = ks ++ rest) :
    ((ks.map (tokenOf s)).foldl reapToken (n, s)).1 = n + ks.length ∧
      OthersKept B o s ((ks.map (tokenOf s)).foldl reapToken (n, s)).2 ∧
      ((ks.map (tokenOf s)).foldl reapToken (n, s)).2.spaces = s.spaces ∧
      ownerSlots o ((ks.map (tokenOf s)).foldl reapToken (n, s)).2.ledger = rest := by
  induction ks generalizing n s with
  | nil => exact ⟨rfl, OthersKept.refl h, rfl, hslots⟩
  | cons k ks ih =>
    obtain ⟨t, h1, h2, h3, h4, h5⟩ := reapToken_spec (o := o) (k := k) h (by rw [hslots]; simp) n
    rw [List.map_cons, List.foldl_cons, h1]
    have hrest : ownerSlots o t.ledger = ks ++ rest :=
      ownerSlots_of_retired hslots h4 fun j hj => by rw [h5 j hj]; exact ⟨rfl, rfl⟩
    -- the tokens that are left have the same generations
    have hmap : ks.map (tokenOf s) = ks.map (tokenOf t) := by
      refine List.map_congr_left fun j hj => ?_
      have hne : j ≠ k := by
        rintro rfl
        have hnodup := nodup_ownerSlots (o := o) s.ledger
        rw [hslots, List.cons_append] at hnodup
        exact (List.nodup_cons.mp hnodup).1 (List.mem_append_left _ hj)
      rw [tokenOf, tokenOf, h5 j hne]
    rw [hmap]
    obtain ⟨i1, i2, i3, i4⟩ := ih (n + 1) t h2.inv hrest
    refine ⟨?_, h2.trans i2, i3.trans h3, i4⟩
    rw [i1, List.length_cons]
    omega

/-- **The loop of `xproc_reap` ends**, after at most one turn for each token and one more. -/
theorem reapLoop_spec (fuel total : ℕ) (s : Xeret) (h : KInv B s)
    (hfuel : (ownerSlots o s.ledger).length < fuel) :
    ∃ s', reapLoop o fuel total s = some (total + (ownerSlots o s.ledger).length, s') ∧
      OthersKept B o s s' ∧ s'.spaces = s.spaces ∧
      ownerSlots o s'.ledger = [] := by
  induction fuel generalizing total s with
  | zero => exact absurd hfuel (Nat.not_lt_zero _)
  | succ fuel ih =>
    have hlist : xtokOwnerTokens o 64 s = ((ownerSlots o s.ledger).take 64).map (tokenOf s) := rfl
    rw [reapLoop, hlist]
    simp only [List.length_map]
    by_cases hempty : (ownerSlots o s.ledger).length = 0
    · have hnil : ownerSlots o s.ledger = [] := List.length_eq_zero_iff.mp hempty
      rw [hnil]
      exact ⟨s, rfl, OthersKept.refl h, rfl, hnil⟩
    · have hpos : ((ownerSlots o s.ledger).take 64).length ≠ 0 := by
        rw [List.length_take]
        omega
      obtain ⟨h1, h2, h3, h4⟩ :=
        foldl_reapToken _ _ 0 s h (List.take_append_drop 64 (ownerSlots o s.ledger)).symm
      generalize hpass : (((ownerSlots o s.ledger).take 64).map (tokenOf s)).foldl reapToken
        (0, s) = pass at h1 h2 h3 h4
      have hlen : (ownerSlots o pass.2.ledger).length = (ownerSlots o s.ledger).length - 64 := by
        rw [h4, List.length_drop]
      rw [List.length_take] at hpos h1
      rw [if_neg (by rw [List.length_take]; exact hpos), if_neg (by omega)]
      obtain ⟨s', i1, i2, i3, i4⟩ := ih (total + pass.1) pass.2 h2.inv (by omega)
      refine ⟨s', ?_, h2.trans i2, i3.trans h3, i4⟩
      have hsum : total + (0 + min 64
        (ownerSlots o s.ledger).length) + ((ownerSlots o s.ledger).length - 64) =
          total + (ownerSlots o s.ledger).length := by omega
      rw [i1, h1, hlen, hsum]

end Loop

/-! ## The process -/

/-- What is left after the end of a process of owner `o` in the address space `a`, whose root was
`r`. -/
structure Reaped (B : ℕ → Prop) (s : Xeret) (a r : ℕ) (o : OwnerId) (s' : Xeret) : Prop where
  others : OthersKept B o s s'
  noTokens : ownerSlots o s'.ledger = []
  noRecords : ∀ i, LiveRec s' i → (s'.maps i).asPml4 ≠ r * frameSize
  closed : (s'.spaces a).live = false
  tokenFrames : ∀ k f, TokenFrame s.ledger k f → (s.ledger.table k).ownerId = o →
    s'.phys.isFree f = true
  tables : ∀ π f, TableFrame s r π f → s'.phys.isFree f = true

section Process

/-- Things of the owner that are no longer in use were freed. -/
theorem OthersKept.isFree_of_unused (h : OthersKept B o s s') (hinv : KInv B s) (hu : Uses B s f u)
    (hgone : ¬ Uses B s' f u) : s'.phys.isFree f = true := by
  by_contra hne
  obtain ⟨v, hv⟩ := h.inv.exact f (by rw [h.total]; exact (hinv.used f u hu).1) (by simpa using hne)
  have huv := hinv.unique f u v hu (h.uses f v hv)
  exact hgone (huv ▸ hv)

/-- The state in which the owner has no tokens and its address space is closed. -/
theorem OthersKept.reclaims (h : OthersKept B o s s') (hinv : KInv B s)
    (hlive : (s.spaces a).live = true) (hroot : (s.spaces a).pml4Phys = r * frameSize)
    (hnone : ownerSlots o s'.ledger = []) (hclosed : (s'.spaces a).live = false) :
    Reaped B s a r o s' := by
  -- no address space in use has the root `r`
  have hnoroot : ¬ IsRoot s' r := by
    rintro ⟨b, hb, hpml4⟩
    have heq := h.closed b hb
    have hba : b = a := hinv.space_inj b a (heq ▸ hb) hlive ((heq ▸ hpml4).trans hroot.symm)
    rw [hba, hclosed] at hb
    exact absurd hb (by simp)
  refine ⟨h, hnone, fun i hi hpml4 => ?_, hclosed, fun k f hf ho => ?_, fun π f hf => ?_⟩
  · obtain ⟨b, r', p, k, perms, hm⟩ := h.inv.mapped.record i hi
    exact hnoroot ⟨b, hm.space, hm.root.trans (hm.asPml4.symm.trans hpml4)⟩
  · refine h.isFree_of_unused hinv (u := .token k) hf fun hf' => ?_
    have hown : (s'.ledger.table k).ownerId = o := by rw [h.alive k hf'.live]; exact ho
    have hmem : k ∈ ownerSlots o s'.ledger := mem_ownerSlots.mpr ⟨hf'.slot_lt, hf'.live, hown⟩
    rw [hnone] at hmem
    exact absurd hmem (by simp)
  · exact h.isFree_of_unused hinv (u := .table r π) hf fun hf' => hnoroot hf'.root

/-- **`xproc_reap`.** -/
theorem xprocReap_spec (h : KInv B s) (hlive : (s.spaces a).live = true)
    (hfuel : (ownerSlots (s.spaces a).ownerId s.ledger).length < fuel) :
    ∃ r s', (s.spaces a).pml4Phys = r * frameSize ∧
      xprocReap fuel a s = some ((ownerSlots (s.spaces a).ownerId s.ledger).length, s') ∧
      Reaped B s a r (s.spaces a).ownerId s' := by
  obtain ⟨t, h1, h2, h3, h4⟩ := reapLoop_spec (o := (s.spaces a).ownerId) fuel 0 s h hfuel
  have hlive' : (t.spaces a).live = true := by rw [h3]; exact hlive
  obtain ⟨r, hroot, hd⟩ := xasDestroy_spec h2.inv hlive'
  have hkept := h2.trans (hd.othersKept h2.inv hlive' hroot (by rw [h3]))
  rw [h3] at hroot
  refine ⟨r, xasDestroy a t, hroot, ?_, hkept.reclaims h hlive hroot ?_ ?_⟩
  · rw [xprocReap, if_neg (by simp [hlive]), h1, Option.map_some, Nat.zero_add]
  · rw [← h4, ownerSlots, ownerSlots]
    refine List.filter_congr fun k _ => ?_
    rw [hd.tokens.table k]
  · rw [hd.spaces, Function.update_self]

end Process

end Xasmos.Kernel
