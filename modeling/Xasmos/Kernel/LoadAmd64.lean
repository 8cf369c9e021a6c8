import Xasmos.Exb.Transaction
import Xasmos.Kernel.Usage

/-!
# The loader on the kernel

`load_amd64.c` gives the loader its backend: tokens of the ledger for the parts of a program, the
page tables for their mappings.  `Lent` is what a load holds at each of its steps, beside
everything that was there before it.  A load that fails holds no token and no record at the end,
but the page tables that its mappings built stay with the address space.

## Main definitions

* `amd64` — the backend.
* `Lent B s₀ a owner T M s` — since `s₀` the load has made the tokens of `T` and the mappings of
  `M`.

## Main results

* `wp_xloadExb_amd64` — a load ends with all its parts, or with none.
-/

namespace Xasmos.Kernel

open Exb Radix
open Function (update update_of_ne)

variable {B : ℕ → Prop} {L L' L₀ : Ledger} {M T : List (XToken × Part)} {a b f g i j k n r root : ℕ}
  {d : XToken × Part} {m m' m₀ : ℕ → MapRec} {owner : OwnerId} {p : Part} {s s' s₀ : Xeret}
  {tok : XToken}

/-! ## The backend -/

/-- `xlb_quota_ok` -/
def xlbQuotaOk (owner : OwnerId) (frames : UInt64) (tokens : UInt32) (s : Xeret) : Bool :=
  let max := quotaOf owner s
  let used := xtokOwnerUsage owner s
  if used.1 > max.1 ∨ used.2 > max.2 then false
  else if frames > max.1 - used.1 then false
  else if tokens > max.2 - used.2 then false
  else true

/-- A store to physical memory, which the kernel sees at the same addresses. -/
def storeByte (addr : ℕ) (v : UInt8) (s : Xeret) : Xeret :=
  { s with mem := update s.mem (addr / frameSize) (update (s.mem (addr / frameSize))
    (addr % frameSize) v) }

/-- `xlb_kernel_ptr` -/
def xlbKernelPtr (tok : XToken) (s : Xeret) : ℕ := ((xtokRamInfo tok s).map Prod.fst).getD 0

/-- The backend of `load_amd64.c`. -/
def amd64 : Backend Xeret where
  quotaOk := xlbQuotaOk
  alloc owner n rights s :=
    let alloc := xtokAllocRam owner n rights s
    (if alloc.1 = tokenInvalid then none else some alloc.1, alloc.2)
  poke tok off v s := storeByte (xlbKernelPtr tok s + off) v s
  release tok s := (xtokReclaim tok s).2
  map a virt tok perms s :=
    let map := (xasMap a virt tok perms).run s
    (decide (map.1 = .ok ()), map.2)
  unmap a virt s :=
    let unmap := (xasUnmap a virt).run s
    (decide (unmap.1 = .ok ()), unmap.2)

/-! ## Memory of tokens -/

section Store

/-- A store into a frame of a token is seen in no other frame. -/
theorem KInv.mem_store (h : KInv B s) (hf : TokenFrame s.ledger k f) (v : Bytes) {u : FrameUse}
    (hu : Uses B s g u) (hne : u ≠ .token k) : update s.mem f v g = s.mem g := by
  refine update_of_ne ?_ _ _
  rintro rfl
  exact hne (h.unique g u (.token k) hu hf)

theorem KInv.sameTables_store (h : KInv B s) (hf : TokenFrame s.ledger k f) (v : Bytes) :
    SameTables s { s with mem := update s.mem f v } :=
  ⟨rfl, fun r π _ ht => h.mem_store hf v (show Uses B s _ (.table r π) from ht) (by simp)⟩

/-- What is stored in the frames of a token is no matter of the kernel. -/
theorem KInv.store (h : KInv B s) (hf : TokenFrame s.ledger k f) (v : Bytes) :
    KInv B { s with mem := update s.mem f v } := by
  have hsame := h.sameTables_store hf v
  have huses : ∀ g u, Uses B { s with mem := update s.mem f v } g u ↔ Uses B s g u := fun g u =>
    hsame.uses_iff fun _ => Iff.rfl
  refine ⟨⟨h.toFramesOk.congr h.counted rfl (fun _ => rfl) huses, hsame.treesOk h.toTreesOk,
    h.tokens,
    h.kernel.congr rfl fun g hg => h.mem_store hf v (show Uses B s g .boot from hg) (by simp)⟩, ?_⟩
  exact h.mapped.congr rfl rfl hsame.samePages (fun _ _ _ hk => ⟨hk, rfl⟩) h.mapped.count

/-- The pointer of a live token. -/
theorem xlbKernelPtr_eq (h : KInv B s) (hk : Held s.ledger tok k) :
    xlbKernelPtr tok s = (s.ledger.table k).phys := by
  have hkind : ¬ (s.ledger.table k).kind ≠ .ram := not_not.mpr (h.tokens.token k hk.live).2.2
  simp only [xlbKernelPtr, xtokRamInfo, (lookupLive_eq_some_iff h.tokens.gens).mpr hk, if_neg hkind]
  rfl

end Store

/-! ## What a load holds -/

/-- Since `L₀` the tokens of `T` were made for `owner`, and no other token came or went. -/
structure TokensLent (L₀ : Ledger) (owner : OwnerId) (T : List (XToken × Part)) (L : Ledger) :
    Prop where
  old : ∀ k, (L₀.table k).live = true →
    L.table k = { L₀.table k with mapCount := (L.table k).mapCount }
  new : ∀ d ∈ T, ∃ k, Held L d.1 k ∧ (L₀.table k).live = false ∧ (L.table k).ownerId = owner ∧
    (L.table k).nFrames = d.2.pages ∧ (L.table k).rights = d.2.rights
  only : ∀ k, (L.table k).live = true → (L₀.table k).live = true ∨ ∃ d ∈ T, Held L d.1 k
  distinct : (T.map Prod.fst).Nodup
  frames : ∀ o, usedFrames o L =
    usedFrames o L₀ + if owner = o then (T.map fun d => d.2.pages).sum else 0
  count : ∀ o, usedTokens o L = usedTokens o L₀ + if owner = o then T.length else 0

section Tokens

theorem TokensLent.refl : TokensLent L owner [] L :=
  ⟨fun _ _ => rfl, by simp, fun _ hk => Or.inl hk, List.nodup_nil, by simp, by simp⟩

theorem TokensLent.sameTokens (h : TokensLent L₀ owner T L) (hs : SameTokens L L') :
    TokensLent L₀ owner T L' := by
  have hlive : ∀ j, (L'.table j).live = (L.table j).live := fun j => by rw [hs.table j]
  refine ⟨fun j hj => ?_, fun d hd => ?_, fun j hj => ?_, h.distinct, fun o => ?_, fun o => ?_⟩
  · rw [hs.table j, h.old j hj]
  · obtain ⟨j, h1, h2, h3⟩ := h.new d hd
    exact ⟨j, hs.held_iff.mpr h1, h2, by rw [hs.table j]; exact h3⟩
  · rw [hlive] at hj
    rcases h.only j hj with hold | ⟨d, hd, hk⟩
    · exact Or.inl hold
    · exact Or.inr ⟨d, hd, hs.held_iff.mpr hk⟩
  · rw [← h.frames o]
    exact held_sameTokens hs fun _ _ => rfl
  · rw [← h.count o]
    exact held_sameTokens hs fun _ _ => rfl

/-- A slot that is free now was free at the start. -/
theorem TokensLent.free (h : TokensLent L₀ owner T L) (hfree : (L.table k).live = false) :
    (L₀.table k).live = false := by
  by_contra hlive
  rw [h.old k (by simpa using hlive)] at hfree
  exact hlive hfree

/-- A token that was live at the start is live in its slot. -/
theorem TokensLent.held (h : TokensLent L₀ owner T L) (hk : Held L₀ tok k) : Held L tok k := by
  have hold := h.old k hk.live
  refine ⟨hk.slot_lt, ?_, ?_⟩
  · rw [hold]
    exact hk.live
  · rw [hold]
    exact hk.tok_eq

/-- A token of the load was not live at the start. -/
theorem TokensLent.not_held (h : TokensLent L₀ owner T L) (hgens : GensOk L) (hd : d ∈ T) :
    ¬ Held L₀ d.1 k := by
  intro hk
  obtain ⟨j, hj, hnew, _⟩ := h.new d hd
  rw [hj.slot_unique hgens (h.held hk), hk.live] at hnew
  cases hnew

/-- A token more. -/
theorem TokensLent.make (h : TokensLent L₀ owner T L) (hgens : GensOk L) (hk : k < tableSlots)
    (hfree : (L.table k).live = false) (hL : L' = sealSlot k owner b p.pages p.rights L)
    (hframes : ∀ o, usedFrames o L' = usedFrames o L + if owner = o then p.pages else 0)
    (hcount : ∀ o, usedTokens o L' = usedTokens o L + if owner = o then 1 else 0) :
    TokensLent L₀ owner (T ++ [(packToken k (L.table k).generation, p)]) L' := by
  have htable : ∀ j, j ≠ k → L'.table j = L.table j := by
    intro j hj
    rw [hL]
    simp [sealSlot, hj]
  have hheld : ∀ {tok j}, Held L' tok j ↔ Held L tok j ∨ j = k ∧
      tok = packToken k (L.table k).generation := by
    intro tok j
    rw [hL]
    exact held_sealSlot hk hfree
  have hne : ∀ {tok j}, Held L tok j → j ≠ k := by
    rintro tok j hj rfl
    have hlive := hj.live
    rw [hfree] at hlive
    cases hlive
  have hgens' : GensOk L' := hL ▸ hgens.sealSlot b p.pages
  refine ⟨fun j hj => ?_, fun d hd => ?_, fun j hj => ?_, ?_, fun o => ?_, fun o => ?_⟩
  · have hjk : j ≠ k := by
      rintro rfl
      rw [h.free hfree] at hj
      cases hj
    rw [htable j hjk]
    exact h.old j hj
  · rcases List.mem_append.mp hd with hd | hd
    · obtain ⟨j, h1, h2, h3⟩ := h.new d hd
      rw [← htable j (hne h1)] at h3
      exact ⟨j, hheld.mpr (Or.inl h1), h2, h3⟩
    · rw [List.mem_singleton.mp hd]
      have hself : L'.table k = sealed owner b p.pages p.rights (L.table k) := by
        rw [hL]
        simp [sealSlot]
      exact ⟨k, hheld.mpr (Or.inr ⟨rfl, rfl⟩), h.free hfree, by rw [hself]; exact ⟨rfl, rfl, rfl⟩⟩
  · by_cases hjk : j = k
    · subst hjk
      exact Or.inr ⟨_, List.mem_append_right _ (List.mem_singleton_self _),
        hheld.mpr (Or.inr ⟨rfl, rfl⟩)⟩
    · rw [htable j hjk] at hj
      rcases h.only j hj with hold | ⟨d, hd, hk⟩
      · exact Or.inl hold
      · exact Or.inr ⟨d, List.mem_append_left _ hd, hheld.mpr (Or.inl hk)⟩
  · rw [List.map_append, List.map_singleton, List.nodup_append]
    refine ⟨h.distinct, List.nodup_singleton _, ?_⟩
    rintro tok htok _ htok' rfl
    obtain ⟨d, hd, rfl⟩ := List.mem_map.mp htok
    obtain ⟨j, hj, _⟩ := h.new d hd
    have heq := (hheld.mpr (Or.inl hj)).slot_unique hgens'
      (hheld.mpr (Or.inr ⟨rfl, List.mem_singleton.mp htok'⟩))
    exact hne hj heq
  · have hbefore := h.frames o
    have hafter := hframes o
    rw [List.map_append, List.map_singleton, List.sum_append, List.sum_singleton]
    dsimp only
    by_cases ho : owner = o
    · rw [if_pos ho] at hbefore hafter ⊢
      omega
    · rw [if_neg ho] at hbefore hafter ⊢
      omega
  · have hbefore := h.count o
    have hafter := hcount o
    rw [List.length_append, List.length_singleton]
    by_cases ho : owner = o
    · rw [if_pos ho] at hbefore hafter ⊢
      omega
    · rw [if_neg ho] at hbefore hafter ⊢
      omega

/-- The last token is gone. -/
theorem TokensLent.drop (h : TokensLent L₀ owner (T ++ [d]) L) (hgens : GensOk L)
    (hk : Held L d.1 k) (hL : L' = retireSlot k L)
    (hframes : ∀ o, usedFrames o L' + share o XTokenEntry.nFrames (L.table k) = usedFrames o L)
    (hcount : ∀ o, usedTokens o L' + share o (fun _ => 1) (L.table k) = usedTokens o L) :
    TokensLent L₀ owner T L' := by
  obtain ⟨k', hk', hold, howner, hpages, -⟩ := h.new d (by simp)
  obtain rfl := hk.slot_unique hgens hk'
  have htable : ∀ j, j ≠ k → L'.table j = L.table j := by
    intro j hj
    rw [hL]
    simp [retireSlot, hj]
  have hheld : ∀ {tok j}, Held L' tok j ↔ Held L tok j ∧ j ≠ k := by
    intro tok j
    rw [hL]
    exact held_retireSlot
  have hdistinct := h.distinct
  rw [List.map_append, List.map_singleton, List.nodup_append] at hdistinct
  refine ⟨fun j hj => ?_, fun e he => ?_, fun j hj => ?_, hdistinct.1, fun o => ?_, fun o => ?_⟩
  · have hjk : j ≠ k := by
      rintro rfl
      rw [hold] at hj
      cases hj
    rw [htable j hjk]
    exact h.old j hj
  · obtain ⟨j, h1, h2, h3⟩ := h.new e (List.mem_append_left _ he)
    have hjk : j ≠ k := by
      rintro rfl
      exact hdistinct.2.2 _ (List.mem_map_of_mem he) _ (List.mem_singleton_self _)
        (h1.tok_eq.trans hk.tok_eq.symm)
    rw [← htable j hjk] at h3
    exact ⟨j, hheld.mpr ⟨h1, hjk⟩, h2, h3⟩
  · have hjk : j ≠ k := by
      rintro rfl
      rw [hL] at hj
      simp [retireSlot, retired] at hj
    rw [htable j hjk] at hj
    rcases h.only j hj with hold | ⟨e, he, hke⟩
    · exact Or.inl hold
    · rcases List.mem_append.mp he with he | he
      · exact Or.inr ⟨e, he, hheld.mpr ⟨hke, hjk⟩⟩
      · rw [List.mem_singleton.mp he] at hke
        exact absurd (hke.slot_unique hgens hk) hjk
  · have hbefore := h.frames o
    have hafter := hframes o
    rw [share, howner] at hafter
    by_cases ho : owner = o
    · simp only [if_pos ho, List.map_append, List.sum_append, List.map_singleton,
        List.sum_singleton] at hbefore
      rw [if_pos ⟨hk.live, ho⟩] at hafter
      rw [if_pos ho]
      omega
    · rw [if_neg ho, Nat.add_zero] at hbefore ⊢
      rw [if_neg fun hc => ho hc.2] at hafter
      omega
  · have hbefore := h.count o
    have hafter := hcount o
    rw [share, howner] at hafter
    by_cases ho : owner = o
    · simp only [if_pos ho, List.length_append, List.length_singleton] at hbefore
      rw [if_pos ⟨hk.live, ho⟩] at hafter
      rw [if_pos ho]
      omega
    · rw [if_neg ho, Nat.add_zero] at hbefore ⊢
      rw [if_neg fun hc => ho hc.2] at hafter
      omega

end Tokens

/-- The part `d` is mapped by record `i`, in the address space with this root. -/
structure MapsPart (root : ℕ) (m : ℕ → MapRec) (i : ℕ) (d : XToken × Part) : Prop where
  lt : i < maxMaps
  live : (m i).live = true
  space : (m i).asPml4 = root
  virt : (m i).virt = d.2.vaddr
  tok : (m i).tok = d.1

/-- Since the records `m₀` the parts of `M` were mapped, and no other record came or went. -/
structure RecordsLent (m₀ : ℕ → MapRec) (root : ℕ) (M : List (XToken × Part)) (m : ℕ → MapRec) :
    Prop where
  old : ∀ i, (m₀ i).live = true → m i = m₀ i
  new : ∀ d ∈ M, ∃ i, MapsPart root m i d
  only : ∀ i < maxMaps, (m i).live = true → (m₀ i).live = true ∨ ∃ d ∈ M, MapsPart root m i d

section Records

theorem RecordsLent.refl :
    RecordsLent m root [] m := ⟨fun _ _ => rfl, by simp, fun _ _ hi => Or.inl hi⟩

/-- A record more. -/
theorem RecordsLent.make {r : MapRec} (h : RecordsLent m₀ root M m) (hi : i < maxMaps)
    (hfree : (m i).live = false) (hm : m' = update m i r) (hlive : r.live = true)
    (hroot : r.asPml4 = root) (hvirt : r.virt = d.2.vaddr) (htok : r.tok = d.1) :
    RecordsLent m₀ root (M ++ [d]) m' := by
  have hself : MapsPart root m' i d := by
    subst hm
    exact ⟨hi, by simpa using hlive, by simpa using hroot, by simpa using hvirt,
      by simpa using htok⟩
  have hother : ∀ j, j ≠ i → m' j = m j := fun j hj => by rw [hm, update_of_ne hj]
  have hkeep : ∀ j e, MapsPart root m j e → MapsPart root m' j e := by
    rintro j e ⟨h1, h2, h3, h4, h5⟩
    have hji : j ≠ i := by
      rintro rfl
      rw [hfree] at h2
      cases h2
    rw [← hother j hji] at h2 h3 h4 h5
    exact ⟨h1, h2, h3, h4, h5⟩
  refine ⟨fun j hj => ?_, fun e he => ?_, fun j hlt hj => ?_⟩
  · have hji : j ≠ i := by
      rintro rfl
      rw [h.old j hj, hj] at hfree
      cases hfree
    rw [hother j hji]
    exact h.old j hj
  · rcases List.mem_append.mp he with he | he
    · obtain ⟨j, hj⟩ := h.new e he
      exact ⟨j, hkeep j e hj⟩
    · rw [List.mem_singleton.mp he]
      exact ⟨i, hself⟩
  · by_cases hji : j = i
    · subst hji
      exact Or.inr ⟨d, by simp, hself⟩
    · rw [hother j hji] at hj
      rcases h.only j hlt hj with hold | ⟨e, he, hm⟩
      · exact Or.inl hold
      · exact Or.inr ⟨e, List.mem_append_left _ he, hkeep j e hm⟩

/-- The record of the last part is dropped; no other record maps at its address. -/
theorem RecordsLent.drop (h : RecordsLent m₀ root (M ++ [d]) m) (hd : MapsPart root m i d)
    (hnew : ¬ (m₀ i).live = true) (hdead : (m' i).live = false) (hother : ∀ j, j ≠ i → m' j = m j)
    (hplace : ∀ j, MapsPart root m j d → j = i) (hrest : ∀ e ∈ M, ¬ MapsPart root m i e) :
    RecordsLent m₀ root M m' := by
  have hkeep : ∀ j e, j ≠ i → MapsPart root m j e → MapsPart root m' j e := by
    rintro j e hji ⟨h1, h2, h3, h4, h5⟩
    rw [← hother j hji] at h2 h3 h4 h5
    exact ⟨h1, h2, h3, h4, h5⟩
  refine ⟨fun j hj => ?_, fun e he => ?_, fun j hlt hj => ?_⟩
  · have hji : j ≠ i := by
      rintro rfl
      exact hnew hj
    rw [hother j hji]
    exact h.old j hj
  · obtain ⟨j, hj⟩ := h.new e (List.mem_append_left _ he)
    have hji : j ≠ i := by
      rintro rfl
      exact hrest e he hj
    exact ⟨j, hkeep j e hji hj⟩
  · have hji : j ≠ i := by
      rintro rfl
      rw [hdead] at hj
      cases hj
    rw [hother j hji] at hj
    rcases h.only j hlt hj with hold | ⟨e, he, hm⟩
    · exact Or.inl hold
    · rcases List.mem_append.mp he with he | he
      · exact Or.inr ⟨e, he, hkeep j e hji hm⟩
      · rw [List.mem_singleton.mp he] at hm
        exact absurd (hplace j hm) hji

end Records

/-- At most one live record starts at an address of an address space. -/
theorem KInv.record_unique (h : KInv B s) (hi : LiveRec s i) (hj : LiveRec s j)
    (hspace : (s.maps i).asPml4 = (s.maps j).asPml4) (hvirt : (s.maps i).virt = (s.maps j).virt) :
    i = j := by
  obtain ⟨a, r, p, k, perms, hm⟩ := h.mapped.record i hi
  obtain ⟨a', r', p', k', perms', hm'⟩ := h.mapped.record j hj
  have hpos := (h.tokens.token k hm.held.live).2.1
  have hpos' := (h.tokens.token k' hm'.held.live).2.1
  rw [hm.frames] at hpos
  rw [hm'.frames] at hpos'
  have hpage : 0 < frameSize := by decide
  rw [hm.asPml4, hm'.asPml4] at hspace
  rw [hm.virt, hm'.virt] at hvirt
  obtain rfl := Nat.eq_of_mul_eq_mul_right hpage hspace
  obtain rfl := Nat.eq_of_mul_eq_mul_right hpage hvirt
  exact h.mapped.disjoint i j r p hi hj (hm.covers_iff.mpr ⟨rfl, by omega, by omega⟩)
    (hm'.covers_iff.mpr ⟨rfl, by omega, by omega⟩)

/-- Since `s₀` the load has made the tokens of `T` for `owner` and mapped the parts of `M` in the
address space `a`.  What was there is there, and no table is gone. -/
structure Lent (B : ℕ → Prop) (s₀ : Xeret) (a : ℕ) (owner : OwnerId) (T M : List (XToken × Part))
    (s : Xeret) : Prop where
  inv : KInv B s
  pml4Phys : s.pml4Phys = s₀.pml4Phys
  quota : s.quota = s₀.quota
  spaces : s.spaces = s₀.spaces
  total : s.phys.totalFrames = s₀.phys.totalFrames
  tokens : TokensLent s₀.ledger owner T s.ledger
  records : RecordsLent s₀.maps (s₀.spaces a).pml4Phys M s.maps
  sub : M.Sublist T
  live : M ≠ [] → (s₀.spaces a).live = true
  tables : ∀ r π f, TableFrame s₀ r π f → TableFrame s r π f
  boot : SameBoot B s₀ s

section Lent

theorem Lent.refl (h : KInv B s) : Lent B s a owner [] [] s :=
  ⟨h, rfl, rfl, rfl, rfl, .refl, .refl, .refl _, fun hne => absurd rfl hne, fun _ _ _ hf => hf,
    fun _ _ => rfl⟩

/-- An allocation that failed. -/
theorem Lent.quiet (h : Lent B s₀ a owner T M s) (hq : Quiet s s') : Lent B s₀ a owner T M s' :=
  ⟨h.inv.quiet hq, hq.pml4Phys.trans h.pml4Phys, hq.quota.trans h.quota, hq.spaces.trans h.spaces,
    hq.total.trans h.total,
    hq.ledger ▸ h.tokens, hq.maps ▸ h.records, h.sub, h.live, fun r π f hf =>
    (hq.sameTables h.inv.toFramesOk).tableFrame_iff.mpr (h.tables r π f hf),
      h.boot.trans (hq.sameBoot h.inv.toFramesOk)⟩

/-- A mapping that failed: tables may have been built. -/
theorem Lent.edited (h : Lent B s₀ a owner T M s) (he : TableEdit B s r s') (hp : SamePages s s')
    (htotal : s'.phys.totalFrames = s.phys.totalFrames) : Lent B s₀ a owner T M s' :=
  ⟨h.inv.edit he hp, he.pml4Phys.trans h.pml4Phys, he.quota.trans h.quota, he.spaces.trans h.spaces,
    htotal.trans h.total,
    he.ledger ▸ h.tokens, he.maps ▸ h.records, h.sub, h.live, fun r π f hf => he.uses f (.table r π)
    (h.tables r π f hf), h.boot.trans he.sameBoot⟩

/-- A byte of a token of the load is stored in one of its frames. -/
theorem Lent.poke_eq (h : Lent B s₀ a owner T M s) (hd : d ∈ T) (hn : n < d.2.pages * page)
    (v : UInt8) :
    ∃ k f w, TokenFrame s.ledger k f ∧
      amd64.poke d.1 n v s = { s with mem := update s.mem f w } := by
  obtain ⟨k, hk, _, _, hframes, -⟩ := h.tokens.new d hd
  obtain ⟨b, hb⟩ := (h.inv.tokens.token k hk.live).1
  have hdiv : ((s.ledger.table k).phys + n) / frameSize = b + n / frameSize := by
    rw [hb, Nat.mul_comm, Nat.mul_add_div (by decide)]
  have hbase : (s.ledger.table k).phys / frameSize = b := by
    rw [hb, Nat.mul_div_cancel b (by decide)]
  have hoff : n / frameSize < d.2.pages := Nat.div_lt_of_lt_mul (by rwa [Nat.mul_comm])
  have hf : TokenFrame s.ledger k (((s.ledger.table k).phys + n) / frameSize) := by
    refine ⟨hk.slot_lt, hk.live, ?_, ?_⟩
    · rw [hdiv, hbase]
      exact Nat.le_add_right _ _
    · rw [hdiv, hbase, hframes]
      exact Nat.add_lt_add_left hoff b
  simp only [amd64, xlbKernelPtr_eq h.inv hk]
  exact ⟨k, _, _, hf, rfl⟩

/-- A store into a token of the load. -/
theorem Lent.store (h : Lent B s₀ a owner T M s) (hd : d ∈ T) (hn : n < d.2.pages * page)
    (v : UInt8) : Lent B s₀ a owner T M (amd64.poke d.1 n v s) := by
  obtain ⟨k, f, w, hf, heq⟩ := h.poke_eq hd hn v
  have hsame := h.inv.sameTables_store hf w
  rw [heq]
  exact ⟨h.inv.store hf w, h.pml4Phys, h.quota, h.spaces, h.total, h.tokens, h.records, h.sub,
    h.live, fun r π t ht => hsame.tableFrame_iff.mpr (h.tables r π t ht),
    h.boot.trans fun g hg => h.inv.mem_store hf w (show Uses B s g .boot from hg) (by simp)⟩

/-- A token more. -/
theorem Lent.allocated (h : Lent B s₀ a owner T M s)
    (ha : Allocated s owner p.pages p.rights k b s') :
    Lent B s₀ a owner (T ++ [(packToken k (s.ledger.table k).generation, p)]) M s' :=
  ⟨h.inv.allocated ha, ha.pml4Phys.trans h.pml4Phys, ha.quota.trans h.quota,
    ha.spaces.trans h.spaces, ha.took.total.trans h.total,
    h.tokens.make h.inv.tokens.gens ha.slot_lt ha.free ha.ledger (fun _ => ha.usedFrames_eq)
    (fun _ => ha.usedTokens_eq),
    ha.maps ▸ h.records, h.sub.trans (List.sublist_append_left _ _), h.live, fun r π f hf =>
    (ha.sameTables h.inv.toFramesOk).tableFrame_iff.mpr (h.tables r π f hf),
      h.boot.trans (ha.sameBoot h.inv.toFramesOk)⟩

/-- A mapping more. -/
theorem Lent.mapped {p : ℕ} {perms : UInt32} (h : Lent B s₀ a owner (M ++ [d]) M s)
    (hm : Mapped B s a r p d.1 perms k i s') (hvirt : d.2.vaddr = p * frameSize)
    (htotal : s'.phys.totalFrames = s.phys.totalFrames) :
    Lent B s₀ a owner (M ++ [d]) (M ++ [d]) s' := by
  refine ⟨hm.inv, hm.pml4Phys.trans h.pml4Phys, hm.quota.trans h.quota, hm.spaces.trans h.spaces,
    htotal.trans h.total,
    h.tokens.sameTokens hm.tokens, h.records.make hm.lt hm.free hm.maps rfl ?_ hvirt.symm rfl,
    .refl _,
    fun _ => h.spaces ▸ hm.fits.space, fun r π f hf => hm.uses f (.table r π) (h.tables r π f hf),
    h.boot.trans hm.sameBoot⟩
  rw [newRec, h.spaces]

/-- The last mapping is undone. -/
theorem Lent.dropped (h₀ : KInv B s₀) (h : Lent B s₀ a owner T (M ++ [d]) s)
    (hi : MapsPart (s₀.spaces a).pml4Phys s.maps i d) (hd : Dropped B s (· = i) s') :
    Lent B s₀ a owner T M s' := by
  have hmem : d ∈ T := h.sub.subset (by simp)
  have hrecords : RecordsLent s₀.maps (s₀.spaces a).pml4Phys M s'.maps := by
    refine h.records.drop hi (fun hlive => ?_) (by rw [hd.dead i rfl]) hd.other (fun j hj => ?_)
      fun e he hie => ?_
    · -- an old record names an old token
      obtain ⟨k, hk⟩ := h₀.mapped.exists_held ⟨hi.lt, hlive⟩
      rw [← h.records.old i hlive, hi.tok] at hk
      exact h.tokens.not_held h.inv.tokens.gens hmem hk
    · exact h.inv.record_unique ⟨hj.lt, hj.live⟩ ⟨hi.lt, hi.live⟩ (hj.space.trans hi.space.symm)
        (hj.virt.trans hi.virt.symm)
    · have hnodup := (h.sub.map Prod.fst).nodup h.tokens.distinct
      rw [List.map_append, List.map_singleton, List.nodup_append] at hnodup
      exact hnodup.2.2 _ (List.mem_map_of_mem he) _ (List.mem_singleton_self _)
        (hie.tok.symm.trans hi.tok)
  exact ⟨hd.inv, hd.pml4Phys.trans h.pml4Phys, hd.quota.trans h.quota, hd.spaces.trans h.spaces,
    hd.phys ▸ h.total,
    h.tokens.sameTokens hd.tokens, hrecords, (List.sublist_append_left _ _).trans h.sub,
    fun _ => h.live (by simp),
    fun r π f hf =>
    (hd.uses f (.table r π)).mpr (h.tables r π f hf), h.boot.trans hd.sameBoot⟩

/-- A token of the load that is not mapped has no pin. -/
theorem Lent.unmapped (h₀ : KInv B s₀) (h : Lent B s₀ a owner T M s) (hd : d ∈ T)
    (hM : ∀ e ∈ M, e.1 ≠ d.1) (hk : Held s.ledger d.1 k) : (s.ledger.table k).mapCount = 0 := by
  rw [h.inv.mapped.count k d.1 hk]
  by_contra hne
  obtain ⟨i, hlt, hlive, htok⟩ := Nat.count_ne_iff_exists.mp hne
  rcases h.records.only i hlt hlive with hold | ⟨e, he, hm⟩
  · obtain ⟨j, hj⟩ := h₀.mapped.exists_held ⟨hlt, hold⟩
    rw [← h.records.old i hold, htok] at hj
    exact h.tokens.not_held h.inv.tokens.gens hd hj
  · exact hM e he (hm.tok.symm.trans htok)

/-- The last token is released. -/
theorem Lent.released (h : Lent B s₀ a owner (T ++ [d]) [] s) (hk : Held s.ledger d.1 k)
    (hr : Released s k s') : Lent B s₀ a owner T [] s' :=
  ⟨h.inv.released hr, hr.pml4Phys.trans h.pml4Phys, hr.quota.trans h.quota,
    hr.spaces.trans h.spaces, hr.gave.total.trans h.total,
    h.tokens.drop h.inv.tokens.gens hk hr.ledger (fun _ => hr.held_eq _) (fun _ => hr.held_eq _),
    hr.maps ▸ h.records,
    List.nil_sublist _, h.live, fun r π f hf => hr.sameTables.tableFrame_iff.mpr
      (h.tables r π f hf), h.boot.trans hr.sameBoot⟩

end Lent

/-! ## The rules of a load -/

section Rules

variable {mem : ℕ → Bytes} {parts : List Part}

/-- **The backend follows the rules of a load.** -/
theorem amd64_rules (h₀ : KInv B s₀) (hfits : ∀ p ∈ parts, p.fileSize ≤ p.pages * page) :
    LoadRules amd64 a owner mem parts (fun D s => Lent B s₀ a owner D D s.st)
      (fun D d _ s => Lent B s₀ a owner (D ++ [d]) D s.st)
      (fun T M s => Lent B s₀ a owner T M s.st) where
  alloc_none D p s _ h hr := by
    rcases xtokAllocRam_spec h.inv.toLayout owner p.pages p.rights with ⟨_, hq⟩ | ⟨k, b, _, hne, _⟩
    · exact h.quiet hq
    · simp [amd64, hne] at hr
  alloc_some D p s tok _ h hr := by
    rcases xtokAllocRam_spec h.inv.toLayout owner p.pages p.rights with ⟨hno, _⟩ | ⟨k, b, htok,
      hne, ha⟩
    · simp [amd64, hno] at hr
    · have heq : packToken k (s.st.ledger.table k).generation = tok := by
        rw [← htok]
        simpa [amd64, hne] using hr
      rw [← heq]
      exact h.allocated ha
  poke D d n s v hp hn h _ := h.store (by simp) (lt_of_lt_of_le hn (hfits _ hp.mem)) v
  map_false D d s hp h hmap := by
    have hwp := wp_xasMap h.inv a d.2.vaddr d.1 d.2.perms
    have htotal := (xasMap a d.2.vaddr d.1 d.2.perms).le_run s.st
    cases hrun : (xasMap a d.2.vaddr d.1 d.2.perms).run s.st with
    | mk res s' =>
      cases res with
      | ok u => simp [amd64, hrun] at hmap
      | error e =>
        rw [hrun] at htotal
        obtain ⟨⟨hedit, hpages⟩, _⟩ := hwp.error hrun
        have hst : (amd64.map a d.2.vaddr d.1 d.2.perms s.st).2 = s' := by simp only [amd64, hrun]
        rw [LoadSt.st_after, hst]
        exact h.edited hedit hpages htotal
  map_true D d s hp h hmap := by
    have hwp := wp_xasMap h.inv a d.2.vaddr d.1 d.2.perms
    have htotal := (xasMap a d.2.vaddr d.1 d.2.perms).le_run s.st
    cases hrun : (xasMap a d.2.vaddr d.1 d.2.perms).run s.st with
    | mk res s' =>
      cases res with
      | error e => simp [amd64, hrun] at hmap
      | ok u =>
        rw [hrun] at htotal
        obtain ⟨r, p, k, i, hvirt, hm⟩ := hwp.ok hrun
        have hst : (amd64.map a d.2.vaddr d.1 d.2.perms s.st).2 = s' := by simp only [amd64, hrun]
        rw [LoadSt.st_after, hst]
        exact h.mapped hm hvirt htotal
  unmap T M d s h := by
    obtain ⟨i, hi⟩ := h.records.new d (by simp)
    have hspace : (s.st.maps i).asPml4 = (s.st.spaces a).pml4Phys := by
      rw [h.spaces]; exact hi.space
    have hwp := wp_xasUnmap h.inv a d.2.vaddr
    cases hrun : (xasUnmap a d.2.vaddr).run s.st with
    | mk res s' =>
      have hst : (amd64.unmap a d.2.vaddr s.st).2 = s' := by simp only [amd64, hrun]
      rw [LoadSt.st_after, hst]
      cases res with
      | ok u =>
        obtain ⟨j, hj, _, h1, h2, hd⟩ := hwp.ok hrun
        obtain rfl := h.inv.record_unique hj ⟨hi.lt, hi.live⟩ (h1.trans hspace.symm)
          (h2.trans hi.virt.symm)
        exact h.dropped h₀ hi hd
      | error e =>
        obtain ⟨rfl, hdead | hnone⟩ := hwp.error hrun
        · rw [h.spaces, h.live (by simp)] at hdead
          cases hdead
        · exact absurd ⟨hspace, hi.virt⟩ (hnone i ⟨hi.lt, hi.live⟩)
  release T d s h := by
    obtain ⟨k, hk, _⟩ := h.tokens.new d (by simp)
    have howner : ¬ (false = true ∧ (s.st.ledger.table k).ownerId ≠ 0) := by simp
    have hrel := (releaseImpl_ok h.inv.toLayout hk false false howner (by simp)
      (h.unmapped h₀ (by simp) (by simp) hk)).2
    exact h.released hk hrel

/-- **`xload_exb` on the kernel** loads every part, or holds nothing. -/
theorem wp_xloadExb_amd64 (h₀ : KInv B s₀) (a : ℕ) (owner : OwnerId) (mem : ℕ → Bytes) (size : ℕ)
    (out : ExbInfo) :
    (xloadExb amd64 a owner mem size out).wp
      (fun _ s => ∃ info D, Parsed mem size out info ∧ owner ≠ ownerKernel ∧
        quotaPassed amd64 owner info s₀ ∧
        D.map Prod.snd = infoParts (infoSegs info) info.stackBytes ∧ Lent B s₀ a owner D D s.st)
      (fun _ s => Lent B s₀ a owner [] [] s.st) ⟨s₀, [], []⟩ := by
  have hearly : ∀ s', OnlyRead (· < size) ⟨s₀, [], []⟩ s' → Lent B s₀ a owner [] [] s'.st := by
    intro s' hread
    rw [hread.st]
    exact .refl h₀
  refine wp_xloadExb_of_rules (fun s' hread _ => hearly s' hread)
    fun info s' hread hparsed howner hquota => ?_
  exact ⟨_, _, _, amd64_rules h₀ (fun p hp => (hparsed.safe.parts_fit p hp).1), hearly s' hread,
    fun _ h => h, fun D s'' hD h => ⟨info, D, hparsed, howner, hquota, hD, h⟩⟩

end Rules

end Xasmos.Kernel
