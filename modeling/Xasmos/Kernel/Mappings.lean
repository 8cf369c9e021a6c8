import Xasmos.Kernel.TableEdit

/-!
# Mapping records

A mapping is kept in three places: in a record, in the entries of the pages, and in the
map count of the token.  `MapsOk` says that the three agree: every live record maps its
token in full, every page that is present belongs to a live record, and the map count of a
token is the number of live records that name it.

`KInv` is the invariant of the kernel: the layout of memory and the mappings.

## Main results

* `dropRecord_spec` — a record that is dropped takes its pages and its part of the count
  with it.
* `dropRecords_spec`, `xasRevokeToken_spec`.
-/

namespace Xasmos.Kernel

open Radix
open Function (update update_self update_of_ne)

variable {B D : ℕ → Prop} {L L' L'' : Ledger} {a i j k n p q r r' : ℕ} {perms rights : UInt32}
  {s s' t : Xeret} {tok : XToken}

/-- The record maps the token of slot `k` at page `p` of the address space `a`, whose root is
`r`, with these permissions. -/
structure MapsToken (s : Xeret) (m : MapRec) (a r p k : ℕ) (perms : UInt32) : Prop where
  space : (s.spaces a).live = true
  root : (s.spaces a).pml4Phys = r * frameSize
  asPml4 : m.asPml4 = r * frameSize
  owner : (s.spaces a).ownerId = m.owner
  virt : m.virt = p * frameSize
  first : 2 ^ 27 ≤ p
  last : p + m.pages ≤ 2 ^ 35
  held : Held s.ledger m.tok k
  tokenOwner : (s.ledger.table k).ownerId = m.owner
  frames : (s.ledger.table k).nFrames = m.pages
  rights : (s.ledger.table k).rights &&& rightsFor perms = rightsFor perms
  wx : ¬ (perms &&& permW ≠ 0 ∧ perms &&& permX ≠ 0)
  pages : ∀ j < m.pages,
    pteAt s r (p + j) = some
    (((s.ledger.table k).phys / frameSize + j) * frameSize ||| leafFlags perms)

/-- Record `i` is live. -/
structure LiveRec (s : Xeret) (i : ℕ) : Prop where
  lt : i < maxMaps
  live : (s.maps i).live = true

/-- The record maps page `p` of the address space with the root `r`. -/
structure Covers (m : MapRec) (r p : ℕ) : Prop where
  asPml4 : m.asPml4 = r * frameSize
  le : m.virt ≤ p * frameSize
  lt : p * frameSize < m.virt + m.pages * frameSize

/-- How many live records name the token. -/
def recordsOf (s : Xeret) (tok : XToken) : ℕ :=
  Nat.count (fun i => (s.maps i).live = true ∧ (s.maps i).tok = tok) maxMaps

/-- Records, entries and map counts agree. -/
structure MapsOk (s : Xeret) : Prop where
  record : ∀ i, LiveRec s i → ∃ a r p k perms, MapsToken s (s.maps i) a r p k perms
  disjoint : ∀ i j r p, LiveRec s i → LiveRec s j → Covers (s.maps i) r p →
    Covers (s.maps j) r p → i = j
  covered : ∀ r p e, IsRoot s r → UserPage p → pteAt s r p = some e → ∃ i, LiveRec s i ∧
    Covers (s.maps i) r p
  count : ∀ k tok, Held s.ledger tok k → (s.ledger.table k).mapCount = recordsOf s tok

/-- **The invariant of the kernel.** -/
structure KInv (B : ℕ → Prop) (s : Xeret) : Prop extends Layout B s where
  mapped : MapsOk s

section Basics

variable {m : MapRec}

theorem MapsToken.isRoot (h : MapsToken s m a r p k perms) : IsRoot s r := ⟨a, h.space, h.root⟩

theorem MapsToken.userPage (h : MapsToken s m a r p k perms) (hj : j < m.pages) :
    UserPage (p + j) := by
  have h1 := h.first
  have h2 := h.last
  exact ⟨by omega, by omega⟩

theorem covers_iff_of_eq (hroot : m.asPml4 = r * frameSize) (hvirt : m.virt = p * frameSize) :
    Covers m r' q ↔ r' = r ∧ p ≤ q ∧ q < p + m.pages := by
  have hpos : 0 < frameSize := by decide
  constructor
  · rintro ⟨h1, h2, h3⟩
    rw [hroot] at h1
    rw [hvirt] at h2
    rw [hvirt, ← Nat.add_mul] at h3
    exact ⟨(Nat.eq_of_mul_eq_mul_right hpos h1).symm, Nat.le_of_mul_le_mul_right h2 hpos,
      Nat.lt_of_mul_lt_mul_right h3⟩
  · rintro ⟨rfl, h2, h3⟩
    refine ⟨hroot, ?_, ?_⟩
    · rw [hvirt]
      exact Nat.mul_le_mul_right _ h2
    · rw [hvirt, ← Nat.add_mul]
      exact Nat.mul_lt_mul_of_pos_right h3 hpos

theorem MapsToken.covers_iff (h : MapsToken s m a r p k perms) :
    Covers m r' q ↔ r' = r ∧ p ≤ q ∧ q < p + m.pages := covers_iff_of_eq h.asPml4 h.virt

/-- What a record says of its token and its pages is kept by changes elsewhere. -/
theorem MapsToken.congr (h : MapsToken s m a r p k perms) (hspace : s'.spaces a = s.spaces a)
    (hheld : Held s'.ledger m.tok k)
    (htok : (s'.ledger.table k).ownerId = (s.ledger.table k).ownerId ∧
      (s'.ledger.table k).nFrames = (s.ledger.table k).nFrames ∧
      (s'.ledger.table k).rights = (s.ledger.table k).rights ∧
        (s'.ledger.table k).phys = (s.ledger.table k).phys)
    (hpages : ∀ j < m.pages, pteAt s' r (p + j) = pteAt s r (p + j)) :
    MapsToken s' m a r p k perms := by
  obtain ⟨h1, h2, h3, h4⟩ := htok
  refine ⟨by rw [hspace]; exact h.space, by rw [hspace]; exact h.root, h.asPml4,
    by rw [hspace]; exact h.owner, h.virt,
    h.first, h.last, hheld, h1.trans h.tokenOwner, h2.trans h.frames, by
      rw [h3]; exact h.rights, h.wx, fun j hj => ?_⟩
  rw [hpages j hj, h4]
  exact h.pages j hj

/-- A token that a live record names has a map count above 0. -/
theorem MapsOk.recordsOf_pos (hi : LiveRec s i) : 0 < recordsOf s (s.maps i).tok := by
  exact Nat.pos_of_ne_zero (Nat.count_ne_iff_exists.mpr ⟨i, hi.lt, hi.live, rfl⟩)

/-- The token of a live record is live. -/
theorem MapsOk.exists_held (h : MapsOk s) (hi : LiveRec s i) :
    ∃ k, Held s.ledger (s.maps i).tok k := by
  obtain ⟨a, r, p, k, perms, hm⟩ := h.record i hi
  exact ⟨k, hm.held⟩

/-- The mappings are kept by changes that keep records, the pages and address spaces of records, and
their tokens, and that show no new page. -/
theorem MapsOk.move (h : MapsOk s) (hmaps : s'.maps = s.maps)
    (hspace : ∀ i a, LiveRec s i → (s.spaces a).live = true →
      (s.spaces a).pml4Phys = (s.maps i).asPml4 → s'.spaces a = s.spaces a)
    (hpages : ∀ i r p, LiveRec s i → (s.maps i).asPml4 = r * frameSize → IsRoot s r → UserPage p →
      pteAt s' r p = pteAt s r p)
    (hback : ∀ r p e, IsRoot s' r → UserPage p → pteAt s' r p = some e → IsRoot s r ∧
      pteAt s r p = some e)
    (htok : ∀ i k, LiveRec s i → Held s.ledger (s.maps i).tok k →
      Held s'.ledger (s.maps i).tok k ∧ s'.ledger.table k = s.ledger.table k)
    (hcount : ∀ k tok, Held s'.ledger tok k → (s'.ledger.table k).mapCount = recordsOf s tok) :
    MapsOk s' := by
  have hlive : ∀ {i}, LiveRec s' i → LiveRec s i :=
    fun hi => ⟨hi.lt, by rw [← hmaps]; exact hi.live⟩
  refine ⟨fun i hi => ?_, fun i j r p hi hj => ?_, fun r p e hr hp he => ?_, fun k tok hk => ?_⟩
  · obtain ⟨a, r, p, k, perms, hm⟩ := h.record i (hlive hi)
    obtain ⟨h1, h2⟩ := htok i k (hlive hi) hm.held
    refine ⟨a, r, p, k, perms, ?_⟩
    rw [hmaps]
    exact hm.congr (hspace i a (hlive hi) hm.space (hm.root.trans hm.asPml4.symm)) h1
      (by rw [h2]; exact ⟨rfl, rfl, rfl, rfl⟩)
      fun j hj => hpages i r _ (hlive hi) hm.asPml4 hm.isRoot (hm.userPage hj)
  · rw [hmaps]
    exact h.disjoint i j r p (hlive hi) (hlive hj)
  · obtain ⟨hr', he'⟩ := hback r p e hr hp he
    obtain ⟨i, hi, hc⟩ := h.covered r p e hr' hp he'
    exact ⟨i, ⟨hi.lt, by rw [hmaps]; exact hi.live⟩, by rw [hmaps]; exact hc⟩
  · rw [hcount k tok hk, recordsOf, recordsOf, hmaps]

/-- The case in which the address spaces and all pages are the same. -/
theorem MapsOk.congr (h : MapsOk s) (hmaps : s'.maps = s.maps) (hspaces : s'.spaces = s.spaces)
    (hpages : SamePages s s')
    (htok : ∀ i k, LiveRec s i → Held s.ledger (s.maps i).tok k →
      Held s'.ledger (s.maps i).tok k ∧ s'.ledger.table k = s.ledger.table k)
    (hcount : ∀ k tok, Held s'.ledger tok k → (s'.ledger.table k).mapCount = recordsOf s tok) :
    MapsOk s' := by
  refine h.move hmaps (fun _ _ _ _ _ => by rw [hspaces]) (fun _ r p _ _ hr hp => hpages r p hr hp)
    (fun r p e hr hp he => ?_)
    htok hcount
  rw [IsRoot, hspaces] at hr
  rw [hpages r p hr hp] at he
  exact ⟨hr, he⟩

end Basics

/-! ## Tokens that come and go -/

section Tokens

variable {owner : OwnerId}

theorem SameTables.samePages (h : SameTables s s') :
    SamePages s s' := fun _ _ hr hp => h.pteAt_eq hr hp

theorem KInv.quiet (h : KInv B s) (hq : Quiet s s') : KInv B s' := by
  refine ⟨h.toLayout.quiet hq, h.mapped.congr hq.maps hq.spaces
    (hq.sameTables h.toFramesOk).samePages ?_ ?_⟩
  · intro i k _ hk
    rw [hq.ledger]
    exact ⟨hk, rfl⟩
  · intro k tok hk
    rw [hq.ledger] at hk ⊢
    exact h.mapped.count k tok hk

/-- The token that is made is not the token of a record. -/
theorem KInv.not_named (h : KInv B s) (hfree : (s.ledger.table k).live = false)
    (hk : k < tableSlots) (hi : LiveRec s i) :
    (s.maps i).tok ≠ packToken k (s.ledger.table k).generation := by
  intro heq
  obtain ⟨j, hj⟩ := h.mapped.exists_held hi
  have h1 := (h.tokens.gens j).2
  have h2 := (h.tokens.gens k).2
  have htok := hj.tok_eq.symm.trans heq
  have hs : j < 2 ^ 32 ∧ k < 2 ^ 32 := by
    have hj' := hj.slot_lt
    rw [tableSlots] at hj' hk
    omega
  have hjk := congrArg tokenSlot htok
  rw [tokenSlot_packToken hs.1 h1, tokenSlot_packToken hs.2 h2] at hjk
  have hlive := hj.live
  rw [hjk, hfree] at hlive
  exact absurd hlive (by simp)

theorem KInv.allocated (h : KInv B s) (ha : Allocated s owner n rights k a s') : KInv B s' := by
  have hother : ∀ {j tok}, Held s.ledger tok j → s'.ledger.table j = s.ledger.table j := by
    intro j tok hj
    have hne : j ≠ k := by
      rintro rfl
      have hlive := hj.live
      rw [ha.free] at hlive
      exact absurd hlive (by simp)
    rw [ha.ledger]
    simp [sealSlot, hne]
  refine ⟨h.toLayout.allocated ha, h.mapped.congr ha.maps ha.spaces
    (ha.sameTables h.toFramesOk).samePages ?_ ?_⟩
  · intro i j _ hj
    refine ⟨?_, hother hj⟩
    rw [ha.ledger, held_sealSlot ha.slot_lt ha.free]
    exact Or.inl hj
  · intro j tok hj
    rw [ha.ledger, held_sealSlot ha.slot_lt ha.free] at hj
    rcases hj with hj | ⟨rfl, rfl⟩
    · rw [hother hj]
      exact h.mapped.count j tok hj
    · -- no record names the new token
      have hzero : recordsOf s (packToken j (s.ledger.table j).generation) = 0 := by
        by_contra hne
        obtain ⟨i, hlt, hlive, htok⟩ := Nat.count_ne_iff_exists.mp hne
        exact h.not_named ha.free ha.slot_lt ⟨hlt, hlive⟩ htok
      rw [hzero, ha.ledger]
      simpa [sealSlot, sealed] using h.tokens.unmapped j ha.free

theorem KInv.released (h : KInv B s) (hr : Released s k s') : KInv B s' := by
  have hother : ∀ {j}, j ≠ k → s'.ledger.table j = s.ledger.table j := by
    intro j hj
    rw [hr.ledger]
    simp [retireSlot, hj]
  refine ⟨h.toLayout.released hr, h.mapped.congr hr.maps hr.spaces hr.sameTables.samePages ?_ ?_⟩
  · intro i j hi hj
    -- a token that is named is mapped
    have hne : j ≠ k := by
      rintro rfl
      have hpos := MapsOk.recordsOf_pos hi
      rw [← h.mapped.count j _ hj, hr.unmapped] at hpos
      exact absurd hpos (by simp)
    refine ⟨?_, hother hne⟩
    rw [hr.ledger, held_retireSlot]
    exact ⟨hj, hne⟩
  · intro j tok hj
    rw [hr.ledger, held_retireSlot] at hj
    rw [hother hj.2]
    exact h.mapped.count j tok hj.1

end Tokens

/-! ## Records that are dropped -/

/-- The ledgers differ in map counts only. -/
structure SameTokens (L L' : Ledger) : Prop where
  live : L'.live = L.live
  nextHint : L'.nextHint = L.nextHint
  table : ∀ k, L'.table k = { L.table k with mapCount := (L'.table k).mapCount }

theorem SameTokens.refl (L : Ledger) : SameTokens L L := ⟨rfl, rfl, fun _ => rfl⟩

theorem SameTokens.trans (h : SameTokens L L') (h' : SameTokens L' L'') : SameTokens L L'' := by
  refine ⟨h'.live.trans h.live, h'.nextHint.trans h.nextHint, fun k => ?_⟩
  rw [h'.table k, h.table k]

theorem SameTokens.setMapCount (L : Ledger) (k c : ℕ) : SameTokens L (setMapCount k c L) := by
  refine ⟨rfl, rfl, fun j => ?_⟩
  by_cases hj : j = k <;> simp [Kernel.setMapCount, hj]

theorem SameTokens.held_iff (h : SameTokens L L') : Held L' tok k ↔ Held L tok k := by
  have ht := h.table k
  constructor
  · rintro ⟨h1, h2, h3⟩
    rw [ht] at h2 h3
    exact ⟨h1, h2, h3⟩
  · rintro ⟨h1, h2, h3⟩
    refine ⟨h1, ?_, ?_⟩
    · rw [ht]; exact h2
    · rw [ht]; exact h3

/-- In `s'` the live records `D` are gone, with their pages and their part of the map counts. -/
structure Dropped (B : ℕ → Prop) (s : Xeret) (D : ℕ → Prop) (s' : Xeret) : Prop where
  inv : KInv B s'
  phys : s'.phys = s.phys
  dead : ∀ i, D i → s'.maps i = { s.maps i with live := false }
  other : ∀ i, ¬ D i → s'.maps i = s.maps i
  tokens : SameTokens s.ledger s'.ledger
  pml4Phys : s'.pml4Phys = s.pml4Phys
  quota : s'.quota = s.quota
  spaces : s'.spaces = s.spaces
  gone : ∀ i r q, D i → IsRoot s r → UserPage q → Covers (s.maps i) r q → pteAt s' r q = none
  kept : ∀ r q, IsRoot s r → UserPage q → (∀ i, D i → ¬ Covers (s.maps i) r q) →
    pteAt s' r q = pteAt s r q
  uses : ∀ f u, Uses B s' f u ↔ Uses B s f u
  mem : ∀ f u, Uses B s f u → (∀ i r π, D i → (s.maps i).asPml4 = r * frameSize → u ≠ .table r π) →
    s'.mem f = s.mem f
  half : SameHalf s s'

section Drop

theorem xtokMapRelease_eq (hgens : GensOk s.ledger) (hk : Held s.ledger tok k)
    (hpos : 0 < (s.ledger.table k).mapCount) :
    xtokMapRelease tok s =
      { s with ledger := setMapCount k ((s.ledger.table k).mapCount - 1) s.ledger } := by
  simp only [xtokMapRelease, (lookupLive_eq_some_iff hgens).mpr hk, if_pos hpos]

/-- A live record that is cleared lowers the count of its token by one. -/
theorem recordsOf_clear (hi : LiveRec s i) (hdead : (s'.maps i).live = false)
    (hother : ∀ j, j ≠ i → s'.maps j = s.maps j) (tok : XToken) :
    recordsOf s' tok + (if (s.maps i).tok = tok then 1 else 0) = recordsOf s tok := by
  have hlive : ∀ j, ((s'.maps j).live = true ∧ (s'.maps j).tok = tok) ↔
      ((s.maps j).live = true ∧ (s.maps j).tok = tok) ∧ j ≠ i := by
    intro j
    by_cases hj : j = i
    · simp [hdead, hj]
    · simp [hother j hj, hj]
  by_cases htok : (s.maps i).tok = tok
  · rw [if_pos htok]
    exact count_add_length (List.nodup_singleton i) (by simp [hi.lt, hi.live, htok])
      fun j _ => by simp [hlive j]
  · rw [if_neg htok, Nat.add_zero]
    refine count_congr fun j _ => ?_
    rw [hlive j]
    exact ⟨fun h => h.1, fun h => ⟨h, fun hji => htok (hji ▸ h.2)⟩⟩

/-- **`drop_record`.** -/
theorem dropRecord_spec (h : KInv B s) (hi : LiveRec s i) :
    Dropped B s (· = i) (dropRecord i s) := by
  obtain ⟨a, r, p, k, perms, hm⟩ := h.mapped.record i hi
  have hun := unmapPages_spec (n := (s.maps i).pages) h.toLayout hm.isRoot fun j hj =>
    hm.userPage hj
  have hdrop : dropRecord i s = clearRecord i (xtokMapRelease (s.maps i).tok
      (unmapPages (r * frameSize) (p * frameSize) (s.maps i).pages s)) := by
    simp only [dropRecord, hm.asPml4, hm.virt]
  have hphys1 : (unmapPages (r * frameSize) (p * frameSize) (s.maps i).pages s).phys = s.phys :=
    phys_unmapPages _ _ _ s
  generalize unmapPages (r * frameSize) (p * frameSize) (s.maps i).pages s = t at hun hdrop hphys1
  -- the count of the token is above 0, so it goes down by one
  have hcount := h.mapped.count k _ hm.held
  have hpos := MapsOk.recordsOf_pos hi
  rw [← hcount] at hpos
  have hrel := xtokMapRelease_eq (s := t) (by rw [hun.edit.ledger]; exact h.tokens.gens)
    (by rw [hun.edit.ledger]; exact hm.held) (by rw [hun.edit.ledger]; exact hpos)
  rw [hrel, hun.edit.ledger] at hdrop
  rw [hdrop]
  have hmaps : (clearRecord i
    { t with ledger := setMapCount k ((s.ledger.table k).mapCount - 1) s.ledger }).maps =
      update s.maps i { s.maps i with live := false } := by
    simp only [clearRecord, hun.edit.maps]
  set s' := clearRecord i
    { t with ledger := setMapCount k ((s.ledger.table k).mapCount - 1) s.ledger } with hs'
  have hspaces : s'.spaces = s.spaces := hun.edit.spaces
  have hgone : ∀ r' q, IsRoot s r' → UserPage q → Covers (s.maps i) r' q →
      pteAt s' r' q = none := by
    intro r' q hr' hq hc
    exact (hun.pteAt_eq r' q hr' hq).trans (if_pos (hm.covers_iff.mp hc))
  have hkept : ∀ r' q, IsRoot s r' → UserPage q → ¬ Covers (s.maps i) r' q →
      pteAt s' r' q = pteAt s r' q := by
    intro r' q hr' hq hc
    exact (hun.pteAt_eq r' q hr' hq).trans (if_neg fun hin => hc (hm.covers_iff.mpr hin))
  have hlayout : Layout B s' := hun.edit.layout.recount (c := (s.ledger.table k).mapCount - 1)
    (by rw [hun.edit.ledger]; exact hm.held.live) (by rw [hun.edit.ledger]; rfl) rfl rfl rfl rfl
  have hlive : ∀ {j}, LiveRec s' j → LiveRec s j ∧ j ≠ i ∧ s'.maps j = s.maps j := by
    intro j hj
    have hlj := hj.live
    by_cases hji : j = i
    · rw [hmaps, hji] at hlj
      simp at hlj
    · rw [hmaps, update_of_ne hji] at hlj
      exact ⟨⟨hj.lt, hlj⟩, hji, by rw [hmaps, update_of_ne hji]⟩
  have hmapped : MapsOk s' := by
    refine ⟨fun j hj => ?_, fun j j' r' q hj hj' => ?_, fun r' q e hr' hq he => ?_,
      fun k' tok hk' => ?_⟩
    · obtain ⟨hj', hji, heq⟩ := hlive hj
      obtain ⟨a', r', p', k', perms', hm'⟩ := h.mapped.record j hj'
      refine ⟨a', r', p', k', perms', ?_⟩
      rw [heq]
      refine hm'.congr (by rw [hspaces]) (held_setMapCount.mpr hm'.held) ?_ fun d hd => ?_
      · by_cases hkk : k' = k <;> simp [hs', clearRecord, setMapCount, hkk]
      · have hc : Covers (s.maps j) r' (p' + d) := hm'.covers_iff.mpr ⟨rfl, by omega, by omega⟩
        exact hkept r' _ hm'.isRoot (hm'.userPage hd) fun hci => hji
          (h.mapped.disjoint j i r' _ hj' hi hc hci)
    · obtain ⟨h1, _, h2⟩ := hlive hj
      obtain ⟨h3, _, h4⟩ := hlive hj'
      rw [h2, h4]
      exact h.mapped.disjoint j j' r' q h1 h3
    · have hr : IsRoot s r' := by rwa [IsRoot, hspaces] at hr'
      by_cases hc : Covers (s.maps i) r' q
      · rw [hgone r' q hr hq hc] at he
        exact absurd he (by simp)
      · rw [hkept r' q hr hq hc] at he
        obtain ⟨j, hj, hcj⟩ := h.mapped.covered r' q e hr hq he
        have hji : j ≠ i := by
          rintro rfl
          exact hc hcj
        have heq : s'.maps j = s.maps j := by rw [hmaps, update_of_ne hji]
        exact ⟨j, ⟨hj.lt, by rw [heq]; exact hj.live⟩, by rw [heq]; exact hcj⟩
    · have hk : Held s.ledger tok k' := held_setMapCount.mp hk'
      have hold := h.mapped.count k' tok hk
      have hclear := recordsOf_clear hi (by rw [hmaps, update_self])
        (fun j hj => by rw [hmaps, update_of_ne hj]) tok
      by_cases hkk : k' = k
      · subst hkk
        have htok : (s.maps i).tok = tok := hm.held.tok_eq.trans hk.tok_eq.symm
        rw [if_pos htok] at hclear
        simp only [hs', clearRecord, setMapCount, update_self] at hclear ⊢
        omega
      · have htok : (s.maps i).tok ≠ tok := by
          rintro rfl
          exact hkk (hk.slot_unique h.tokens.gens hm.held)
        rw [if_neg htok, Nat.add_zero] at hclear
        rw [hclear, ← hold]
        simp [hs', clearRecord, setMapCount, hkk]
  refine ⟨⟨hlayout, hmapped⟩, hphys1, fun j hj => by rw [hmaps, hj, update_self],
    fun j hj => by rw [hmaps, update_of_ne hj], SameTokens.setMapCount _ _ _, hun.edit.pml4Phys,
    hun.edit.quota, hspaces,
    fun j r' q hj hr' hq hc => hgone r' q hr' hq (hj ▸ hc), fun r' q hr' hq hc => hkept r' q hr' hq
      (hc i rfl),
    fun f u => ?_, fun f u hu hne => hun.edit.mem f u hu fun π => hne i r π rfl hm.asPml4,
      hun.edit.half⟩
  rw [← hun.edit.uses_iff h.toLayout hphys1 f u]
  exact uses_recount (k := k) (by rw [hun.edit.ledger]; rfl) rfl rfl

theorem Dropped.sameBoot (h : Dropped B s D s') : SameBoot B s s' :=
  fun f hf => h.mem f .boot hf fun _ _ _ _ _ => by simp

theorem Dropped.refl (h : KInv B s) : Dropped B s (fun _ => False) s :=
  ⟨h, rfl, fun _ hi => hi.elim, fun _ _ => rfl, SameTokens.refl _, rfl, rfl, rfl,
    fun _ _ _ hi => hi.elim, fun _ _ _ _ _ => rfl,
    fun _ _ => Iff.rfl, fun _ _ _ _ => rfl, fun _ _ _ _ => rfl⟩

theorem Dropped.isRoot_iff (h : Dropped B s D s') : IsRoot s' r ↔ IsRoot s r := by
  rw [IsRoot, IsRoot, h.spaces]

/-- One more record is dropped. -/
theorem Dropped.drop (h : Dropped B s D t) (hi : LiveRec t i) (hD : ¬ D i) :
    Dropped B s (fun j => D j ∨ j = i) (dropRecord i t) := by
  have h' := dropRecord_spec h.inv hi
  have hmaps := h.other i hD
  refine ⟨h'.inv, h'.phys.trans h.phys, fun j hj => ?_, fun j hj => ?_, h.tokens.trans h'.tokens,
    h'.pml4Phys.trans h.pml4Phys, h'.quota.trans h.quota, h'.spaces.trans h.spaces,
    fun j r q hj hr hq hc => ?_,
    fun r q hr hq hc => ?_, fun f u => (h'.uses f u).trans (h.uses f u), fun f u hu hne => ?_,
      h.half.trans h'.half h.spaces⟩
  · rcases hj with hj | rfl
    · rw [h'.other j (fun hji => hD (hji ▸ hj)), h.dead j hj]
    · rw [h'.dead j rfl, hmaps]
  · rw [h'.other j fun hji => hj (Or.inr hji), h.other j fun hji => hj (Or.inl hji)]
  · have hr' := h.isRoot_iff.mpr hr
    by_cases hci : Covers (t.maps i) r q
    · exact h'.gone i r q rfl hr' hq hci
    · rw [h'.kept r q hr' hq (by rintro _ rfl; exact hci)]
      rcases hj with hj | rfl
      · exact h.gone j r q hj hr hq hc
      · exact absurd (hmaps ▸ hc) hci
  · rw [h'.kept r q (h.isRoot_iff.mpr hr) hq, h.kept r q hr hq fun j hj => hc j (Or.inl hj)]
    rintro _ rfl
    rw [hmaps]
    exact hc _ (Or.inr rfl)
  · rw [h'.mem f u ((h.uses f u).mpr hu), h.mem f u hu fun j r π hj => hne j r π (Or.inl hj)]
    rintro _ r π rfl hr
    exact hne _ r π (Or.inr rfl) (hmaps ▸ hr)

/-- **Dropping records.**  The live records that satisfy the condition are dropped and counted. -/
theorem dropRecords_spec (h : KInv B s) (c : MapRec → Bool) :
    Dropped B s (fun i => LiveRec s i ∧ c (s.maps i) = true) (dropRecords c s).2 ∧
      (dropRecords c s).1 = Nat.count (fun i => (s.maps i).live = true ∧
        c (s.maps i) = true) maxMaps := by
  have hloop := loop_induct (s := (0, s)) (f := fun i e =>
      if (e.2.maps i).live && c (e.2.maps i) then (e.1 + 1, dropRecord i e.2) else e)
    (fun n e => Dropped B s (fun i => i < n ∧ (s.maps i).live = true ∧ c (s.maps i) = true) e.2 ∧
      e.1 = Nat.count (fun i => (s.maps i).live = true ∧ c (s.maps i) = true) n)
        (show 0 ≤ maxMaps from Nat.zero_le _) ⟨?_, rfl⟩ ?_
  · refine ⟨?_, hloop.2⟩
    have heq : (fun i => LiveRec s i ∧ c (s.maps i) = true) = fun i => i < maxMaps ∧
        (s.maps i).live = true ∧ c (s.maps i) = true := by
      funext i
      exact propext ⟨fun hi => ⟨hi.1.lt, hi.1.live, hi.2⟩, fun hi => ⟨⟨hi.1, hi.2.1⟩, hi.2.2⟩⟩
    rw [heq]
    exact hloop.1
  · have heq : (fun i => i < 0 ∧ (s.maps i).live = true ∧ c (s.maps i) = true) = fun _ =>
        False := by
      funext i
      simp
    rw [heq]
    exact Dropped.refl h
  · intro n e _ hn he
    -- the records from `n` on are as they were
    have hsame : e.2.maps n = s.maps n := he.1.other n fun hlt => absurd hlt.1 (lt_irrefl n)
    rw [hsame, Nat.count_succ, ← he.2]
    by_cases hdrop : (s.maps n).live = true ∧ c (s.maps n) = true
    · have heq : (fun i => i < n + 1 ∧ (s.maps i).live = true ∧ c (s.maps i) = true) =
          fun i => (i < n ∧ (s.maps i).live = true ∧ c (s.maps i) = true) ∨ i = n := by
        funext i
        refine propext ⟨fun hi => ?_, ?_⟩
        · by_cases hin : i = n
          · exact Or.inr hin
          · exact Or.inl ⟨by omega, hi.2⟩
        · rintro (hi | rfl)
          · exact ⟨by omega, hi.2⟩
          · exact ⟨by omega, hdrop⟩
      rw [if_pos (by simp [hdrop]), if_pos hdrop, heq]
      exact ⟨he.1.drop ⟨hn, by rw [hsame]; exact hdrop.1⟩ fun hlt => absurd hlt.1 (lt_irrefl n),
        rfl⟩
    · have heq : (fun i => i < n + 1 ∧ (s.maps i).live = true ∧ c (s.maps i) = true) =
          fun i => i < n ∧ (s.maps i).live = true ∧ c (s.maps i) = true := by
        funext i
        refine propext ⟨fun hi => ⟨?_, hi.2⟩, fun hi => ⟨by omega, hi.2⟩⟩
        have hne : i ≠ n := by
          rintro rfl
          exact hdrop hi.2
        omega
      rw [if_neg (by simpa using hdrop), if_neg hdrop, heq]
      exact ⟨he.1, rfl⟩

/-- **`xas_revoke_token`** leaves the token unmapped. -/
theorem xasRevokeToken_spec (h : KInv B s) (tok : XToken) :
    Dropped B s (fun i => LiveRec s i ∧ (s.maps i).tok = tok) (xasRevokeToken tok s).2 ∧
      (xasRevokeToken tok s).1 = recordsOf s tok ∧
      ∀ k, Held s.ledger tok k → ((xasRevokeToken tok s).2.ledger.table k).mapCount = 0 := by
  obtain ⟨hd, hn⟩ := dropRecords_spec h fun r => r.tok == tok
  simp only [beq_iff_eq] at hd hn
  rw [xasRevokeToken]
  refine ⟨hd, hn, fun k hk => ?_⟩
  rw [hd.inv.mapped.count k tok (hd.tokens.held_iff.mpr hk)]
  by_contra hne
  obtain ⟨i, hlt, hlive, htok⟩ := Nat.count_ne_iff_exists.mp hne
  by_cases hi : LiveRec s i ∧ (s.maps i).tok = tok
  · rw [hd.dead i hi] at hlive
    exact absurd hlive (by simp)
  · rw [hd.other i hi] at hlive htok
    exact hi ⟨⟨hlt, hlive⟩, htok⟩

end Drop

end Xasmos.Kernel
