import Xasmos.Kernel.Layout

/-!
# Tokens and frames

What making a token and releasing a token does to the layout of memory.  A call that fails
leaves the kernel `Quiet`: at most the content of free frames changes.

## Main results

* `xtokAllocRam_spec`, `xtokAllocRamHuge_spec`, `releaseImpl_spec`.
* `Layout.allocated`, `Layout.released`, `Layout.quiet` — they keep the layout.
-/

namespace Xasmos.Kernel

open Radix
open Function (update_self update_of_ne)

variable {B : ℕ → Prop} {a c f j k n : ℕ} {owner : OwnerId} {rights : UInt32} {s s' : Xeret}
  {u : FrameUse}

/-- Nothing but the content of free frames differs. -/
structure Quiet (s s' : Xeret) : Prop where
  ledger : s'.ledger = s.ledger
  maps : s'.maps = s.maps
  pml4Phys : s'.pml4Phys = s.pml4Phys
  quota : s'.quota = s.quota
  spaces : s'.spaces = s.spaces
  counted : Counted s'.phys
  total : s'.phys.totalFrames = s.phys.totalFrames
  isFree : ∀ f, s'.phys.isFree f = s.phys.isFree f
  mem : ∀ f, s.phys.isFree f = false → s'.mem f = s.mem f

/-- A token of `n` frames at frame `a` was made in slot `k`. -/
structure Allocated (s : Xeret) (owner : OwnerId) (n : ℕ) (rights : UInt32) (k a : ℕ) (s' : Xeret) :
    Prop where
  slot_lt : k < tableSlots
  free : (s.ledger.table k).live = false
  pos : 0 < n
  took : TookRun s.phys a n s'.phys
  ledger : s'.ledger = sealSlot k owner (a * frameSize) n rights s.ledger
  maps : s'.maps = s.maps
  pml4Phys : s'.pml4Phys = s.pml4Phys
  quota : s'.quota = s.quota
  spaces : s'.spaces = s.spaces
  mem : ∀ f, s'.mem f = if a ≤ f ∧ f < a + n then fun _ => 0 else s.mem f

/-- The token of slot `k` was released. -/
structure Released (s : Xeret) (k : ℕ) (s' : Xeret) : Prop where
  slot_lt : k < tableSlots
  live : (s.ledger.table k).live = true
  unmapped : (s.ledger.table k).mapCount = 0
  gave : GaveRun s.phys ((s.ledger.table k).phys / frameSize) (s.ledger.table k).nFrames s'.phys
  ledger : s'.ledger = retireSlot k s.ledger
  maps : s'.maps = s.maps
  pml4Phys : s'.pml4Phys = s.pml4Phys
  quota : s'.quota = s.quota
  spaces : s'.spaces = s.spaces
  mem : s'.mem = s.mem

section Slots

variable {L : Ledger}

theorem tokenFrame_sealSlot (hk : k < tableSlots) (hfree : (L.table k).live = false) :
    TokenFrame (sealSlot k owner (a * frameSize) n rights L) j f ↔ TokenFrame L j f ∨ j = k ∧
      a ≤ f ∧ f < a + n := by
  have hdiv : a * frameSize / frameSize = a := Nat.mul_div_cancel a (by decide)
  by_cases hj : j = k
  · subst hj
    constructor
    · rintro ⟨_, _, h1, h2⟩
      simp only [sealSlot, update_self, sealed, hdiv] at h1 h2
      exact Or.inr ⟨rfl, h1, h2⟩
    · rintro (⟨_, hlive, _, _⟩ | ⟨_, h1, h2⟩)
      · rw [hfree] at hlive
        exact absurd hlive (by simp)
      · constructor <;> simp [sealSlot, sealed, hdiv, hk, h1, h2]
  · have htab : (sealSlot k owner (a * frameSize) n rights L).table j = L.table j := by
      simp [sealSlot, hj]
    constructor
    · rintro ⟨h1, h2, h3, h4⟩
      rw [htab] at h2 h3 h4
      exact Or.inl ⟨h1, h2, h3, h4⟩
    · rintro (⟨h1, h2, h3, h4⟩ | ⟨h1, _⟩)
      · rw [← htab] at h2 h3 h4
        exact ⟨h1, h2, h3, h4⟩
      · exact absurd h1 hj

theorem tokenFrame_retireSlot : TokenFrame (retireSlot k L) j f ↔ TokenFrame L j f ∧ j ≠ k := by
  by_cases hj : j = k
  · subst hj
    constructor
    · rintro ⟨_, hlive, _, _⟩
      simp [retireSlot, retired] at hlive
    · rintro ⟨_, hne⟩
      exact absurd rfl hne
  · have htab : (retireSlot k L).table j = L.table j := by simp [retireSlot, hj]
    constructor
    · rintro ⟨h1, h2, h3, h4⟩
      rw [htab] at h2 h3 h4
      exact ⟨⟨h1, h2, h3, h4⟩, hj⟩
    · rintro ⟨⟨h1, h2, h3, h4⟩, _⟩
      rw [← htab] at h2 h3 h4
      exact ⟨h1, h2, h3, h4⟩

theorem tokenFrame_setMapCount : TokenFrame (setMapCount k c L) j f ↔ TokenFrame L j f := by
  by_cases hj : j = k
  · subst hj
    constructor
    · rintro ⟨h1, h2, h3, h4⟩
      simp only [setMapCount, update_self] at h2 h3 h4
      exact ⟨h1, h2, h3, h4⟩
    · rintro ⟨h1, h2, h3, h4⟩
      constructor <;> simp [setMapCount, h1, h2, h3, h4]
  · have htab : (setMapCount k c L).table j = L.table j := by simp [setMapCount, hj]
    constructor
    · rintro ⟨h1, h2, h3, h4⟩
      rw [htab] at h2 h3 h4
      exact ⟨h1, h2, h3, h4⟩
    · rintro ⟨h1, h2, h3, h4⟩
      rw [← htab] at h2 h3 h4
      exact ⟨h1, h2, h3, h4⟩

theorem TokensOk.sealSlot (h : TokensOk L) (hk : k < tableSlots) (hn : 0 < n) :
    TokensOk (sealSlot k owner (a * frameSize) n rights L) := by
  refine ⟨h.gens.sealSlot _ _, fun j hlive => ?_, fun j hlive => ?_, fun j hdead => ?_⟩
  · by_cases hj : j = k
    · rw [hj]
      exact hk
    · simp only [Kernel.sealSlot, update_of_ne hj] at hlive
      exact h.slot_lt j hlive
  · by_cases hj : j = k
    · simp [Kernel.sealSlot, sealed, hj, hn]
    · simp only [Kernel.sealSlot, update_of_ne hj] at hlive ⊢
      exact h.token j hlive
  · by_cases hj : j = k
    · simp [Kernel.sealSlot, sealed, hj] at hdead
    · simp only [Kernel.sealSlot, update_of_ne hj] at hdead ⊢
      exact h.unmapped j hdead

theorem TokensOk.retireSlot (h : TokensOk L) : TokensOk (retireSlot k L) := by
  refine ⟨h.gens.retireSlot, fun j hlive => ?_, fun j hlive => ?_, fun j hdead => ?_⟩
  · by_cases hj : j = k
    · simp [Kernel.retireSlot, retired, hj] at hlive
    · simp only [Kernel.retireSlot, update_of_ne hj] at hlive
      exact h.slot_lt j hlive
  · by_cases hj : j = k
    · simp [Kernel.retireSlot, retired, hj] at hlive
    · simp only [Kernel.retireSlot, update_of_ne hj] at hlive ⊢
      exact h.token j hlive
  · by_cases hj : j = k
    · simp [Kernel.retireSlot, retired, hj]
    · simp only [Kernel.retireSlot, update_of_ne hj] at hdead ⊢
      exact h.unmapped j hdead

theorem TokensOk.setMapCount (h : TokensOk L) (hlive : (L.table k).live = true) :
    TokensOk (setMapCount k c L) := by
  refine ⟨h.gens.setMapCount c, fun j hl => ?_, fun j hl => ?_, fun j hdead => ?_⟩
  · by_cases hj : j = k
    · rw [hj]
      exact h.slot_lt k hlive
    · simp only [Kernel.setMapCount, update_of_ne hj] at hl
      exact h.slot_lt j hl
  · by_cases hj : j = k
    · subst hj
      simpa [Kernel.setMapCount] using h.token j hlive
    · simp only [Kernel.setMapCount, update_of_ne hj] at hl ⊢
      exact h.token j hl
  · by_cases hj : j = k
    · simp [Kernel.setMapCount, hj, hlive] at hdead
    · simp only [Kernel.setMapCount, update_of_ne hj] at hdead ⊢
      exact h.unmapped j hdead

end Slots

section Keep

/-- Changes of memory outside the used frames move no table. -/
theorem FramesOk.sameTables (h : FramesOk B s) (hspaces : s'.spaces = s.spaces)
    (hmem : ∀ f, s.phys.isFree f = false → s'.mem f = s.mem f) : SameTables s s' :=
  ⟨hspaces, fun r π t ht => hmem t (h.used t (.table r π) ht).2⟩

theorem Quiet.sameTables (hq : Quiet s s') (h : FramesOk B s) :
    SameTables s s' := h.sameTables hq.spaces hq.mem

theorem Quiet.sameBoot (hq : Quiet s s') (h : FramesOk B s) :
    SameBoot B s s' := fun f hf => hq.mem f (h.used f .boot hf).2

theorem Layout.quiet (h : Layout B s) (hq : Quiet s s') : Layout B s' := by
  have hsame := hq.sameTables h.toFramesOk
  refine ⟨h.toFramesOk.congr hq.counted hq.total hq.isFree fun f u => ?_, hsame.treesOk h.toTreesOk,
    ?_, ?_⟩
  · exact hsame.uses_iff fun k => by rw [hq.ledger]
  · rw [hq.ledger]
    exact h.tokens
  · exact h.kernel.congr hq.pml4Phys (hq.sameBoot h.toFramesOk)

theorem Allocated.mem_used (ha : Allocated s owner n rights k a s') (hf : s.phys.isFree f = false) :
    s'.mem f = s.mem f := by
  rw [ha.mem, if_neg]
  rintro ⟨h1, h2⟩
  rw [ha.took.run.2 f h1 h2] at hf
  exact absurd hf (by simp)

theorem Allocated.sameTables (ha : Allocated s owner n rights k a s') (h : FramesOk B s) :
    SameTables s s' :=
  h.sameTables ha.spaces fun _ hf => ha.mem_used hf

theorem Allocated.sameBoot (ha : Allocated s owner n rights k a s') (h : FramesOk B s) :
    SameBoot B s s' :=
  fun f hf => ha.mem_used (h.used f .boot hf).2

theorem Layout.allocated (h : Layout B s) (ha : Allocated s owner n rights k a s') :
    Layout B s' := by
  have hsame := ha.sameTables h.toFramesOk
  refine ⟨h.toFramesOk.took ha.took (.token k) fun f u => ?_, hsame.treesOk h.toTreesOk, ?_, ?_⟩
  · cases u with
    | boot => simp [Uses]
    | token j =>
      rw [Uses, Uses, ha.ledger, tokenFrame_sealSlot ha.slot_lt ha.free]
      simp only [FrameUse.token.injEq]
      tauto
    | table r π =>
      rw [Uses, Uses, hsame.tableFrame_iff]
      simp
  · rw [ha.ledger]
    exact h.tokens.sealSlot ha.slot_lt ha.pos
  · exact h.kernel.congr ha.pml4Phys (ha.sameBoot h.toFramesOk)

theorem Released.sameTables (hr : Released s k s') :
    SameTables s s' := ⟨hr.spaces, fun _ _ _ _ => by rw [hr.mem]⟩

theorem Released.sameBoot (hr : Released s k s') : SameBoot B s s' := fun f _ => congrFun hr.mem f

theorem Released.uses_iff (hr : Released s k s') (f : ℕ) (u : FrameUse) :
    Uses B s' f u ↔ Uses B s f u ∧ u ≠ .token k := by
  cases u with
  | boot => simp [Uses]
  | token j =>
    rw [Uses, Uses, hr.ledger, tokenFrame_retireSlot]
    simp
  | table r π =>
    rw [Uses, Uses, hr.sameTables.tableFrame_iff]
    simp

/-- The frames that are given back are those of the token. -/
theorem Released.isFree_iff (hr : Released s k s') (f : ℕ) :
    s'.phys.isFree f = true ↔ s.phys.isFree f = true ∨ TokenFrame s.ledger k f := by
  rw [hr.gave.isFree, Bool.or_eq_true, decide_eq_true_iff]
  exact or_congr_right ⟨fun hf => ⟨hr.slot_lt, hr.live, hf.1, hf.2⟩, fun hf => ⟨hf.le, hf.lt⟩⟩

theorem Layout.released (h : Layout B s) (hr : Released s k s') : Layout B s' := by
  refine ⟨h.toFramesOk.gave (D := fun f => Uses B s f (.token k)) hr.gave.counted hr.gave.total
    hr.isFree_iff
    (fun f hf => (h.used f _ hf).1) fun f u => ?_, hr.sameTables.treesOk h.toTreesOk, ?_, ?_⟩
  · rw [hr.uses_iff]
    exact and_congr_right fun hu => ⟨fun hne hk => hne (h.unique f u _ hu hk),
      fun hno heq => hno (heq ▸ hu)⟩
  · rw [hr.ledger]
    exact h.tokens.retireSlot
  · exact h.kernel.congr hr.pml4Phys hr.sameBoot

theorem uses_congrRecords (maps : ℕ → MapRec) :
    Uses B { s with maps := maps } f u ↔ Uses B s f u := by
  have hsame : SameTables s { s with maps := maps } := ⟨rfl, fun _ _ _ _ => rfl⟩
  exact hsame.uses_iff fun _ => Iff.rfl

/-- The records have no part in the layout. -/
theorem Layout.congrRecords (h : Layout B s) (maps : ℕ → MapRec) :
    Layout B { s with maps := maps } := by
  have hsame : SameTables s { s with maps := maps } := ⟨rfl, fun _ _ _ _ => rfl⟩
  exact ⟨h.toFramesOk.congr h.counted rfl (fun _ => rfl) fun f u => uses_congrRecords maps,
    hsame.treesOk h.toTreesOk, h.tokens, h.kernel⟩

/-- A map count has no part in what uses a frame. -/
theorem uses_recount (hledger : s'.ledger = setMapCount k c s.ledger) (hmem : s'.mem = s.mem)
    (hspaces : s'.spaces = s.spaces) : Uses B s' f u ↔ Uses B s f u :=
  (SameTables.mk hspaces fun _ _ _ _ => by rw [hmem]).uses_iff
    fun j => by rw [hledger, tokenFrame_setMapCount]

/-- A map count, and what is not in memory, has no part in the layout. -/
theorem Layout.recount (h : Layout B s) (hlive : (s.ledger.table k).live = true)
    (hledger : s'.ledger = setMapCount k c s.ledger) (hphys : s'.phys = s.phys)
    (hmem : s'.mem = s.mem) (hspaces : s'.spaces = s.spaces) (hpml4 : s'.pml4Phys = s.pml4Phys) :
    Layout B s' := by
  have hsame : SameTables s s' := ⟨hspaces, fun _ _ _ _ => by rw [hmem]⟩
  exact ⟨h.toFramesOk.congr (hphys ▸ h.counted) (by rw [hphys]) (fun _ => by rw [hphys])
    fun f u => uses_recount hledger hmem hspaces, hsame.treesOk h.toTreesOk,
    hledger ▸ h.tokens.setMapCount hlive, h.kernel.congr hpml4 fun _ _ => by rw [hmem]⟩

end Keep

/-! ## The functions -/

section Functions

/-- An allocation made a token, or returned 0 and changed nothing. -/
def AllocSpec (s : Xeret) (owner : OwnerId) (n : ℕ) (rights : UInt32) (r : XToken × Xeret) : Prop :=
  (r.1 = tokenInvalid ∧ Quiet s r.2) ∨
    ∃ k a, r.1 = packToken k (s.ledger.table k).generation ∧ r.1 ≠ tokenInvalid ∧
      Allocated s owner n rights k a r.2

theorem Quiet.refl (h : Counted s.phys) :
    Quiet s s := ⟨rfl, rfl, rfl, rfl, rfl, h, rfl, fun _ => rfl, fun _ _ => rfl⟩

theorem sealFrames_spec {p : PhysBitmap} (h : Layout B s) (hn : 0 < n) (ht : TookRun s.phys a n p) :
    AllocSpec s owner n rights
      (sealFrames owner (a * frameSize) n rights { s with phys := p }) := by
  have hdiv : a * frameSize / frameSize = a := Nat.mul_div_cancel a (by decide)
  rcases sealRam_spec owner (a * frameSize) n rights s.ledger with hs | ⟨k, hk, hfree, _, _, hs⟩
  · -- the table is full: the frames go back
    have hlt : p.totalFrames < 2 ^ 64 := by
      rw [ht.total]
      exact lt_trans h.total_lt (by decide)
    have hgave := physFreeFrames_spec ht.counted hn (ht.total ▸ ht.run.1) hlt
    refine Or.inl ⟨?_, ?_⟩
    · simp only [sealFrames, zeroFrames, hs]
    · simp only [sealFrames, zeroFrames, hs, if_true, hdiv]
      refine ⟨rfl, rfl, rfl, rfl, rfl, hgave.counted, hgave.total.trans ht.total, fun f => ?_,
        fun f hf => ?_⟩
      · rw [hgave.isFree, ht.isFree]
        by_cases hin : a ≤ f ∧ f < a + n
        · simp [hin, ht.run.2 f hin.1 hin.2]
        · simp [hin]
      · refine if_neg fun hin => ?_
        rw [ht.run.2 f hin.1 hin.2] at hf
        exact absurd hf (by simp)
  · obtain ⟨h0, hg⟩ := h.tokens.gens k
    have hk' : k < 2 ^ 32 := by
      rw [tableSlots] at hk
      omega
    have hne := packToken_ne_invalid hk' hg h0
    refine Or.inr ⟨k, a, ?_, ?_, ?_⟩
    · simp only [sealFrames, zeroFrames, hs]
    · simp only [sealFrames, zeroFrames, hs]
      exact hne
    · simp only [sealFrames, zeroFrames, hs, if_neg hne, hdiv]
      exact ⟨hk, hfree, hn, ht, rfl, rfl, rfl, rfl, rfl, fun _ => rfl⟩

/-- **`xtok_alloc_ram`.** -/
theorem xtokAllocRam_spec (h : Layout B s) (owner : OwnerId) (n : ℕ) (rights : UInt32) :
    AllocSpec s owner n rights (xtokAllocRam owner n rights s) := by
  unfold xtokAllocRam
  by_cases hn : n = 0
  · rw [if_pos hn]
    exact Or.inl ⟨rfl, Quiet.refl h.counted⟩
  rw [if_neg hn]
  rcases physAllocFrames_spec h.counted h.isFree_zero (Nat.pos_of_ne_zero hn) with ⟨h1, h2, _⟩ | ⟨a,
    ha, h1, h2, _⟩
  · simp only [h1, h2, if_true]
    exact Or.inl ⟨rfl, Quiet.refl h.counted⟩
  · have hne : a * frameSize ≠ 0 := Nat.mul_ne_zero (by omega) (by decide)
    simp only [h1, if_neg hne]
    exact sealFrames_spec h (Nat.pos_of_ne_zero hn) h2

/-- **`xtok_alloc_ram_huge`.** -/
theorem xtokAllocRamHuge_spec (h : Layout B s) (owner : OwnerId) (rights : UInt32) :
    AllocSpec s owner framesPerHuge rights (xtokAllocRamHuge owner rights s) := by
  unfold xtokAllocRamHuge
  rcases physAllocHuge_spec h.counted h.isFree_zero with ⟨h1, h2, _⟩ | ⟨a, ha, h1, _, h2, _⟩
  · simp only [h1, h2, if_true]
    exact Or.inl ⟨rfl, Quiet.refl h.counted⟩
  · have hne : a * frameSize ≠ 0 := Nat.mul_ne_zero (by omega) (by decide)
    simp only [h1, if_neg hne]
    exact sealFrames_spec h (by decide) h2

/-- The frames of a live token are frames of the memory. -/
theorem Layout.token_le (h : Layout B s) (hk : k < tableSlots)
    (hlive : (s.ledger.table k).live = true) :
    (s.ledger.table k).phys / frameSize + (s.ledger.table k).nFrames ≤ s.phys.totalFrames := by
  have hlt := Nat.lt_add_of_pos_right (n := (s.ledger.table k).phys / frameSize)
    (h.tokens.token k hlive).2.1
  have hlast := (h.used _ (.token k) ⟨hk, hlive, Nat.le_sub_one_of_lt hlt,
    Nat.sub_one_lt_of_lt hlt⟩).1
  exact Nat.le_of_pred_lt hlast

/-- A live token that is not mapped and passes the checks is released. -/
theorem releaseImpl_ok (h : Layout B s) {tok : XToken} (hheld : Held s.ledger tok k)
    (checkRight checkOwner : Bool)
    (howner : ¬ (checkOwner = true ∧ (s.ledger.table k).ownerId ≠ owner))
    (hright : ¬ (checkRight = true ∧ (s.ledger.table k).rights &&& rightRelease = 0))
    (hcount : (s.ledger.table k).mapCount = 0) :
    (releaseImpl tok checkRight checkOwner owner s).1 = .ok () ∧
      Released s k (releaseImpl tok checkRight checkOwner owner s).2 := by
  obtain ⟨⟨b, hb⟩, hn, hkind⟩ := h.tokens.token k hheld.live
  have hdiv : b * frameSize / frameSize = b := Nat.mul_div_cancel b (by decide)
  have hle := h.token_le hheld.slot_lt hheld.live
  rw [hb, hdiv] at hle
  -- frame 0 belongs to no token
  have hb0 : b ≠ 0 := by
    rintro rfl
    have heq := h.unique 0 .boot (.token k) h.boot_zero
      ⟨hheld.slot_lt, hheld.live, by rw [hb]; simp, by rw [hb]; simpa using hn⟩
    exact absurd heq (by simp)
  have hne : b * frameSize ≠ 0 := Nat.mul_ne_zero hb0 (by decide)
  have hgave := physFreeFrames_spec h.counted hn hle (lt_trans h.total_lt (by decide))
  unfold releaseImpl
  simp only [(lookupLive_eq_some_iff h.tokens.gens).mpr hheld]
  rw [if_neg howner, if_neg hright, if_neg (not_not.mpr hcount)]
  refine ⟨rfl, ?_⟩
  rw [hb, if_pos ⟨hkind, hne, by omega⟩]
  refine ⟨hheld.slot_lt, hheld.live, hcount, ?_, rfl, rfl, rfl, rfl, rfl, rfl⟩
  rw [hb, hdiv]
  exact hgave

/-- **A release** frees the token if it is live, may be released, and is not mapped. -/
theorem releaseImpl_spec (h : Layout B s) (tok : XToken) (checkRight checkOwner : Bool)
    (owner : OwnerId) :
    (∃ e, releaseImpl tok checkRight checkOwner owner s = (.error e, s)) ∨
      ∃ k, Held s.ledger tok k ∧ (checkOwner = true → (s.ledger.table k).ownerId = owner) ∧
        (releaseImpl tok checkRight checkOwner owner s).1 = .ok () ∧
        Released s k (releaseImpl tok checkRight checkOwner owner s).2 := by
  cases hl : lookupLive s.ledger tok with
  | none =>
    refine Or.inl ⟨.stale, ?_⟩
    simp only [releaseImpl, hl]
  | some k =>
    have hheld := (lookupLive_eq_some_iff h.tokens.gens).mp hl
    by_cases h1 : checkOwner = true ∧ (s.ledger.table k).ownerId ≠ owner
    · refine Or.inl ⟨.stale, ?_⟩
      simp only [releaseImpl, hl, if_pos h1]
    by_cases h2 : checkRight = true ∧ (s.ledger.table k).rights &&& rightRelease = 0
    · refine Or.inl ⟨.rights, ?_⟩
      simp only [releaseImpl, hl, if_neg h1, if_pos h2]
    by_cases h3 : (s.ledger.table k).mapCount ≠ 0
    · refine Or.inl ⟨.busy, ?_⟩
      simp only [releaseImpl, hl, if_neg h1, if_neg h2, if_pos h3]
    · exact Or.inr ⟨k, hheld, fun hc => by_contra fun ho => h1 ⟨hc, ho⟩,
        releaseImpl_ok h hheld _ _ h1 h2 (not_not.mp h3)⟩

end Functions

end Xasmos.Kernel
