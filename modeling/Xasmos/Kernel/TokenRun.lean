import Xasmos.Kernel.Ledger

/-!
# Released tokens stay dead

Runs of ledger calls, with the tokens that were made and those that were released.  The
generation of a slot counts its releases, so a token that was released has an older
generation than its slot and no later token is equal to it.  The generation is a 32-bit
number: the run must not release one slot 2^32 - 1 times.

`LedgerStep` says once what a call can do to the ledger; `History` is the invariant.
-/

namespace Xasmos.Kernel

variable {L L' : Ledger} {gen gen' k k' n : ℕ} {owner : OwnerId} {r : XToken × Xeret}
  {rights : UInt32} {s : Xeret} {tok : XToken}

/-- A call that can change the ledger. -/
inductive LedgerOp where
  | allocRam (owner : OwnerId) (n : UInt64) (rights : UInt32)
  | allocRamHuge (owner : OwnerId) (rights : UInt32)
  | release (tok : XToken)
  | releaseOwned (tok : XToken) (owner : OwnerId)
  | reclaim (tok : XToken)
  | mapAcquire (tok : XToken) (caller : OwnerId) (need : UInt32)
  | mapRelease (tok : XToken)

/-- The state after a call. -/
def LedgerOp.run (s : Xeret) : LedgerOp → Xeret
  | .allocRam owner n rights => (xtokAllocRam owner n.toNat rights s).2
  | .allocRamHuge owner rights => (xtokAllocRamHuge owner rights s).2
  | .release tok => (xtokRelease tok s).2
  | .releaseOwned tok owner => (xtokReleaseOwned tok owner s).2
  | .reclaim tok => (xtokReclaim tok s).2
  | .mapAcquire tok caller need => (xtokMapAcquire tok caller need s).2
  | .mapRelease tok => xtokMapRelease tok s

/-- The token an allocation returned. -/
def made (tok : XToken) : List XToken := if tok = tokenInvalid then [] else [tok]

/-- The token a call made. -/
def LedgerOp.issued (s : Xeret) : LedgerOp → List XToken
  | .allocRam owner n rights => made (xtokAllocRam owner n.toNat rights s).1
  | .allocRamHuge owner rights => made (xtokAllocRamHuge owner rights s).1
  | _ => []

/-- The token of a release that succeeded. -/
def gone (tok : XToken) : Except ReleaseError Unit → List XToken
  | .ok _ => [tok]
  | .error _ => []

/-- The token a call released. -/
def LedgerOp.dropped (s : Xeret) : LedgerOp → List XToken
  | .release tok => gone tok (xtokRelease tok s).1
  | .releaseOwned tok owner => gone tok (xtokReleaseOwned tok owner s).1
  | .reclaim tok => gone tok (xtokReclaim tok s).1
  | _ => []

/-- The states of runs of ledger calls, with the tokens made and the tokens released so far,
the newest first. -/
inductive LedgerRun : Xeret → List XToken → List XToken → Prop where
  | init {s : Xeret} (h : s.ledger = emptyLedger) : LedgerRun s [] []
  | call {s : Xeret} {issued dropped : List XToken} (op : LedgerOp)
    (h : LedgerRun s issued dropped) :
      LedgerRun (op.run s) (op.issued s ++ issued) (op.dropped s ++ dropped)

/-! ## What a call does -/

/-- What one call does to the ledger, with the token it makes and the token it releases. -/
inductive LedgerStep (L : Ledger) : List XToken → List XToken → Ledger → Prop where
  | same : LedgerStep L [] [] L
  | make {k : ℕ} (owner : OwnerId) (phys n : ℕ) (rights : UInt32) (hk : k < tableSlots)
      (hfree : (L.table k).live = false) :
      LedgerStep L [packToken k (L.table k).generation] [] (sealSlot k owner phys n rights L)
  | drop {tok : XToken} {k : ℕ} (h : Held L tok k) : LedgerStep L [] [tok] (retireSlot k L)
  | count (k c : ℕ) : LedgerStep L [] [] (setMapCount k c L)

section Steps

theorem made_packToken (hgens : GensOk L) (hk : k < tableSlots) :
    made (packToken k (L.table k).generation) = [packToken k (L.table k).generation] := by
  obtain ⟨h0, hlt⟩ := hgens k
  have hk' : k < 2 ^ 32 := by
    rw [tableSlots] at hk
    omega
  rw [made, if_neg (packToken_ne_invalid hk' hlt h0)]

/-- An allocation returned 0 and made no token, or it made the token it returned. -/
def AllocCases (L : Ledger) (owner : OwnerId) (n : ℕ) (rights : UInt32) (r : XToken × Xeret) :
    Prop :=
  (r.1 = tokenInvalid ∧ r.2.ledger = L) ∨
    ∃ k phys, k < tableSlots ∧ (L.table k).live = false ∧ r.1 = packToken k (L.table k).generation ∧
      r.2.ledger = sealSlot k owner phys n rights L

theorem sealFrames_cases (owner : OwnerId) (phys n : ℕ) (rights : UInt32) (s : Xeret) :
    AllocCases s.ledger owner n rights (sealFrames owner phys n rights s) := by
  have hled : (sealFrames owner phys n rights s).2.ledger =
      (sealRam owner phys n rights s.ledger).2 := by
    unfold sealFrames
    by_cases ht : (sealRam owner phys n rights s.ledger).1 = tokenInvalid
    · simp [zeroFrames, ht]
    · simp [zeroFrames, ht]
  have htok : (sealFrames owner phys n rights s).1 = (sealRam owner phys n rights s.ledger).1 := rfl
  rw [AllocCases, hled, htok]
  rcases sealRam_spec owner phys n rights s.ledger with h | ⟨k, hk, hfree, _, _, h⟩
  · rw [h]
    exact Or.inl ⟨rfl, rfl⟩
  · rw [h]
    exact Or.inr ⟨k, phys, hk, hfree, rfl, rfl⟩

theorem xtokAllocRam_cases (owner : OwnerId) (n : ℕ) (rights : UInt32) (s : Xeret) :
    AllocCases s.ledger owner n rights (xtokAllocRam owner n rights s) := by
  unfold xtokAllocRam
  by_cases h0 : n = 0
  · rw [if_pos h0]
    exact Or.inl ⟨rfl, rfl⟩
  rw [if_neg h0]
  by_cases hp : (physAllocFrames n s.phys).1 = 0
  · simp only [if_pos hp]
    exact Or.inl ⟨rfl, rfl⟩
  · simp only [if_neg hp]
    exact sealFrames_cases owner _ n rights _

theorem xtokAllocRamHuge_cases (owner : OwnerId) (rights : UInt32) (s : Xeret) :
    AllocCases s.ledger owner framesPerHuge rights (xtokAllocRamHuge owner rights s) := by
  unfold xtokAllocRamHuge
  by_cases hp : (physAllocHuge s.phys).1 = 0
  · simp only [if_pos hp]
    exact Or.inl ⟨rfl, rfl⟩
  · simp only [if_neg hp]
    exact sealFrames_cases owner (physAllocHuge s.phys).1 framesPerHuge rights
      { s with phys := (physAllocHuge s.phys).2 }

theorem AllocCases.step (hgens : GensOk L) (h : AllocCases L owner n rights r) :
    LedgerStep L (made r.1) [] r.2.ledger := by
  rcases h with ⟨h1, h2⟩ | ⟨k, phys, hk, hfree, h1, h2⟩
  · rw [h1, h2, made, if_pos rfl]
    exact .same
  · rw [h1, h2, made_packToken hgens hk]
    exact .make owner phys n rights hk hfree

/-- An allocation that returns 0 has not changed the ledger. -/
theorem AllocCases.ledger_eq (hgens : GensOk L) (h : AllocCases L owner n rights r)
    (h0 : r.1 = tokenInvalid) : r.2.ledger = L := by
  rcases h with ⟨_, h2⟩ | ⟨k, phys, hk, _, h1, _⟩
  · exact h2
  · have hmade := made_packToken hgens hk
    rw [← h1, h0, made, if_pos rfl] at hmade
    exact absurd hmade (by simp)

theorem releaseImpl_step (hgens : GensOk s.ledger) (tok : XToken) (checkRight checkOwner : Bool)
    (owner : OwnerId) :
    LedgerStep s.ledger [] (gone tok (releaseImpl tok checkRight checkOwner owner s).1)
      (releaseImpl tok checkRight checkOwner owner s).2.ledger := by
  unfold releaseImpl
  cases hl : lookupLive s.ledger tok with
  | none => exact .same
  | some k =>
    simp only
    split_ifs
    · exact .same
    · exact .same
    · exact .same
    · exact .drop ((lookupLive_eq_some_iff hgens).mp hl)
    · exact .drop ((lookupLive_eq_some_iff hgens).mp hl)

theorem gone_mapError (tok : XToken) (f : ReleaseError → ReleaseError)
    (r : Except ReleaseError Unit) : gone tok (r.mapError f) = gone tok r := by
  cases r <;> rfl

/-- **Every call is a step of the ledger.** -/
theorem LedgerOp.step (op : LedgerOp) (hgens : GensOk s.ledger) :
    LedgerStep s.ledger (op.issued s) (op.dropped s) (op.run s).ledger := by
  cases op with
  | allocRam owner n rights => exact (xtokAllocRam_cases owner n.toNat rights s).step hgens
  | allocRamHuge owner rights => exact (xtokAllocRamHuge_cases owner rights s).step hgens
  | release tok =>
    have h := releaseImpl_step hgens tok true false 0
    simp only [LedgerOp.issued, LedgerOp.dropped, LedgerOp.run, xtokRelease, gone_mapError]
    exact h
  | releaseOwned tok owner => exact releaseImpl_step hgens tok true true owner
  | reclaim tok => exact releaseImpl_step hgens tok false false 0
  | mapAcquire tok caller need =>
    simp only [LedgerOp.issued, LedgerOp.dropped, LedgerOp.run, xtokMapAcquire]
    cases lookupLive s.ledger tok with
    | none => exact .same
    | some k =>
      simp only
      split_ifs
      · exact .same
      · exact .same
      · exact .same
      · exact .same
      · exact .count k _
  | mapRelease tok =>
    simp only [LedgerOp.issued, LedgerOp.dropped, LedgerOp.run, xtokMapRelease]
    cases lookupLive s.ledger tok with
    | none => exact .same
    | some k =>
      simp only
      split_ifs
      · exact .count k _
      · exact .same

end Steps

/-! ## Histories -/

/-- How often the slot `k` was released. -/
def releases (k : ℕ) (dropped : List XToken) : ℕ := dropped.countP fun t => tokenSlot t = k

/-- No slot was released 2^32 - 1 times. -/
def FewReleases (dropped : List XToken) : Prop := ∀ k, releases k dropped < 2 ^ 32 - 1

/-- `tok` is a token of slot `k` and of a generation up to that of the slot; of the slot's own
generation only while it is live. -/
structure MadeIn (L : Ledger) (tok : XToken) (k gen : ℕ) : Prop where
  slot_lt : k < tableSlots
  pos : 0 < gen
  tok_eq : tok = packToken k gen
  gen_le : gen < (L.table k).generation ∨ gen = (L.table k).generation ∧ (L.table k).live = true

/-- The ledger after a run: the generations count the releases. -/
structure History (L : Ledger) (issued dropped : List XToken) : Prop where
  gen_eq : ∀ k, (L.table k).generation = 1 + releases k dropped
  made : ∀ t ∈ issued, ∃ k gen, MadeIn L t k gen
  dropped_lt : ∀ t ∈ dropped, ∃ k gen, MadeIn L t k gen ∧ gen < (L.table k).generation
  nodup : issued.Nodup
  live_eq : L.live = Nat.count (fun k => (L.table k).live = true) tableSlots

section History

variable {issued dropped new old : List XToken}

theorem History.gensOk (h : History L issued dropped) (hfew : FewReleases dropped) : GensOk L := by
  intro k
  have h1 := h.gen_eq k
  have h2 := hfew k
  omega

theorem FewReleases.of_append (h : FewReleases (old ++ dropped)) : FewReleases dropped := by
  intro k
  have hk := h k
  rw [releases, List.countP_append] at hk
  rw [releases]
  omega

theorem History.empty : History emptyLedger [] [] := by
  refine ⟨fun _ => rfl, by simp, by simp, List.nodup_nil, ?_⟩
  simp [emptyLedger, Nat.count_false]

/-- A token stays in its place of the history while its slot keeps its generation and its
token, or moves on to a later generation. -/
theorem MadeIn.later (h : MadeIn L tok k gen)
    (hle : (L.table k).generation ≤ (L'.table k).generation)
    (hlive : (L.table k).generation = (L'.table k).generation → (L.table k).live = true →
      (L'.table k).live = true) :
    MadeIn L' tok k gen := by
  refine ⟨h.slot_lt, h.pos, h.tok_eq, ?_⟩
  rcases h.gen_le with h1 | ⟨h1, h2⟩
  · exact Or.inl (by omega)
  · by_cases heq : (L.table k).generation = (L'.table k).generation
    · exact Or.inr ⟨h1.trans heq, hlive heq h2⟩
    · exact Or.inl (by omega)

/-- The history does not depend on anything but generations and live flags. -/
theorem History.congr (h : History L issued dropped)
    (hgen : ∀ k, (L'.table k).generation = (L.table k).generation)
    (hlive : ∀ k, (L'.table k).live = (L.table k).live) (hcount : L'.live = L.live) :
    History L' issued dropped := by
  have hlater : ∀ {t k gen}, MadeIn L t k gen → MadeIn L' t k gen := fun hm =>
    hm.later (hgen _).ge fun _ hl => (hlive _).trans hl
  refine ⟨fun k => (hgen k).trans (h.gen_eq k), fun t ht => ?_, fun t ht => ?_, h.nodup, ?_⟩
  · obtain ⟨k, gen, hm⟩ := h.made t ht
    exact ⟨k, gen, hlater hm⟩
  · obtain ⟨k, gen, hm, hlt⟩ := h.dropped_lt t ht
    exact ⟨k, gen, hlater hm, by rw [hgen]; exact hlt⟩
  · rw [hcount, h.live_eq]
    exact count_congr fun k _ => by rw [hlive]

theorem packToken_inj (hk : k < tableSlots) (hk' : k' < tableSlots) (hg : gen < 2 ^ 32)
    (hg' : gen' < 2 ^ 32) (h : packToken k gen = packToken k' gen') : k = k' ∧ gen = gen' := by
  have hs : k < 2 ^ 32 ∧ k' < 2 ^ 32 := by
    rw [tableSlots] at hk hk'
    omega
  have h1 := congrArg tokenSlot h
  have h2 := congrArg tokenGen h
  rw [tokenSlot_packToken hs.1 hg, tokenSlot_packToken hs.2 hg'] at h1
  rw [tokenGen_packToken hs.1 hg, tokenGen_packToken hs.2 hg'] at h2
  exact ⟨h1, h2⟩

theorem MadeIn.gen_lt (h : MadeIn L tok k gen) (hgens : GensOk L) : gen < 2 ^ 32 := by
  have hlt := (hgens k).2
  rcases h.gen_le with h1 | ⟨h1, _⟩
  · omega
  · omega

theorem History.seal (h : History L issued dropped) (hfew : FewReleases dropped) (owner : OwnerId)
    (phys n : ℕ) (rights : UInt32) (hk : k < tableSlots) (hfree : (L.table k).live = false) :
    History (sealSlot k owner phys n rights L)
      (packToken k (L.table k).generation :: issued) dropped := by
  have hgens := h.gensOk hfew
  have hgen : ∀ j, ((sealSlot k owner phys n rights L).table j).generation =
      (L.table j).generation := by
    intro j
    by_cases hj : j = k <;> simp [sealSlot, sealed, hj]
  have hlive : ∀ j, ((sealSlot k owner phys n rights L).table j).live =
      ((L.table j).live || decide (j = k)) := by
    intro j
    by_cases hj : j = k <;> simp [sealSlot, sealed, hj]
  have hlater : ∀ {t j gen}, MadeIn L t j gen →
      MadeIn (sealSlot k owner phys n rights L) t j gen := fun hm =>
    hm.later (hgen _).ge fun _ hl => by rw [hlive, hl, Bool.true_or]
  refine ⟨fun j => (hgen j).trans (h.gen_eq j), fun t ht => ?_, fun t ht => ?_,
    List.nodup_cons.mpr ⟨fun hmem => ?_, h.nodup⟩, ?_⟩
  · rcases List.mem_cons.mp ht with rfl | ht
    · exact ⟨k, _, hk, (hgens k).1, rfl, Or.inr ⟨(hgen k).symm, by simp [hlive]⟩⟩
    · obtain ⟨j, gen, hm⟩ := h.made t ht
      exact ⟨j, gen, hlater hm⟩
  · obtain ⟨j, gen, hm, hlt⟩ := h.dropped_lt t ht
    exact ⟨j, gen, hlater hm, by rw [hgen]; exact hlt⟩
  · -- an earlier token of the slot's generation would still be live
    obtain ⟨j, gen, hm⟩ := h.made _ hmem
    obtain ⟨rfl, rfl⟩ := packToken_inj hk hm.slot_lt (hgens k).2 (hm.gen_lt hgens) hm.tok_eq
    rcases hm.gen_le with hlt | ⟨_, hl⟩
    · omega
    · rw [hfree] at hl
      exact absurd hl (by simp)
  · have hcount := count_add_length (p := fun j => (L.table j).live = true)
      (q := fun j => ((sealSlot k owner phys n rights L).table j).live = true) (n := tableSlots)
      (List.nodup_singleton k)
      (by simp [hk, hlive])
      (fun j _ => by by_cases hj : j = k <;> simp [hlive, hj, hfree])
    rw [List.length_singleton, ← h.live_eq] at hcount
    exact hcount

theorem releases_cons (dropped : List XToken) (tok : XToken) (j : ℕ) :
    releases j (tok :: dropped) = releases j dropped + if tokenSlot tok = j then 1 else 0 := by
  simp [releases, List.countP_cons]

theorem History.retire (h : History L issued dropped) (hfew : FewReleases (tok :: dropped))
    (hheld : Held L tok k) : History (retireSlot k L) issued (tok :: dropped) := by
  have hfew' : FewReleases dropped :=
    FewReleases.of_append (show FewReleases ([tok] ++ dropped) from hfew)
  have hgens := h.gensOk hfew'
  have hk := hheld.slot_lt
  have hk' : k < 2 ^ 32 := by
    rw [tableSlots] at hk
    omega
  have hslot : tokenSlot tok = k := by rw [hheld.tok_eq, tokenSlot_packToken hk' (hgens k).2]
  have hrel := releases_cons dropped tok
  -- the generation has not wrapped
  have hnext : ((retireSlot k L).table k).generation = (L.table k).generation + 1 := by
    have h1 := h.gen_eq k
    have h2 := hfew k
    rw [hrel, hslot, if_pos rfl] at h2
    simp only [retireSlot, Function.update_self, retired]
    rw [Nat.mod_eq_of_lt (by omega), if_neg (by omega)]
  have hother : ∀ {j}, j ≠ k → (retireSlot k L).table j = L.table j := by
    intro j hj
    simp [retireSlot, hj]
  have hlive : ∀ j, ((retireSlot k L).table j).live = ((L.table j).live && !decide (j = k)) := by
    intro j
    by_cases hj : j = k <;> simp [retireSlot, retired, hj]
  have hlater : ∀ {t j gen}, MadeIn L t j gen → MadeIn (retireSlot k L) t j gen := by
    intro t j gen hm
    by_cases hj : j = k
    · subst hj
      exact hm.later (by omega) fun heq _ => by omega
    · exact hm.later (by rw [hother hj]) fun _ hl => by rw [hother hj]; exact hl
  refine ⟨fun j => ?_, fun t ht => ?_, fun t ht => ?_, h.nodup, ?_⟩
  · rw [hrel, hslot]
    by_cases hj : j = k
    · subst hj
      rw [hnext, if_pos rfl, h.gen_eq]
      omega
    · rw [hother hj, if_neg (fun hkj => hj hkj.symm), h.gen_eq]
      omega
  · obtain ⟨j, gen, hm⟩ := h.made t ht
    exact ⟨j, gen, hlater hm⟩
  · rcases List.mem_cons.mp ht with rfl | ht
    · have hm : MadeIn L t k (L.table k).generation :=
        ⟨hk, (hgens k).1, hheld.tok_eq, Or.inr ⟨rfl, hheld.live⟩⟩
      exact ⟨k, _, hlater hm, by omega⟩
    · obtain ⟨j, gen, hm, hlt⟩ := h.dropped_lt t ht
      refine ⟨j, gen, hlater hm, ?_⟩
      by_cases hj : j = k
      · subst hj
        omega
      · rw [hother hj]
        exact hlt
  · have hcount := count_add_length (p := fun j => ((retireSlot k L).table j).live = true)
      (q := fun j => (L.table j).live = true) (n := tableSlots) (List.nodup_singleton k)
      (by simp [hk, hheld.live])
      (fun j _ => by simp [hlive])
    rw [List.length_singleton, ← h.live_eq] at hcount
    simp only [retireSlot] at hcount ⊢
    split <;> omega

/-- **One call keeps the history.** -/
theorem History.step (h : History L issued dropped) (hfew : FewReleases (old ++ dropped))
    (hstep : LedgerStep L new old L') : History L' (new ++ issued) (old ++ dropped) := by
  cases hstep with
  | same => exact h
  | make owner phys n rights hk hfree => exact h.seal hfew owner phys n rights hk hfree
  | drop hheld => exact h.retire hfew hheld
  | count k c =>
    refine h.congr (fun j => ?_) (fun j => ?_) rfl
    · by_cases hj : j = k <;> simp [setMapCount, hj]
    · by_cases hj : j = k <;> simp [setMapCount, hj]

/-- **Every run.** -/
theorem LedgerRun.history (h : LedgerRun s issued dropped) (hfew : FewReleases dropped) :
    History s.ledger issued dropped := by
  induction h with
  | init h => rw [h]; exact History.empty
  | call op _ ih =>
    have hprev := ih hfew.of_append
    exact hprev.step hfew (op.step (hprev.gensOk hfew.of_append))

/-- A token that was released is live in no slot. -/
theorem History.not_held (h : History L issued dropped) (hfew : FewReleases dropped)
    (ht : tok ∈ dropped) : lookupLive L tok = none := by
  have hgens := h.gensOk hfew
  refine (lookupLive_eq_none_iff hgens).mpr fun k hheld => ?_
  obtain ⟨j, gen, hm, hlt⟩ := h.dropped_lt tok ht
  obtain ⟨rfl, rfl⟩ := packToken_inj hheld.slot_lt hm.slot_lt (hgens k).2 (hm.gen_lt hgens)
    (hheld.tok_eq.symm.trans hm.tok_eq)
  omega

end History

/-! ## The result -/

/-- Every use of the token fails and changes nothing. -/
structure Rejected (s : Xeret) (tok : XToken) : Prop where
  validate : ∀ need, xtokValidate tok need s = false
  ramInfo : xtokRamInfo tok s = none
  mapAcquire : ∀ caller need, xtokMapAcquire tok caller need s = (.error .stale, s)
  mapRelease : xtokMapRelease tok s = s
  release : xtokRelease tok s = (.error .stale, s)
  releaseOwned : ∀ owner, xtokReleaseOwned tok owner s = (.error .stale, s)
  reclaim : xtokReclaim tok s = (.error .stale, s)

theorem rejected_of_lookupLive (h : lookupLive s.ledger tok = none) : Rejected s tok := by
  constructor <;> intros <;>
    simp [xtokValidate, xtokRamInfo, xtokMapAcquire, xtokMapRelease, xtokRelease, xtokReleaseOwned,
      xtokReclaim, releaseImpl, h, Except.mapError]

/-- What holds after a run: no token was made twice and none is 0, an allocation that
returns 0 has made none, a released token is dead, and `g_live` counts the live slots. -/
structure TokensFresh (s : Xeret) (issued dropped : List XToken) : Prop where
  nodup : issued.Nodup
  ne_invalid : tokenInvalid ∉ issued
  allocRam : ∀ owner n rights, (xtokAllocRam owner n rights s).1 = tokenInvalid →
    (xtokAllocRam owner n rights s).2.ledger = s.ledger
  allocRamHuge : ∀ owner rights, (xtokAllocRamHuge owner rights s).1 = tokenInvalid →
    (xtokAllocRamHuge owner rights s).2.ledger = s.ledger
  dead : ∀ t ∈ dropped, Rejected s t
  live_eq : s.ledger.live = Nat.count (fun k => (s.ledger.table k).live = true) tableSlots

/-- **Released tokens stay dead**, in every run that releases no slot 2^32 - 1 times. -/
theorem LedgerRun.tokensFresh (s : Xeret) (issued dropped : List XToken)
    (h : LedgerRun s issued dropped) (hfew : FewReleases dropped) :
    TokensFresh s issued dropped := by
  have hist := h.history hfew
  have hgens := hist.gensOk hfew
  refine ⟨hist.nodup, fun h0 => ?_, fun owner n rights h0 => ?_, fun owner rights h0 => ?_,
    fun t ht => ?_, hist.live_eq⟩
  · obtain ⟨k, gen, hm⟩ := hist.made _ h0
    have hk : k < 2 ^ 32 := by
      have hlt := hm.slot_lt
      rw [tableSlots] at hlt
      omega
    exact packToken_ne_invalid hk (hm.gen_lt hgens) hm.pos hm.tok_eq.symm
  · exact (xtokAllocRam_cases owner n rights s).ledger_eq hgens h0
  · exact (xtokAllocRamHuge_cases owner rights s).ledger_eq hgens h0
  · exact rejected_of_lookupLive (hist.not_held hfew ht)

/-- A kernel of 1023 free frames above the first. -/
def bootXeret : Xeret :=
  ⟨⟨1024, 1023, 1, fun i => if i = 0 then 0xFE else 0xFF⟩, emptyLedger, 0,
    fun _ => ⟨0, 0, 0, 0, 0, false⟩, fun _ _ => 0,
    fun _ => ⟨0, 0, false⟩, fun _ => ⟨0, 0, false⟩, 0⟩

/-- A token is made, mapped and refused to a release; it is unmapped and released, and
another one is made. -/
def tokenStory : List LedgerOp :=
  [.allocRam 7 3 40, .mapAcquire 1 7 8, .release 1, .mapRelease 1, .releaseOwned 1 7,
    .allocRamHuge 7 0]

/-- The state, the tokens made and the tokens released after a list of calls. -/
def afterOps (s : Xeret) : List LedgerOp → Xeret × List XToken × List XToken
  | [] => (s, [], [])
  | op :: ops =>
    let e := afterOps s ops
    (op.run e.1, op.issued e.1 ++ e.2.1, op.dropped e.1 ++ e.2.2)

theorem LedgerRun.afterOps (h : s.ledger = emptyLedger) (ops : List LedgerOp) :
    LedgerRun (afterOps s ops).1 (afterOps s ops).2.1 (afterOps s ops).2.2 := by
  induction ops with
  | nil => exact .init h
  | cons op ops ih => exact .call op ih

/-- The first token of `tokenStory` is dead at its end, and the second one is another. -/
theorem LedgerRun.tokensFresh_story :
    (Kernel.afterOps bootXeret tokenStory.reverse).2 = ([4294967297, 1], [1]) ∧
      TokensFresh (Kernel.afterOps bootXeret tokenStory.reverse).1 [4294967297, 1] [1] := by
  have heq : (Kernel.afterOps bootXeret tokenStory.reverse).2 = ([4294967297, 1], [1]) := by
    decide +kernel
  have hrun := LedgerRun.afterOps (s := bootXeret) rfl tokenStory.reverse
  rw [heq] at hrun
  refine ⟨heq, LedgerRun.tokensFresh _ _ _ hrun fun k => ?_⟩
  have hle : releases k [1] ≤ 1 := List.countP_le_length
  omega

end Xasmos.Kernel
