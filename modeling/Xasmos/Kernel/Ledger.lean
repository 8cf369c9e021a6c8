import Xasmos.Kernel.State

/-!
# The token ledger

A table of 4096 slots.  A token is the number of its slot and the slot's generation; a
release bumps the generation, so that the token never finds its slot again.

The first part are the functions of the ledger.  The second gives one specification for
each of them, over `Held`: the slot a token is live in.

## Main definitions

* `lookupLive`, `sealRam`, `releaseImpl`, `xtokMapAcquire`, `xtokMapRelease`.
* `Held L tok k` — `tok` is the live token of slot `k`.
-/

namespace Xasmos.Kernel

open Function (update update_self)

/-- `pack_token` -/
def packToken (slot gen : ℕ) : XToken := UInt64.ofNat (slot <<< 32 ||| gen)

/-- The slot `unpack_token` gives. -/
def tokenSlot (tok : XToken) : ℕ := tok.toNat >>> 32

/-- The generation `unpack_token` gives. -/
def tokenGen (tok : XToken) : ℕ := tok.toNat &&& 0xFFFFFFFF

/-- `lookup_live`: the slot of a live token. -/
def lookupLive (L : Ledger) (tok : XToken) : Option ℕ :=
  if tok = tokenInvalid then none
  else if tableSlots ≤ tokenSlot tok then none
  else if ¬ (L.table (tokenSlot tok)).live then none
  else if (L.table (tokenSlot tok)).generation ≠ tokenGen tok then none
  else some (tokenSlot tok)

/-- The slot `claim_slot` finds: the first one that is not live, from the hint on. -/
def freeSlot (L : Ledger) : Option ℕ :=
  ((List.range tableSlots).find? fun i => !(L.table ((L.nextHint + i) % tableSlots)).live).map
    fun i => (L.nextHint + i) % tableSlots

/-- The ledger `xtok_init` leaves. -/
def emptyLedger : Ledger :=
  ⟨fun _ => ⟨1, .none, 0, 0, 0, 0, false, 0⟩, 0, 0⟩

/-- The slot of a new token. -/
def sealed (owner : OwnerId) (phys n : ℕ) (rights : UInt32) (e : XTokenEntry) : XTokenEntry :=
  { e with
    kind := .ram, ownerId := owner, rights := rights, phys := phys, nFrames := n, live := true }

/-- The ledger after a token is made in slot `k`. -/
def sealSlot (k : ℕ) (owner : OwnerId) (phys n : ℕ) (rights : UInt32) (L : Ledger) : Ledger :=
  ⟨update L.table k (sealed owner phys n rights (L.table k)), L.live + 1, (k + 1) % tableSlots⟩

/-- `seal_ram_locked`, with the `claim_slot` in it. -/
def sealRam (owner : OwnerId) (phys n : ℕ) (rights : UInt32) (L : Ledger) : XToken × Ledger :=
  if phys = 0 ∨ n = 0 then (tokenInvalid, L)
  else
    match freeSlot L with
    | none => (tokenInvalid, L)
    | some k => (packToken k (L.table k).generation, sealSlot k owner phys n rights L)

/-- What both allocations do with the `n` frames at `phys`: clear them, make a token of them, and
hand them back if the table is full. -/
def sealFrames (owner : OwnerId) (phys n : ℕ) (rights : UInt32) (s : Xeret) : XToken × Xeret :=
  let s := zeroFrames phys n s
  let sealing := sealRam owner phys n rights s.ledger
  let s := { s with ledger := sealing.2 }
  (sealing.1,
    if sealing.1 = tokenInvalid then { s with phys := physFreeFrames phys n s.phys } else s)

/-- `xtok_alloc_ram`; `tokenInvalid` is the failure. -/
def xtokAllocRam (owner : OwnerId) (n : ℕ) (rights : UInt32) (s : Xeret) : XToken × Xeret :=
  if n = 0 then (tokenInvalid, s)
  else
    let alloc := physAllocFrames n s.phys
    let s := { s with phys := alloc.2 }
    if alloc.1 = 0 then (tokenInvalid, s) else sealFrames owner alloc.1 n rights s

/-- `xtok_alloc_ram_huge` -/
def xtokAllocRamHuge (owner : OwnerId) (rights : UInt32) (s : Xeret) : XToken × Xeret :=
  let alloc := physAllocHuge s.phys
  let s := { s with phys := alloc.2 }
  if alloc.1 = 0 then (tokenInvalid, s) else sealFrames owner alloc.1 framesPerHuge rights s

/-- `xtok_validate` -/
def xtokValidate (tok : XToken) (need : UInt32) (s : Xeret) : Bool :=
  match lookupLive s.ledger tok with
  | none => false
  | some k => (s.ledger.table k).rights &&& need == need

/-- `xtok_ram_info`: the address and the number of frames of a RAM token. -/
def xtokRamInfo (tok : XToken) (s : Xeret) : Option (ℕ × ℕ) :=
  match lookupLive s.ledger tok with
  | none => none
  | some k =>
    if (s.ledger.table k).kind ≠ .ram then none
    else some ((s.ledger.table k).phys, (s.ledger.table k).nFrames)

/-- Why a release is refused. -/
inductive ReleaseError where
  | stale
  | busy
  | rights
  deriving DecidableEq

/-- The slot after a release: the next generation, 0 left out. -/
def retired (e : XTokenEntry) : XTokenEntry :=
  let gen := (e.generation + 1) % 2 ^ 32
  ⟨if gen = 0 then 1 else gen, .none, 0, 0, 0, 0, false, 0⟩

/-- The ledger after the token of slot `k` is released. -/
def retireSlot (k : ℕ) (L : Ledger) : Ledger :=
  { L with
    table := update L.table k (retired (L.table k))
    live := if 0 < L.live then L.live - 1 else L.live }

/-- `release_impl` -/
def releaseImpl (tok : XToken) (checkRight checkOwner : Bool) (owner : OwnerId) (s : Xeret) :
    Except ReleaseError Unit × Xeret :=
  match lookupLive s.ledger tok with
  | none => (.error .stale, s)
  | some k =>
    let e := s.ledger.table k
    if checkOwner ∧ e.ownerId ≠ owner then (.error .stale, s)
    else if checkRight ∧ e.rights &&& rightRelease = 0 then (.error .rights, s)
    else if e.mapCount ≠ 0 then (.error .busy, s)
    else
      let s := { s with ledger := retireSlot k s.ledger }
      (.ok (), if e.kind = .ram ∧ e.phys ≠ 0 ∧ e.nFrames ≠ 0 then
        { s with phys := physFreeFrames e.phys e.nFrames s.phys } else s)

/-- `xtok_release`: a missing right is reported as a stale token. -/
def xtokRelease (tok : XToken) (s : Xeret) : Except ReleaseError Unit × Xeret :=
  let release := releaseImpl tok true false 0 s
  (release.1.mapError fun e => if e = .rights then .stale else e, release.2)

/-- `xtok_release_owned` -/
def xtokReleaseOwned (tok : XToken) (owner : OwnerId) (s : Xeret) :
    Except ReleaseError Unit × Xeret :=
  releaseImpl tok true true owner s

/-- `xtok_reclaim` -/
def xtokReclaim (tok : XToken) (s : Xeret) : Except ReleaseError Unit × Xeret :=
  releaseImpl tok false false 0 s

/-- The slots of an owner's live tokens, in order. -/
def ownerSlots (owner : OwnerId) (L : Ledger) : List ℕ :=
  (List.range tableSlots).filter fun k => (L.table k).live && (L.table k).ownerId == owner

/-- `xtok_owner_tokens` -/
def xtokOwnerTokens (owner : OwnerId) (max : ℕ) (s : Xeret) : List XToken :=
  ((ownerSlots owner s.ledger).take max).map fun k => packToken k (s.ledger.table k).generation

/-- `xtok_owner_usage`: the frames and the tokens of an owner. -/
def xtokOwnerUsage (owner : OwnerId) (s : Xeret) : UInt64 × UInt32 :=
  (UInt64.ofNat ((ownerSlots owner s.ledger).map fun k => (s.ledger.table k).nFrames).sum,
    UInt32.ofNat (ownerSlots owner s.ledger).length)

/-- Why a token cannot be mapped. -/
inductive MapError where
  | stale
  | owner
  | rights
  | kind
  | busy
  deriving DecidableEq

/-- The ledger with the map count of slot `k` set to `c`. -/
def setMapCount (k c : ℕ) (L : Ledger) : Ledger :=
  { L with table := update L.table k { L.table k with mapCount := c } }

/-- `xtok_map_acquire`: pin a token; the address and the number of its frames. -/
def xtokMapAcquire (tok : XToken) (caller : OwnerId) (need : UInt32) (s : Xeret) :
    Except MapError (ℕ × ℕ) × Xeret :=
  match lookupLive s.ledger tok with
  | none => (.error .stale, s)
  | some k =>
    let e := s.ledger.table k
    if e.kind ≠ .ram then (.error .kind, s)
    else if e.ownerId ≠ caller then (.error .owner, s)
    else if e.rights &&& need ≠ need then (.error .rights, s)
    else if e.mapCount = 0xFFFF then (.error .busy, s)
    else (.ok (e.phys, e.nFrames), { s with ledger := setMapCount k (e.mapCount + 1) s.ledger })

/-- `xtok_map_release` -/
def xtokMapRelease (tok : XToken) (s : Xeret) : Xeret :=
  match lookupLive s.ledger tok with
  | none => s
  | some k =>
    if 0 < (s.ledger.table k).mapCount then
      { s with ledger := setMapCount k ((s.ledger.table k).mapCount - 1) s.ledger }
    else s

/-! ## Tokens and slots -/

/-- `tok` is the live token of slot `k`. -/
structure Held (L : Ledger) (tok : XToken) (k : ℕ) : Prop where
  slot_lt : k < tableSlots
  live : (L.table k).live = true
  tok_eq : tok = packToken k (L.table k).generation

/-- Generations are 32-bit numbers and never 0. -/
def GensOk (L : Ledger) : Prop := ∀ k, 0 < (L.table k).generation ∧ (L.table k).generation < 2 ^ 32

section Tokens

variable {L : Ledger} {tok : XToken} {k slot gen : ℕ}

theorem toNat_packToken (hs : slot < 2 ^ 32) (hg : gen < 2 ^ 32) :
    (packToken slot gen).toNat = slot * 2 ^ 32 + gen := by
  rw [packToken, ← Nat.shiftLeft_add_eq_or_of_lt hg, Nat.shiftLeft_eq, UInt64.toNat_ofNat']
  exact Nat.mod_eq_of_lt (by omega)

theorem tokenSlot_packToken (hs : slot < 2 ^ 32) (hg : gen < 2 ^ 32) :
    tokenSlot (packToken slot gen) = slot := by
  rw [tokenSlot, toNat_packToken hs hg, Nat.shiftRight_eq_div_pow]
  omega

theorem tokenGen_eq (tok : XToken) : tokenGen tok = tok.toNat % 2 ^ 32 :=
  Nat.and_two_pow_sub_one_eq_mod tok.toNat 32

theorem tokenGen_packToken (hs : slot < 2 ^ 32) (hg : gen < 2 ^ 32) :
    tokenGen (packToken slot gen) = gen := by
  rw [tokenGen_eq, toNat_packToken hs hg]
  omega

theorem packToken_tokenSlot (tok : XToken) : packToken (tokenSlot tok) (tokenGen tok) = tok := by
  have hlt : tok.toNat < 2 ^ 64 := tok.toNat_lt
  have hs : tokenSlot tok < 2 ^ 32 := by
    rw [tokenSlot, Nat.shiftRight_eq_div_pow]
    omega
  have hg : tokenGen tok < 2 ^ 32 := by
    rw [tokenGen_eq]
    exact Nat.mod_lt _ (by decide)
  apply UInt64.toNat_inj.mp
  rw [toNat_packToken hs hg, tokenGen_eq, tokenSlot, Nat.shiftRight_eq_div_pow]
  omega

theorem packToken_ne_invalid (hs : slot < 2 ^ 32) (hg : gen < 2 ^ 32) (h0 : 0 < gen) :
    packToken slot gen ≠ tokenInvalid := by
  intro h
  have hnat := congrArg UInt64.toNat h
  rw [toNat_packToken hs hg] at hnat
  have hz : tokenInvalid.toNat = 0 := rfl
  omega

/-- **A lookup finds the slot the token is live in.** -/
theorem lookupLive_eq_some_iff (hgens : GensOk L) : lookupLive L tok = some k ↔ Held L tok k := by
  constructor
  · intro h
    unfold lookupLive at h
    split_ifs at h with h1 h2 h3 h4
    obtain rfl := Option.some.inj h
    refine ⟨by omega, by simpa using h3, ?_⟩
    rw [not_not.mp h4, packToken_tokenSlot]
  · rintro ⟨hlt, hlive, rfl⟩
    obtain ⟨h0, hg⟩ := hgens k
    have hs : k < 2 ^ 32 := by
      rw [tableSlots] at hlt
      omega
    rw [lookupLive, if_neg (packToken_ne_invalid hs hg h0), tokenSlot_packToken hs hg,
      tokenGen_packToken hs hg, if_neg (by omega), if_neg (by simp [hlive]), if_neg (by simp)]

theorem lookupLive_eq_none_iff (hgens : GensOk L) :
    lookupLive L tok = none ↔ ∀ k, ¬ Held L tok k := by
  constructor
  · intro h k hk
    rw [(lookupLive_eq_some_iff hgens).mpr hk] at h
    exact absurd h (by simp)
  · intro h
    cases hl : lookupLive L tok with
    | none => rfl
    | some k => exact absurd ((lookupLive_eq_some_iff hgens).mp hl) (h k)

/-- A token is live in one slot at most. -/
theorem Held.slot_unique (hgens : GensOk L) {k' : ℕ} (h : Held L tok k) (h' : Held L tok k') :
    k = k' := by
  have h1 := (lookupLive_eq_some_iff hgens).mpr h
  rw [(lookupLive_eq_some_iff hgens).mpr h'] at h1
  exact (Option.some.inj h1).symm

/-- A free slot is a slot that is not live. -/
theorem freeSlot_spec {k : ℕ} (h : freeSlot L = some k) :
    k < tableSlots ∧ (L.table k).live = false := by
  obtain ⟨i, hi, rfl⟩ := Option.map_eq_some_iff.mp h
  refine ⟨Nat.mod_lt _ (by decide), ?_⟩
  have hfound := List.find?_some hi
  simpa using hfound

end Tokens

/-! ## Changes of one slot -/

section Slots

variable {L : Ledger} {tok : XToken} {j k : ℕ} {owner : OwnerId} {rights : UInt32}

theorem GensOk.sealSlot (h : GensOk L) (phys n : ℕ) :
    GensOk (sealSlot k owner phys n rights L) := by
  intro j
  by_cases hj : j = k
  · simpa [Kernel.sealSlot, sealed, hj] using h k
  · simpa [Kernel.sealSlot, hj] using h j

theorem GensOk.retireSlot (h : GensOk L) : GensOk (retireSlot k L) := by
  intro j
  by_cases hj : j = k
  · simp only [Kernel.retireSlot, hj, update_self, retired]
    have hlt : ((L.table k).generation + 1) % 2 ^ 32 < 2 ^ 32 := Nat.mod_lt _ (by decide)
    split <;> omega
  · simpa [Kernel.retireSlot, hj] using h j

theorem GensOk.setMapCount (h : GensOk L) (c : ℕ) : GensOk (setMapCount k c L) := by
  intro j
  by_cases hj : j = k
  · simpa [Kernel.setMapCount, hj] using h k
  · simpa [Kernel.setMapCount, hj] using h j

/-- The tokens that are live after a token is made. -/
theorem held_sealSlot {phys n : ℕ} (hk : k < tableSlots) (hfree : (L.table k).live = false) :
    Held (sealSlot k owner phys n rights L) tok j ↔
      Held L tok j ∨ j = k ∧ tok = packToken k (L.table k).generation := by
  by_cases hj : j = k
  · subst hj
    constructor
    · rintro ⟨_, _, htok⟩
      simp only [sealSlot, update_self, sealed] at htok
      exact Or.inr ⟨rfl, htok⟩
    · rintro (⟨_, hlive, _⟩ | ⟨_, rfl⟩)
      · rw [hfree] at hlive
        exact absurd hlive (by simp)
      · exact ⟨hk, by simp [sealSlot, sealed], by simp [sealSlot, sealed]⟩
  · have htab : (sealSlot k owner phys n rights L).table j = L.table j := by simp [sealSlot, hj]
    constructor
    · rintro ⟨h1, h2, h3⟩
      rw [htab] at h2 h3
      exact Or.inl ⟨h1, h2, h3⟩
    · rintro (⟨h1, h2, h3⟩ | ⟨h1, _⟩)
      · exact ⟨h1, by rw [htab]; exact h2, by rw [htab]; exact h3⟩
      · exact absurd h1 hj

/-- The tokens that are live after a release. -/
theorem held_retireSlot : Held (retireSlot k L) tok j ↔ Held L tok j ∧ j ≠ k := by
  by_cases hj : j = k
  · subst hj
    constructor
    · rintro ⟨_, hlive, _⟩
      simp [retireSlot, retired] at hlive
    · rintro ⟨_, hne⟩
      exact absurd rfl hne
  · have htab : (retireSlot k L).table j = L.table j := by simp [retireSlot, hj]
    constructor
    · rintro ⟨h1, h2, h3⟩
      rw [htab] at h2 h3
      exact ⟨⟨h1, h2, h3⟩, hj⟩
    · rintro ⟨⟨h1, h2, h3⟩, _⟩
      exact ⟨h1, by rw [htab]; exact h2, by rw [htab]; exact h3⟩

/-- Map counts have no part in what is live. -/
theorem held_setMapCount {c : ℕ} : Held (setMapCount k c L) tok j ↔ Held L tok j := by
  have hlive : ((setMapCount k c L).table j).live = (L.table j).live := by
    by_cases hj : j = k <;> simp [setMapCount, hj]
  have hgen : ((setMapCount k c L).table j).generation = (L.table j).generation := by
    by_cases hj : j = k <;> simp [setMapCount, hj]
  constructor
  · rintro ⟨h1, h2, h3⟩
    exact ⟨h1, hlive ▸ h2, hgen ▸ h3⟩
  · rintro ⟨h1, h2, h3⟩
    exact ⟨h1, hlive.symm ▸ h2, hgen.symm ▸ h3⟩

/-- `seal_ram_locked` makes a token in a slot that is not live, or changes nothing. -/
theorem sealRam_spec (owner : OwnerId) (phys n : ℕ) (rights : UInt32) (L : Ledger) :
    sealRam owner phys n rights L = (tokenInvalid, L) ∨
      ∃ k < tableSlots, (L.table k).live = false ∧ phys ≠ 0 ∧ n ≠ 0 ∧
        sealRam owner phys n rights L = (packToken k (L.table k).generation,
          sealSlot k owner phys n rights L) := by
  unfold sealRam
  by_cases h0 : phys = 0 ∨ n = 0
  · exact Or.inl (if_pos h0)
  rw [if_neg h0]
  rw [not_or] at h0
  cases hs : freeSlot L with
  | none => exact Or.inl rfl
  | some k =>
    obtain ⟨h1, h2⟩ := freeSlot_spec hs
    exact Or.inr ⟨k, h1, h2, h0.1, h0.2, rfl⟩

end Slots

end Xasmos.Kernel
