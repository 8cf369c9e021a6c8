import Xasmos.Exfs.Superblock
import Xasmos.Lib.Rolling

/-!
# What a superblock page carries

The format's rules for a superblock are `FieldRules`.  `sb_encode` accepts exactly the
fields that keep them, its page decodes to the fields it was made from, and a page that
decodes at all keeps them (`superblock_round_trip`).

The FNV-1a step is a bijection of the 64-bit state for every byte, and injective in the
byte for every state.  So a page `sb_decode` accepts is accepted no more once any one of
its 4096 bytes is changed (`sbDecode_corrupt`): a byte before the checksum changes the
sum, and a byte of the checksum changes what the sum is compared with.
-/

namespace Xasmos.Exfs

open Bytes

/-! ## The field rules -/

/-- The rules the format has for a superblock. -/
structure FieldRules (f : SbFields) : Prop where
  groups : 1 ≤ f.ngroups ∧ f.ngroups ≤ 512
  area : f.itab = if f.gen % 2 = 1 then itabArea1 else itabArea0
  table : f.nitab = itabBlocks
  inodes : f.ninodes = Exfs.inodes
  total : dataStart + 16 ≤ f.total ∧ f.total ≤ maxBlocks
  slot : ∀ g < f.ngroups, f.slot g = 0 ∨ f.slot g = 1
  beyond : ∀ g, f.ngroups ≤ g → g < 512 → f.slot g = 0 ∧ f.free g = 0

theorem fieldsOk_iff_rules (f : SbFields) : fieldsOk f = true ↔ FieldRules f := by
  rw [fieldsOk_iff]
  constructor
  · rintro ⟨hn, hni, hin, htot, hit, hslot, hhigh⟩
    have hslot' : ∀ g < f.ngroups, f.slot g = 0 ∨ f.slot g = 1 := by
      intro g hg
      have := hslot g hg
      omega
    exact ⟨⟨by omega, hn.2⟩, hit, hni, hin, htot, hslot', hhigh⟩
  · intro h
    have hslot' : ∀ g < f.ngroups, f.slot g ≤ 1 := by
      intro g hg
      have := h.slot g hg
      omega
    exact ⟨⟨by have := h.groups; omega, h.groups.2⟩, h.table, h.inodes, h.total, h.area, hslot',
      h.beyond⟩

theorem exists_sbEncode_iff (f : SbFields) : (∃ p, sbEncode f = .ok p) ↔ FieldRules f := by
  rw [← fieldsOk_iff_rules, sbEncode]
  split <;> simp_all

/-- **The superblock round trip**: `sb_encode` accepts the fields that keep the rules and no
others, its page decodes to those fields, and a page that decodes keeps the rules. -/
theorem superblock_round_trip :
    (∀ f : SbFields, f.Typed → ((∃ p, sbEncode f = .ok p) ↔ FieldRules f) ∧
      ∀ p, sbEncode f = .ok p → sbDecode p = .ok f) ∧
    ∀ p f, sbDecode p = .ok f → FieldRules f := by
  constructor
  · intro f ht
    exact ⟨exists_sbEncode_iff f, fun p hp => sbDecode_of_encode ht hp⟩
  · intro p f hp
    exact (fieldsOk_iff_rules f).mp (sbDecode_ok hp).1

/-- The superblock of a small volume: two groups, the second one in its odd slot. -/
def smallFields : SbFields where
  gen := 2 ^ 64 - 1
  itab := itabArea1
  nitab := itabBlocks
  ninodes := inodes
  total := 32769
  ngroups := 2
  slot g := if g = 1 then 1 else 0
  free g := if g = 0 then 7 else 0

theorem smallFields_typed : smallFields.Typed where
  gen := by decide
  slot g := by simp only [smallFields]; split <;> decide
  free g := by simp only [smallFields]; split <;> decide
  slot_high g hg := by
    simp only [maxGroups] at hg
    exact if_neg (by omega)
  free_high g hg := by
    simp only [maxGroups] at hg
    exact if_neg (by omega)

theorem smallFields_rules : FieldRules smallFields where
  groups := by decide
  area := by decide
  table := rfl
  inodes := rfl
  total := by decide
  slot g _ := by simp only [smallFields]; split <;> simp
  beyond g hg _ := by
    have h2 : 2 ≤ g := hg
    exact ⟨if_neg (by omega), if_neg (by omega)⟩

/-- The small volume's superblock goes through a page and back. -/
theorem superblock_round_trip_small :
    smallFields.Typed ∧ ∃ p, sbEncode smallFields = .ok p ∧ sbDecode p = .ok smallFields := by
  have h := superblock_round_trip.1 smallFields smallFields_typed
  obtain ⟨p, hp⟩ := h.1.mpr smallFields_rules
  exact ⟨smallFields_typed, p, hp, h.2 p hp⟩

/-! ## Corruption -/

theorem fnv64_eq_roll (p : Bytes) (n : ℕ) :
    fnv64 p n = roll (fun (h : ℕ) (b : UInt8) => (h ^^^ b.toNat) * 1099511628211 % 2 ^ 64)
      14695981039346656037 p n := rfl

/-- One changed byte changes the checksum. -/
theorem fnv64_ne {p q : Bytes} {n k : ℕ} (hk : k < n) (hne : p k ≠ q k)
    (heq : ∀ i < n, i ≠ k → p i = q i) : fnv64 p n ≠ fnv64 q n := by
  have hcop : Nat.Coprime (2 ^ 64) 1099511628211 := Nat.Coprime.pow_left 64 (by decide)
  have hroll := rolling_xorMul (by decide) hcop
  rw [fnv64_eq_roll, fnv64_eq_roll]
  exact hroll.roll_ne (by change 14695981039346656037 < 2 ^ 64; omega) hk hne heq

/-- An accepted page holds the checksum of the bytes before it. -/
theorem sbDecode_checksum {p : Bytes} {f : SbFields} (h : sbDecode p = .ok f) :
    getLE 8 p sbCheckOff = fnv64 p sbCheckOff := by
  by_contra hne
  rw [sbDecode, if_pos hne] at h
  split at h
  · cases h
  · split at h <;> cases h

/-- **A superblock with one byte changed is not accepted.** -/
theorem sbDecode_corrupt {p q : Bytes} {f : SbFields} {k : ℕ} (hp : sbDecode p = .ok f)
    (hk : k < 4096) (hne : q k ≠ p k) (heq : ∀ i < 4096, i ≠ k → q i = p i) (f' : SbFields) :
    sbDecode q ≠ .ok f' := by
  intro hq
  have hsum := sbDecode_checksum hp
  have hsum' := sbDecode_checksum hq
  by_cases hlow : k < sbCheckOff
  · -- the stored sums agree, the computed ones do not
    have hstored : getLE 8 q sbCheckOff = getLE 8 p sbCheckOff := by
      apply getLE_congr
      intro i hi
      simp only [sbCheckOff] at hlow ⊢
      exact heq _ (by omega) (by omega)
    apply fnv64_ne hlow hne
    · intro i hi
      exact heq i (by simp only [sbCheckOff] at hi; omega)
    · rw [← hsum', hstored, hsum]
  · have hcomputed : fnv64 q sbCheckOff = fnv64 p sbCheckOff := by
      apply fnv64_congr
      intro i hi
      simp only [sbCheckOff] at hlow hi
      exact heq i (by omega) (by omega)
    have hbytes := getLE_inj (hsum'.trans (hcomputed.trans hsum.symm))
    simp only [sbCheckOff] at hlow hbytes
    apply hne
    rw [show k = 4088 + (k - 4088) by omega]
    exact hbytes (k - 4088) (by omega)

/-- The page of the small volume's superblock is refused once the low byte of its checksum is
changed. -/
theorem sbDecode_corrupt_small : ∃ p, sbDecode p = .ok smallFields ∧
    ∀ f', sbDecode (Function.update p 4088 (p 4088 + 1)) ≠ .ok f' := by
  obtain ⟨p, hp⟩ := (exists_sbEncode_iff smallFields).mpr smallFields_rules
  have hdec := sbDecode_of_encode smallFields_typed hp
  refine ⟨p, hdec, sbDecode_corrupt hdec (k := 4088) (by decide) ?_ ?_⟩
  · rw [Function.update_self]
    intro h
    have hnat := congrArg UInt8.toNat h
    rw [UInt8.toNat_add] at hnat
    have hlt := (p 4088).toNat_lt
    simp at hnat
    omega
  · intro i _ hi
    exact Function.update_of_ne hi _ _

end Xasmos.Exfs
