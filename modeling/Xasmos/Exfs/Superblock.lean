import Xasmos.Exfs.Device
import Mathlib.Data.List.Basic

/-!
# The superblock

`sb.c`: one 4 KiB page with the generation, the place of the inode table, and the
committed map slot and free count of every group.  The checksum is FNV-1a over the
4088 bytes before it.

`sbDecode_of_encode` is the round trip the mount relies on: a page `sbEncode` made
decodes to the fields it was made from.
-/

namespace Xasmos.Exfs

open Bytes

variable {g i j n o : ℕ} {p q : Bytes}

/-! ## Layout constants -/

/-- `EXFS_MAX_BLOCKS`. -/
def maxBlocks : ℕ := 2 ^ 24
/-- `EXFS_INODES`. -/
def inodes : ℕ := 128
/-- `EXFS_ITAB_BLOCKS`. -/
def itabBlocks : ℕ := 8
/-- `EXFS_ITAB_AREA0`. -/
def itabArea0 : ℕ := 2
/-- `EXFS_ITAB_AREA1`. -/
def itabArea1 : ℕ := itabArea0 + itabBlocks
/-- `EXFS_DATA_START`. -/
def dataStart : ℕ := itabArea1 + itabBlocks
/-- `GMAP_MAX_GROUPS`, which is `SB_MAX_GROUPS`. -/
def maxGroups : ℕ := 512
/-- `SB_VERSION`. -/
def sbVersion : ℕ := 3
/-- `SB_CHECK_OFF`. -/
def sbCheckOff : ℕ := 4088

/-- `itab_area`: even generations use area 0, odd ones area 1. -/
def itabArea (gen : ℕ) : ℕ := if gen % 2 = 1 then itabArea1 else itabArea0

/-- `SB_EBAD`, `SB_ECHECK` and `SB_EFIELD`. -/
inductive SbError where
  | bad | check | field
  deriving DecidableEq, Repr

/-- `SbFields`. -/
structure SbFields where
  gen : ℕ
  itab : ℕ
  nitab : ℕ
  ninodes : ℕ
  total : ℕ
  ngroups : ℕ
  slot : ℕ → ℕ
  free : ℕ → ℕ

variable {f : SbFields}

/-- The eight bytes of `MAGIC`. -/
def magic : List UInt8 := [0x58, 0x41, 0x53, 0x4D, 0x46, 0x53, 0x32, 0]

/-- `fnv64` of the first `n` bytes. -/
def fnv64 (p : Bytes) (n : ℕ) : ℕ :=
  (List.range n).foldl (fun h i => (h ^^^ (p i).toNat) * 1099511628211 % 2 ^ 64)
    14695981039346656037

/-- `fields_ok`. -/
def fieldsOk (f : SbFields) : Bool :=
  decide (f.ngroups ≠ 0 ∧ f.ngroups ≤ maxGroups) &&
  decide (f.itab = itabArea0 ∨ f.itab = itabArea1) &&
  decide (f.nitab = itabBlocks) &&
  decide (f.ninodes = inodes) &&
  decide (dataStart + 16 ≤ f.total ∧ f.total ≤ maxBlocks) &&
  decide (f.itab = itabArea f.gen) &&
  (List.range maxGroups).all fun g =>
    if g < f.ngroups then decide (f.slot g ≤ 1) else decide (f.slot g = 0 ∧ f.free g = 0)

/-- The loop of `sb_encode` over the first `k` groups. -/
def putTables (f : SbFields) : ℕ → Bytes → Bytes
  | 0, p => p
  | g + 1, p =>
    putLE 4 (Function.update (putTables f g p) (64 + g) (UInt8.ofNat (f.slot g)))
      (576 + g * 4) (f.free g)

/-- The first 64 bytes of the page of `sb_encode`. -/
def sbHeader (f : SbFields) : Bytes :=
  let p : Bytes := fun i => magic.getD i 0
  let p := putLE 4 p 8 sbVersion
  let p := putLE 8 p 16 f.gen
  let p := putLE 8 p 24 f.itab
  let p := putLE 4 p 32 f.nitab
  let p := putLE 4 p 36 f.ninodes
  let p := putLE 8 p 40 f.total
  putLE 4 p 48 f.ngroups

/-- The page of `sb_encode` before its checksum. -/
def sbBody (f : SbFields) : Bytes := putTables f maxGroups (sbHeader f)

/-- `sb_encode`. -/
def sbEncode (f : SbFields) : Except SbError Bytes :=
  if fieldsOk f then .ok (putLE 8 (sbBody f) sbCheckOff (fnv64 (sbBody f) sbCheckOff))
  else .error .field

/-- The fields of a page, unchecked. -/
def sbFields (p : Bytes) : SbFields where
  gen := getLE 8 p 16
  itab := getLE 8 p 24
  nitab := getLE 4 p 32
  ninodes := getLE 4 p 36
  total := getLE 8 p 40
  ngroups := getLE 4 p 48
  slot g := if g < maxGroups then (p (64 + g)).toNat else 0
  free g := if g < maxGroups then getLE 4 p (576 + g * 4) else 0

/-- `sb_decode`. -/
def sbDecode (p : Bytes) : Except SbError SbFields :=
  if (List.range 8).any fun i => p i != magic.getD i 0 then .error .bad
  else if getLE 4 p 8 ≠ sbVersion then .error .bad
  else if getLE 8 p sbCheckOff ≠ fnv64 p sbCheckOff then .error .check
  else if fieldsOk (sbFields p) then .ok (sbFields p)
  else .error .field

/-! ## Round trip -/

/-- The fields fit the widths the source gives them. -/
structure SbFields.Typed (f : SbFields) : Prop where
  gen : f.gen < 2 ^ 64
  slot : ∀ g, f.slot g < 2 ^ 8
  free : ∀ g, f.free g < 2 ^ 32
  slot_high : ∀ g, maxGroups ≤ g → f.slot g = 0
  free_high : ∀ g, maxGroups ≤ g → f.free g = 0

theorem fieldsOk_iff (f : SbFields) :
    fieldsOk f = true ↔ (f.ngroups ≠ 0 ∧ f.ngroups ≤ maxGroups) ∧ f.nitab = itabBlocks ∧
      f.ninodes = inodes ∧ (dataStart + 16 ≤ f.total ∧ f.total ≤ maxBlocks) ∧
      f.itab = itabArea f.gen ∧ (∀ g < f.ngroups, f.slot g ≤ 1) ∧
      ∀ g, f.ngroups ≤ g → g < maxGroups → f.slot g = 0 ∧ f.free g = 0 := by
  have harea : f.itab = itabArea f.gen → f.itab = itabArea0 ∨ f.itab = itabArea1 := by
    intro h
    rw [h, itabArea]
    split
    · exact Or.inr rfl
    · exact Or.inl rfl
  simp only [fieldsOk, Bool.and_eq_true, decide_eq_true_eq, List.all_eq_true, List.mem_range]
  constructor
  · intro h
    obtain ⟨⟨⟨⟨⟨⟨hn, _⟩, hni⟩, hin⟩, htot⟩, harea⟩, htab⟩ := h
    refine ⟨hn, hni, hin, htot, harea, fun g hg => ?_, fun g hg hlt => ?_⟩
    · have := htab g (by omega)
      rwa [if_pos hg, decide_eq_true_eq] at this
    · have := htab g hlt
      rwa [if_neg (by omega), decide_eq_true_eq] at this
  · intro h
    obtain ⟨hn, hni, hin, htot, hit, hslot, hhigh⟩ := h
    refine ⟨⟨⟨⟨⟨⟨hn, harea hit⟩, hni⟩, hin⟩, htot⟩, hit⟩, fun g hg => ?_⟩
    by_cases hlt : g < f.ngroups
    · rw [if_pos hlt]
      exact decide_eq_true (hslot g hlt)
    · rw [if_neg hlt]
      exact decide_eq_true (hhigh g (by omega) hg)

/-- A page that decodes has checked fields. -/
theorem sbDecode_ok (h : sbDecode p = .ok f) : fieldsOk f = true ∧ f = sbFields p := by
  unfold sbDecode at h
  split at h
  · exact absurd h (by simp)
  · split at h
    · exact absurd h (by simp)
    · split at h
      · exact absurd h (by simp)
      · split at h
        · rw [← Except.ok.inj h]
          exact ⟨by assumption, rfl⟩
        · exact absurd h (by simp)

/-- The table loop writes only the two tables. -/
theorem putTables_of_notMem (f : SbFields) (k : ℕ) (p : Bytes) (hk : k ≤ maxGroups)
    (hj : j < 64 ∨ 2624 ≤ j) : putTables f k p j = p j := by
  induction k with
  | zero => rfl
  | succ k ih =>
    simp only [maxGroups] at hk
    rw [putTables, putLE_of_notMem (by omega), Function.update_of_ne (by omega),
      ih (by simp only [maxGroups]; omega)]

theorem putTables_slot (f : SbFields) (k : ℕ) (p : Bytes) (hk : k ≤ maxGroups) (hg : g < k) :
    putTables f k p (64 + g) = UInt8.ofNat (f.slot g) := by
  induction k with
  | zero => omega
  | succ k ih =>
    simp only [maxGroups] at hk
    rw [putTables, putLE_of_notMem (by omega)]
    by_cases h : g = k
    · rw [h, Function.update_self]
    · rw [Function.update_of_ne (by omega), ih (by simp only [maxGroups]; omega) (by omega)]

theorem putTables_free (f : SbFields) (k : ℕ) (p : Bytes) (hk : k ≤ maxGroups) (hg : g < k) :
    getLE 4 (putTables f k p) (576 + g * 4) = f.free g % 2 ^ 32 := by
  induction k with
  | zero => omega
  | succ k ih =>
    simp only [maxGroups] at hk
    by_cases h : g = k
    · rw [h, putTables, getLE_putLE]
      norm_num
    · have hslot : getLE 4 (Function.update (putTables f k p) (64 + k) (UInt8.ofNat (f.slot k)))
          (576 + g * 4) = getLE 4 (putTables f k p) (576 + g * 4) := by
        apply getLE_congr
        intro i hi
        rw [Function.update_of_ne (by omega)]
      rw [putTables, getLE_putLE_disjoint (by omega), hslot,
        ih (by simp only [maxGroups]; omega) (by omega)]

/-- The checksum looks at the bytes before it only. -/
theorem fnv64_congr (h : ∀ i < n, p i = q i) : fnv64 p n = fnv64 q n := by
  unfold fnv64
  apply List.foldl_ext
  intro a i hi
  rw [h i (List.mem_range.mp hi)]

/-- A header field of an encoded page is the header's own. -/
theorem getLE_sbBody (h : o + n ≤ 64) : getLE n (sbBody f) o = getLE n (sbHeader f) o := by
  apply getLE_congr
  intro i hi
  exact putTables_of_notMem f maxGroups _ le_rfl (by omega)

/-- The encoded fields are those of the record. -/
theorem sbFields_sbBody (ht : f.Typed) (hok : fieldsOk f = true) : sbFields (sbBody f) = f := by
  obtain ⟨⟨_, hn⟩, hni, hin, ⟨_, htot⟩, hit, _, _⟩ := (fieldsOk_iff f).mp hok
  have hitab : f.itab < 2 ^ 64 := by
    rw [hit, itabArea]
    split <;> decide
  have hgen := ht.gen
  simp only [maxGroups, maxBlocks, itabBlocks, inodes] at hn hni hin htot
  have hslot : (sbFields (sbBody f)).slot = f.slot := by
    funext g
    have h8 := ht.slot g
    by_cases hg : g < maxGroups
    · simp only [sbFields, if_pos hg]
      rw [sbBody, putTables_slot f maxGroups _ le_rfl hg, UInt8.toNat_ofNat']
      exact Nat.mod_eq_of_lt h8
    · simp only [sbFields, if_neg hg]
      exact (ht.slot_high g (by omega)).symm
  have hfree : (sbFields (sbBody f)).free = f.free := by
    funext g
    by_cases hg : g < maxGroups
    · simp only [sbFields, if_pos hg]
      rw [sbBody, putTables_free f maxGroups _ le_rfl hg]
      exact Nat.mod_eq_of_lt (ht.free g)
    · simp only [sbFields, if_neg hg]
      exact (ht.free_high g (by omega)).symm
  have hheader : getLE 8 (sbBody f) 16 = f.gen ∧ getLE 8 (sbBody f) 24 = f.itab ∧
    getLE 4 (sbBody f) 32 = f.nitab ∧
      getLE 4 (sbBody f) 36 = f.ninodes ∧ getLE 8 (sbBody f) 40 = f.total ∧
        getLE 4 (sbBody f) 48 = f.ngroups := by
    refine ⟨?_, ?_, ?_, ?_, ?_, ?_⟩ <;> rw [getLE_sbBody (by omega), sbHeader] <;>
      simp (disch := omega) only [getLE_putLE_disjoint, getLE_putLE_of_lt]
  obtain ⟨h1, h2, h3, h4, h5, h6⟩ := hheader
  cases f
  simp only [sbFields, SbFields.mk.injEq] at hslot hfree ⊢
  exact ⟨h1, h2, h3, h4, h5, h6, hslot, hfree⟩

/-- The header's magic and version are in place. -/
theorem sbBody_magic (f : SbFields) (hi : i < 8) : sbBody f i = magic.getD i 0 := by
  rw [sbBody, putTables_of_notMem f maxGroups _ le_rfl (by omega), sbHeader]
  repeat rw [putLE_of_notMem (by omega)]

theorem sbBody_version (f : SbFields) : getLE 4 (sbBody f) 8 = sbVersion := by
  rw [getLE_sbBody (by omega), sbHeader]
  simp (disch := omega) only [getLE_putLE_disjoint]
  exact getLE_putLE_of_lt _ _ (by decide)

theorem fnv64_lt (p : Bytes) (n : ℕ) : fnv64 p n < 2 ^ 64 := by
  cases n with
  | zero => simp only [fnv64, List.range_zero, List.foldl_nil]; omega
  | succ n =>
    rw [fnv64, List.range_succ, List.foldl_append, List.foldl_cons, List.foldl_nil]
    exact Nat.mod_lt _ (by decide)

/-- **A page `sbEncode` made decodes to its fields.** -/
theorem sbDecode_of_encode (ht : f.Typed) (h : sbEncode f = .ok p) : sbDecode p = .ok f := by
  have hok : fieldsOk f = true := by
    by_contra hno
    rw [sbEncode, if_neg hno] at h
    exact absurd h (by simp)
  rw [sbEncode, if_pos hok] at h
  obtain rfl := Except.ok.inj h
  -- the checksum is written past every byte the other fields and itself cover
  have hlow : ∀ i < sbCheckOff,
      putLE 8 (sbBody f) sbCheckOff (fnv64 (sbBody f) sbCheckOff) i = sbBody f i :=
    fun i hi => putLE_of_notMem (Or.inl hi)
  have hget : ∀ n o, o + n ≤ 4088 →
      getLE n (putLE 8 (sbBody f) sbCheckOff (fnv64 (sbBody f) sbCheckOff)) o =
        getLE n (sbBody f) o := fun n o hno => getLE_putLE_disjoint (Or.inl hno)
  have hsum := getLE_putLE_of_lt (n := 8) (sbBody f) sbCheckOff
    (v := fnv64 (sbBody f) sbCheckOff) (fnv64_lt _ _)
  have hfields : sbFields (putLE 8 (sbBody f) sbCheckOff (fnv64 (sbBody f) sbCheckOff)) = f := by
    refine Eq.trans ?_ (sbFields_sbBody ht hok)
    simp only [sbFields, SbFields.mk.injEq]
    refine ⟨hget 8 16 (by omega), hget 8 24 (by omega), hget 4 32 (by omega),
      hget 4 36 (by omega), hget 8 40 (by omega), hget 4 48 (by omega), ?_, ?_⟩
    · funext g
      split
      · rename_i hg
        rw [hlow _ (by simp only [maxGroups] at hg; simp only [sbCheckOff]; omega)]
      · rfl
    · funext g
      split
      · rename_i hg
        exact hget 4 _ (by simp only [maxGroups] at hg; omega)
      · rfl
  have hmagic : ((List.range 8).any fun i =>
      putLE 8 (sbBody f) sbCheckOff (fnv64 (sbBody f) sbCheckOff) i != magic.getD i 0) = false := by
    rw [List.any_eq_false]
    intro i hi
    have hi8 := List.mem_range.mp hi
    rw [hlow i (by simp only [sbCheckOff]; omega), sbBody_magic f hi8]
    simp
  rw [sbDecode, hmagic, hget 4 8 (by omega), sbBody_version, hsum,
    fnv64_congr (n := sbCheckOff) hlow, hfields, hok]
  simp

end Xasmos.Exfs
