import Xasmos.Exfs.GroupMapInv
import Xasmos.Lib.Sums

/-!
# What the map's operations do to the bitmap

One specification for each operation of `gmap.c`, over the bitmap `used`: a take sets
exactly a run of clear bits and fails only when no bit is clear, a release clears
exactly its run, a query changes nothing, and the flush, export and commit that end a
transaction change no bit either.
-/

namespace Xasmos.Exfs

open Bytes Prog

variable {E : GmapError → GSt → Prop} {Q : ℕ × ℕ → GSt → Prop}
  {b c fr g g0 hint i k len lo n need off0 start valid : ℕ} {bits p q : Bytes} {r : ℕ × ℕ}
  {s s' t : GSt}

/-! ## Counting clear bits -/

section Counting

theorem clearBits_congr (h : ∀ i < n, bitOf p i = bitOf q i) : clearBits p n = clearBits q n := by
  induction n with
  | zero => rfl
  | succ n ih =>
    have hrest := ih fun i hi => h i (by omega)
    unfold clearBits at hrest ⊢
    simp only [Nat.count_succ, hrest, h n (by omega)]

theorem clearBits_le (p : Bytes) (n : ℕ) : clearBits p n ≤ n := Nat.count_le _

/-- Setting a clear bit leaves one fewer. -/
theorem clearBits_set (hi : i < n) (hb : bitOf p i = false) :
    clearBits (bitPut p i true) n + 1 = clearBits p n := by
  induction n with
  | zero => omega
  | succ n ih =>
    by_cases hin : i = n
    · subst hin
      have hlow : clearBits (bitPut p i true) i = clearBits p i :=
        clearBits_congr fun j hj => bitOf_bitPut_of_ne p true (by omega)
      unfold clearBits at hlow ⊢
      simp [Nat.count_succ, hlow, hb]
    · have hrest := ih (by omega)
      have hn : bitOf (bitPut p i true) n = bitOf p n := bitOf_bitPut_of_ne p true (by omega)
      unfold clearBits at hrest ⊢
      simp only [Nat.count_succ, hn]
      omega

/-- Clearing a set bit leaves one more. -/
theorem clearBits_clear (hi : i < n) (hb : bitOf p i = true) :
    clearBits (bitPut p i false) n = clearBits p n + 1 := by
  have hset := clearBits_set (p := bitPut p i false) hi (bitOf_bitPut_self p i false)
  have hback : clearBits (bitPut (bitPut p i false) i true) n = clearBits p n := by
    apply clearBits_congr
    intro j _
    by_cases hj : j = i
    · rw [hj, bitOf_bitPut_self, hb]
    · rw [bitOf_bitPut_of_ne _ true hj, bitOf_bitPut_of_ne _ false hj]
  omega

/-- No clear bit is counted when every bit is set. -/
theorem clearBits_eq_zero_iff : clearBits p n = 0 ↔ ∀ i < n, bitOf p i = true := by
  induction n with
  | zero => simp [clearBits]
  | succ n ih =>
    have hsucc : clearBits p (n + 1) = clearBits p n + if bitOf p n = false then 1 else 0 :=
      Nat.count_succ _ _
    rw [hsucc]
    constructor
    · intro h i hi
      have h0 := ih.mp (by omega)
      by_cases hin : i = n
      · subst hin
        by_contra hb
        rw [if_pos (by simpa using hb)] at h
        omega
      · exact h0 i (by omega)
    · intro h
      rw [ih.mpr fun i hi => h i (by omega), if_neg (by simp [h n (by omega)])]

end Counting

/-! ## The two scans of a take -/

section Scans

theorem firstClear_spec (k : ℕ) (hk : k = valid - lo) (hlo : lo ≤ valid) :
    lo ≤ firstClear bits valid k lo ∧ firstClear bits valid k lo ≤ valid ∧
      (∀ i, lo ≤ i → i < firstClear bits valid k lo → bitOf bits i = true) ∧
      (firstClear bits valid k lo < valid → bitOf bits (firstClear bits valid k lo) = false) := by
  induction k generalizing lo with
  | zero =>
    refine ⟨le_rfl, hlo, fun i h1 h2 => ?_, fun h => ?_⟩
    · simp only [firstClear] at h2
      omega
    · simp only [firstClear] at h
      omega
  | succ k ih =>
    rw [firstClear]
    by_cases hc : lo < valid ∧ bitOf bits lo = true
    · rw [if_pos hc]
      obtain ⟨h1, h2, h3, h4⟩ := ih (show k = valid - (lo + 1) by omega) (by omega)
      refine ⟨by omega, h2, fun i hi hlt => ?_, h4⟩
      by_cases he : i = lo
      · rw [he]; exact hc.2
      · exact h3 i (by omega) hlt
    · rw [if_neg hc]
      refine ⟨le_rfl, hlo, fun i h1 h2 => by omega, fun hlt => ?_⟩
      by_contra hb
      exact hc ⟨hlt, by simpa using hb⟩

/-- A marked run: its bits were clear, they are set now, and nothing else changed. -/
structure RunMarked (bits : Bytes) (valid k i : ℕ) (bits' : Bytes) (j : ℕ) : Prop where
  le : i ≤ j
  le_add : j ≤ i + k
  le_valid : i ≤ valid → j ≤ valid
  was_clear : ∀ x, i ≤ x → x < j → bitOf bits x = false
  now_set : ∀ x, bitOf bits' x = (bitOf bits x || decide (i ≤ x ∧ x < j))
  count : i ≤ valid → clearBits bits' valid + (j - i) = clearBits bits valid

theorem markRun_spec (valid k i : ℕ) (bits : Bytes) :
    RunMarked bits valid k i (markRun valid k i bits).1 (markRun valid k i bits).2 := by
  induction k generalizing i bits with
  | zero =>
    refine ⟨le_rfl, le_rfl, id, fun x h1 h2 => ?_, fun x => ?_, fun _ => ?_⟩
    · simp only [markRun] at h2
      omega
    · have hno : ¬ (i ≤ x ∧ x < i) := by omega
      simp [markRun, hno]
    · simp [markRun]
  | succ k ih =>
    rw [markRun]
    by_cases hc : i < valid ∧ bitOf bits i = false
    · rw [if_pos hc]
      have h := ih (i + 1) (bitPut bits i true)
      obtain ⟨hle, hadd, hval, hclear, hbits, hcount⟩ := h
      refine ⟨by omega, by omega, fun _ => hval (by omega), fun x h1 h2 => ?_, fun x => ?_,
        fun _ => ?_⟩
      · by_cases hx : x = i
        · rw [hx]; exact hc.2
        · have := hclear x (by omega) h2
          rwa [bitOf_bitPut_of_ne bits true hx] at this
      · rw [hbits x, bitOf_bitPut]
        by_cases hx : x = i
        · subst hx
          have hin : x ≤ x ∧ x < (markRun valid k (x + 1) (bitPut bits x true)).2 := by omega
          simp [hin]
        · have hiff : (i + 1 ≤ x ∧ x < (markRun valid k (i + 1) (bitPut bits i true)).2) ↔
              (i ≤ x ∧ x < (markRun valid k (i + 1) (bitPut bits i true)).2) := by omega
          simp only [if_neg hx, hiff]
      · have h1 := hcount (by omega)
        have h2 := clearBits_set hc.1 hc.2
        omega
    · rw [if_neg hc]
      refine ⟨le_rfl, by omega, id, fun x h1 h2 => by omega, fun x => ?_, fun _ => ?_⟩
      · have hno : ¬ (i ≤ x ∧ x < i) := by omega
        simp [hno]
      · simp

theorem markRun_pos (hk : 0 < k) (hi : i < valid) (hb : bitOf bits i = false) :
    i < (markRun valid k i bits).2 := by
  cases k with
  | zero => omega
  | succ k =>
    rw [markRun, if_pos ⟨hi, hb⟩]
    have h := (markRun_spec valid k (i + 1) (bitPut bits i true)).le
    omega

/-- A run is as long as asked for, or ends where the bits or the clear ones end. -/
theorem markRun_stops (valid k i : ℕ) (bits : Bytes) :
    (markRun valid k i bits).2 = i + k ∨ valid ≤ (markRun valid k i bits).2 ∨
      bitOf bits (markRun valid k i bits).2 = true := by
  induction k generalizing i bits with
  | zero => exact Or.inl rfl
  | succ k ih =>
    rw [markRun]
    by_cases hc : i < valid ∧ bitOf bits i = false
    · rw [if_pos hc]
      have hle := (markRun_spec valid k (i + 1) (bitPut bits i true)).le
      have hne : (markRun valid k (i + 1) (bitPut bits i true)).2 ≠ i := by omega
      have h := ih (i + 1) (bitPut bits i true)
      rw [bitOf_bitPut_of_ne bits true hne] at h
      rcases h with h | h | h
      · exact Or.inl (by omega)
      · exact Or.inr (Or.inl h)
      · exact Or.inr (Or.inr h)
    · rw [if_neg hc]
      by_cases hi : i < valid
      · refine Or.inr (Or.inr ?_)
        by_contra hb
        exact hc ⟨hi, by simpa using hb⟩
      · exact Or.inr (Or.inl (by omega))

end Scans

/-! ## Changing the bits of a group -/

section Edit

/-- Entry `c` with new bits, and the free count of its group. -/
def edited (s : GSt) (c : ℕ) (bits : Bytes) (fr : ℕ) : GSt :=
  { s with map := { s.map with
      cache := Function.update s.map.cache c { s.map.cache c with bits := bits, dirty := true }
      free := Function.update s.map.free (s.map.cache c).g fr } }

theorem edited_entry (s : GSt) (c j : ℕ) (bits : Bytes) (fr : ℕ) :
    (((edited s c bits fr).map.cache j).valid = (s.map.cache j).valid ∧
      ((edited s c bits fr).map.cache j).g = (s.map.cache j).g) ∧
    ((edited s c bits fr).map.cache j).bits = (if j = c then bits else (s.map.cache j).bits) ∧
    ((edited s c bits fr).map.cache j).dirty = (if j = c then true else (s.map.cache j).dirty) := by
  by_cases h : j = c
  · subst h
    simp [edited]
  · simp [edited, h]

/-- An edit changes the bits of its own group only. -/
theorem curBits_edited (h : Coherent s) (hc : c < gmapCache) (hv : (s.map.cache c).valid = true)
    (g : ℕ) :
    curBits (edited s c bits fr) g = if g = (s.map.cache c).g then bits else curBits s g := by
  have hhit : cacheHit (edited s c bits fr).map g = cacheHit s.map g :=
    cacheHit_congr (fun j _ => (edited_entry s c j bits fr).1) g
  by_cases hg : g = (s.map.cache c).g
  · rw [if_pos hg, curBits, hhit, h.cacheHit_eq hc hv hg.symm]
    simp only [(edited_entry s c c bits fr).2.1, if_true]
  · rw [if_neg hg]
    unfold curBits
    rw [hhit]
    cases hh : cacheHit s.map g with
    | none => rfl
    | some j =>
      have hj : j ≠ c := fun he => hg (he ▸ (cacheHit_some hh).2.2).symm
      simp only [(edited_entry s c j bits fr).2.1, if_neg hj]

theorem Coherent.edited (h : Coherent s) (c : ℕ) (bits : Bytes) (fr : ℕ) :
    Coherent (edited s c bits fr) := by
  have hent := edited_entry s c
  refine h.of_entries rfl rfl rfl (fun j => (hent j _ _).1) fun j hj hvj hdj => ?_
  rw [(hent j _ _).2.2] at hdj
  by_cases hjc : j = c
  · simp [hjc] at hdj
  · rw [if_neg hjc] at hdj
    rw [(hent j _ _).2.1, if_neg hjc]
    exact h.clean j hj hvj hdj

theorem GInv.edited (h : GInv s) (hc : c < gmapCache) (hv : (s.map.cache c).valid = true)
    (h2 : slotBlock s.map (s.map.cache c).g 1 < s.map.total)
    (hfr : fr = clearBits bits (validBits s.map (s.map.cache c).g))
    (hres : ∀ i < reservedBits (s.map.cache c).g, bitOf bits i = true) :
    GInv (edited s c bits fr) := by
  have hent := edited_entry s c
  have hco := h.toCoherent.edited c bits fr
  refine ⟨h.toMapGeo.mapOk le_rfl rfl rfl rfl rfl hco ?_ ?_, ?_⟩
  · intro g hg hor
    rcases hor with h1 | h1 | h1
    · exact h.two_slots g hg (Or.inl h1)
    · exact h.two_slots g hg (Or.inr (Or.inl h1))
    · obtain ⟨j, hj, hvj, hdj, hgj⟩ := h1
      rw [(hent j _ _).1.1] at hvj
      rw [(hent j _ _).2.2] at hdj
      rw [(hent j _ _).1.2] at hgj
      by_cases hjc : j = c
      · rw [← hgj, hjc]
        exact h2
      · rw [if_neg hjc] at hdj
        exact h.two_slots g hg (Or.inr (Or.inr ⟨j, hj, hvj, hdj, hgj⟩))
  · intro g hg
    have hval : validBits (Exfs.edited s c bits fr).map g = validBits s.map g := rfl
    rw [curBits_edited h.toCoherent hc hv, hval]
    by_cases hgc : g = (s.map.cache c).g
    · rw [if_pos hgc, hgc, ← hfr]
      simp [Exfs.edited]
    · rw [if_neg hgc, ← h.free_eq g hg]
      simp [Exfs.edited, hgc]
  · intro g hg i hi
    rw [curBits_edited h.toCoherent hc hv]
    by_cases hgc : g = (s.map.cache c).g
    · rw [if_pos hgc]
      exact hres i (hgc ▸ hi)
    · rw [if_neg hgc]
      exact h.reserved g hg i hi

theorem moved_edited (s : GSt) (c : ℕ) (bits : Bytes) (fr : ℕ) : Moved s (edited s c bits fr) :=
  ⟨rfl, rfl, rfl, rfl, rfl, Disk.WroteOnly.refl _ _⟩

end Edit

/-! ## Blocks and groups -/

section Blocks

/-- A group that has a block beyond its reserved ones has both slots on the volume. -/
theorem two_slots_of_block (hi : i < validBits s.map g) (hres : reservedBits g ≤ i) :
    slotBlock s.map g 1 < s.map.total := by
  have hv : i < s.map.total - g * s.map.gb := by
    rw [validBits] at hi
    split at hi <;> omega
  by_cases h0 : g = 0
  · simp only [reservedBits, if_pos h0] at hres
    simp only [slotBlock, if_pos h0]
    omega
  · simp only [reservedBits, if_neg h0] at hres
    simp only [slotBlock, if_neg h0]
    omega

/-- Bit `i` of group `g` is block `g * gb + i`. -/
theorem MapGeo.block_of_bit (h : MapGeo s) (hi : i < validBits s.map g) :
    (g * s.map.gb + i) / s.map.gb = g ∧ (g * s.map.gb + i) % s.map.gb = i ∧
      g * s.map.gb + i < s.map.total := by
  have hpos := h.gb_pos
  have hlt : i < s.map.gb ∧ i < s.map.total - g * s.map.gb := by
    rw [validBits] at hi
    split at hi <;> omega
  refine ⟨?_, ?_, by omega⟩
  · rw [Nat.mul_comm, Nat.mul_add_div hpos, Nat.div_eq_of_lt hlt.1, Nat.add_zero]
  · rw [Nat.mul_comm, Nat.mul_add_mod, Nat.mod_eq_of_lt hlt.1]

theorem MapGeo.bit_of_block (h : MapGeo s) (hb : b < s.map.total) :
    b % s.map.gb < validBits s.map (b / s.map.gb) := by
  have hpos := h.gb_pos
  have hlt := Nat.mod_lt b hpos
  have hdm := Nat.div_add_mod b s.map.gb
  rw [Nat.mul_comm] at hdm
  rw [validBits]
  split <;> omega

theorem Same.used_congr (h : Same s s') (hi : MapGeo s) (hb : b < s.map.total) :
    used s' b = used s b := by
  rw [used, used, h.gb, h.bits _ (hi.group_lt hb)]

theorem Same.used_eq (h : Same s s') (hi : GInv s) (hb : b < s.map.total) :
    used s' b = used s b := h.used_congr hi.toMapGeo hb

theorem MapGeo.validBits_le (h : MapGeo s) : validBits s.map g ≤ groupMax := by
  have := h.gb_max
  rw [validBits]
  split <;> omega

end Blocks

/-! ## Take -/

section Take

/-- A run of `r.2` blocks from `r.1` was taken: it is at most as long as asked for, lies in one
group of the volume and cannot be made longer; its blocks were free and are used, and no other
block changed. -/
structure Took (s : GSt) (need : ℕ) (r : ℕ × ℕ) (s' : GSt) : Prop where
  pos : 1 ≤ r.2
  le_need : r.2 ≤ need
  in_volume : r.1 + r.2 ≤ s.map.total
  one_group : ∀ b, r.1 ≤ b → b < r.1 + r.2 → b / s.map.gb = r.1 / s.map.gb
  was_free : ∀ b, r.1 ≤ b → b < r.1 + r.2 → used s b = false
  now_used : ∀ b < s.map.total, used s' b = (used s b || decide (r.1 ≤ b ∧ b < r.1 + r.2))
  maximal : r.2 = need ∨ (r.1 + r.2) % s.map.gb = 0 ∨ r.1 + r.2 = s.map.total ∨
    used s (r.1 + r.2) = true

theorem Took.of_same (h : MapGeo s) (hs : Same s t) (hp : Took t need r s') : Took s need r s' where
  pos := hp.pos
  le_need := hp.le_need
  in_volume := hs.total ▸ hp.in_volume
  one_group := hs.gb ▸ hp.one_group
  was_free b h1 h2 := by
    have := hp.in_volume
    rw [hs.total] at this
    rw [← hs.used_congr h (by omega)]
    exact hp.was_free b h1 h2
  now_used b hb := by
    rw [hp.now_used b (hs.total ▸ hb), hs.used_congr h hb]
  maximal := by
    have hin := hp.in_volume
    have hmax := hp.maximal
    rw [hs.total] at hin hmax
    rw [hs.gb] at hmax
    rcases hmax with h1 | h1 | h1 | h1
    · exact Or.inl h1
    · exact Or.inr (Or.inl h1)
    · exact Or.inr (Or.inr (Or.inl h1))
    · by_cases hend : r.1 + r.2 = s.map.total
      · exact Or.inr (Or.inr (Or.inl hend))
      · rw [hs.used_congr h (by omega)] at h1
        exact Or.inr (Or.inr (Or.inr h1))

/-- What a successful take of `r.2` blocks from `r.1` promises. -/
structure TakePost (s : GSt) (need : ℕ) (r : ℕ × ℕ) (s' : GSt) : Prop where
  inv : GInv s'
  moved : Moved s s'
  pos : 1 ≤ r.2
  le_need : r.2 ≤ need
  in_volume : r.1 + r.2 ≤ s.map.total
  was_free : ∀ b, r.1 ≤ b → b < r.1 + r.2 → used s b = false
  now_used : ∀ b < s.map.total, used s' b = (used s b || decide (r.1 ≤ b ∧ b < r.1 + r.2))

/-- Entry `c` holds group `g`, and bit `i` of it is a free block. -/
structure Vacant (s : GSt) (c g i : ℕ) : Prop where
  lt : c < gmapCache
  valid : (s.map.cache c).valid = true
  group : (s.map.cache c).g = g
  group_lt : g < s.map.ngroups
  bit_lt : i < validBits s.map g
  clear : bitOf (s.map.cache c).bits i = false

/-- What marking a run of at most `k` blocks from bit `i` of entry `c` returns, and its state. -/
def marked (s : GSt) (c g k i : ℕ) : (ℕ × ℕ) × GSt :=
  let run := markRun (validBits s.map g) k i (s.map.cache c).bits
  ((g * s.map.gb + i, run.2 - i),
    edited s c run.1 ((s.map.free g + 2 ^ 32 - (run.2 - i)) % 2 ^ 32))

/-- Marking a run in a loaded group takes it. -/
theorem took_marked (h : MapOk s) (hv : Vacant s c g i) (hk : 0 < k) :
    Took s k (marked s c g k i).1 (marked s c g k i).2 := by
  have hcur : curBits s g = (s.map.cache c).bits := hv.group ▸ h.curBits_cached hv.lt hv.valid
  have hrun := markRun_spec (validBits s.map g) k i (s.map.cache c).bits
  have hpos := markRun_pos hk hv.bit_lt hv.clear
  have hstop := markRun_stops (validBits s.map g) k i (s.map.cache c).bits
  simp only [marked]
  generalize markRun (validBits s.map g) k i (s.map.cache c).bits = r at hrun hpos hstop ⊢
  have hi := hv.bit_lt
  have hjv := hrun.le_valid (by omega)
  have hlast := h.block_of_bit (i := r.2 - 1) (g := g) (by omega)
  have hrunof : ∀ b, g * s.map.gb + i ≤ b → b < g * s.map.gb + i + (r.2 - i) →
      b / s.map.gb = g ∧ b % s.map.gb = b - g * s.map.gb := by
    intro b h1 h2
    obtain ⟨hdiv, hmod, _⟩ := h.block_of_bit (i := b - g * s.map.gb) (g := g) (by omega)
    have hbe : g * s.map.gb + (b - g * s.map.gb) = b := by omega
    rw [hbe] at hdiv hmod
    exact ⟨hdiv, hmod⟩
  constructor
  · dsimp only
    omega
  · have := hrun.le_add
    dsimp only
    omega
  · dsimp only
    omega
  · intro b h1 h2
    rw [(hrunof b h1 h2).1, (hrunof (g * s.map.gb + i) le_rfl (by omega)).1]
  · intro b h1 h2
    dsimp only at h1 h2
    obtain ⟨hdiv, hmod⟩ := hrunof b h1 h2
    rw [used, hdiv, hmod, hcur]
    exact hrun.was_clear _ (by omega) (by omega)
  · intro b hbt
    have hgb : (edited s c r.1 ((s.map.free g + 2 ^ 32 - (r.2 - i)) % 2 ^ 32)).map.gb =
      s.map.gb := rfl
    have hdm := Nat.div_add_mod b s.map.gb
    have hml := Nat.mod_lt b h.gb_pos
    rw [used, hgb, curBits_edited h.toCoherent hv.lt hv.valid, hv.group]
    by_cases hbg : b / s.map.gb = g
    · rw [if_pos hbg, hrun.now_set, used, hbg, hcur]
      congr 1
      rw [hbg, Nat.mul_comm] at hdm
      exact decide_eq_decide.mpr (by omega)
    · rw [if_neg hbg, used]
      have hno : ¬ (g * s.map.gb + i ≤ b ∧ b < g * s.map.gb + i + (r.2 - i)) :=
        fun hin => hbg (hrunof b hin.1 hin.2).1
      simp [hno]
  · have hend : g * s.map.gb + i + (r.2 - i) = g * s.map.gb + r.2 := by omega
    dsimp only
    rw [hend]
    by_cases hlt : r.2 < validBits s.map g
    · rcases hstop with h1 | h1 | h1
      · exact Or.inl (by omega)
      · omega
      · obtain ⟨hdiv, hmod, _⟩ := h.block_of_bit hlt
        refine Or.inr (Or.inr (Or.inr ?_))
        rw [used, hdiv, hmod, hcur]
        exact h1
    · -- the run reaches the end of the group, or of the volume
      have hg := h.lt_ngroups_iff.mp hv.group_lt
      have hr : r.2 = validBits s.map g := by omega
      rw [validBits] at hr
      split at hr
      · exact Or.inr (Or.inr (Or.inl (by omega)))
      · refine Or.inr (Or.inl ?_)
        rw [hr, Nat.add_mod_right, Nat.mul_mod_left]

/-- Marking a run in a loaded group is a take. -/
theorem takePost_marked (h : GInv s) (hv : Vacant s c g i) (hk : 0 < k) :
    TakePost s k (marked s c g k i).1 (marked s c g k i).2 := by
  have htook := took_marked h.toMapOk hv hk
  have hcur : curBits s g = (s.map.cache c).bits := hv.group ▸ h.curBits_cached hv.lt hv.valid
  have hrun := markRun_spec (validBits s.map g) k i (s.map.cache c).bits
  have hi := hv.bit_lt
  have hg := hv.group
  have hres : reservedBits g ≤ i := by
    by_contra hlt
    have := h.reserved g hv.group_lt i (by omega)
    rw [hcur, hv.clear] at this
    exact absurd this (by simp)
  have hcount := hrun.count (by omega)
  have hvle := h.validBits_le (g := g)
  have hclear := clearBits_le (s.map.cache c).bits (validBits s.map g)
  have hfree := h.free_eq g hv.group_lt
  rw [hcur] at hfree
  simp only [groupMax] at hvle
  refine ⟨h.edited hv.lt hv.valid ?_ ?_ ?_, moved_edited _ _ _ _, htook.pos, htook.le_need,
    htook.in_volume, htook.was_free, htook.now_used⟩
  · rw [hg]
    exact two_slots_of_block hi hres
  · rw [hg]
    omega
  · intro x hx
    rw [hg] at hx
    rw [hrun.now_set x, ← hcur, h.reserved g hv.group_lt x hx]
    rfl

theorem TakePost.of_same (h : GInv s) (hs : Same s t) (hp : TakePost t need r s') :
    TakePost s need r s' where
  inv := hp.inv
  moved := hs.toMoved.trans hp.moved
  pos := hp.pos
  le_need := hp.le_need
  in_volume := hs.total ▸ hp.in_volume
  was_free b h1 h2 := by
    have := hp.in_volume
    rw [hs.total] at this
    rw [← hs.used_eq h (by omega)]
    exact hp.was_free b h1 h2
  now_used b hb := by
    rw [hp.now_used b (hs.total ▸ hb), hs.used_eq h hb]

/-- The group loop: a run of some group, or every group is full. -/
theorem wp_takeFrom (h : MapOk s) (hn : n + k = s.map.ngroups + 1)
    (hoff : k = 0 → off0 ≤ validBits s.map (g0 % s.map.ngroups))
    (hseen : ∀ j, 1 ≤ j → j < k → s.map.free ((g0 + j) % s.map.ngroups) = 0)
    (hQ : ∀ t c g i, MapOk t → Same s t → Vacant t c g i →
      Q (marked t c g need i).1 (marked t c g need i).2)
    (hE : ∀ s', MapOk s' → Same s s' → (∀ g < s.map.ngroups, s.map.free g = 0) → E .enospc s') :
    (takeFrom g0 off0 need n k).wp Q E s := by
  have hng : 0 < s.map.ngroups := by
    rw [h.lt_ngroups_iff]
    have := h.total_min
    omega
  induction n generalizing k s with
  | zero =>
    rw [takeFrom, wp_throw]
    apply hE s h (Same.refl s)
    intro g hg
    -- some turn of the loop, not the first, looked at group `g`
    obtain ⟨j, h1, h2, hj⟩ : ∃ j, 1 ≤ j ∧ j ≤ s.map.ngroups ∧ (g0 + j) % s.map.ngroups = g := by
      have hr := Nat.mod_lt g0 hng
      by_cases hlt : g0 % s.map.ngroups < g
      · refine ⟨g - g0 % s.map.ngroups, by omega, by omega, ?_⟩
        rw [← Nat.mod_add_mod, Nat.add_sub_cancel' (by omega), Nat.mod_eq_of_lt hg]
      · refine ⟨g + s.map.ngroups - g0 % s.map.ngroups, by omega, by omega, ?_⟩
        rw [← Nat.mod_add_mod, Nat.add_sub_cancel' (by omega), Nat.add_mod_right,
          Nat.mod_eq_of_lt hg]
    rw [← hj]
    exact hseen j h1 (by omega)
  | succ n ih =>
    have hglt : (g0 + k) % s.map.ngroups < s.map.ngroups := Nat.mod_lt _ hng
    simp only [takeFrom, wp_bind, wp_get, wp_ite]
    refine ⟨fun hfree => ?_, fun hfree => ?_⟩
    · refine ih h (by omega) (fun hk => by omega) (fun j h1 h2 => ?_) hQ hE hng
      by_cases hj : j = k
      · rw [hj]; exact hfree
      · exact hseen j h1 (by omega)
    · apply wp_load_ok h hglt
      intro c t hp
      simp only [wp_bind, wp_get, wp_ite]
      have hval : validBits t.map ((g0 + k) % s.map.ngroups) =
          validBits s.map ((g0 + k) % s.map.ngroups) := validBits_congr hp.same.gb hp.same.total _
      have hbits := hp.bits
      have hlo : (if k = 0 then off0 else 0) ≤ validBits t.map ((g0 + k) % s.map.ngroups) := by
        rw [hval]
        split
        · rename_i hk
          have := hoff hk
          rwa [hk, Nat.add_zero]
        · omega
      obtain ⟨hge, hle, hset, hclear⟩ := @firstClear_spec _ _ (t.map.cache c).bits _ rfl hlo
      refine ⟨fun heq => ?_, fun hne => ?_⟩
      · -- only the first turn, which starts at the hint, can miss a clear bit
        have hk : k = 0 := by
          by_contra hk
          rw [if_neg hk, hval, hbits] at hset heq
          apply hfree
          rw [h.free_eq _ hglt, clearBits_eq_zero_iff]
          intro i hi
          exact hset i (Nat.zero_le i) (by omega)
        have hngt : t.map.ngroups = s.map.ngroups := hp.same.ngroups
        refine ih hp.ok (by omega) (fun h0 => by omega) (fun j h1 h2 => by omega)
          (fun u c g i hu hs hv => hQ u c g i hu (hp.same.trans hs) hv) (fun s' hi hs hf => ?_)
          (hngt ▸ hng)
        apply hE s' hi (hp.same.trans hs)
        intro g hg
        rw [← hp.same.free]
        exact hf g (hngt ▸ hg)
      · have hlt := lt_of_le_of_ne hle hne
        have hv : Vacant t c ((g0 + k) % s.map.ngroups) _ :=
          ⟨hp.lt, hp.valid, hp.group, hp.same.ngroups ▸ hglt, hlt, hclear hlt⟩
        have := hQ t c _ _ hp.ok hp.same hv
        simpa only [marked, edited, hp.group, modMap, wp_modify, wp_pure] using this

/-- The call reaches the group loop with a hint inside its first group. -/
theorem wp_gmapTake_marked (h : MapOk s) (hneed : 0 < need) (hhint : hint ≤ s.map.total)
    (hQ : ∀ t c g i, MapOk t → Same s t → Vacant t c g i →
      Q (marked t c g need i).1 (marked t c g need i).2)
    (hE : ∀ s', MapOk s' → Same s s' → (∀ g < s.map.ngroups, s.map.free g = 0) → E .enospc s') :
    (gmapTake hint need).wp Q E s := by
  have hng := h.ngroups_le
  have hmin := h.gb_min
  have hmax := h.gb_max
  have hng0 : s.map.total ≤ s.map.ngroups * s.map.gb := by
    have hnot : ¬ s.map.ngroups * s.map.gb < s.map.total := by
      rw [← h.lt_ngroups_iff]
      omega
    omega
  have hsmall : hint / s.map.gb % 2 ^ 32 = hint / s.map.gb := by
    apply Nat.mod_eq_of_lt
    have h1 : hint / s.map.gb ≤ hint := Nat.div_le_self _ _
    have h2 : s.map.ngroups * s.map.gb ≤ 512 * 32768 := Nat.mul_le_mul hng hmax
    omega
  simp only [gmapTake, wp_bind, wp_get, wp_failIf, wp_ite]
  refine ⟨fun h0 => by omega, fun _ => ⟨fun hge => ?_, fun hlt => ?_⟩⟩
  · exact wp_takeFrom h (by omega) (fun _ => Nat.zero_le _) (fun j h1 h2 => by omega) hQ hE
  · rw [hsmall] at hlt ⊢
    refine wp_takeFrom h (by omega) (fun _ => ?_) (fun j h1 h2 => by omega) hQ hE
    have hg0 : hint / s.map.gb % s.map.ngroups = hint / s.map.gb := Nat.mod_eq_of_lt (by omega)
    rw [hg0, validBits]
    have hdm := Nat.div_add_mod hint s.map.gb
    have hml := Nat.mod_lt hint h.gb_pos
    rw [Nat.mul_comm] at hdm
    split <;> omega

/-- **`gmap_take`** takes a free run, or reports that there is no free block. -/
theorem wp_gmapTake (h : GInv s) (hneed : 0 < need) (hhint : hint ≤ s.map.total)
    (hQ : ∀ r s', TakePost s need r s' → Q r s')
    (hE : ∀ s', GInv s' → Same s s' → (∀ g < s.map.ngroups, s.map.free g = 0) → E .enospc s') :
    (gmapTake hint need).wp Q E s := by
  apply wp_gmapTake_marked h.toMapOk hneed hhint
  · intro t c g i ht hs hv
    exact hQ _ _ ((takePost_marked (h.of_same ht hs) hv hneed).of_same h hs)
  · intro s' hok hs hfull
    exact hE s' (h.of_same hok hs) hs hfull

end Take

/-! ## Release and query -/

section Release

/-- A block no take ever hands out: a superblock, an inode-table block or a map slot. -/
def reservedBlock (m : GMap) (b : ℕ) : Bool := decide (b % m.gb < reservedBits (b / m.gb))

/-- Reserved blocks are marked used. -/
theorem GInv.used_of_reserved (h : GInv s) (hb : b < s.map.total)
    (hr : reservedBlock s.map b = true) : used s b = true :=
  h.reserved _ (h.group_lt hb) _ (of_decide_eq_true hr)

/-- The free count of a group is the number of its blocks on the volume that are not used. -/
theorem GInv.free_eq_count (h : GInv s) {B : ℕ → Bool} (hB : ∀ b < s.map.total, used s b = B b)
    (hg : g < s.map.ngroups) :
    s.map.free g = Nat.count (fun i => B (g * s.map.gb + i) = false) (validBits s.map g) := by
  rw [h.free_eq g hg, clearBits]
  refine count_congr fun i hi => ?_
  obtain ⟨hdiv, hmod, hlt⟩ := h.block_of_bit (g := g) hi
  rw [← hB _ hlt, used, hdiv, hmod]

/-- Releasing a used block that is not reserved clears its bit. -/
theorem wp_releaseBlock (h : GInv s) (hb : b < s.map.total) (hu : used s b = true)
    (hr : reservedBlock s.map b = false) {Q : Unit → GSt → Prop}
    (hQ : ∀ s', GInv s' → Moved s s' →
      (∀ x < s.map.total, used s' x = if x = b then false else used s x) → Q () s') :
    (releaseBlock b).wp Q E s := by
  have hglt := h.group_lt hb
  have hres : reservedBits (b / s.map.gb) ≤ b % s.map.gb := by
    have := of_decide_eq_false hr
    omega
  simp only [releaseBlock, wp_bind, wp_get, h.group_mod hb]
  apply wp_load h hglt
  intro c t hp
  have hgb := hp.same.gb
  have hval : validBits t.map (b / s.map.gb) = validBits s.map (b / s.map.gb) :=
    validBits_congr hgb hp.same.total _
  have hbit : bitOf (t.map.cache c).bits (b % s.map.gb) = true := by
    rw [hp.bits]
    exact hu
  have hin : b % s.map.gb < validBits t.map (b / s.map.gb) := hval ▸ h.bit_of_block hb
  have hvle := hp.inv.validBits_le (g := b / s.map.gb)
  have hcle := clearBits_le (t.map.cache c).bits (validBits t.map (b / s.map.gb))
  have hclear := clearBits_clear hin hbit
  have hfree := hp.inv.free_eq (b / s.map.gb) (hp.same.ngroups ▸ hglt)
  have hcur : curBits t (b / s.map.gb) = (t.map.cache c).bits := by
    have := hp.inv.curBits_cached hp.lt hp.valid
    rwa [hp.group] at this
  simp only [wp_get, wp_bind, wp_failIf, hgb]
  refine ⟨fun h0 => by rw [hbit] at h0; exact absurd h0 (by simp), fun _ => ?_⟩
  have hinv : GInv (edited t c (bitPut (t.map.cache c).bits (b % s.map.gb) false)
      ((t.map.free (b / s.map.gb) + 1) % 2 ^ 32)) := by
    apply hp.inv.edited hp.lt hp.valid
    · rw [hp.group]
      exact two_slots_of_block hin hres
    · rw [hp.group, hclear, hfree, hcur]
      simp only [groupMax] at hvle
      omega
    · intro i hi
      rw [hp.group] at hi
      rw [bitOf_bitPut_of_ne _ _ (by omega), ← hcur]
      exact hp.inv.reserved _ (hp.same.ngroups ▸ hglt) i hi
  have hmoved := hp.same.toMoved.trans (moved_edited t c
    (bitPut (t.map.cache c).bits (b % s.map.gb) false) ((t.map.free (b / s.map.gb) + 1) % 2 ^ 32))
  have hused : ∀ x < s.map.total, used (edited t c
      (bitPut (t.map.cache c).bits (b % s.map.gb) false)
      ((t.map.free (b / s.map.gb) + 1) % 2 ^ 32)) x = if x = b then false else used s x := by
    intro x hx
    rw [used, hmoved.gb, curBits_edited hp.inv.toCoherent hp.lt hp.valid, hp.group]
    by_cases hxb : x = b
    · rw [if_pos hxb, hxb, if_pos rfl, bitOf_bitPut_self]
    · rw [if_neg hxb, used]
      by_cases hg : x / s.map.gb = b / s.map.gb
      · have hne : x % s.map.gb ≠ b % s.map.gb := by
          intro hm
          apply hxb
          rw [← Nat.div_add_mod x s.map.gb, ← Nat.div_add_mod b s.map.gb, hg, hm]
        rw [if_pos hg, bitOf_bitPut_of_ne _ _ hne, hg, hp.bits]
      · rw [if_neg hg, hp.same.bits _ (h.group_lt hx)]
  have := hQ _ hinv hmoved hused
  simpa only [edited, hp.group, modMap, wp_modify, hgb] using this

/-- **`gmap_release`** of a run of used blocks, none reserved, clears exactly the run. -/
theorem wp_gmapRelease (h : GInv s) (hin : start + len ≤ s.map.total)
    (hu : ∀ b, start ≤ b → b < start + len → used s b = true ∧ reservedBlock s.map b = false)
    {Q : Unit → GSt → Prop}
    (hQ : ∀ s', GInv s' → Moved s s' →
      (∀ x < s.map.total, used s' x = (used s x && !decide (start ≤ x ∧ x < start + len))) →
      Q () s') : (gmapRelease start len).wp Q E s := by
  have hsmall : (start + len) % 2 ^ 64 = start + len := by
    have h1 := h.ngroups_le
    have h2 := h.gb_max
    have h3 : s.map.total ≤ s.map.ngroups * s.map.gb := by
      have hnot : ¬ s.map.ngroups * s.map.gb < s.map.total := by
        rw [← h.lt_ngroups_iff]
        omega
      omega
    have h4 : s.map.ngroups * s.map.gb ≤ 512 * 32768 := Nat.mul_le_mul h1 h2
    exact Nat.mod_eq_of_lt (by omega)
  rw [gmapRelease, hsmall, Nat.add_sub_cancel_left]
  -- after `k` turns exactly the first `k` blocks of the run are clear
  refine wp_mono (wp_iterate (fun k _ t => GInv t ∧ Moved s t ∧
      ∀ x < s.map.total, used t x = (used s x && !decide (start ≤ x ∧ x < start + k)))
    ⟨h, Moved.refl s, fun x _ => ?_⟩ (fun k _ t hk hI => ?_)) (fun _ t _ hI => ?_)
    (fun e t _ he => he)
  · have hno : ¬ (start ≤ x ∧ x < start + 0) := by omega
    rw [decide_eq_false hno, Bool.not_false, Bool.and_true]
  · obtain ⟨hinv, hmov, hused⟩ := hI
    have hres : reservedBlock t.map (start + k) = reservedBlock s.map (start + k) := by
      rw [reservedBlock, reservedBlock, hmov.gb]
    apply wp_releaseBlock hinv (by rw [hmov.total]; omega)
    · rw [hused _ (by omega), (hu _ (by omega) (by omega)).1]
      simp
    · rw [hres]
      exact (hu _ (by omega) (by omega)).2
    · intro s' hinv' hmov' hused'
      refine ⟨hinv', hmov.trans hmov', fun x hx => ?_⟩
      rw [hused' x (by rw [hmov.total]; exact hx)]
      by_cases hxk : x = start + k
      · simp [hxk]
      · rw [if_neg hxk, hused x hx]
        congr 2
        exact decide_eq_decide.mpr (by omega)
  · exact hQ t hI.1 hI.2.1 hI.2.2

/-- **`gmap_is_used`** answers with the bit and changes none. -/
theorem wp_gmapIsUsed (h : GInv s) (hb : b < s.map.total) {Q : Bool → GSt → Prop}
    (hQ : ∀ s', GInv s' → Same s s' → Q (used s b) s') : (gmapIsUsed b).wp Q E s := by
  simp only [gmapIsUsed, wp_bind, wp_get, h.group_mod hb]
  apply wp_load h (h.group_lt hb)
  intro c t hp
  simp only [wp_get, wp_bind, wp_pure]
  rw [hp.bits, hp.same.gb]
  exact hQ t hp.inv hp.same

end Release

/-- **`gmap_free_total`** is the number of free blocks. -/
theorem GInv.freeTotal_eq (h : GInv s) :
    gmapFreeTotal s.map = Nat.count (fun b => used s b = false) s.map.total := by
  have hgb : 0 < s.map.gb := h.gb_pos
  -- the counts of the first `k` groups are those of the blocks in them
  have hpart : ∀ k ≤ s.map.ngroups, ((List.range k).map s.map.free).sum =
      Nat.count (fun b => used s b = false) (min (k * s.map.gb) s.map.total) := by
    intro k
    induction k with
    | zero => intro _; simp
    | succ k ih =>
      intro hk
      have hlt : k * s.map.gb < s.map.total := h.lt_ngroups_iff.mp hk
      have hend : min ((k + 1) * s.map.gb) s.map.total = k * s.map.gb + validBits s.map k := by
        rw [Nat.succ_mul, validBits]
        split <;> omega
      rw [List.range_succ, List.map_append, List.sum_append, ih (by omega), hend,
        Nat.min_eq_left hlt.le, Nat.count_add, List.map_singleton, List.sum_singleton,
        h.free_eq k hk, clearBits]
      refine congrArg _ (count_congr fun i hi => ?_)
      have hi' : i < s.map.gb := lt_of_lt_of_le hi (by rw [validBits]; split <;> omega)
      rw [used, Nat.mul_comm k, Nat.mul_add_div hgb, Nat.div_eq_of_lt hi', Nat.add_zero,
        Nat.mul_add_mod, Nat.mod_eq_of_lt hi']
  have hall : s.map.total ≤ s.map.ngroups * s.map.gb := by
    by_contra hno
    exact absurd (h.lt_ngroups_iff.mpr (not_le.mp hno)) (lt_irrefl _)
  rw [gmapFreeTotal, hpart _ le_rfl, Nat.min_eq_right hall]

end Xasmos.Exfs
