import Mathlib.Logic.Function.Basic
import Mathlib.Tactic.Common
import Mathlib.Algebra.Order.Ring.Nat

/-!
# The memory primitives of xerlibc

`memmove` is one of two byte loops over one address space. The direction is chosen so that no
source byte is overwritten before it is read; what a loop has done so far is the same for both
directions, the bytes of an interval `[lo, hi)` of the destination (`Moved`).

## Main results

* `memmove_spec` — `memmove` copies correctly for every overlap of the two ranges.
-/
namespace Xasmos.Xerlibc

/-- The address space: one byte at each 64-bit address. -/
abbrev Mem := UInt64 → UInt8

/-- `while (n--) *d++ = *s++`. -/
def copyUp : ℕ → UInt64 → UInt64 → Mem → Mem
  | 0, _, _, m => m
  | n + 1, d, s, m => copyUp n (d + 1) (s + 1) (Function.update m d (m s))

/-- `while (n--) *--d = *--s`. -/
def copyDown : ℕ → UInt64 → UInt64 → Mem → Mem
  | 0, _, _, m => m
  | n + 1, d, s, m => copyDown n (d - 1) (s - 1) (Function.update m (d - 1) (m (s - 1)))

/-- `memmove`. The end of the source is computed with the pointer's own wrap-around. -/
def memmove (dst src n : UInt64) (m : Mem) : UInt64 × Mem :=
  if dst < src ∨ dst ≥ src + n then (dst, copyUp n.toNat dst src m)
  else (dst, copyDown n.toNat (dst + n) (src + n) m)

variable {m m' : Mem} {d s : UInt64} {lo hi n : ℕ}

/-! ## Addresses -/

theorem toNat_add_ofNat {p : UInt64} {i : ℕ} (h : p.toNat + i < 2 ^ 64) :
    (p + UInt64.ofNat i).toNat = p.toNat + i := by
  rw [UInt64.toNat_add, UInt64.toNat_ofNat_of_lt' (by omega : i < 2 ^ 64)]
  exact Nat.mod_eq_of_lt h

theorem add_ofNat_inj {p : UInt64} {i j : ℕ} (hi : p.toNat + i < 2 ^ 64) (hj : p.toNat + j < 2 ^ 64)
    (h : p + UInt64.ofNat i = p + UInt64.ofNat j) : i = j := by
  have heq := congrArg UInt64.toNat h
  rw [toNat_add_ofNat hi, toNat_add_ofNat hj] at heq
  omega

theorem add_ofNat_succ (p : UInt64) (i : ℕ) :
    p + UInt64.ofNat (i + 1) = p + UInt64.ofNat i + 1 := by
  rw [UInt64.ofNat_add, ← UInt64.add_assoc]
  rfl

/-! ## What a loop has copied -/

/-- The bytes `lo` to `hi` of the destination hold the source as it was, and no other byte has
changed. -/
structure Moved (m : Mem) (d s : UInt64) (lo hi : ℕ) (m' : Mem) : Prop where
  copied : ∀ i, lo ≤ i → i < hi → m' (d + UInt64.ofNat i) = m (s + UInt64.ofNat i)
  frame : ∀ a, (∀ i, lo ≤ i → i < hi → a ≠ d + UInt64.ofNat i) → m' a = m a

theorem Moved.refl (m : Mem) (d s : UInt64) (k : ℕ) : Moved m d s k k m := by
  constructor
  · intro i hi hi'
    omega
  · intro a _
    rfl

/-- One more byte next to those copied. Its source must not be one of the bytes already written. -/
theorem Moved.step {lo' hi' j : ℕ} (h : Moved m d s lo hi m') (hd : d.toNat + n ≤ 2 ^ 64)
    (hj : j < n) (hn : hi ≤ n) (hadd : ∀ i, lo' ≤ i ∧ i < hi' ↔ lo ≤ i ∧ i < hi ∨ i = j)
    (hout : ¬ (lo ≤ j ∧ j < hi))
    (hsrc : ∀ i, lo ≤ i → i < hi → s + UInt64.ofNat j ≠ d + UInt64.ofNat i) :
    Moved m d s lo' hi' (Function.update m' (d + UInt64.ofNat j) (m' (s + UInt64.ofNat j))) := by
  constructor
  · intro i hlo hhi
    rcases (hadd i).mp ⟨hlo, hhi⟩ with hold | rfl
    · have hne : d + UInt64.ofNat i ≠ d + UInt64.ofNat j := by
        intro heq
        have hij := add_ofNat_inj (by omega) (by omega) heq
        subst hij
        exact hout hold
      rw [Function.update_of_ne hne, h.copied i hold.1 hold.2]
    · rw [Function.update_self, h.frame _ hsrc]
  · intro a ha
    have hne : a ≠ d + UInt64.ofNat j :=
      ha j ((hadd j).mpr (Or.inr rfl)).1 ((hadd j).mpr (Or.inr rfl)).2
    rw [Function.update_of_ne hne]
    apply h.frame
    intro i hlo hhi
    have hi := (hadd i).mpr (Or.inl ⟨hlo, hhi⟩)
    exact ha i hi.1 hi.2

/-- The upward loop, when no source byte lies in the part of the destination before it. -/
theorem copyUp_moved (hd : d.toNat + n ≤ 2 ^ 64)
    (hsrc : ∀ i j, i < j → j < n → s + UInt64.ofNat j ≠ d + UInt64.ofNat i) (k r : ℕ)
    (hk : k + r = n) (h : Moved m d s 0 k m') :
    Moved m d s 0 n (copyUp r (d + UInt64.ofNat k) (s + UInt64.ofNat k) m') := by
  induction r generalizing k m' with
  | zero =>
    rw [Nat.add_zero] at hk
    rw [← hk]
    exact h
  | succ r ih =>
    rw [copyUp, ← add_ofNat_succ, ← add_ofNat_succ]
    apply ih (k + 1) (by omega)
    apply h.step hd (by omega : k < n) (by omega) (by omega) (by omega)
    intro i _ hi
    exact hsrc i k hi (by omega)

/-- The downward loop, when no source byte lies in the part of the destination after it. -/
theorem copyDown_moved (hd : d.toNat + n ≤ 2 ^ 64)
    (hsrc : ∀ i j, j < i → i < n → s + UInt64.ofNat j ≠ d + UInt64.ofNat i) (k : ℕ) (hk : k ≤ n)
    (h : Moved m d s k n m') :
    Moved m d s 0 n (copyDown k (d + UInt64.ofNat k) (s + UInt64.ofNat k) m') := by
  induction k generalizing m' with
  | zero => exact h
  | succ k ih =>
    rw [copyDown, add_ofNat_succ, add_ofNat_succ, UInt64.add_sub_cancel, UInt64.add_sub_cancel]
    apply ih (by omega)
    apply h.step hd (by omega : k < n) (by omega) (by omega) (by omega)
    intro i hi hin
    exact hsrc i k (by omega) hin

/-! ## The function -/

theorem memmove_moved (m : Mem) (dst src n : UInt64) (hd : dst.toNat + n.toNat ≤ 2 ^ 64)
    (hs : src.toNat + n.toNat ≤ 2 ^ 64) : Moved m dst src 0 n.toNat (memmove dst src n m).2 := by
  unfold memmove
  split
  next hup =>
    rw [UInt64.lt_iff_toNat_lt, ge_iff_le, UInt64.le_iff_toNat_le, UInt64.toNat_add] at hup
    have h := copyUp_moved hd (s := src) ?_ 0 n.toNat (by omega) (Moved.refl m dst src 0)
    · simpa using h
    intro i j hij hj heq
    have hnat := congrArg UInt64.toNat heq
    rw [toNat_add_ofNat (by omega), toNat_add_ofNat (by omega)] at hnat
    -- a destination that starts above the source ends before the wrap, so the end of the source is
    -- exact
    omega
  next hdown =>
    rw [UInt64.lt_iff_toNat_lt] at hdown
    have h := copyDown_moved hd (s := src) ?_ n.toNat (Nat.le_refl _) (Moved.refl m dst src n.toNat)
    · simpa using h
    intro i j hij hi heq
    have hnat := congrArg UInt64.toNat heq
    rw [toNat_add_ofNat (by omega), toNat_add_ofNat (by omega)] at hnat
    omega

/-- **`memmove` is correct for every overlap**: the destination holds the source bytes as they were
before the call, and no byte outside the destination has changed. -/
theorem memmove_spec (m : Mem) (dst src n : UInt64) (hd : dst.toNat + n.toNat ≤ 2 ^ 64)
    (hs : src.toNat + n.toNat ≤ 2 ^ 64) :
    (memmove dst src n m).1 = dst ∧ (∀ i < n, (memmove dst src n m).2 (dst + i) = m (src + i)) ∧
      ∀ a, (∀ i < n, a ≠ dst + i) → (memmove dst src n m).2 a = m a := by
  have h := memmove_moved m dst src n hd hs
  refine ⟨?_, ?_, ?_⟩
  · unfold memmove
    split <;> rfl
  · intro i hi
    have hcopied := h.copied i.toNat (Nat.zero_le _) (UInt64.lt_iff_toNat_lt.mp hi)
    simpa using hcopied
  · intro a ha
    apply h.frame
    intro i _ hi
    apply ha
    rw [UInt64.lt_iff_toNat_lt, UInt64.toNat_ofNat_of_lt' (Nat.lt_trans hi n.toNat_lt)]
    exact hi

/-- Five bytes moved up by two, over themselves. -/
theorem memmove_overlap : (memmove 12 10 5 fun a => a.toUInt8).2 16 = 14 :=
  (memmove_spec (fun a => a.toUInt8) 12 10 5 (by decide) (by decide)).2.1 4 (by decide)

end Xasmos.Xerlibc
