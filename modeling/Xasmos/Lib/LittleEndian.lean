import Mathlib.Tactic.Common
import Mathlib.Tactic.Ring
import Mathlib.Logic.Function.Basic

/-!
# Little-endian fields of a byte memory

A byte memory gives the byte at every offset from a base pointer.  `getLE` reads
an `n`-byte little-endian field and `putLE` writes one, truncating the value as a
C cast to the field's width does.  Every on-disk and on-wire record of the
development is a sequence of such fields, so its round trip is three facts:
a field reads back what was written (`getLE_putLE`), a field is untouched by a
write elsewhere (`getLE_putLE_disjoint`), and a field depends only on its own
bytes (`getLE_congr`).

`getLEM` is the same read in a monad of byte reads, for a reader that may see a
different byte at each access; `getLEM_id` is its value on a fixed memory.
-/

namespace Xasmos

variable {j k n o o' v : ℕ}

/-- A byte memory: the byte at each offset from a base pointer. -/
abbrev Bytes := ℕ → UInt8

variable {p q : Bytes}

namespace Bytes

/-- The value of the `n` bytes at offset `o`, least significant first. -/
def getLE : ℕ → Bytes → ℕ → ℕ
  | 0, _, _ => 0
  | n + 1, p, o => (p o).toNat + 256 * getLE n p (o + 1)

/-- Store the low `n` bytes of `v` at offset `o`, least significant first. -/
def putLE : ℕ → Bytes → ℕ → ℕ → Bytes
  | 0, p, _, _ => p
  | n + 1, p, o, v => putLE n (Function.update p o (UInt8.ofNat v)) (o + 1) (v / 256)

/-- `getLE` where each byte is the result of a read in the monad `m`. -/
def getLEM {m : Type → Type} [Monad m] : ℕ → (ℕ → m UInt8) → ℕ → m ℕ
  | 0, _, _ => pure 0
  | n + 1, rd, o => do
    let b ← rd o
    let rest ← getLEM n rd (o + 1)
    pure (b.toNat + 256 * rest)

/-- On a fixed memory the monadic read is the plain one. -/
@[simp] theorem getLEM_id (n : ℕ) (p : Bytes) (o : ℕ) : getLEM (m := Id) n p o = getLE n p o := by
  induction n generalizing o with
  | zero => rfl
  | succ n ih => simp only [getLEM, getLE, ih]; rfl

theorem getLE_lt (n : ℕ) (p : Bytes) (o : ℕ) : getLE n p o < 256 ^ n := by
  induction n generalizing o with
  | zero => simp [getLE]
  | succ n ih =>
    have hb := (p o).toNat_lt
    have hr := ih (o + 1)
    rw [getLE, pow_succ]
    omega

/-- A field depends only on its own bytes. -/
theorem getLE_congr (h : ∀ i < n, p (o + i) = q (o + i)) : getLE n p o = getLE n q o := by
  induction n generalizing o with
  | zero => rfl
  | succ n ih =>
    have h0 : p o = q o := h 0 (by omega)
    have hrest : getLE n p (o + 1) = getLE n q (o + 1) := by
      apply ih
      intro i hi
      have := h (i + 1) (by omega)
      rwa [show o + (i + 1) = o + 1 + i by omega] at this
    rw [getLE, getLE, h0, hrest]

/-- A field determines its bytes. -/
theorem getLE_inj (h : getLE n p o = getLE n q o) (i : ℕ) (hi : i < n) : p (o + i) = q (o + i) := by
  induction n generalizing o i with
  | zero => omega
  | succ n ih =>
    have hp := (p o).toNat_lt
    have hq := (q o).toNat_lt
    rw [getLE, getLE] at h
    cases i with
    | zero =>
      rw [Nat.add_zero]
      exact UInt8.toNat_inj.mp (by omega)
    | succ i =>
      rw [show o + (i + 1) = o + 1 + i by omega]
      exact ih (by omega) i (by omega)

/-- A write leaves every byte outside its field alone. -/
theorem putLE_of_notMem (h : j < o ∨ o + n ≤ j) : putLE n p o v j = p j := by
  induction n generalizing p o v with
  | zero => rfl
  | succ n ih =>
    rw [putLE, ih (by omega), Function.update_of_ne (by omega)]

/-- **A field reads back what was written**, truncated to its width. -/
theorem getLE_putLE (n : ℕ) (p : Bytes) (o v : ℕ) : getLE n (putLE n p o v) o = v % 256 ^ n := by
  induction n generalizing p o v with
  | zero => simp [getLE, Nat.mod_one]
  | succ n ih =>
    have hhead : putLE (n + 1) p o v o = UInt8.ofNat v := by
      rw [putLE, putLE_of_notMem (by omega), Function.update_self]
    have hpow : 256 ^ (n + 1) = 256 * 256 ^ n := pow_succ' 256 n
    rw [getLE, hhead, putLE, ih, UInt8.toNat_ofNat', hpow, Nat.mod_mul]

/-- A field that fits reads back exactly. -/
theorem getLE_putLE_of_lt (p : Bytes) (o : ℕ) (h : v < 256 ^ n) :
    getLE n (putLE n p o v) o = v := by
  rw [getLE_putLE, Nat.mod_eq_of_lt h]

/-- A field is untouched by a write to a disjoint one. -/
theorem getLE_putLE_disjoint (h : o + n ≤ o' ∨ o' + k ≤ o) :
    getLE n (putLE k p o' v) o = getLE n p o := by
  apply getLE_congr
  intro i hi
  exact putLE_of_notMem (by omega)

/-- A field is its low part and its high part. -/
theorem getLE_add (n k : ℕ) (p : Bytes) (o : ℕ) :
    getLE (n + k) p o = getLE n p o + 256 ^ n * getLE k p (o + n) := by
  induction n generalizing o with
  | zero => simp [getLE]
  | succ n ih =>
    rw [Nat.add_right_comm, getLE, getLE, ih, pow_succ', show o + 1 + n = o + (n + 1) by omega]
    ring

/-- All bytes zero make a zero field. -/
theorem getLE_zero (h : ∀ i < n, p (o + i) = 0) : getLE n p o = 0 := by
  induction n generalizing o with
  | zero => rfl
  | succ n ih =>
    have h0 : p o = 0 := h 0 (by omega)
    have hrest : getLE n p (o + 1) = 0 := by
      apply ih
      intro i hi
      have := h (i + 1) (by omega)
      rwa [show o + (i + 1) = o + 1 + i by omega] at this
    simp [getLE, h0, hrest]

end Bytes
end Xasmos
