import Mathlib.Data.Set.Function
import Mathlib.Data.List.Basic
import Mathlib.Data.Nat.ModEq
import Mathlib.Data.Nat.Bitwise

/-!
# Rolling checksums

A rolling checksum folds a message into a state, one symbol at a time.  When a step
is injective in the state for every symbol, and in the symbol for every state, two
messages of one length that differ in a single symbol have different sums: the
states part at that symbol and no later step brings them together again.

## Main definitions

* `Rolling step S` — both injectivities, on the states of `S`.
* `Rolling.roll_ne` — one changed symbol changes the sum.
* `rolling_xorMul` — exclusive or with a byte, then multiplication by a number that is
  invertible modulo `2 ^ w`.
-/

namespace Xasmos

variable {σ β : Type*} {step : σ → β → σ} {S : Set σ}

/-- The step keeps the states of `S` and is injective in either argument there. -/
structure Rolling (step : σ → β → σ) (S : Set σ) : Prop where
  maps : ∀ s ∈ S, ∀ b, step s b ∈ S
  state_inj : ∀ b, Set.InjOn (fun s => step s b) S
  symbol_inj : ∀ s ∈ S, Function.Injective (step s)

/-- The sum of the first `n` symbols of the message `p`. -/
def roll (step : σ → β → σ) (s : σ) (p : ℕ → β) (n : ℕ) : σ :=
  (List.range n).foldl (fun h i => step h (p i)) s

theorem roll_succ (step : σ → β → σ) (s : σ) (p : ℕ → β) (n : ℕ) :
    roll step s p (n + 1) = step (roll step s p n) (p n) := by
  simp [roll, List.range_succ]

theorem roll_congr {s : σ} {p q : ℕ → β} {n : ℕ} (h : ∀ i < n, p i = q i) :
    roll step s p n = roll step s q n := by
  apply List.foldl_ext
  intro a i hi
  rw [h i (List.mem_range.mp hi)]

theorem Rolling.roll_mem (hr : Rolling step S) {s : σ} (hs : s ∈ S) (p : ℕ → β) (n : ℕ) :
    roll step s p n ∈ S := by
  induction n with
  | zero => exact hs
  | succ n ih =>
    rw [roll_succ]
    exact hr.maps _ ih _

/-- **One changed symbol changes the sum.** -/
theorem Rolling.roll_ne (hr : Rolling step S) {s : σ} (hs : s ∈ S) {p q : ℕ → β} {n k : ℕ}
    (hk : k < n) (hne : p k ≠ q k) (heq : ∀ i < n, i ≠ k → p i = q i) :
    roll step s p n ≠ roll step s q n := by
  induction n with
  | zero => omega
  | succ n ih =>
    rw [roll_succ, roll_succ]
    by_cases hkn : k = n
    · -- the changed symbol is the last one: the states before it agree
      subst hkn
      have hpre : roll step s p k = roll step s q k := by
        apply roll_congr
        intro i hi
        exact heq i (by omega) (by omega)
      rw [hpre]
      intro h
      exact hne (hr.symbol_inj _ (hr.roll_mem hs q k) h)
    · have hlast : p n = q n := heq n (by omega) (by omega)
      have hpre : roll step s p n ≠ roll step s q n :=
        ih (by omega) fun i hi => heq i (by omega)
      rw [hlast]
      intro h
      exact hpre (hr.state_inj _ (hr.roll_mem hs p n) (hr.roll_mem hs q n) h)

/-! ## Exclusive or, then multiplication -/

theorem xor_byte_lt {w h : ℕ} (hw : 8 ≤ w) (hh : h < 2 ^ w) (b : UInt8) :
    h ^^^ b.toNat < 2 ^ w := by
  apply Nat.xor_lt_two_pow hh
  have h8 : (2 : ℕ) ^ 8 ≤ 2 ^ w := Nat.pow_le_pow_right (by omega) hw
  have hb := b.toNat_lt
  omega

/-- Multiplication by a number prime to `2 ^ w` is injective on `w`-bit numbers. -/
theorem eq_of_mul_mod_eq {w m a b : ℕ} (hm : Nat.Coprime (2 ^ w) m) (ha : a < 2 ^ w)
    (hb : b < 2 ^ w) (h : a * m % 2 ^ w = b * m % 2 ^ w) : a = b := by
  have hmod : a ≡ b [MOD 2 ^ w] := Nat.ModEq.cancel_right_of_coprime hm h
  rwa [Nat.ModEq, Nat.mod_eq_of_lt ha, Nat.mod_eq_of_lt hb] at hmod

theorem rolling_xorMul {w m : ℕ} (hw : 8 ≤ w) (hm : Nat.Coprime (2 ^ w) m) :
    Rolling (fun (h : ℕ) (b : UInt8) => (h ^^^ b.toNat) * m % 2 ^ w) {h | h < 2 ^ w} where
  maps _ _ _ := Nat.mod_lt _ (Nat.two_pow_pos w)
  state_inj b := by
    intro h hh h' hh' heq
    have hxor := eq_of_mul_mod_eq hm (xor_byte_lt hw hh b) (xor_byte_lt hw hh' b) heq
    exact Nat.xor_left_inj.mp hxor
  symbol_inj h hh := by
    intro b b' heq
    have hxor := eq_of_mul_mod_eq hm (xor_byte_lt hw hh b) (xor_byte_lt hw hh b') heq
    exact UInt8.toNat_inj.mp (Nat.xor_right_inj.mp hxor)

end Xasmos
