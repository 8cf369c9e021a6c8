import Xasmos.Lib.LittleEndian

/-!
# Bitmaps in a byte memory

Bit `i` of a bitmap is bit `i % 8` of byte `i / 8`.
-/

namespace Xasmos.Bytes

/-- Bit `i` of the bitmap. -/
def bitOf (p : Bytes) (i : ℕ) : Bool := (p (i / 8)).toBitVec.getLsbD (i % 8)

/-- The bitmap with bit `i` set to `v`. -/
def bitPut (p : Bytes) (i : ℕ) (v : Bool) : Bytes :=
  Function.update p (i / 8) ⟨
    if v then (p (i / 8)).toBitVec ||| BitVec.twoPow 8 (i % 8)
    else (p (i / 8)).toBitVec &&& ~~~(BitVec.twoPow 8 (i % 8))⟩

@[simp] theorem bitOf_bitPut_self (p : Bytes) (i : ℕ) (v : Bool) : bitOf (bitPut p i v) i = v := by
  have h8 : i % 8 < 8 := Nat.mod_lt _ (by decide)
  cases v <;> simp [bitOf, bitPut, h8]

theorem bitOf_bitPut_of_ne (p : Bytes) {i j : ℕ} (v : Bool) (h : j ≠ i) :
    bitOf (bitPut p i v) j = bitOf p j := by
  have h8 : j % 8 < 8 := Nat.mod_lt _ (by decide)
  by_cases hb : j / 8 = i / 8
  · -- the same byte: the two bits differ inside it
    have hm : ¬ j % 8 = i % 8 := by omega
    cases v <;> simp [bitOf, bitPut, hb, h8, hm]
  · rw [bitOf, bitPut, Function.update_of_ne hb, bitOf]

theorem bitOf_bitPut (p : Bytes) (i j : ℕ) (v : Bool) :
    bitOf (bitPut p i v) j = if j = i then v else bitOf p j := by
  by_cases h : j = i
  · rw [h, bitOf_bitPut_self, if_pos rfl]
  · rw [bitOf_bitPut_of_ne p v h, if_neg h]

end Xasmos.Bytes
