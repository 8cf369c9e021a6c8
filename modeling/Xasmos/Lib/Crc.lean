import Mathlib.Tactic.Common
import Mathlib.Data.Nat.Bitwise

/-!
# Reflected cyclic redundancy checks

A reflected CRC of width `w` is a register that is shifted down one bit at a
time; a bit falling out at the bottom folds the polynomial back in.  The shift is
linear in exclusive or, so `n` shifts of a register are the register moved down
`n` places, folded with `n` shifts of its low `n` bits alone (`crcSteps_split`).
That is what a table indexed by the low bits computes, whatever `n` is.

## Main definitions

* `crcStep`, `crcSteps` — one shift of the register, and `n` of them.
* `crcByte` — a message byte folded into the register, eight shifts.
* `crcBits` — the register over a whole message, one message bit at a time.
* `crcSteps_split` — the table step.
* `foldl_crcByte` — folding whole bytes is folding their bits, lowest first.
-/

namespace Xasmos

variable {w : ℕ}

/-- One shift of the register: a set low bit folds the polynomial in. -/
def crcStep (poly c : BitVec w) : BitVec w :=
  if c.getLsbD 0 then (c >>> 1) ^^^ poly else c >>> 1

/-- `n` shifts of the register. -/
def crcSteps (poly : BitVec w) : ℕ → BitVec w → BitVec w
  | 0, c => c
  | n + 1, c => crcSteps poly n (crcStep poly c)

/-- Fold one message byte into the register. -/
def crcByte (poly : BitVec w) (c : BitVec w) (b : UInt8) : BitVec w :=
  crcSteps poly 8 (c ^^^ b.toBitVec.setWidth w)

theorem crcStep_xor (poly a b : BitVec w) :
    crcStep poly (a ^^^ b) = crcStep poly a ^^^ crcStep poly b := by
  simp only [crcStep, BitVec.getLsbD_xor, BitVec.ushiftRight_xor_distrib]
  cases a.getLsbD 0 <;> cases b.getLsbD 0
  · simp
  · simp [BitVec.xor_assoc]
  · simp only [Bool.bne_false, Bool.false_eq_true, if_true, if_false]
    rw [BitVec.xor_assoc, BitVec.xor_comm (b >>> 1) poly, ← BitVec.xor_assoc]
  · simp only [bne_self_eq_false, Bool.false_eq_true, if_true, if_false]
    -- the polynomial is folded in twice and cancels
    rw [BitVec.xor_assoc, ← BitVec.xor_assoc poly, BitVec.xor_comm poly, BitVec.xor_assoc (b >>> 1),
      BitVec.xor_self, BitVec.xor_zero]

theorem crcSteps_xor (poly : BitVec w) (n : ℕ) (a b : BitVec w) :
    crcSteps poly n (a ^^^ b) = crcSteps poly n a ^^^ crcSteps poly n b := by
  induction n generalizing a b with
  | zero => rfl
  | succ n ih => rw [crcSteps, crcStep_xor, ih]; rfl

theorem crcSteps_add (poly : BitVec w) (k n : ℕ) (c : BitVec w) :
    crcSteps poly (k + n) c = crcSteps poly n (crcSteps poly k c) := by
  induction k generalizing c with
  | zero => simp [crcSteps]
  | succ k ih => rw [Nat.succ_add, crcSteps, ih, crcSteps]

/-- A register whose low `n` bits are clear only moves down through `n` shifts. -/
theorem crcSteps_of_low_clear (poly : BitVec w) {n : ℕ} {c : BitVec w}
    (h : ∀ i < n, c.getLsbD i = false) : crcSteps poly n c = c >>> n := by
  induction n generalizing c with
  | zero => simp [crcSteps]
  | succ n ih =>
    have h0 : crcStep poly c = c >>> 1 := by simp [crcStep, h 0 (by omega)]
    rw [crcSteps, h0, ih, ← BitVec.shiftRight_add, Nat.add_comm]
    intro i hi
    rw [BitVec.getLsbD_ushiftRight]
    exact h (1 + i) (by omega)

/-- The low `n` bits of a register. -/
def lowBits (n : ℕ) (c : BitVec w) : BitVec w := c &&& BitVec.ofNat w (2 ^ n - 1)

theorem getLsbD_lowBits (n : ℕ) (c : BitVec w) (i : ℕ) :
    (lowBits n c).getLsbD i = (c.getLsbD i && decide (i < n)) := by
  simp only [lowBits, BitVec.getLsbD_and, BitVec.getLsbD_ofNat, Nat.testBit_two_pow_sub_one]
  by_cases hi : i < w
  · simp [hi]
  · simp [hi, BitVec.getLsbD_of_ge c i (by omega)]

/-- **The table step**: `n` shifts are those of the low `n` bits, folded with the
rest of the register moved down `n` places. -/
theorem crcSteps_split (poly : BitVec w) (n : ℕ) (c : BitVec w) :
    crcSteps poly n c = (c >>> n) ^^^ crcSteps poly n (lowBits n c) := by
  have hsplit : c = (c ^^^ lowBits n c) ^^^ lowBits n c := by
    rw [BitVec.xor_assoc, BitVec.xor_self, BitVec.xor_zero]
  have hhigh : crcSteps poly n (c ^^^ lowBits n c) = c >>> n := by
    have hclear : ∀ i < n, (c ^^^ lowBits n c).getLsbD i = false := by
      intro i hi
      simp [BitVec.getLsbD_xor, getLsbD_lowBits, hi]
    rw [crcSteps_of_low_clear poly hclear]
    apply BitVec.eq_of_getLsbD_eq
    intro i _
    have hbeyond : ¬ n + i < n := by omega
    simp [BitVec.getLsbD_ushiftRight, BitVec.getLsbD_xor, getLsbD_lowBits, hbeyond]
  calc crcSteps poly n c
      = crcSteps poly n ((c ^^^ lowBits n c) ^^^ lowBits n c) := by rw [← hsplit]
    _ = (c >>> n) ^^^ crcSteps poly n (lowBits n c) := by rw [crcSteps_xor, hhigh]

/-! ## Bit by bit -/

/-- One message bit: the register moves down, and the polynomial is folded in when the bit that
falls out differs from the message bit. -/
def crcBit (poly c : BitVec w) (b : Bool) : BitVec w :=
  if c.getLsbD 0 ^^ b then (c >>> 1) ^^^ poly else c >>> 1

/-- The bits of a byte, lowest first. -/
def byteBits (b : UInt8) : List Bool := (List.range 8).map b.toBitVec.getLsbD

/-- The register after a message, one bit at a time. -/
def crcBits (poly c : BitVec w) (msg : List UInt8) : BitVec w :=
  (msg.flatMap byteBits).foldl (crcBit poly) c

theorem crcStep_xor_bit (poly c x : BitVec w) :
    crcStep poly (c ^^^ x) = crcBit poly c (x.getLsbD 0) ^^^ (x >>> 1) := by
  simp only [crcStep, crcBit, BitVec.getLsbD_xor, BitVec.ushiftRight_xor_distrib]
  split
  · rw [BitVec.xor_assoc, BitVec.xor_comm (x >>> 1), ← BitVec.xor_assoc]
  · rfl

/-- Bits that were folded in at once come out as if they had been folded in one at a time. -/
theorem crcSteps_xor_bits (poly : BitVec w) (n : ℕ) (c x : BitVec w) :
    crcSteps poly n (c ^^^ x) = ((List.range n).map x.getLsbD).foldl (crcBit poly) c ^^^
      (x >>> n) := by
  induction n generalizing c x with
  | zero => simp [crcSteps]
  | succ n ih =>
    have hshift : (fun i => (x >>> 1).getLsbD i) = x.getLsbD ∘ Nat.succ := by
      funext i
      rw [BitVec.getLsbD_ushiftRight, Nat.add_comm]
      rfl
    rw [crcSteps, crcStep_xor_bit, ih, List.range_succ_eq_map, List.map_cons, List.map_map,
      List.foldl_cons, ← BitVec.shiftRight_add, Nat.add_comm 1 n]
    exact congrArg (fun f => (List.map f (List.range n)).foldl (crcBit poly) _ ^^^ x >>> (n + 1))
      hshift

theorem crcByte_eq_bits (poly c : BitVec w) (hw : 8 ≤ w) (b : UInt8) :
    crcByte poly c b = (byteBits b).foldl (crcBit poly) c := by
  have hbits : (List.range 8).map (b.toBitVec.setWidth w).getLsbD = byteBits b := by
    apply List.map_congr_left
    intro i hi
    have hiw : i < w := by rw [List.mem_range] at hi; omega
    simp [hiw]
  have hgone : b.toBitVec.setWidth w >>> 8 = 0#w := by
    apply BitVec.eq_of_getLsbD_eq
    intro i _
    simp [BitVec.getLsbD_ushiftRight, BitVec.getLsbD_setWidth]
  rw [crcByte, crcSteps_xor_bits, hbits, hgone, BitVec.xor_zero]

/-- **Bytes and bits**: folding in whole bytes is folding in their bits, lowest first. -/
theorem foldl_crcByte (poly : BitVec w) (hw : 8 ≤ w) (msg : List UInt8) (c : BitVec w) :
    msg.foldl (crcByte poly) c = crcBits poly c msg := by
  induction msg generalizing c with
  | nil => rfl
  | cons b msg ih =>
    rw [List.foldl_cons, ih, crcByte_eq_bits poly c hw, crcBits, crcBits, List.flatMap_cons,
      List.foldl_append]

end Xasmos
