import Xasmos.Pci.Scan
import Mathlib.Tactic.IntervalCases
import Mathlib.Tactic.Ring

/-!
# Sizing base registers

A function follows the PCI rules when its base registers hold an aligned address with fixed low
bits, its status bits are cleared by writing ones, and nothing but its own writes changes it.
`read_bars` then records the base and size of each memory register, leaves the function as it found
it, and does not let it decode memory while a base register holds a temporary value.

## Main definitions

* `Bar` — a base register, or the pair of a 64-bit one, as the rules allow it.
* `FollowsPci` — a configuration space in which one function follows the rules.

## Main results

* `readBars_exact`.
-/
namespace Xasmos.Pci

open Function (update update_self update_of_ne)

variable {a align count fixed fl i k : ℕ} {bases : ℕ → UInt32} {d d' d₁ : PciDev}
  {mHi mLo raw rawHi : UInt32} {σ : Type}

/-! ## The rules -/

/-- How a base register takes a write: address bits below `align` cannot be set, and the bits of
`fixed` are hard-wired. -/
structure BaseRule where
  align : ℕ
  fixed : ℕ

variable {r r' : BaseRule}

def BaseRule.write (r : BaseRule) (v : UInt32) : UInt32 :=
  UInt32.ofNat (v.toNat / 2 ^ r.align * 2 ^ r.align + r.fixed)

/-- The base registers of the rules: unimplemented, an I/O register, a 32-bit memory register of
size `2 ^ k`, or the two halves of a 64-bit memory register of size `2 ^ k`. The flags `fl` of a
memory register hold its type in bits 1 and 2. -/
inductive Bar where
  | unimplemented
  | io (align fixed : ℕ) (h : align ≤ 32 ∧ fixed < 2 ^ align ∧ fixed % 2 = 1)
  | mem32 (k fl : ℕ) (hk : 4 ≤ k ∧ k ≤ 31) (hfl : fl < 16 ∧ fl % 2 = 0 ∧ fl / 2 % 4 ≠ 2)
  | mem64 (k fl : ℕ) (hk : 4 ≤ k ∧ k ≤ 63) (hfl : fl < 16 ∧ fl % 2 = 0 ∧ fl / 2 % 4 = 2)

variable {b : Bar}

/-- The registers of a slot or a pair of slots. -/
def Bar.rules : Bar → List BaseRule
  | .unimplemented => [⟨32, 0⟩]
  | .io align fixed _ => [⟨align, fixed⟩]
  | .mem32 k fl _ _ => [⟨k, fl⟩]
  | .mem64 k fl _ _ => [⟨min k 32, fl⟩, ⟨k - 32, 0⟩]

/-- The size in bytes of a memory register. -/
def Bar.size : Bar → ℕ
  | .mem32 k _ _ _ => 2 ^ k
  | .mem64 k _ _ _ => 2 ^ k
  | _ => 0

/-- The address in a memory register at slot `i`. -/
def Bar.base (bases : ℕ → UInt32) (i : ℕ) : Bar → ℕ
  | .mem32 _ fl _ _ => (bases i).toNat - fl
  | .mem64 _ fl _ _ => (bases (i + 1)).toNat * 2 ^ 32 + ((bases i).toNat - fl)
  | _ => 0

def rulesOf (bars : List Bar) : List BaseRule := bars.flatMap Bar.rules

/-- The registers with the slots they start at. -/
def placed : ℕ → List Bar → List (ℕ × Bar)
  | _, [] => []
  | i, b :: bars => (i, b) :: placed (i + b.rules.length) bars

/-- The registers of a function that sizing touches. -/
structure PciFn where
  bases : ℕ → UInt32
  command : UInt16
  status : UInt16

/-- How the command register takes a write: only `writable` bits can be set, `fixed` bits are
hard-wired, and a one written to a `sticky` status bit clears it. -/
structure CommandRule where
  writable : UInt16
  fixed : UInt16
  sticky : UInt16
  /-- Memory decoding is not hard-wired on. -/
  decode : fixed &&& 2 = 0

variable {cr : CommandRule}

def CommandRule.write (r : CommandRule) (v : UInt32) (f : PciFn) : PciFn :=
  { f with
    command := v.toUInt16 &&& r.writable ||| r.fixed
    status := f.status &&& ~~~((v >>> 16).toUInt16 &&& r.sticky) }

/-- The offset of base register `i`. -/
def barOff (i : ℕ) : UInt8 := pciBar0 + 4 * UInt8.ofNat i

/-- Function `k` of the configuration space follows the rules. -/
structure FollowsPci {σ : Type} (C : CfgSpace σ) (k : BusAddr) (rules : List BaseRule)
    (cr : CommandRule) (view : σ → PciFn) : Prop where
  slots : rules.length ≤ 6
  read_command : ∀ s, C.read (k.reg pciCmd) s =
    (view s).status.toUInt32 <<< 16 ||| (view s).command.toUInt32
  write_command : ∀ s v, view (C.write (k.reg pciCmd) v s) = cr.write v (view s)
  read_base : ∀ s i, i < rules.length → C.read (k.reg (barOff i)) s = (view s).bases i
  write_base : ∀ s i v r, rules[i]? = some r →
    view (C.write (k.reg (barOff i)) v s) =
      { view s with bases := update (view s).bases i (r.write v) }

/-- The registers hold values that they can hold. -/
structure Conforms (rules : List BaseRule) (cr : CommandRule) (f : PciFn) : Prop where
  bases : ∀ i r, rules[i]? = some r → r.write (f.bases i) = f.bases i
  command : f.command &&& cr.writable ||| cr.fixed = f.command

/-! ## Words -/

section Words

theorem toNat_clearFlags (x : UInt32) : (x &&& ~~~0xF).toNat = x.toNat / 16 * 16 := by
  have hmask : (~~~0xF : UInt32).toNat = (2 ^ 28 - 1) <<< 4 := by decide
  have hx := x.toNat_lt
  rw [UInt32.toNat_and, hmask]
  have hshift : x.toNat / 16 * 16 = (x.toNat >>> 4) <<< 4 := by
    rw [Nat.shiftLeft_eq, Nat.shiftRight_eq_div_pow]
  rw [hshift]
  apply Nat.eq_of_testBit_eq
  intro i
  rw [Nat.testBit_and, Nat.testBit_shiftLeft, Nat.testBit_shiftLeft, Nat.testBit_two_pow_sub_one,
    Nat.testBit_shiftRight]
  by_cases hi : 4 ≤ i
  · have hadd : 4 + (i - 4) = i := by omega
    rw [hadd]
    by_cases hlt : i < 32
    · have : i - 4 < 28 := by omega
      simp [hi, this]
    · have hbit : x.toNat.testBit i = false :=
        Nat.testBit_lt_two_pow (lt_of_lt_of_le hx (Nat.pow_le_pow_right (by decide) (by omega)))
      simp [hbit]
  · simp [hi]

theorem and_one_eq_zero_iff (x : UInt32) : x &&& 1 = 0 ↔ x.toNat % 2 = 0 := by
  rw [← UInt32.toNat_inj, UInt32.toNat_and]
  exact Iff.of_eq (congrArg (· = 0) (Nat.and_one_is_mod x.toNat))

theorem type_eq_two_iff (x : UInt32) : (x >>> 1) &&& 3 = 2 ↔ x.toNat / 2 % 4 = 2 := by
  have hthree : (3 : UInt32).toNat = 2 ^ 2 - 1 := rfl
  rw [← UInt32.toNat_inj, UInt32.toNat_and, UInt32.toNat_shiftRight, hthree,
    Nat.and_two_pow_sub_one_eq_mod, Nat.shiftRight_eq_div_pow]
  exact Iff.rfl

theorem toNat_join (h l : UInt32) :
    (h.toUInt64 <<< 32 ||| l.toUInt64).toNat = h.toNat * 2 ^ 32 + l.toNat := by
  have hh := h.toNat_lt
  have hl := l.toNat_lt
  have hshift : (h.toUInt64 <<< 32).toNat = h.toNat <<< 32 := by
    rw [UInt64.toNat_shiftLeft, UInt32.toNat_toUInt64]
    have : ((32 : UInt64).toNat % 64) = 32 := rfl
    rw [this, Nat.shiftLeft_eq]
    omega
  rw [UInt64.toNat_or, hshift, UInt32.toNat_toUInt64, ← Nat.shiftLeft_add_eq_or_of_lt hl,
    Nat.shiftLeft_eq]

theorem toNat_neg32 (x : UInt32) (hx : x ≠ 0) : (~~~x + 1).toNat = 2 ^ 32 - x.toNat := by
  have hlt := x.toNat_lt
  have hpos : x.toNat ≠ 0 := fun h => hx (UInt32.toNat_inj.mp h)
  have hone : (1 : UInt32).toNat = 1 := rfl
  rw [UInt32.toNat_add, UInt32.toNat_not, hone]
  have hsize : UInt32.size = 2 ^ 32 := rfl
  omega

theorem toNat_neg64 (x : UInt64) (hx : x ≠ 0) : (~~~x + 1).toNat = 2 ^ 64 - x.toNat := by
  have hlt := x.toNat_lt
  have hpos : x.toNat ≠ 0 := fun h => hx (UInt64.toNat_inj.mp h)
  have hone : (1 : UInt64).toNat = 1 := rfl
  rw [UInt64.toNat_add, UInt64.toNat_not, hone]
  have hsize : UInt64.size = 2 ^ 64 := rfl
  omega

end Words

/-! ## What a register reads back -/

/-- A register whose fixed bits are below its alignment. -/
structure BaseRule.Ok (r : BaseRule) : Prop where
  align : r.align ≤ 32
  fixed : r.fixed < 2 ^ r.align

theorem sixteen_le (ha : 4 ≤ a) : 16 ≤ 2 ^ a := Nat.pow_le_pow_right (by decide : 0 < 2) ha

theorem BaseRule.Ok.toNat_write (h : r.Ok) (v : UInt32) :
    (r.write v).toNat = v.toNat / 2 ^ r.align * 2 ^ r.align + r.fixed := by
  have hv := v.toNat_lt
  have hpow : 2 ^ (32 - r.align) * 2 ^ r.align = 2 ^ 32 := by
    rw [← Nat.pow_add, Nat.sub_add_cancel h.align]
  have hdiv : v.toNat / 2 ^ r.align + 1 ≤ 2 ^ (32 - r.align) :=
    Nat.div_lt_of_lt_mul (by rw [Nat.mul_comm, hpow]; exact hv)
  have hle := Nat.mul_le_mul_right (2 ^ r.align) hdiv
  rw [hpow, Nat.add_mul, Nat.one_mul] at hle
  have hfixed := h.fixed
  rw [BaseRule.write, UInt32.toNat_ofNat_of_lt' (by show _ < 2 ^ 32; omega)]

/-- The size mask. -/
theorem BaseRule.Ok.toNat_ones (h : r.Ok) :
    (r.write 0xFFFFFFFF).toNat = 2 ^ 32 - 2 ^ r.align + r.fixed := by
  have hones : ∀ a ≤ 32, (2 ^ 32 - 1) / 2 ^ a * 2 ^ a = 2 ^ 32 - 2 ^ a := by
    intro a ha
    interval_cases a <;> rfl
  rw [h.toNat_write, ← hones r.align h.align]
  rfl

section Decode

/-- An aligned address with flags, without the flags. -/
theorem clear_flags {q : ℕ} (ha : 4 ≤ a) (hfl : fl < 16) :
    (q * 2 ^ a + fl) / 16 * 16 = q * 2 ^ a := by
  have hpow : 2 ^ a = 16 * 2 ^ (a - 4) := by
    rw [show (16 : ℕ) = 2 ^ 4 from rfl, ← Nat.pow_add]
    congr 1
    omega
  have hq : q * 2 ^ a = 16 * (q * 2 ^ (a - 4)) := by
    rw [hpow]
    ring
  rw [hq]
  omega

/-- The flags of a register decide how it is read. -/
theorem toNat_eq_of_write (hr : r.Ok) (hraw : r.write raw = raw) :
    raw.toNat = raw.toNat / 2 ^ r.align * 2 ^ r.align + r.fixed := by
  have h := hr.toNat_write raw
  rw [hraw] at h
  exact h

theorem toNat_clearFlags_of_write (ha : 4 ≤ a ∧ a ≤ 32) (hfl : fl < 16)
    (hraw : (BaseRule.mk a fl).write raw = raw) :
    (raw &&& ~~~0xF).toNat = raw.toNat - fl ∧ raw.toNat % 16 = fl := by
  have hok : (BaseRule.mk a fl).Ok := ⟨ha.2, lt_of_lt_of_le hfl (sixteen_le ha.1)⟩
  have heq := toNat_eq_of_write hok hraw
  have hclear := clear_flags (q := raw.toNat / 2 ^ a) ha.1 hfl
  dsimp only at heq
  rw [← heq] at hclear
  rw [toNat_clearFlags]
  omega

theorem toNat_mask (ha : 4 ≤ a ∧ a ≤ 32) (hfl : fl < 16) :
    ((BaseRule.mk a fl).write 0xFFFFFFFF &&& ~~~0xF).toNat = 2 ^ 32 - 2 ^ a := by
  have hok : (BaseRule.mk a fl).Ok := ⟨ha.2, lt_of_lt_of_le hfl (sixteen_le ha.1)⟩
  rw [toNat_clearFlags, hok.toNat_ones]
  have hmul : 2 ^ 32 - 2 ^ a = (2 ^ (32 - a) - 1) * 2 ^ a := by
    rw [Nat.sub_mul, ← Nat.pow_add, Nat.sub_add_cancel ha.2, Nat.one_mul]
  dsimp only
  rw [hmul]
  exact clear_flags ha.1 hfl

theorem pciDecodeBar_mem32 (hk : 4 ≤ k ∧ k ≤ 31) (hfl : fl < 16 ∧ fl % 2 = 0 ∧ fl / 2 % 4 ≠ 2)
    (hraw : (BaseRule.mk k fl).write raw = raw) (rawHi mHi : UInt32) :
    raw &&& 1 = 0 ∧ (raw >>> 1) &&& 3 ≠ 2 ∧
      ∃ base size, pciDecodeBar raw rawHi ((BaseRule.mk k fl).write 0xFFFFFFFF) mHi =
        some (false, base, size) ∧
        base.toNat = raw.toNat - fl ∧ size.toNat = 2 ^ k := by
  have hk' : 4 ≤ k ∧ k ≤ 32 := ⟨hk.1, by omega⟩
  obtain ⟨hbase, hmod⟩ := toNat_clearFlags_of_write hk' hfl.1 hraw
  have hmask := toNat_mask hk' hfl.1
  have hio : raw &&& 1 = 0 := by
    rw [and_one_eq_zero_iff]
    omega
  have htype : (raw >>> 1) &&& 3 ≠ 2 := by
    rw [ne_eq, type_eq_two_iff]
    omega
  have hpow : 2 ^ k ≤ 2 ^ 31 := Nat.pow_le_pow_right (by decide) hk.2
  have hne : (BaseRule.mk k fl).write 0xFFFFFFFF &&& ~~~0xF ≠ 0 := by
    intro h0
    rw [h0] at hmask
    change 0 = 2 ^ 32 - 2 ^ k at hmask
    omega
  refine ⟨hio, htype, _, _,
    by simp only [pciDecodeBar, hio, ne_eq, not_true_eq_false, if_false, htype, hne]; rfl, ?_, ?_⟩
  · rw [UInt32.toNat_toUInt64, hbase]
  · rw [UInt32.toNat_toUInt64, toNat_neg32 _ hne, hmask]
    have hpos := Nat.two_pow_pos k
    omega

theorem pciDecodeBar_mem64 (hk : 4 ≤ k ∧ k ≤ 63) (hfl : fl < 16 ∧ fl % 2 = 0 ∧ fl / 2 % 4 = 2)
    (hraw : (BaseRule.mk (min k 32) fl).write raw = raw) (rawHi : UInt32) :
    raw &&& 1 = 0 ∧ (raw >>> 1) &&& 3 = 2 ∧
      ∃ base size, pciDecodeBar raw rawHi ((BaseRule.mk (min k 32) fl).write 0xFFFFFFFF)
        ((BaseRule.mk (k - 32) 0).write 0xFFFFFFFF) =
          some (true, base, size) ∧ base.toNat = rawHi.toNat * 2 ^ 32 + (raw.toNat - fl) ∧
            size.toNat = 2 ^ k := by
  have hk' : 4 ≤ min k 32 ∧ min k 32 ≤ 32 := by omega
  obtain ⟨hbase, hmod⟩ := toNat_clearFlags_of_write hk' hfl.1 hraw
  have hmask := toNat_mask hk' hfl.1
  have hhigh : ((BaseRule.mk (k - 32) 0).write 0xFFFFFFFF).toNat = 2 ^ 32 - 2 ^ (k - 32) := by
    have hok : (BaseRule.mk (k - 32) 0).Ok := ⟨by dsimp only; omega, Nat.two_pow_pos _⟩
    rw [hok.toNat_ones]
    rfl
  have hio : raw &&& 1 = 0 := by
    rw [and_one_eq_zero_iff]
    omega
  have htype : (raw >>> 1) &&& 3 = 2 := by
    rw [type_eq_two_iff]
    omega
  have hpos := Nat.two_pow_pos k
  have hpow : 2 ^ k ≤ 2 ^ 63 := Nat.pow_le_pow_right (by decide) hk.2
  -- the two halves of the mask together are the mask of the size
  have hjoin : (((BaseRule.mk (k - 32) 0).write 0xFFFFFFFF).toUInt64 <<< 32 |||
      ((BaseRule.mk (min k 32) fl).write 0xFFFFFFFF &&& ~~~0xF).toUInt64).toNat =
        2 ^ 64 - 2 ^ k := by
    rw [toNat_join, hmask, hhigh]
    rcases Nat.le_total k 32 with hle | hle
    · rw [Nat.min_eq_left hle, Nat.sub_eq_zero_of_le hle]
      have : 2 ^ k ≤ 2 ^ 32 := Nat.pow_le_pow_right (by decide) hle
      omega
    · have hsplit : 2 ^ k = 2 ^ (k - 32) * 2 ^ 32 := by
        rw [← Nat.pow_add, Nat.sub_add_cancel hle]
      rw [Nat.min_eq_right hle, Nat.sub_mul, hsplit]
      omega
  have hne : ((BaseRule.mk (k - 32) 0).write 0xFFFFFFFF).toUInt64 <<< 32 |||
      ((BaseRule.mk (min k 32) fl).write 0xFFFFFFFF &&& ~~~0xF).toUInt64 ≠ 0 := by
    intro h0
    rw [h0] at hjoin
    change 0 = 2 ^ 64 - 2 ^ k at hjoin
    omega
  refine ⟨hio, htype, _, _, by
    simp only [pciDecodeBar, hio, ne_eq, not_true_eq_false, if_false, htype, if_true, hne]
    rfl, ?_, ?_⟩
  · rw [toNat_join, hbase]
  · rw [toNat_neg64 _ hne, hjoin]
    omega

end Decode

/-! ## The command register -/

section Command

variable (st c : UInt16)

theorem toNat_command :
    (st.toUInt32 <<< 16 ||| c.toUInt32).toNat = st.toNat * 2 ^ 16 + c.toNat := by
  have hst := st.toNat_lt
  have hc := c.toNat_lt
  have hshift : (st.toUInt32 <<< 16).toNat = st.toNat <<< 16 := by
    rw [UInt32.toNat_shiftLeft, UInt16.toNat_toUInt32]
    have : ((16 : UInt32).toNat % 32) = 16 := rfl
    rw [this, Nat.shiftLeft_eq]
    omega
  rw [UInt32.toNat_or, hshift, UInt16.toNat_toUInt32, ← Nat.shiftLeft_add_eq_or_of_lt hc,
    Nat.shiftLeft_eq]

/-- A word masked to 16 bits or fewer writes zeros to the status half. -/
theorem shiftRight_masked (x m : UInt32) (hm : m.toNat < 2 ^ 16) : (x &&& m) >>> 16 = 0 := by
  have hand : (x &&& m).toNat < 2 ^ 16 := by
    rw [UInt32.toNat_and]
    exact lt_of_le_of_lt Nat.and_le_right hm
  rw [← UInt32.toNat_inj, UInt32.toNat_shiftRight, Nat.shiftRight_eq_div_pow]
  exact Nat.div_eq_of_lt hand

theorem toUInt16_masked (m : UInt32) :
    ((st.toUInt32 <<< 16 ||| c.toUInt32) &&& m).toUInt16 = c &&& m.toUInt16 := by
  have hc := c.toNat_lt
  rw [← UInt16.toNat_inj, UInt32.toNat_toUInt16, UInt32.toNat_and, toNat_command, UInt16.toNat_and,
    UInt32.toNat_toUInt16, Nat.and_mod_two_pow]
  congr 1
  omega

end Command

/-! ## One register -/

theorem reg_mod (k : BusAddr) (off : UInt8) : (k.reg off).toNat % 2 ^ 8 = off.toNat &&& 0xFC := by
  have hshift : ∀ (x : UInt8) (n : UInt32), 8 ≤ n.toNat % 32 →
      (x.toUInt32 <<< n).toNat % 2 ^ 8 = 0 := by
    intro x n hn
    rw [UInt32.toNat_shiftLeft, Nat.mod_mod_of_dvd _ (by decide), Nat.shiftLeft_eq]
    have hdvd : 2 ^ 8 ∣ 2 ^ (n.toNat % 32) := Nat.pow_dvd_pow 2 hn
    exact Nat.mod_eq_zero_of_dvd (Dvd.dvd.mul_left hdvd _)
  have hlast : (off.toUInt32 &&& 0xFC).toNat % 2 ^ 8 = off.toNat &&& 0xFC := by
    have hlt := off.toNat_lt
    rw [UInt32.toNat_and, UInt8.toNat_toUInt32, Nat.mod_eq_of_lt]
    · rfl
    · exact lt_of_le_of_lt Nat.and_le_left hlt
  simp only [BusAddr.reg, cfgAddr, UInt32.toNat_or, Nat.or_mod_two_pow]
  rw [hshift _ _ (by decide), hshift _ _ (by decide), hshift _ _ (by decide), hlast]
  simp

theorem reg_ne_command (k : BusAddr) (hi : i < 6) : k.reg (barOff i) ≠ k.reg pciCmd := by
  intro h
  have hmod := congrArg (fun x : UInt32 => x.toNat % 2 ^ 8) h
  simp only [reg_mod] at hmod
  interval_cases i <;> revert hmod <;> decide

section Sizing

variable {C : CfgSpace σ} {k : BusAddr} {rules : List BaseRule} {view : σ → PciFn} {f : PciFn}
  {m p : Machine σ}

/-- A write that no one can notice: it writes no one to a status bit, and if it leaves a temporary
value in a base register then the function decodes no memory and interrupts are off. -/
structure AccessOk (k : BusAddr) (view : σ → PciFn) (f : PciFn) (a : Access σ) : Prop where
  status : a.addr = k.reg pciCmd → a.value >>> 16 = 0
  hidden : (view a.cfg).bases ≠ f.bases → (view a.cfg).command &&& 2 = 0 ∧ a.interrupts = false

/-- The machine is back where it was. -/
structure Unnoticed (k : BusAddr) (view : σ → PciFn) (m m' : Machine σ) : Prop where
  view_eq : view m'.cfg = view m.cfg
  interrupts : m'.interrupts = m.interrupts
  trace : ∀ a ∈ m'.trace, a ∈ m.trace ∨ AccessOk k view (view m.cfg) a

theorem Unnoticed.refl (m : Machine σ) : Unnoticed k view m m := ⟨rfl, rfl, fun _ => Or.inl⟩

theorem Unnoticed.trans {m' m'' : Machine σ} (h : Unnoticed k view m m')
    (h' : Unnoticed k view m' m'') : Unnoticed k view m m'' := by
  refine ⟨h'.view_eq.trans h.view_eq, h'.interrupts.trans h.interrupts, ?_⟩
  intro a ha
  rcases h'.trace a ha with ha | ha
  · exact h.trace a ha
  · rw [h.view_eq] at ha
    exact Or.inr ha

/-- Between the two writes to the command register: memory decoding and interrupts are off. -/
structure Hidden (k : BusAddr) (view : σ → PciFn) (m p : Machine σ) : Prop where
  status : (view p.cfg).status = (view m.cfg).status
  command : (view p.cfg).command &&& 2 = 0
  interrupts : p.interrupts = false
  trace : ∀ a ∈ p.trace, a ∈ m.trace ∨ AccessOk k view (view m.cfg) a

/-- A base register may be written in between. -/
theorem Hidden.write (h : Hidden k view m p) (hC : FollowsPci C k rules cr view)
    (hi : rules[i]? = some r) (v : UInt32) :
    Hidden k view m (pciWrite32 C k.bus k.dev k.fn (barOff i) v p) := by
  have hlt : i < 6 := lt_of_lt_of_le (List.getElem?_eq_some_iff.mp hi).1 hC.slots
  have hview : view (pciWrite32 C k.bus k.dev k.fn (barOff i) v p).cfg = _ :=
    hC.write_base p.cfg i v r hi
  refine ⟨by rw [hview]; exact h.status, by rw [hview]; exact h.command, h.interrupts, ?_⟩
  intro a ha
  rcases List.mem_cons.mp ha with rfl | ha
  · refine Or.inr ⟨fun heq => absurd heq (reg_ne_command k hlt), fun _ => ⟨?_, h.interrupts⟩⟩
    exact (congrArg (fun f => f.command &&& 2) hview).trans h.command
  · exact h.trace a ha

/-- All ones, read back, and the old value. -/
theorem Hidden.sizeRegister (h : Hidden k view m p)
    (hbases : (view p.cfg).bases = (view m.cfg).bases) (hC : FollowsPci C k rules cr view)
    (hi : rules[i]? = some r) (hraw : r.write ((view m.cfg).bases i) = (view m.cfg).bases i) :
    (sizeRegister C k.bus k.dev k.fn (barOff i) ((view m.cfg).bases i) p).1 = r.write 0xFFFFFFFF ∧
      Hidden k view m (sizeRegister C k.bus k.dev k.fn (barOff i) ((view m.cfg).bases i) p).2 ∧
      (view (sizeRegister C k.bus k.dev k.fn (barOff i) ((view m.cfg).bases i) p).2.cfg).bases =
        (view m.cfg).bases := by
  have hones := hC.write_base p.cfg i 0xFFFFFFFF r hi
  have hback := hC.write_base (C.write (k.reg (barOff i)) 0xFFFFFFFF p.cfg) i
    ((view m.cfg).bases i) r hi
  refine ⟨?_, (h.write hC hi _).write hC hi _, ?_⟩
  · refine (hC.read_base _ i (List.getElem?_eq_some_iff.mp hi).1).trans ?_
    exact (congrFun (congrArg PciFn.bases hones) i).trans (update_self ..)
  · refine (congrArg PciFn.bases hback).trans ?_
    rw [hones, hraw, hbases]
    dsimp only
    rw [Function.update_idem, Function.update_eq_self]

/-- A command word masked to its low half, written back. -/
theorem view_write_command (hC : FollowsPci C k rules cr view) (s₀ s : σ) (mask : UInt32)
    (hmask : mask.toNat < 2 ^ 16) :
    view (C.write (k.reg pciCmd) (C.read (k.reg pciCmd) s₀ &&& mask) s) =
      ⟨(view s).bases, (view s₀).command &&& mask.toUInt16 &&& cr.writable ||| cr.fixed,
        (view s).status⟩ := by
  rw [hC.write_command, CommandRule.write, shiftRight_masked _ _ hmask, hC.read_command,
    toUInt16_masked]
  have hzero : (0 : UInt32).toUInt16 &&& cr.sticky = 0 := UInt16.zero_and
  rw [hzero, UInt16.not_zero, UInt16.and_neg_one]

theorem command_off (cr : CommandRule) (c : UInt16) :
    (c &&& (0xFFFD : UInt32).toUInt16 &&& cr.writable ||| cr.fixed) &&& 2 = 0 := by
  have hbit : (0xFFFD : UInt32).toUInt16 &&& 2 = 0 := by decide
  have hdistrib : ∀ x y z : UInt16, (x ||| y) &&& z = x &&& z ||| y &&& z := by
    intro x y z
    simp only [← UInt16.toNat_inj, UInt16.toNat_and, UInt16.toNat_or, Nat.and_or_distrib_right]
  rw [hdistrib, cr.decode, UInt16.or_zero, UInt16.and_assoc, UInt16.and_comm cr.writable,
    ← UInt16.and_assoc, UInt16.and_assoc c, hbit, UInt16.and_zero, UInt16.zero_and]

/-- Memory decoding is switched off. -/
theorem hidden_start (hC : FollowsPci C k rules cr view) (m : Machine σ) :
    Hidden k view m (pciWrite32 C k.bus k.dev k.fn pciCmd
      (pciRead32 C k.bus k.dev k.fn pciCmd m &&& 0xFFFD) { m with interrupts := false }) ∧
      (view (pciWrite32 C k.bus k.dev k.fn pciCmd (pciRead32 C k.bus k.dev k.fn pciCmd m &&& 0xFFFD)
        { m with interrupts := false }).cfg).bases = (view m.cfg).bases := by
  have hview := view_write_command hC m.cfg m.cfg 0xFFFD (by decide)
  have hoff : (view (C.write (k.reg pciCmd)
      (C.read (k.reg pciCmd) m.cfg &&& 0xFFFD) m.cfg)).command &&& 2 = 0 := by
    rw [hview]
    exact command_off cr _
  refine ⟨⟨(congrArg PciFn.status hview).trans rfl, hoff, rfl, ?_⟩,
    (congrArg PciFn.bases hview).trans rfl⟩
  intro a ha
  rcases List.mem_cons.mp ha with rfl | ha
  · exact Or.inr ⟨fun _ => shiftRight_masked _ _ (by decide), fun _ => ⟨hoff, rfl⟩⟩
  · exact Or.inl ha

/-- The command register is restored. -/
theorem Hidden.finish (h : Hidden k view m p) (hbases : (view p.cfg).bases = (view m.cfg).bases)
    (hC : FollowsPci C k rules cr view) (hf : Conforms rules cr (view m.cfg)) {q : Machine σ}
    (hq : q = pciWrite32 C k.bus k.dev k.fn pciCmd
      (pciRead32 C k.bus k.dev k.fn pciCmd m &&& 0xFFFF) p) :
    Unnoticed k view m (if m.interrupts then { q with interrupts := true } else q) := by
  have hview := view_write_command hC m.cfg p.cfg 0xFFFF (by decide)
  have hall : (view m.cfg).command &&& (0xFFFF : UInt32).toUInt16 = (view m.cfg).command :=
    UInt16.and_neg_one
  rw [hall, hf.command] at hview
  have hback : view q.cfg = view m.cfg := by
    rw [hq]
    refine hview.trans ?_
    rw [hbases, h.status]
  have htrace : ∀ a ∈ q.trace, a ∈ m.trace ∨ AccessOk k view (view m.cfg) a := by
    intro a ha
    rw [hq] at ha
    rcases List.mem_cons.mp ha with rfl | ha
    · refine Or.inr ⟨fun _ => shiftRight_masked _ _ (by decide), fun hne => absurd ?_ hne⟩
      exact (congrArg PciFn.bases hview).trans hbases
    · exact h.trace a ha
  have hint : q.interrupts = false := by
    rw [hq]
    exact h.interrupts
  cases hm : m.interrupts with
  | true => exact ⟨hback, hm.symm, htrace⟩
  | false => exact ⟨hback, hint.trans hm.symm, htrace⟩

theorem sizeBar_spec32 (hC : FollowsPci C k rules cr view) (hf : Conforms rules cr (view m.cfg))
    (hi : rules[i]? = some r) (rawHi : UInt32) :
    (sizeBar C k.bus k.dev k.fn (barOff i) false ((view m.cfg).bases i) rawHi m).1 =
      (r.write 0xFFFFFFFF, 0) ∧
      Unnoticed k view m (sizeBar C k.bus k.dev k.fn (barOff i) false
        ((view m.cfg).bases i) rawHi m).2 := by
  obtain ⟨hstart, hb⟩ := hidden_start hC m
  obtain ⟨hlow, hh, hb'⟩ := hstart.sizeRegister hb hC hi (hf.bases i r hi)
  exact ⟨Prod.ext hlow rfl, hh.finish hb' hC hf rfl⟩

theorem sizeBar_spec64 (hC : FollowsPci C k rules cr view) (hf : Conforms rules cr (view m.cfg))
    (hi : rules[i]? = some r) (hi' : rules[i + 1]? = some r') :
    (sizeBar C k.bus k.dev k.fn (barOff i) true ((view m.cfg).bases i)
      ((view m.cfg).bases (i + 1)) m).1 =
        (r.write 0xFFFFFFFF, r'.write 0xFFFFFFFF) ∧
      Unnoticed k view m (sizeBar C k.bus k.dev k.fn (barOff i) true ((view m.cfg).bases i)
        ((view m.cfg).bases (i + 1)) m).2 := by
  obtain ⟨hstart, hb⟩ := hidden_start hC m
  obtain ⟨hlow, hh, hb'⟩ := hstart.sizeRegister hb hC hi (hf.bases i r hi)
  obtain ⟨hhigh, hh', hb''⟩ := hh.sizeRegister hb' hC hi' (hf.bases (i + 1) r' hi')
  have hoff : barOff i + 4 = barOff (i + 1) := barOff_succ i
  unfold sizeBar
  rw [hoff]
  exact ⟨Prod.ext hlow hhigh, hh'.finish hb'' hC hf rfl⟩

end Sizing

/-! ## The loop -/

section Loop

variable {C : CfgSpace σ} {rules rest : List BaseRule} {view : σ → PciFn} {m : Machine σ}

/-- What is recorded of a register: its base and size, and nothing else changes. -/
structure Recorded (bases : ℕ → UInt32) (i : ℕ) (b : Bar) (d d' : PciDev) : Prop where
  base : (d'.bar i).toNat = b.base bases i
  size : (d'.barSize i).toNat = b.size
  other : ∀ j, j ≠ i → d'.bar j = d.bar j ∧ d'.barSize j = d.barSize j
  addr : d'.addr = d.addr

/-- A register that is no memory register. -/
theorem Recorded.none (hbar : d.bar i = 0) (hsize : d.barSize i = 0) (hb : b.base bases i = 0)
    (hs : b.size = 0) : Recorded bases i b d d :=
  ⟨by rw [hbar, hb]; rfl, by rw [hsize, hs]; rfl, fun _ _ => ⟨rfl, rfl⟩, rfl⟩

theorem Recorded.some {base size : UInt64} (hb : base.toNat = b.base bases i)
    (hs : size.toNat = b.size) :
    Recorded bases i b d
      { d with bar := update d.bar i base, barSize := update d.barSize i size } := by
  refine ⟨by simpa using hb, by simpa using hs, ?_, rfl⟩
  intro j hj
  exact ⟨update_of_ne hj _ _, update_of_ne hj _ _⟩

theorem odd_of_io (h : align ≤ 32 ∧ fixed < 2 ^ align ∧ fixed % 2 = 1)
    (hraw : (BaseRule.mk align fixed).write raw = raw) : raw &&& 1 ≠ 0 := by
  have heq := toNat_eq_of_write ⟨h.1, h.2.1⟩ hraw
  dsimp only at heq
  have heven : 2 ^ align % 2 = 0 := by
    cases align with
    | zero =>
      have := h.2
      omega
    | succ a => rw [Nat.pow_succ, Nat.mul_mod_left]
  rw [ne_eq, and_one_eq_zero_iff, heq, Nat.add_mod, Nat.mul_mod, heven]
  have := h.2.2
  omega

/-- A turn at a register that is not the low half of a 64-bit one. -/
theorem barTurn_narrow (hraw : pciRead32 C d.bus d.dev d.fn (pciBar0 + 4 * UInt8.ofNat i) m = raw)
    (hio : raw &&& 1 = 0) (htype : (raw >>> 1) &&& 3 ≠ 2)
    (hsized : (sizeBar C d.bus d.dev d.fn (barOff i) false raw 0 m).1 = (mLo, mHi)) :
    barTurn C count i d m = ((recordBar i d (pciDecodeBar raw 0 mLo mHi)).1,
      (recordBar i d (pciDecodeBar raw 0 mLo mHi)).2,
      (sizeBar C d.bus d.dev d.fn (barOff i) false raw 0 m).2) := by
  rw [barOff] at hsized ⊢
  simp only [barTurn, hraw, hio, htype, decide_false, ne_eq, not_true_eq_false, if_false,
    Bool.false_eq_true, false_and, hsized]

/-- A turn at the low half of a 64-bit register. -/
theorem barTurn_wide (hraw : pciRead32 C d.bus d.dev d.fn (pciBar0 + 4 * UInt8.ofNat i) m = raw)
    (hhigh : pciRead32 C d.bus d.dev d.fn (pciBar0 + 4 * UInt8.ofNat i + 4) m = rawHi)
    (hio : raw &&& 1 = 0) (htype : (raw >>> 1) &&& 3 = 2) (hcount : i + 1 ≠ count)
    (hsized : (sizeBar C d.bus d.dev d.fn (barOff i) true raw rawHi m).1 = (mLo, mHi)) :
    barTurn C count i d m = ((recordBar i d (pciDecodeBar raw rawHi mLo mHi)).1,
      (recordBar i d (pciDecodeBar raw rawHi mLo mHi)).2,
      (sizeBar C d.bus d.dev d.fn (barOff i) true raw rawHi m).2) := by
  rw [barOff] at hsized ⊢
  simp only [barTurn, hraw, hhigh, hio, htype, decide_true, ne_eq, not_true_eq_false, if_false,
    hcount, and_false, if_true, hsized]

/-- One turn reads one register of the rules, or both halves of a 64-bit one. -/
theorem barTurn_spec (hC : FollowsPci C d.addr rules cr view) (hf : Conforms rules cr (view m.cfg))
    (b : Bar) (hrules : rules.drop i = b.rules ++ rest) (hbar : d.bar i = 0)
    (hsize : d.barSize i = 0) :
    ∃ d' m', barTurn C rules.length i d m = (i + b.rules.length, d', m') ∧
      Recorded (view m.cfg).bases i b d d' ∧
      Unnoticed d.addr view m m' := by
  have hat : ∀ j r, (b.rules ++ rest)[j]? = some r → rules[i + j]? = some r := by
    intro j r hr
    rw [← hrules, List.getElem?_drop] at hr
    exact hr
  have hread : ∀ r, rules[i]? = some r →
      pciRead32 C d.bus d.dev d.fn (pciBar0 + 4 * UInt8.ofNat i) m = (view m.cfg).bases i :=
    fun r hr => hC.read_base m.cfg i (List.getElem?_eq_some_iff.mp hr).1
  cases b with
  | unimplemented =>
    have hi : rules[i]? = some ⟨32, 0⟩ := hat 0 _ rfl
    have hok : (BaseRule.mk 32 0).Ok := ⟨le_refl _, by decide⟩
    have hzero : (view m.cfg).bases i = 0 := by
      have := toNat_eq_of_write hok (hf.bases i _ hi)
      have hlt := ((view m.cfg).bases i).toNat_lt
      rw [Nat.div_eq_of_lt hlt] at this
      exact UInt32.toNat_inj.mp this
    have hones : (BaseRule.mk 32 0).write 0xFFFFFFFF = 0 := UInt32.toNat_inj.mp hok.toNat_ones
    obtain ⟨hval, hun⟩ := sizeBar_spec32 hC hf hi 0
    rw [hones] at hval
    refine ⟨d, _, (barTurn_narrow (hread _ hi) (by rw [hzero]; rfl)
      (by rw [hzero]; decide) hval).trans ?_,
      Recorded.none hbar hsize rfl rfl, hun⟩
    have hdec : pciDecodeBar ((view m.cfg).bases i) 0 0 0 = none := by
      rw [hzero]
      decide
    rw [hdec]
    rfl
  | io align fixed h =>
    have hi : rules[i]? = some ⟨align, fixed⟩ := hat 0 _ rfl
    have hodd := odd_of_io h (hf.bases i _ hi)
    refine ⟨d, m, ?_, Recorded.none hbar hsize rfl rfl, Unnoticed.refl m⟩
    simp only [barTurn, hread _ hi]
    rw [if_pos hodd]
    rfl
  | mem32 k fl hk hfl =>
    have hi : rules[i]? = some ⟨k, fl⟩ := hat 0 _ rfl
    obtain ⟨hval, hun⟩ := sizeBar_spec32 hC hf hi 0
    obtain ⟨hio, htype, base, size, hdec, hb, hs⟩ := pciDecodeBar_mem32 hk hfl (hf.bases i _ hi) 0 0
    refine ⟨_, _, (barTurn_narrow (hread _ hi) hio htype hval).trans ?_, Recorded.some hb hs, hun⟩
    rw [hdec]
    rfl
  | mem64 k fl hk hfl =>
    have hi : rules[i]? = some ⟨min k 32, fl⟩ := hat 0 _ rfl
    have hi' : rules[i + 1]? = some ⟨k - 32, 0⟩ := hat 1 _ rfl
    have hlt : i + 1 < rules.length := (List.getElem?_eq_some_iff.mp hi').1
    have hhigh : pciRead32 C d.bus d.dev d.fn (pciBar0 + 4 * UInt8.ofNat i + 4) m =
        (view m.cfg).bases (i + 1) := by
      rw [barOff_succ]
      exact hC.read_base m.cfg (i + 1) hlt
    obtain ⟨hval, hun⟩ := sizeBar_spec64 hC hf hi hi'
    obtain ⟨hio, htype, base, size, hdec, hb, hs⟩ :=
      pciDecodeBar_mem64 hk hfl (hf.bases i _ hi) ((view m.cfg).bases (i + 1))
    refine ⟨_, _, (barTurn_wide (hread _ hi) hhigh hio htype (by omega) hval).trans ?_,
      Recorded.some hb hs, hun⟩
    rw [hdec]
    rfl

/-- What the loop has recorded from slot `i` on. -/
structure BarsRead (bases : ℕ → UInt32) (i : ℕ) (bars : List Bar) (d d' : PciDev) : Prop where
  memory : ∀ j b, (j, b) ∈ placed i bars → (d'.bar j).toNat = b.base bases j ∧
    (d'.barSize j).toNat = b.size
  unused : ∀ j, i ≤ j → (∀ b, (j, b) ∉ placed i bars) → d'.bar j = 0 ∧ d'.barSize j = 0
  before : ∀ j < i, d'.bar j = d.bar j ∧ d'.barSize j = d.barSize j

theorem BarsRead.cons {bars : List Bar} (hzero : ∀ j, i ≤ j → d.bar j = 0 ∧ d.barSize j = 0)
    (h₁ : Recorded bases i b d d₁) (h : BarsRead bases (i + b.rules.length) bars d₁ d')
    (hlen : 0 < b.rules.length) : BarsRead bases i (b :: bars) d d' := by
  have hfirst := h.before i (by omega)
  refine ⟨?_, ?_, ?_⟩
  · intro j b' hmem
    rcases List.mem_cons.mp hmem with heq | hmem
    · obtain ⟨rfl, rfl⟩ := Prod.mk.inj heq
      rw [hfirst.1, hfirst.2]
      exact ⟨h₁.base, h₁.size⟩
    · exact h.memory j b' hmem
  · intro j hj hnone
    have hne : j ≠ i := by
      rintro rfl
      exact hnone b List.mem_cons_self
    rcases Nat.lt_or_ge j (i + b.rules.length) with hlt | hge
    · -- the high half of a 64-bit register
      rw [(h.before j hlt).1, (h.before j hlt).2, (h₁.other j hne).1, (h₁.other j hne).2]
      exact hzero j hj
    · exact h.unused j hge fun b' hmem => hnone b' (List.mem_cons_of_mem _ hmem)
  · intro j hj
    rw [(h.before j (by omega)).1, (h.before j (by omega)).2]
    exact h₁.other j (by omega)

theorem Bar.length_rules_pos (b : Bar) : 0 < b.rules.length := by
  cases b <;> simp [Bar.rules]

theorem readBarsFrom_spec (bars : List Bar) (turns i : ℕ) (d : PciDev) (m : Machine σ)
    (hC : FollowsPci C d.addr rules cr view) (hf : Conforms rules cr (view m.cfg))
    (hrules : rules.drop i = rulesOf bars) (hturns : rules.length ≤ i + turns)
    (hzero : ∀ j, i ≤ j → d.bar j = 0 ∧ d.barSize j = 0) :
    BarsRead (view m.cfg).bases i bars d (readBarsFrom C rules.length turns i d m).1 ∧
      Unnoticed d.addr view m (readBarsFrom C rules.length turns i d m).2 := by
  induction bars generalizing turns i d m with
  | nil =>
    have hend : ¬ i < rules.length := Nat.not_lt.mpr (List.drop_eq_nil_iff.mp hrules)
    have hstop : readBarsFrom C rules.length turns i d m = (d, m) := by
      cases turns with
      | zero => rfl
      | succ turns => rw [readBarsFrom, if_neg hend]
    rw [hstop]
    exact ⟨⟨by simp [placed], fun j hj _ => hzero j hj, fun _ _ => ⟨rfl, rfl⟩⟩, Unnoticed.refl m⟩
  | cons b bars ih =>
    have hlen := b.length_rules_pos
    have hsplit : rules.drop i = b.rules ++ rulesOf bars := hrules
    have hlt : i < rules.length := by
      have := congrArg List.length hsplit
      rw [List.length_drop, List.length_append] at this
      omega
    obtain ⟨d₁, m₁, hturn, hrec, hun⟩ := barTurn_spec hC hf b hsplit (hzero i (Nat.le_refl _)).1
      (hzero i (Nat.le_refl _)).2
    cases turns with
    | zero => omega
    | succ turns =>
      rw [readBarsFrom, if_pos hlt]
      dsimp only
      rw [hturn]
      have hdrop : rules.drop (i + b.rules.length) = rulesOf bars := by
        rw [← List.drop_drop, hsplit, List.drop_left]
      obtain ⟨hread, hrest⟩ := ih turns (i + b.rules.length) d₁ m₁ (by rw [hrec.addr]; exact hC)
        (by rw [hun.view_eq]; exact hf)
        hdrop (by omega) fun j hj => by
          rw [(hrec.other j (by omega)).1, (hrec.other j (by omega)).2]
          exact hzero j (by omega)
      rw [hun.view_eq] at hread
      rw [hrec.addr] at hrest
      exact ⟨BarsRead.cons hzero hrec hread hlen, hun.trans hrest⟩

/-- **Sizing is exact and goes unnoticed**, for every function whose base registers follow the
rules. The base and size of each memory register are recorded at its slot and zeros everywhere else,
also at the high half of a 64-bit register. The function is left as it was found, interrupts too. No
write puts a one in a status bit, and memory decoding is off whenever a base register holds a
temporary value. -/
theorem readBars_exact (C : CfgSpace σ) (d : PciDev) (bars : List Bar) (cr : CommandRule)
    (view : σ → PciFn) (hC : FollowsPci C d.addr (rulesOf bars) cr view) (m : Machine σ)
    (hf : Conforms (rulesOf bars) cr (view m.cfg)) (htrace : m.trace = [])
    (hbar : d.bar = fun _ => 0) (hsize : d.barSize = fun _ => 0) :
    ((∀ i b, (i, b) ∈ placed 0 bars → ((readBars C d (rulesOf bars).length m).1.bar i).toNat =
      b.base (view m.cfg).bases i ∧
          ((readBars C d (rulesOf bars).length m).1.barSize i).toNat = b.size) ∧
        ∀ i, (∀ b, (i, b) ∉ placed 0 bars) →
          (readBars C d (rulesOf bars).length m).1.bar i = 0 ∧
            (readBars C d (rulesOf bars).length m).1.barSize i = 0) ∧
      view (readBars C d (rulesOf bars).length m).2.cfg = view m.cfg ∧
      (readBars C d (rulesOf bars).length m).2.interrupts = m.interrupts ∧
      ∀ a ∈ (readBars C d (rulesOf bars).length m).2.trace,
        (a.addr = d.addr.reg pciCmd → a.value >>> 16 = 0) ∧
        ((view a.cfg).bases ≠ (view m.cfg).bases → (view a.cfg).command &&& 2 = 0 ∧
          a.interrupts = false) := by
  obtain ⟨hread, hun⟩ := readBarsFrom_spec bars (rulesOf bars).length 0 d m hC hf rfl (by omega)
      fun j _ => by
    rw [hbar, hsize]
    exact ⟨rfl, rfl⟩
  refine ⟨⟨hread.memory, fun i hi => hread.unused i (Nat.zero_le _) hi⟩, hun.view_eq,
    hun.interrupts, ?_⟩
  intro a ha
  rcases hun.trace a ha with ha | ha
  · rw [htrace] at ha
    exact absurd ha List.not_mem_nil
  · exact ⟨ha.status, ha.hidden⟩

/-! ## A machine with one function -/

/-- The slot of a base register, from its address. -/
def slotOf (k : BusAddr) (a : UInt32) : Option ℕ := (List.range 6).find? fun i => a == k.reg
    (barOff i)

/-- A configuration space with one function, at `k`, and nothing else in it. -/
def pciSpace (k : BusAddr) (rules : List BaseRule) (cr : CommandRule) : CfgSpace PciFn where
  read a f :=
    if a = k.reg pciCmd then f.status.toUInt32 <<< 16 ||| f.command.toUInt32
    else match slotOf k a with
      | some i => f.bases i
      | none => 0xFFFFFFFF
  write a v f :=
    if a = k.reg pciCmd then cr.write v f
    else match slotOf k a with
      | some i => match rules[i]? with
          | some r => { f with bases := update f.bases i (r.write v) }
          | none => f
      | none => f

theorem slotOf_reg (k : BusAddr) (hi : i < 6) : slotOf k (k.reg (barOff i)) = some i := by
  rw [slotOf, List.find?_range_eq_some]
  refine ⟨by simp, List.mem_range.mpr hi, ?_⟩
  intro j hj
  simp only [Bool.not_eq_eq_eq_not, Bool.not_true, beq_eq_false_iff_ne, ne_eq]
  intro h
  have hmod := congrArg (fun x : UInt32 => x.toNat % 2 ^ 8) h
  simp only [reg_mod] at hmod
  interval_cases i <;> interval_cases j <;> revert hmod <;> decide

theorem followsPci_pciSpace (k : BusAddr) (rules : List BaseRule) (cr : CommandRule)
    (hlen : rules.length ≤ 6) : FollowsPci (pciSpace k rules cr) k rules cr id := by
  refine ⟨hlen, ?_, ?_, ?_, ?_⟩
  · intro s
    exact if_pos rfl
  · intro s v
    exact if_pos rfl
  · intro s i hi
    simp only [pciSpace, if_neg (reg_ne_command k (lt_of_lt_of_le hi hlen)),
      slotOf_reg k (lt_of_lt_of_le hi hlen)]
    rfl
  · intro s i v r hr
    have hi := lt_of_lt_of_le (List.getElem?_eq_some_iff.mp hr).1 hlen
    simp only [pciSpace, if_neg (reg_ne_command k hi), slotOf_reg k hi, hr]
    rfl

/-- A prefetchable 64-bit register of 16 GiB, a 32-bit register of a page and an I/O register. -/
def someBars : List Bar :=
  [.mem64 34 12 (by decide) (by decide), .mem32 12 0 (by decide) (by decide), .io 5 1 (by decide),
    .unimplemented, .unimplemented]

def someFn : PciFn where
  bases := fun i => [12, 8, 0xFEB00000, 0xC001].getD i 0
  command := 7
  status := 0x10

def someDev : PciDev := ⟨0, 3, 0, 1, 8, 2, 0, 0x1234, 0x5678, fun _ => 0, fun _ => 0⟩

def someCommand : CommandRule := ⟨0x547, 0, 0xF900, by decide⟩

theorem conforms_someFn : Conforms (rulesOf someBars) someCommand someFn := by
  refine ⟨?_, by decide⟩
  intro i r hr
  have hi : i < 6 := (List.getElem?_eq_some_iff.mp hr).1
  interval_cases i <;> (cases hr; decide)

theorem readBars_someDev :
    ((readBars (pciSpace someDev.addr (rulesOf someBars) someCommand) someDev 6
      ⟨someFn, true, []⟩).1.bar 0).toNat = 8 * 2 ^ 32 ∧
      ((readBars (pciSpace someDev.addr (rulesOf someBars) someCommand) someDev 6
        ⟨someFn, true, []⟩).1.barSize 0).toNat = 2 ^ 34 :=
  (readBars_exact (pciSpace someDev.addr (rulesOf someBars) someCommand) someDev someBars
    someCommand id
    (followsPci_pciSpace _ _ _ (by decide)) ⟨someFn, true, []⟩ conforms_someFn rfl rfl rfl).1.1 0 _
      List.mem_cons_self

end Loop

end Xasmos.Pci
