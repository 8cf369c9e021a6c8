import Xasmos.Kernel.Paging
import Xasmos.Lib.Radix

/-!
# Page tables as trees

An entry of a table is an address and flags; the first part takes such entries apart.
The second reads the tables in memory as a store of nodes: `kid` is the table an entry
points to, `walk` from the library follows the three upper levels, and `pteAt` is the
flat view of an address space, from page numbers to the entries that are present.

## Main definitions

* `kid`, `UserPath`, `pathOf` — the links, and the paths of the user half.
* `pteAt s r p` — the entry of page `p` in the address space with the root `r`.
-/

namespace Xasmos.Kernel

open Bytes Radix

/-! ## Entries -/

section Bits

variable {c fl : ℕ}

theorem mul_frameSize (c : ℕ) : c * frameSize = c <<< 12 := (Nat.shiftLeft_eq c 12).symm

theorem frame_and_addrMask (hc : c < 2 ^ 40) : c * frameSize &&& xptAddrMask = c * frameSize := by
  have hmask : xptAddrMask = (2 ^ 40 - 1) <<< 12 := by decide
  rw [hmask, mul_frameSize, ← Nat.shiftLeft_and_distrib, Nat.and_two_pow_sub_one_eq_mod,
    Nat.mod_eq_of_lt hc]

/-- A frame address has no bit below the size of a frame. -/
theorem frame_and_low (c : ℕ) {m : ℕ} (hm : m < frameSize) : c * frameSize &&& m = 0 := by
  apply Nat.eq_of_testBit_eq
  intro i
  rw [Nat.testBit_and, mul_frameSize, Nat.testBit_shiftLeft, Nat.zero_testBit]
  by_cases hi : 12 ≤ i
  · have hlt : m < 2 ^ i :=
      lt_of_lt_of_le (show m < 2 ^ 12 from hm) (Nat.pow_le_pow_right Nat.two_pos hi)
    simp [Nat.testBit_lt_two_pow hlt]
  · simp [hi]

/-- The address of an entry. -/
theorem entry_addr (hc : c < 2 ^ 40) (hfl : fl &&& xptAddrMask = 0) :
    (c * frameSize ||| fl) &&& xptAddrMask = c * frameSize := by
  rw [Nat.and_or_distrib_right, frame_and_addrMask hc, hfl, Nat.or_zero]

/-- A flag of an entry. -/
theorem entry_flag (c fl : ℕ) {m : ℕ} (hm : m < frameSize) :
    (c * frameSize ||| fl) &&& m = fl &&& m := by
  rw [Nat.and_or_distrib_right, frame_and_low c hm, Nat.zero_or]

theorem entry_lt (hc : c < 2 ^ 40) (hfl : fl < 2 ^ 64) : c * frameSize ||| fl < 2 ^ 64 := by
  refine Nat.or_lt_two_pow ?_ hfl
  rw [frameSize]
  omega

end Bits

section Memory

variable {s : Xeret} {f g i j v : ℕ}

theorem entry_setEntry_self (hv : v < 2 ^ 64) : entry (setEntry f i v s) f i = v := by
  simp only [entry, setEntry, Function.update_self]
  exact getLE_putLE_of_lt _ _ (show v < 256 ^ 8 by norm_num; exact hv)

theorem entry_setEntry_of_ne (h : ¬ (g = f ∧ j = i)) :
    entry (setEntry f i v s) g j = entry s g j := by
  by_cases hg : g = f
  · subst hg
    have hj : j ≠ i := fun hj => h ⟨rfl, hj⟩
    simp only [entry, setEntry, Function.update_self]
    exact getLE_putLE_disjoint (by omega)
  · simp only [entry, setEntry, Function.update_of_ne hg]

@[simp] theorem mem_setEntry_of_ne (h : g ≠ f) : (setEntry f i v s).mem g = s.mem g := by
  simp [setEntry, h]

theorem entry_congr {s' : Xeret} (h : s'.mem f = s.mem f) : entry s' f i = entry s f i := by
  rw [entry, entry, h]

/-- A cleared frame is a table without entries. -/
theorem entry_of_zero (h : s.mem f = fun _ => 0) : entry s f i = 0 := by
  rw [entry, h]
  exact getLE_zero fun _ _ => rfl

end Memory

/-! ## Links -/

/-- The frame of the table that entry `i` of the table in frame `f` points to. -/
def kid (s : Xeret) (f i : ℕ) : Option ℕ :=
  if entry s f i &&& xptPresent = 0 then none else some ((entry s f i &&& xptAddrMask) / frameSize)

/-- The paths to the tables of the user half: up to three levels, from an entry of the root
between 1 and 255. -/
structure UserPath (π : List ℕ) : Prop where
  length_le : π.length ≤ 3
  lt : ∀ i ∈ π, i < xptEnts
  head : ∀ i, π.head? = some i → 1 ≤ i ∧ i < xptKernelHalf

theorem userPath_prefixClosed : PrefixClosed UserPath := by
  intro π i h
  refine ⟨?_, fun j hj => h.lt j (List.mem_append_left _ hj), fun j hj => h.head j ?_⟩
  · have hlen := h.length_le
    rw [List.length_append, List.length_singleton] at hlen
    omega
  · cases π with
    | nil => simp at hj
    | cons k ks => simpa using hj

theorem UserPath.init {π : List ℕ} {i : ℕ} (h : UserPath (π ++ [i])) :
    UserPath π := userPath_prefixClosed π i h

theorem userPath_nil : UserPath [] := ⟨by simp, by simp, by simp⟩

/-- A page of the user half. -/
def UserPage (p : ℕ) : Prop := 2 ^ 27 ≤ p ∧ p < 2 ^ 35

/-! The indices of page `p` in the tables of the four levels. -/

def pml4Index (p : ℕ) : ℕ := p / 2 ^ 27 % xptEnts
def pdptIndex (p : ℕ) : ℕ := p / 2 ^ 18 % xptEnts
def pdIndex (p : ℕ) : ℕ := p / 2 ^ 9 % xptEnts
def ptIndex (p : ℕ) : ℕ := p % xptEnts

/-- The path to the lowest table of page `p`. -/
def pathOf (p : ℕ) : List ℕ := [pml4Index p, pdptIndex p, pdIndex p]

theorem userPath_pathOf {p : ℕ} (h : UserPage p) : UserPath (pathOf p) := by
  have h512 : xptEnts = 512 := rfl
  obtain ⟨h1, h2⟩ := h
  refine ⟨by simp [pathOf], fun i hi => ?_, fun i hi => ?_⟩
  · simp only [pathOf, List.mem_cons, List.not_mem_nil, or_false] at hi
    rcases hi with rfl | rfl | rfl <;> exact Nat.mod_lt _ (by decide)
  · simp only [pathOf, List.head?_cons, Option.some.injEq] at hi
    rw [← hi, pml4Index, h512, xptKernelHalf]
    omega

/-- Pages of one table differ in the last index, other pages in the path. -/
theorem page_inj {p q : ℕ} (hp : UserPage p) (hq : UserPage q) (hpath : pathOf p = pathOf q)
    (hidx : ptIndex p = ptIndex q) : p = q := by
  have h512 : xptEnts = 512 := rfl
  simp only [pathOf, pml4Index, pdptIndex, pdIndex, List.cons.injEq, and_true, h512] at hpath
  rw [ptIndex, ptIndex, h512] at hidx
  obtain ⟨h1, h2, h3⟩ := hpath
  obtain ⟨_, hp2⟩ := hp
  obtain ⟨_, hq2⟩ := hq
  omega

/-! The indices the code computes from the address of a page. -/

theorem index_39 (p : ℕ) : (p * frameSize) >>> 39 &&& 0x1FF = pml4Index p := by
  have hdiv : (p * frameSize) >>> 39 = p / 2 ^ 27 := by
    rw [Nat.shiftRight_eq_div_pow, frameSize]
    omega
  rw [hdiv]
  exact Nat.and_two_pow_sub_one_eq_mod _ 9

theorem index_30 (p : ℕ) : (p * frameSize) >>> 30 &&& 0x1FF = pdptIndex p := by
  have hdiv : (p * frameSize) >>> 30 = p / 2 ^ 18 := by
    rw [Nat.shiftRight_eq_div_pow, frameSize]
    omega
  rw [hdiv]
  exact Nat.and_two_pow_sub_one_eq_mod _ 9

theorem index_21 (p : ℕ) : (p * frameSize) >>> 21 &&& 0x1FF = pdIndex p := by
  have hdiv : (p * frameSize) >>> 21 = p / 2 ^ 9 := by
    rw [Nat.shiftRight_eq_div_pow, frameSize]
    omega
  rw [hdiv]
  exact Nat.and_two_pow_sub_one_eq_mod _ 9

theorem index_12 (p : ℕ) : (p * frameSize) >>> 12 &&& 0x1FF = ptIndex p := by
  have hdiv : (p * frameSize) >>> 12 = p := by
    rw [Nat.shiftRight_eq_div_pow, frameSize]
    omega
  rw [hdiv]
  exact Nat.and_two_pow_sub_one_eq_mod _ 9

/-- The entry of page `p` in the address space with the root `r`, if it is present. -/
def pteAt (s : Xeret) (r p : ℕ) : Option ℕ :=
  (walk (kid s) r (pathOf p)).bind fun t =>
    if entry s t (ptIndex p) &&& xptPresent = 0 then none else some (entry s t (ptIndex p))

end Xasmos.Kernel
