import Mathlib.Algebra.BigOperators.Group.Finset.Basic
import Mathlib.Algebra.BigOperators.Intervals
import Mathlib.Algebra.Order.BigOperators.Group.Finset
import Mathlib.Order.Interval.Finset.Nat
import Mathlib.Data.Nat.Count
import Mathlib.Tactic.Common

/-!
# Sums over a table

A table of `n` entries is a function on indices; what its entries own of a resource is
a sum over the table.  When one entry changes the sum changes by that entry alone.
Resources that are numbered are counted below a bound.
-/

namespace Xasmos

variable {β : Type}

/-- Replacing entry `i` replaces its term of the sum. -/
theorem sum_update_add {n i : ℕ} (f : ℕ → β) (x : β) (F : ℕ → β → ℕ) (hi : i < n) :
    ∑ j ∈ Finset.range n, F j (Function.update f i x j) + F i (f i) =
      ∑ j ∈ Finset.range n, F j (f j) + F i x := by
  have hmem : i ∈ Finset.range n := Finset.mem_range.mpr hi
  have hrest : ∑ j ∈ (Finset.range n).erase i, F j (Function.update f i x j) =
      ∑ j ∈ (Finset.range n).erase i, F j (f j) := by
    apply Finset.sum_congr rfl
    intro j hj
    rw [Function.update_of_ne (Finset.ne_of_mem_erase hj)]
  rw [← Finset.add_sum_erase _ _ hmem, ← Finset.add_sum_erase _ (fun j => F j (f j)) hmem, hrest,
    Function.update_self]
  omega

/-- Two distinct entries both contribute. -/
theorem add_le_sum {n i j : ℕ} (f : ℕ → ℕ) (hi : i < n) (hj : j < n) (hij : i ≠ j) :
    f i + f j ≤ ∑ k ∈ Finset.range n, f k := by
  have hmem : i ∈ Finset.range n := Finset.mem_range.mpr hi
  have hj' : j ∈ (Finset.range n).erase i :=
    Finset.mem_erase.mpr ⟨hij.symm, Finset.mem_range.mpr hj⟩
  rw [← Finset.add_sum_erase _ _ hmem]
  exact Nat.add_le_add_left (Finset.single_le_sum (fun k _ => Nat.zero_le (f k)) hj') _

/-- An entry is at most the sum. -/
theorem le_sum {n i : ℕ} (f : ℕ → ℕ) (hi : i < n) : f i ≤ ∑ k ∈ Finset.range n, f k :=
  Finset.single_le_sum (fun k _ => Nat.zero_le (f k)) (Finset.mem_range.mpr hi)

/-- A positive sum has a positive term. -/
theorem exists_pos_of_sum_pos {n : ℕ} {f : ℕ → ℕ} (h : 0 < ∑ k ∈ Finset.range n, f k) :
    ∃ i < n, 0 < f i := by
  by_contra hno
  have hz : ∑ k ∈ Finset.range n, f k = 0 := by
    apply Finset.sum_eq_zero
    intro k hk
    by_contra hk0
    exact hno ⟨k, Finset.mem_range.mp hk, Nat.pos_of_ne_zero hk0⟩
  omega

/-- Disjoint sets of numbers below `m` have at most `m` elements together. -/
theorem sum_card_le {m : ℕ} (n : ℕ) (part : ℕ → Finset ℕ)
    (hdisj : ∀ j k f, f ∈ part j → f ∈ part k → j = k) (hlt : ∀ k f, f ∈ part k → f < m) :
    ∑ k ∈ Finset.range n, (part k).card ≤ m := by
  have hpair : Set.PairwiseDisjoint (↑(Finset.range n)) part := by
    intro j _ k _ hjk
    exact Finset.disjoint_left.mpr fun f hj hk => hjk (hdisj j k f hj hk)
  have hsub : (Finset.range n).biUnion part ⊆ Finset.range m := by
    intro f hf
    obtain ⟨k, _, hk⟩ := Finset.mem_biUnion.mp hf
    exact Finset.mem_range.mpr (hlt k f hk)
  calc ∑ k ∈ Finset.range n, (part k).card = ((Finset.range n).biUnion part).card :=
    (Finset.card_biUnion hpair).symm
    _ ≤ (Finset.range m).card := Finset.card_le_card hsub
    _ = m := Finset.card_range m

/-- Counting below `n` looks at nothing else. -/
theorem count_congr {p q : ℕ → Prop} [DecidablePred p] [DecidablePred q] {n : ℕ}
    (h : ∀ i < n, (p i ↔ q i)) : Nat.count p n = Nat.count q n := by
  rw [Nat.count_eq_card_filter_range, Nat.count_eq_card_filter_range]
  exact congrArg Finset.card (Finset.filter_congr fun i hi => h i (Finset.mem_range.mp hi))

/-- What was taken from a counted set is missing from the count. -/
theorem count_add_length {p q : ℕ → Prop} [DecidablePred p] [DecidablePred q] {n : ℕ} {X : List ℕ}
    (hX : X.Nodup) (hq : ∀ i ∈ X, i < n ∧ q i) (hp : ∀ i < n, (p i ↔ q i ∧ i ∉ X)) :
    Nat.count p n + X.length = Nat.count q n := by
  rw [Nat.count_eq_card_filter_range, Nat.count_eq_card_filter_range,
    ← List.toFinset_card_of_nodup hX, ← Finset.card_union_of_disjoint]
  · congr 1
    ext i
    simp only [Finset.mem_union, Finset.mem_filter, Finset.mem_range, List.mem_toFinset]
    by_cases hi : i ∈ X
    · simp [hi, hq i hi]
    · simp only [hi, or_false]
      exact and_congr_right fun hlt => by simp [hp i hlt, hi]
  · rw [Finset.disjoint_left]
    intro i hi hiX
    obtain ⟨hlt, hpi⟩ := Finset.mem_filter.mp hi
    exact ((hp i (Finset.mem_range.mp hlt)).mp hpi).2 (List.mem_toFinset.mp hiX)

end Xasmos
