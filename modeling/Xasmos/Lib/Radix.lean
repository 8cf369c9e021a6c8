import Mathlib.Data.List.Induction
import Mathlib.Logic.Function.Basic
import Mathlib.Tactic.Common

/-!
# Trees of nodes in a store

A store of nodes is given by its links: `kid n i` is the node that slot `i` of node `n`
points to.  `walk kid r π` follows the path `π` from `r`.  Nothing makes such a store a
tree: two slots may point to one node.  `Forest` is the property that makes it one: from
the roots, along the paths that are of interest, every node is reached in one way only.

A write to a slot changes the walks through that slot and no other (`walk_congr`), and in
a forest exactly one path goes through it; so a fresh node may be hung into an empty
slot, and the walks are those from before and the one to the new node (`Forest.walk_graft`).
-/

namespace Xasmos.Radix

variable {ν ι : Type} {kid kid' : ν → ι → Option ν}

/-- The node at the end of a path. -/
def walk (kid : ν → ι → Option ν) : ν → List ι → Option ν
  | n, [] => some n
  | n, i :: is => (kid n i).bind fun c => walk kid c is

theorem walk_append (n : ν) (π ρ : List ι) :
    walk kid n (π ++ ρ) = (walk kid n π).bind fun c => walk kid c ρ := by
  induction π generalizing n with
  | nil => rfl
  | cons i is ih =>
    simp only [List.cons_append, walk, Option.bind_assoc]
    congr 1
    funext c
    exact ih c

theorem walk_snoc (n : ν) (π : List ι) (i : ι) :
    walk kid n (π ++ [i]) = (walk kid n π).bind fun c => kid c i := by
  rw [walk_append]
  congr 1
  funext c
  simp [walk]

/-- The walk along a path to which a step is added. -/
theorem walk_snoc_of {n t : ν} {π : List ι} (i : ι) (h : walk kid n π = some t) :
    walk kid n (π ++ [i]) = kid t i := by
  rw [walk_snoc, h, Option.bind_some]

/-- A prefix of a path that leads somewhere leads somewhere. -/
theorem exists_walk_of_snoc {n t : ν} {π : List ι} {i : ι} (h : walk kid n (π ++ [i]) = some t) :
    ∃ m, walk kid n π = some m ∧ kid m i = some t := by
  rw [walk_snoc] at h
  exact Option.bind_eq_some_iff.mp h

/-- A walk looks at the slots along its path only. -/
theorem walk_congr {r : ν} {π : List ι}
    (h : ∀ σ i n, σ ++ [i] <+: π → walk kid r σ = some n → kid' n i = kid n i) :
    walk kid' r π = walk kid r π := by
  induction π generalizing r with
  | nil => rfl
  | cons i is ih =>
    have hfirst : kid' r i = kid r i := h [] i r (by simp) rfl
    rw [walk, walk, hfirst]
    cases hc : kid r i with
    | none => rfl
    | some c =>
      rw [Option.bind_some, Option.bind_some]
      refine ih fun σ j n hpre hn => h (i :: σ) j n ?_ ?_
      · rw [List.cons_append]
        exact List.cons_prefix_cons.mpr ⟨rfl, hpre⟩
      · rw [walk, hc, Option.bind_some]
        exact hn

/-- Every node that is reached from a root along a path in `P` is reached in one way. -/
def Forest (kid : ν → ι → Option ν) (root : ν → Prop) (P : List ι → Prop) : Prop :=
  ∀ (r r' : ν) (π π' : List ι) (n : ν), root r → root r' → P π → P π' →
    walk kid r π = some n → walk kid r' π' = some n → r = r' ∧ π = π'

/-- The paths of interest are closed under prefixes. -/
def PrefixClosed (P : List ι → Prop) : Prop := ∀ (π : List ι) (i : ι), P (π ++ [i]) → P π

theorem PrefixClosed.of_prefix {P : List ι → Prop} (hP : PrefixClosed P) {σ π : List ι}
    (h : σ <+: π) (hπ : P π) : P σ := by
  obtain ⟨ρ, rfl⟩ := h
  induction ρ using List.reverseRecOn with
  | nil => simpa using hπ
  | append_singleton ρ i ih => exact ih (hP _ i (by rwa [← List.append_assoc] at hπ))

section Forest

variable {root : ν → Prop} {P : List ι → Prop} {r r₀ t c : ν} {π π₀ : List ι} {i : ι}

/-- Walks do not see changes at nodes that no proper prefix of a path of interest reaches. -/
theorem walk_eq_of_agree (hP : PrefixClosed P) (hπ : P π)
    (h : ∀ σ j n, P (σ ++ [j]) → walk kid r σ = some n → kid' n j = kid n j) :
    walk kid' r π = walk kid r π :=
  walk_congr fun σ j n hpre hn => h σ j n (hP.of_prefix hpre hπ) hn

/-- **Hanging a fresh node into an empty slot.**  `kid'` is `kid` with the node `c`, which has no
links and was not reached, in slot `i` of the node `t` that `π₀` leads to. -/
theorem Forest.walk_graft (hF : Forest kid root P) (hP : PrefixClosed P) (hr₀ : root r₀)
    (hπ₀ : P (π₀ ++ [i])) (ht : walk kid r₀ π₀ = some t) (hempty : kid t i = none)
    (hfresh : ∀ r π, root r → P π → walk kid r π ≠ some c) (hslot : kid' t i = some c)
    (hleaf : ∀ j, kid' c j = none) (hrest : ∀ n j, n ≠ c → ¬ (n = t ∧ j = i) → kid' n j = kid n j)
    (hr : root r) (hπ : P π) :
    (r = r₀ ∧ π = π₀ ++ [i] → walk kid' r π = some c) ∧
      (¬ (r = r₀ ∧ π = π₀ ++ [i]) → walk kid' r π = walk kid r π) := by
  -- the walk to `t` does not go through the slot
  have ht' : walk kid' r₀ π₀ = some t := by
    rw [← ht]
    refine walk_congr fun σ j n hpre hn => hrest n j ?_ ?_
    · rintro rfl
      exact hfresh r₀ σ hr₀ (hP _ _ (hP.of_prefix hpre (hP _ _ hπ₀))) hn
    · rintro ⟨rfl, rfl⟩
      have heq := (hF r₀ r₀ σ π₀ n hr₀ hr₀ (hP _ _ (hP.of_prefix hpre (hP _ _ hπ₀)))
        (hP _ _ hπ₀) hn ht).2
      have hlen := hpre.length_le
      rw [heq, List.length_append, List.length_singleton] at hlen
      omega
  constructor
  · rintro ⟨rfl, rfl⟩
    rw [walk_snoc_of i ht', hslot]
  · intro hne
    by_cases hpre : r = r₀ ∧ π₀ ++ [i] <+: π
    · -- below the slot nothing was reached, and the new node has no links
      obtain ⟨rfl, ρ, rfl⟩ := hpre
      rw [walk_append r (π₀ ++ [i]) ρ, walk_append r (π₀ ++ [i]) ρ, walk_snoc_of i ht',
        walk_snoc_of i ht, hslot, hempty, Option.bind_some, Option.bind_none]
      cases ρ with
      | nil => exact absurd ⟨rfl, List.append_nil _⟩ hne
      | cons j js => rw [walk, hleaf j, Option.bind_none]
    · refine walk_congr fun σ j n hσ hn => hrest n j ?_ ?_
      · rintro rfl
        exact hfresh r σ hr (hP _ _ (hP.of_prefix hσ hπ)) hn
      · rintro ⟨rfl, rfl⟩
        obtain ⟨rfl, rfl⟩ := hF r r₀ σ π₀ n hr hr₀ (hP _ _ (hP.of_prefix hσ hπ)) (hP _ _ hπ₀) hn ht
        exact hpre ⟨rfl, hσ⟩

end Forest

end Xasmos.Radix
