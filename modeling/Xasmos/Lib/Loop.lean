import Mathlib.Tactic.Common

/-!
# Counting loops

`loop lo hi f` is `for (i = lo; i < hi; i++) s = f(i, s)`.  What the body keeps the loop
keeps: `loop_induct` is the invariant rule, with an invariant that may name the index.
-/

namespace Xasmos

variable {σ : Type}

/-- The body at the indices `i`, …, `i + k - 1`. -/
def loopFrom (f : ℕ → σ → σ) : ℕ → ℕ → σ → σ
  | _, 0, s => s
  | i, k + 1, s => loopFrom f (i + 1) k (f i s)

/-- The body at the indices `lo`, …, `hi - 1`. -/
def loop (lo hi : ℕ) (f : ℕ → σ → σ) (s : σ) : σ := loopFrom f lo (hi - lo) s

theorem loop_of_le {lo hi : ℕ} (f : ℕ → σ → σ) (s : σ) (h : hi ≤ lo) : loop lo hi f s = s := by
  simp [loop, Nat.sub_eq_zero_of_le h, loopFrom]

theorem loopFrom_induct {f : ℕ → σ → σ} (I : ℕ → σ → Prop) (k : ℕ) {i : ℕ} {s : σ} (h0 : I i s)
    (hf : ∀ j s, i ≤ j → j < i + k → I j s → I (j + 1) (f j s)) : I (i + k) (loopFrom f i k s) := by
  induction k generalizing i s with
  | zero => exact h0
  | succ k ih =>
    have hk : i + (k + 1) = i + 1 + k := by omega
    rw [hk]
    exact ih (hf i s (Nat.le_refl i) (by omega) h0) fun j s h1 h2 => hf j s (by omega) (by omega)

/-- **The invariant rule.** -/
theorem loop_induct {lo hi : ℕ} {f : ℕ → σ → σ} {s : σ} (I : ℕ → σ → Prop) (hle : lo ≤ hi)
    (h0 : I lo s) (hf : ∀ j s, lo ≤ j → j < hi → I j s → I (j + 1) (f j s)) :
    I hi (loop lo hi f s) := by
  have h := loopFrom_induct I (hi - lo) h0 fun j s h1 h2 => hf j s h1 (by omega)
  rwa [Nat.add_sub_cancel' hle] at h

/-- What every turn keeps the loop keeps. -/
theorem loop_keeps {lo hi : ℕ} {f : ℕ → σ → σ} {s : σ} (I : σ → Prop) (h0 : I s)
    (hf : ∀ j s, I s → I (f j s)) : I (loop lo hi f s) := by
  rcases Nat.le_total hi lo with h | h
  · rwa [loop_of_le f s h]
  · exact loop_induct (fun _ => I) h h0 fun j s _ _ => hf j s

end Xasmos
