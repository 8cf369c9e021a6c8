import Mathlib.Logic.Function.Basic
import Mathlib.Tactic.Common

/-!
# Replaying a list of writes

A store maps keys to values; a list of writes is applied to it oldest first.  The
module has what a proof about cut or lost writes needs: replay of a concatenation,
and that a key no write names keeps its value.
-/

namespace Xasmos

variable {κ ν : Type} [DecidableEq κ]

/-- Apply the writes to the store, oldest first. -/
def replay : List (κ × ν) → (κ → ν) → κ → ν
  | [], c => c
  | w :: ws, c => replay ws (Function.update c w.1 w.2)

@[simp] theorem replay_nil (c : κ → ν) : replay [] c = c := rfl

theorem replay_append (ws vs : List (κ × ν)) (c : κ → ν) :
    replay (ws ++ vs) c = replay vs (replay ws c) := by
  induction ws generalizing c with
  | nil => rfl
  | cons w ws ih => exact ih _

/-- One more write at the end. -/
theorem replay_concat (ws : List (κ × ν)) (k : κ) (v : ν) (c : κ → ν) :
    replay (ws ++ [(k, v)]) c = Function.update (replay ws c) k v := by
  rw [replay_append]
  rfl

/-- A key that no write names keeps its value. -/
theorem replay_of_forall_ne {ws : List (κ × ν)} {c : κ → ν} {k : κ} (h : ∀ w ∈ ws, w.1 ≠ k) :
    replay ws c k = c k := by
  induction ws generalizing c with
  | nil => rfl
  | cons w ws ih =>
    have hw : w.1 ≠ k := h w List.mem_cons_self
    rw [replay, ih fun v hv => h v (List.mem_cons_of_mem _ hv), Function.update_of_ne hw.symm]

end Xasmos
