import Mathlib.Order.Basic
import Mathlib.Tactic.Common

/-!
# Computations that may fail, on a state that only moves forward

A C function that works on global state and returns an error code is here a
`Prog ε σ α`: from a state it gives a result or an error, and a state in both
cases, since a failing call keeps whatever it had already changed.

The state type is preordered, and a `Prog` carries the proof that it never moves
the state backwards.  Each client chooses the order to say what *no* computation
of it can undo (a device's history, for one), proves it for its primitives, and
has it for every program built from them: `le_run` is a field, not a theorem about
each function.

Reasoning is by weakest preconditions.  `wp x Q E s` says that from `s` the
computation ends in `Q` if it returns and in `E` if it fails.  The rules below are
equivalences, so a straight-line program unfolds by `simp only`; a call of a
function with a specification goes through `wp_mono`, a loop through
`wp_iterate`.

## Main definitions

* `Prog`, with `get`, `throw`, `modify`, `attempt`, `mapError`, `onError`, `zoom` and `failIf`.
* `Prog.iterate n f a` — run `f 0`, …, `f (n-1)`, threading an accumulator.
* `Prog.wp` and its rules.
-/

namespace Xasmos

/-- A computation on the state `σ` that returns an `α` or fails with an `ε`. -/
structure Prog (ε σ : Type) [Preorder σ] (α : Type) where
  run : σ → Except ε α × σ
  le_run : ∀ s, s ≤ (run s).2

namespace Prog

variable {ε ε' σ τ α β : Type} [Preorder σ] [Preorder τ]

/-! ## Combinators -/

/-- Run `x`, then `f` on its result; a failure of `x` is the failure of the whole. -/
def bind (x : Prog ε σ α) (f : α → Prog ε σ β) : Prog ε σ β where
  run s :=
    match x.run s with
    | (.ok a, s') => (f a).run s'
    | (.error e, s') => (.error e, s')
  le_run s := by
    have hx := x.le_run s
    cases h : x.run s with
    | mk r s' =>
      rw [h] at hx
      cases r with
      | error e => exact hx
      | ok a => exact le_trans hx ((f a).le_run s')

instance : Monad (Prog ε σ) where
  pure a := ⟨fun s => (.ok a, s), le_refl⟩
  bind := bind

/-- The state. -/
def get : Prog ε σ σ := ⟨fun s => (.ok s, s), le_refl⟩

/-- Fail. -/
def throw (e : ε) : Prog ε σ α := ⟨fun s => (.error e, s), le_refl⟩

/-- Change the state, forward. -/
def modify (f : σ → σ) (h : ∀ s, s ≤ f s) : Prog ε σ Unit := ⟨fun s => (.ok (), f s), h⟩

/-- Run `x` and hand its outcome to the caller, as a returned error code is. -/
def attempt (x : Prog ε σ α) : Prog ε' σ (Except ε α) where
  run s := (.ok (x.run s).1, (x.run s).2)
  le_run s := x.le_run s

/-- Report the failures of `x` as other errors. -/
def mapError (f : ε → ε') (x : Prog ε σ α) : Prog ε' σ α where
  run s := ((x.run s).1.mapError f, (x.run s).2)
  le_run s := x.le_run s

/-- Run `x`; a failure also changes the state, forward. -/
def onError (x : Prog ε σ α) (f : σ → σ) (h : ∀ s, s ≤ f s) : Prog ε σ α where
  run s :=
    match x.run s with
    | (.ok a, s') => (.ok a, s')
    | (.error e, s') => (.error e, f s')
  le_run s := by
    have hx := x.le_run s
    cases hr : x.run s with
    | mk r s' =>
      rw [hr] at hx
      cases r with
      | error e => exact le_trans hx (h s')
      | ok a => exact hx

/-- Run a computation on a part of the state. -/
def zoom (part : σ → τ) (put : τ → σ → σ) (h : ∀ s t, part s ≤ t → s ≤ put t s)
    (x : Prog ε τ α) : Prog ε σ α where
  run s := ((x.run (part s)).1, put (x.run (part s)).2 s)
  le_run s := h s _ (x.le_run _)

/-- Fail with `e` when `c` holds. -/
def failIf (c : Prop) [Decidable c] (e : ε) : Prog ε σ Unit := if c then throw e else pure ()

/-- The body at the indices `i`, …, `i + k - 1`, threading an accumulator. -/
def iterateFrom (f : ℕ → α → Prog ε σ α) : ℕ → ℕ → α → Prog ε σ α
  | _, 0, a => pure a
  | i, k + 1, a => f i a >>= iterateFrom f (i + 1) k

/-- Run `f 0`, …, `f (n - 1)` in order, threading an accumulator. -/
def iterate (n : ℕ) (f : ℕ → α → Prog ε σ α) (a : α) : Prog ε σ α := iterateFrom f 0 n a

/-! ## Weakest preconditions -/

/-- From `s` the computation ends in `Q` if it returns, in `E` if it fails. -/
def wp (x : Prog ε σ α) (Q : α → σ → Prop) (E : ε → σ → Prop) (s : σ) : Prop :=
  match x.run s with
  | (.ok a, s') => Q a s'
  | (.error e, s') => E e s'

section Rules

variable {Q Q' : α → σ → Prop} {E E' : ε → σ → Prop} {s s' : σ}

/-- What a weakest precondition says of a run that returned. -/
theorem wp.ok {x : Prog ε σ α} {a : α} (h : wp x Q E s) (hr : x.run s = (.ok a, s')) : Q a s' := by
  unfold wp at h
  rwa [hr] at h

theorem run_bind_ok {x : Prog ε σ β} {f : β → Prog ε σ α} {b : β} (h : x.run s = (.ok b, s')) :
    (x >>= f).run s = (f b).run s' := by
  rw [show (x >>= f).run s = match x.run s with
    | (.ok b, t) => (f b).run t
    | (.error e, t) => (.error e, t) from rfl, h]

/-- What a weakest precondition says of a run that failed. -/
theorem wp.error {x : Prog ε σ α} {e : ε} (h : wp x Q E s) (hr : x.run s = (.error e, s')) :
    E e s' := by
  unfold wp at h
  rwa [hr] at h

/-- A computation that cannot fail returns. -/
theorem wp.exists_ok {x : Prog ε σ α} (h : wp x Q (fun _ _ => False) s) :
    ∃ a s', x.run s = (.ok a, s') ∧ Q a s' := by
  unfold wp at h
  cases hr : x.run s with
  | mk r t =>
    rw [hr] at h
    cases r with
    | error e => exact h.elim
    | ok a => exact ⟨a, t, rfl, h⟩

/-- What a run ends in, whether it returned or failed. -/
theorem wp.state {x : Prog ε σ α} {P : σ → Prop} (h : wp x (fun _ => P) (fun _ => P) s) :
    P (x.run s).2 := by
  unfold wp at h
  cases hr : x.run s with
  | mk r s' =>
    rw [hr] at h
    cases r with
    | ok a => exact h
    | error e => exact h

/-- A computation that cannot return fails. -/
theorem wp.exists_error {x : Prog ε σ α} (h : wp x (fun _ _ => False) E s) :
    ∃ e s', x.run s = (.error e, s') ∧ E e s' := by
  unfold wp at h
  cases hr : x.run s with
  | mk r t =>
    rw [hr] at h
    cases r with
    | ok a => exact h.elim
    | error e => exact ⟨e, t, rfl, h⟩

/-- Nothing is promised of a computation that nothing is known about. -/
theorem wp_any (x : Prog ε σ α) (hQ : ∀ a s', Q a s') (hE : ∀ e s', E e s') : wp x Q E s := by
  unfold wp
  cases x.run s with
  | mk r t =>
    cases r with
    | error e => exact hE e t
    | ok a => exact hQ a t

/-- A computation ends where its run ends. -/
theorem wp_run (x : Prog ε σ α) (s : σ) :
    wp x (fun a s' => x.run s = (.ok a, s')) (fun e s' => x.run s = (.error e, s')) s := by
  unfold wp
  cases h : x.run s with
  | mk r s' => cases r <;> rfl

/-- Two specifications of one computation hold together. -/
theorem wp_and {x : Prog ε σ α} (h : wp x Q E s) (h' : wp x Q' E' s) :
    wp x (fun a t => Q a t ∧ Q' a t) (fun e t => E e t ∧ E' e t) s := by
  unfold wp at h h' ⊢
  cases hr : x.run s with
  | mk r t =>
    rw [hr] at h h'
    cases r with
    | error e => exact ⟨h, h'⟩
    | ok a => exact ⟨h, h'⟩

/-- Weaken both postconditions; the state has moved forward in either case. -/
theorem wp_mono {x : Prog ε σ α} (h : wp x Q E s) (hQ : ∀ a s', s ≤ s' → Q a s' → Q' a s')
    (hE : ∀ e s', s ≤ s' → E e s' → E' e s') : wp x Q' E' s := by
  have hx := x.le_run s
  unfold wp at h ⊢
  cases hr : x.run s with
  | mk r t =>
    rw [hr] at h hx
    cases r with
    | error e => exact hE e t hx h
    | ok a => exact hQ a t hx h

@[simp] theorem wp_pure (a : α) : wp (pure a) Q E s ↔ Q a s := Iff.rfl

@[simp] theorem wp_bind (x : Prog ε σ β) (f : β → Prog ε σ α) :
    wp (x >>= f) Q E s ↔ wp x (fun b => wp (f b) Q E) E s := by
  have hrun : (x >>= f).run s = match x.run s with
      | (.ok a, s') => (f a).run s'
      | (.error e, s') => (.error e, s') := rfl
  unfold wp
  rw [hrun]
  cases x.run s with
  | mk r t => cases r <;> rfl

@[simp] theorem wp_get {Q : σ → σ → Prop} : wp get Q E s ↔ Q s s := Iff.rfl

@[simp] theorem wp_throw (e : ε) : wp (throw e) Q E s ↔ E e s := Iff.rfl

@[simp] theorem wp_modify {Q : Unit → σ → Prop} (f : σ → σ) (h : ∀ s, s ≤ f s) :
    wp (modify f h) Q E s ↔ Q () (f s) := Iff.rfl

@[simp] theorem wp_attempt {E : ε' → σ → Prop} (x : Prog ε σ α) {Q : Except ε α → σ → Prop} :
    wp (attempt x) Q E s ↔ wp x (fun a => Q (.ok a)) (fun e => Q (.error e)) s := by
  have hrun : (attempt x : Prog ε' σ (Except ε α)).run s = (.ok (x.run s).1, (x.run s).2) := rfl
  unfold wp
  rw [hrun]
  cases x.run s with
  | mk r t => cases r <;> rfl

@[simp] theorem wp_mapError {E : ε' → σ → Prop} (f : ε → ε') (x : Prog ε σ α) :
    wp (mapError f x) Q E s ↔ wp x Q (fun e => E (f e)) s := by
  have hrun : (mapError f x).run s = ((x.run s).1.mapError f, (x.run s).2) := rfl
  unfold wp
  rw [hrun]
  cases x.run s with
  | mk r t => cases r <;> rfl

@[simp] theorem wp_onError (x : Prog ε σ α) (f : σ → σ) (h : ∀ s, s ≤ f s) :
    wp (onError x f h) Q E s ↔ wp x Q (fun e s' => E e (f s')) s := by
  unfold wp onError
  cases hx : x.run s with
  | mk r s' => cases r <;> simp [hx]

theorem wp_zoom {part : σ → τ} {put : τ → σ → σ} {h : ∀ s t, part s ≤ t → s ≤ put t s}
    (x : Prog ε τ α) :
    wp (zoom part put h x) Q E s ↔
      wp x (fun a t => Q a (put t s)) (fun e t => E e (put t s)) (part s) := by
  have hrun : (zoom part put h x).run s = ((x.run (part s)).1, put (x.run (part s)).2 s) := rfl
  unfold wp
  rw [hrun]
  cases x.run (part s) with
  | mk r t => cases r <;> rfl

@[simp] theorem wp_failIf {Q : Unit → σ → Prop} (c : Prop) [Decidable c] (e : ε) :
    wp (failIf c e) Q E s ↔ (c → E e s) ∧ (¬ c → Q () s) := by
  unfold failIf
  by_cases hc : c
  · rw [if_pos hc]; simp [hc]
  · rw [if_neg hc]; simp [hc]

@[simp] theorem wp_ite (c : Prop) [Decidable c] (x y : Prog ε σ α) :
    wp (if c then x else y) Q E s ↔ (c → wp x Q E s) ∧ (¬ c → wp y Q E s) := by
  by_cases hc : c <;> simp [hc]

theorem wp_iterateFrom {f : ℕ → α → Prog ε σ α} (I : ℕ → α → σ → Prop) (k i : ℕ) (a : α)
    (hI : I i a s) (hf : ∀ j a s, i ≤ j → j < i + k → I j a s → wp (f j a) (I (j + 1)) E s) :
    wp (iterateFrom f i k a) (I (i + k)) E s := by
  induction k generalizing i a s with
  | zero => exact hI
  | succ k ih =>
    rw [iterateFrom, wp_bind]
    refine wp_mono (hf i a s (Nat.le_refl i) (by omega) hI) (fun b t _ hb => ?_) (fun _ _ _ h => h)
    have hk : i + (k + 1) = i + 1 + k := by omega
    rw [hk]
    refine ih (i + 1) b hb fun j a s h1 h2 => hf j a s (by omega) (by omega)

/-- **The loop rule.**  An invariant of the index, the accumulator and the state that
the body advances holds at the end. -/
theorem wp_iterate {f : ℕ → α → Prog ε σ α} (I : ℕ → α → σ → Prop) {n : ℕ} {a : α} (hI : I 0 a s)
    (hf : ∀ j a s, j < n → I j a s → wp (f j a) (I (j + 1)) E s) :
    wp (iterate n f a) (I n) E s := by
  have h := wp_iterateFrom (f := f) (E := E) I n 0 a hI
    (fun j a s _ hj => hf j a s (by omega))
  rwa [Nat.zero_add] at h

end Rules

/-! ## Invariants -/

/-- Every run from a state in `P` ends in one, whether it returns or fails. -/
def Preserves (x : Prog ε σ α) (P : σ → Prop) : Prop := ∀ s, P s → wp x (fun _ => P) (fun _ => P) s

namespace Preserves

variable {P : σ → Prop}

theorem pure (a : α) : Preserves (Pure.pure a : Prog ε σ α) P := fun _ h => h

theorem throw (e : ε) : Preserves (α := α) (Prog.throw e) P := fun _ h => h

theorem modify {f : σ → σ} {hf : ∀ s, s ≤ f s} (h : ∀ s, P s → P (f s)) :
    Preserves (Prog.modify f hf : Prog ε σ Unit) P := h

theorem bind {x : Prog ε σ β} {f : β → Prog ε σ α} (hx : Preserves x P)
    (hf : ∀ b, Preserves (f b) P) : Preserves (x >>= f) P := by
  intro s h
  rw [wp_bind]
  exact wp_mono (hx s h) (fun b t _ ht => hf b t ht) fun _ _ _ ht => ht

theorem get {f : σ → Prog ε σ α} (hf : ∀ s, P s → wp (f s) (fun _ => P) (fun _ => P) s) :
    Preserves (Prog.get >>= f) P := by
  intro s h
  rw [wp_bind, wp_get]
  exact hf s h

theorem get_self : Preserves (Prog.get : Prog ε σ σ) P := fun _ h => h

theorem attempt {x : Prog ε σ α} (hx : Preserves x P) :
    Preserves (Prog.attempt x : Prog ε' σ (Except ε α)) P := by
  intro s h
  rw [wp_attempt]
  exact hx s h

theorem zoom {part : σ → τ} {put : τ → σ → σ} {hle : ∀ s t, part s ≤ t → s ≤ put t s}
    {x : Prog ε τ α} (h : ∀ s t, P s → P (put t s)) : Preserves (Prog.zoom part put hle x) P := by
  intro s hs
  rw [wp_zoom]
  exact wp_any _ (fun _ t => h s t hs) fun _ t => h s t hs

theorem failIf (c : Prop) [Decidable c] (e : ε) : Preserves (Prog.failIf c e) P := by
  intro s h
  rw [wp_failIf]
  exact ⟨fun _ => h, fun _ => h⟩

theorem ite {c : Prop} [Decidable c] {x y : Prog ε σ α} (hx : Preserves x P) (hy : Preserves y P) :
    Preserves (if c then x else y) P := by
  split
  · exact hx
  · exact hy

theorem iterate {n : ℕ} {f : ℕ → α → Prog ε σ α} {a : α} (hf : ∀ k a, Preserves (f k a) P) :
    Preserves (Prog.iterate n f a) P :=
  fun _ h => wp_iterate (fun _ _ => P) h fun k a s _ hs => hf k a s hs

end Preserves

end Prog
end Xasmos
