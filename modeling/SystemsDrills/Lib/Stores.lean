import Mathlib.Tactic

/-!
# Stores one after the other

`written` is a memory after the first `k` of the stores of `val i` at `dst i`.  If no place is
stored to twice, each of them holds what was stored there, and every other place is as before.

A loop `for (i = 0; i < n; i++)` that cannot fail in the states `st 0, st 1, ..` comes to `st n`
(`foldlM_range`).
-/

namespace Stores

variable {A : Type u} {V : Type v} [DecidableEq A] {dst : Nat → A} {val : Nat → V} {m m' : A → V}
  {k i : Nat} {a : A}

/-- The memory after `k` stores. -/
def written (dst : Nat → A) (val : Nat → V) (m : A → V) : Nat → A → V
  | 0 => m
  | k + 1 => Function.update (written dst val m k) (dst k) (val k)

theorem written_of_ne (h : ∀ i < k, a ≠ dst i) : written dst val m k a = m a := by
  induction k with
  | zero => rfl
  | succ k ih =>
      rw [written, Function.update_of_ne (h k (Nat.lt_succ_self k))]
      exact ih fun i hi => h i (Nat.lt_succ_of_lt hi)

theorem written_at (hdst : ∀ i < k, ∀ j < k, dst i = dst j → i = j) (hi : i < k) :
    written dst val m k (dst i) = val i := by
  induction k with
  | zero => cases hi
  | succ k ih =>
      rw [written]
      rcases Nat.lt_succ_iff_lt_or_eq.mp hi with hlt | rfl
      · have hne : dst i ≠ dst k := fun heq =>
          Nat.ne_of_lt hlt (hdst i hi k (Nat.lt_succ_self k) heq)
        rw [Function.update_of_ne hne]
        exact ih (fun i hi j hj => hdst i (Nat.lt_succ_of_lt hi) j (Nat.lt_succ_of_lt hj)) hlt
      · exact Function.update_self ..

/-- What was at the stored places before does not matter. -/
theorem written_congr (h : (∀ i < k, a ≠ dst i) → m a = m' a) :
    written dst val m k a = written dst val m' k a := by
  induction k with
  | zero => exact h nofun
  | succ k ih =>
      rw [written, written]
      by_cases ha : a = dst k
      · rw [ha, Function.update_self, Function.update_self]
      · rw [Function.update_of_ne ha, Function.update_of_ne ha]
        refine ih fun hne => h fun i hi => ?_
        rcases Nat.lt_succ_iff_lt_or_eq.mp hi with hi | rfl
        · exact hne i hi
        · exact ha

/-- What succeeds hands its result on. -/
@[simp]
theorem ok_bind {ε : Type u} {α β : Type v} (x : α) (f : α → Except ε β) :
    (Except.ok x >>= f) = f x := rfl

/-- A loop that goes through the states `st`. -/
theorem foldlM_range {M : Type u → Type v} [Monad M] [LawfulMonad M] {σ : Type u}
    {f : σ → Nat → M σ} {n : Nat} (st : Nat → σ) (h : ∀ i < n, f (st i) i = pure (st (i + 1))) :
    (List.range n).foldlM f (st 0) = pure (st n) := by
  induction n with
  | zero => rfl
  | succ n ih =>
      rw [List.range_succ, List.foldlM_append, ih fun i hi => h i (Nat.lt_succ_of_lt hi), pure_bind,
        List.foldlM_cons, h n (Nat.lt_succ_self n), pure_bind]
      rfl

end Stores
