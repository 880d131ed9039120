import Mathlib.Tactic
import Mathlib.Order.Bounds.Basic

/-!
# Layers of shortest paths

The nodes of a graph whose shortest path to a source has length `k` are a layer.  A path may only
go through some of the nodes.  Each layer is found from the one before it, and if one is empty,
all later ones are.
-/

namespace Layers

variable {V : Type u} {src pass : V → Prop} {rel : V → V → Prop} {v w : V} {j k : Nat}

/-- There is a walk of this length from the node to a source, through nodes that may be passed. -/
inductive Walk (src pass : V → Prop) (rel : V → V → Prop) : Nat → V → Prop where
  | source {v : V} : src v → Walk src pass rel 0 v
  | step {v w : V} {k : Nat} : pass v → rel v w → Walk src pass rel k w →
      Walk src pass rel (k + 1) v

/-- The shortest path has this length. -/
def Layer (src pass : V → Prop) (rel : V → V → Prop) (k : Nat) (v : V) : Prop :=
  IsLeast {j | Walk src pass rel j v} k

theorem layer_zero_iff : Layer src pass rel 0 v ↔ src v := by
  constructor
  · rintro ⟨hpath, -⟩
    cases hpath with
    | source hsrc => exact hsrc
  · intro hsrc
    exact ⟨Walk.source hsrc, fun _ _ => Nat.zero_le _⟩

/-- A layer is what is beside the one before it and in none so far. -/
theorem layer_succ_iff : Layer src pass rel (k + 1) v ↔
    pass v ∧ (∀ j ≤ k, ¬ Walk src pass rel j v) ∧ ∃ w, rel v w ∧ Layer src pass rel k w := by
  constructor
  · rintro ⟨hpath, hleast⟩
    have hnone : ∀ j ≤ k, ¬ Walk src pass rel j v := by
      intro j hj hpath
      have := hleast hpath
      omega
    cases hpath with
    | @step _ w _ hpass hrel hpath =>
        refine ⟨hpass, hnone, w, hrel, hpath, fun j hj => ?_⟩
        by_contra hlt
        exact hnone (j + 1) (by omega) (.step hpass hrel hj)
  · rintro ⟨hpass, hnone, w, hrel, hpath, -⟩
    refine ⟨Walk.step hpass hrel hpath, fun j hj => ?_⟩
    by_contra hlt
    exact hnone j (by omega) hj

theorem exists_layer (h : Walk src pass rel k v) : ∃ j ≤ k, Layer src pass rel j v := by
  classical
  have hex : ∃ j, Walk src pass rel j v := ⟨k, h⟩
  exact ⟨Nat.find hex, Nat.find_min' hex h, Nat.find_spec hex, fun j hj => Nat.find_min' hex hj⟩

/-- No layer is left out. -/
theorem Layer.exists_le (h : Layer src pass rel k v) (hj : j ≤ k) :
    ∃ w, Layer src pass rel j w := by
  induction k generalizing v with
  | zero =>
      rw [Nat.le_zero.mp hj]
      exact ⟨v, h⟩
  | succ k ih =>
      rcases Nat.le_succ_iff.mp hj with hj | rfl
      · obtain ⟨-, -, w, -, hw⟩ := layer_succ_iff.mp h
        exact ih hw hj
      · exact ⟨v, h⟩

/-- There are at most as many layers as nodes. -/
theorem Layer.lt_card [Fintype V] (h : Layer src pass rel k v) : k < Fintype.card V := by
  have hall : ∀ j : Fin (k + 1), ∃ w, Layer src pass rel j w := fun j =>
    h.exists_le (Nat.le_of_lt_succ j.isLt)
  choose node hnode using hall
  have hinj : Function.Injective node := by
    intro i j heq
    have hi := hnode i
    rw [heq] at hi
    exact Fin.ext (hi.unique (hnode j))
  have hcard := Fintype.card_le_of_injective node hinj
  rwa [Fintype.card_fin] at hcard

end Layers
