import Mathlib.Tactic

/-!
# Copying cell by cell

A loop copies the cell `src i` to the cell `dst i`, for the indices `i` of a list in their order.
It may read a cell that it has already overwritten.  If it does not, that is if no `dst i` is a
`src j` for a later `j`, the loop leaves what a copy through a buffer would leave.
-/

namespace Copying

variable {A : Type u} {V : Type v} {ι : Type w} [DecidableEq A] {dst src : ι → A}

/-- One round: `*dst(i) = *src(i)`. -/
def store (dst src : ι → A) (m : A → V) (i : ι) : A → V := Function.update m (dst i) (m (src i))

/-- The loop leaves the other cells alone. -/
theorem foldl_store_of_ne {is : List ι} {a : A} (ha : ∀ i ∈ is, a ≠ dst i) (m : A → V) :
    is.foldl (store dst src) m a = m a := by
  induction is generalizing m with
  | nil => rfl
  | cons i is ih =>
      obtain ⟨hi, his⟩ := List.forall_mem_cons.mp ha
      rw [List.foldl_cons, ih his, store, Function.update_of_ne hi]

/-- The loop copies every cell as it was before. -/
theorem foldl_store {is : List ι} (hdst : is.Pairwise fun i j => dst i ≠ dst j)
    (hsafe : is.Pairwise fun i j => dst i ≠ src j) (m : A → V) :
    ∀ i ∈ is, is.foldl (store dst src) m (dst i) = m (src i) := by
  induction is generalizing m with
  | nil => exact List.forall_mem_nil _
  | cons i is ih =>
      obtain ⟨hdi, hdst⟩ := List.pairwise_cons.mp hdst
      obtain ⟨hsi, hsafe⟩ := List.pairwise_cons.mp hsafe
      intro j hj
      rw [List.foldl_cons]
      rcases List.mem_cons.mp hj with rfl | hj
      · rw [foldl_store_of_ne hdi, store, Function.update_self]
      · rw [ih hdst hsafe _ j hj, store, Function.update_of_ne (hsi j hj).symm]

end Copying
