import Mathlib.Data.List.Sort
import Mathlib.Data.List.Sublists

/-!
# Merging in order

`List.merge` keeps the order of each of the two lists.  If the first list is sorted, then an
element of it that is not above an element of the second one comes before it.
-/

namespace Merging

variable {α : Type u} {le : α → α → Bool} {x y : α} {xs ys : List α}

/-- The order of the first list is kept. -/
theorem sublist_left (le : α → α → Bool) (xs ys : List α) : xs.Sublist (List.merge xs ys le) := by
  fun_induction List.merge xs ys le with
  | case1 ys => exact List.nil_sublist ys
  | case2 xs => exact List.Sublist.refl xs
  | case3 x xs y ys _ ih => exact ih.cons_cons x
  | case4 x xs y ys _ ih => exact ih.cons y

/-- The order of the second list is kept. -/
theorem sublist_right (le : α → α → Bool) (xs ys : List α) : ys.Sublist (List.merge xs ys le) := by
  fun_induction List.merge xs ys le with
  | case1 ys => exact List.Sublist.refl ys
  | case2 xs => exact List.nil_sublist xs
  | case3 x xs y ys _ ih => exact ih.cons x
  | case4 x xs y ys _ ih => exact ih.cons_cons y

/-- The first list goes first. -/
theorem pair_sublist (htrans : ∀ a b c, le a b → le b c → le a c)
    (hsorted : xs.Pairwise fun a b => le a b) (hx : x ∈ xs) (hy : y ∈ ys) (hle : le x y) :
    [x, y].Sublist (List.merge xs ys le) := by
  fun_induction List.merge xs ys le with
  | case1 ys => exact absurd hx List.not_mem_nil
  | case2 xs => exact absurd hy List.not_mem_nil
  | case3 a xs b ys _ ih =>
      obtain ⟨-, hsorted⟩ := List.pairwise_cons.mp hsorted
      rcases List.mem_cons.mp hx with rfl | hx
      · have hin : y ∈ List.merge xs (b :: ys) le := List.mem_merge_right le hy
        exact (List.singleton_sublist.mpr hin).cons_cons x
      · exact (ih hsorted hx hy).cons a
  | case4 a xs b ys hab ih =>
      rcases List.mem_cons.mp hy with rfl | hy
      · -- The head of the first list would have gone first.
        refine absurd ?_ hab
        rcases List.mem_cons.mp hx with rfl | hin
        · exact hle
        · exact htrans a x y ((List.pairwise_cons.mp hsorted).1 x hin) hle
      · exact (ih hsorted hx hy).cons b

end Merging
