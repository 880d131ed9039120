import Mathlib.Tactic

/-!
# Sweeps over sorted lists

A *sweep* goes through a list that is sorted by a key.  If two elements with the same key
may be taken in either order, then all ways of sorting give the same result
(`foldl_eq_of_perm`).

`sweep` joins closed intervals that touch.  It keeps the interval that is open and those
that are closed already, and for proper intervals it does not depend on the order among
equal starts (`sweep_eq_of_perm`).
-/

namespace Sweep

/-! ## Folds over sorted lists -/

section Folds

variable {α β κ : Type} [PartialOrder κ] {f : β → α → β} {key : α → κ}

omit [PartialOrder κ] in
/-- An element moves to the front, past elements with the same key. -/
theorem foldl_move {a : α} {p : List α} (hkey : ∀ x ∈ p, key x = key a)
    (comm : ∀ x ∈ a :: p, ∀ y ∈ a :: p, key x = key y → ∀ b, f (f b x) y = f (f b y) x)
    (q : List α) (b : β) : (p ++ a :: q).foldl f b = (a :: (p ++ q)).foldl f b := by
  have hall : ∀ x ∈ a :: p, key x = key a := by
    intro x hx
    rcases List.mem_cons.mp hx with rfl | hx
    · rfl
    · exact hkey x hx
  have hmove : (p ++ [a]).Perm (a :: p) := List.perm_append_singleton a p
  have hfold : (p ++ [a]).foldl f b = (a :: p).foldl f b := by
    refine hmove.foldl_eq' (fun x hx y hy b => ?_) b
    have hx := hmove.subset hx
    have hy := hmove.subset hy
    exact comm x hx y hy ((hall x hx).trans (hall y hy).symm) b
  rw [List.append_cons, List.foldl_append, hfold, ← List.cons_append, List.foldl_append]

/-- The order among equal keys does not matter if it does not matter for two. -/
theorem foldl_eq_of_perm {l l' : List α} (hperm : l.Perm l')
    (hl : l.Pairwise fun x y => key x ≤ key y) (hl' : l'.Pairwise fun x y => key x ≤ key y)
    (comm : ∀ x ∈ l, ∀ y ∈ l, key x = key y → ∀ b, f (f b x) y = f (f b y) x) (b : β) :
    l.foldl f b = l'.foldl f b := by
  induction l generalizing l' b with
  | nil => rw [List.nil_perm.mp hperm]
  | cons a l ih =>
      obtain ⟨p, q, rfl⟩ := List.append_of_mem (hperm.subset List.mem_cons_self)
      have hrest : l.Perm (p ++ q) := (hperm.trans List.perm_middle).cons_inv
      obtain ⟨hmin, hl⟩ := List.pairwise_cons.mp hl
      -- What stands before `a` in the other list has the same key.
      have hkey : ∀ x ∈ p, key x = key a := by
        intro x hx
        refine le_antisymm ?_ (hmin x (hrest.symm.subset (List.mem_append_left q hx)))
        exact (List.pairwise_append.mp hl').2.2 x hx a List.mem_cons_self
      have hsub : a :: p ⊆ a :: l :=
        List.cons_subset_cons a fun x hx => hrest.symm.subset (List.mem_append_left q hx)
      rw [foldl_move hkey (fun x hx y hy => comm x (hsub hx) y (hsub hy)) q b]
      have hl'' : (p ++ q).Pairwise fun x y => key x ≤ key y :=
        hl'.sublist ((List.Sublist.refl p).append (List.sublist_cons_self a q))
      exact ih hrest hl hl''
        (fun x hx y hy => comm x (List.mem_cons_of_mem a hx) y (List.mem_cons_of_mem a hy)) (f b a)

end Folds

/-! ## Joining intervals -/

variable {β : Type} [LinearOrder β]

/-- The intervals that are closed, and the one that is open. -/
abbrev Open (β : Type) : Type := Option (List (β × β) × (β × β))

/-- The next interval joins the open one, or closes it. -/
def step : Open β → β × β → Open β
  | none, x => some ([], x)
  | some (closed, cur), x =>
    if x.1 ≤ cur.2 then some (closed, (cur.1, max cur.2 x.2)) else some (closed ++ [cur], x)

/-- All intervals, the open one last. -/
def close : Open β → List (β × β)
  | none => []
  | some (closed, cur) => closed ++ [cur]

def sweep (l : List (β × β)) : List (β × β) := close (l.foldl step none)

/-- Two proper intervals with the same start may be taken in either order. -/
theorem step_comm {x y : β × β} (hx : x.1 ≤ x.2) (hy : y.1 ≤ y.2) (h : x.1 = y.1) (s : Open β) :
    step (step s x) y = step (step s y) x := by
  have hjoin : ∀ closed, step (some (closed, x)) y = step (some (closed, y)) x := by
    intro closed
    rw [step, step, if_pos (h ▸ hx), if_pos (h ▸ hy), h, max_comm]
  match s with
  | none => exact hjoin []
  | some (closed, cur) =>
      by_cases hcur : x.1 ≤ cur.2
      · have hcur' : y.1 ≤ cur.2 := h ▸ hcur
        simp only [step, hcur, hcur', if_true, le_max_of_le_left]
        rw [max_assoc, max_assoc, max_comm x.2]
      · have hcur' : ¬ y.1 ≤ cur.2 := h ▸ hcur
        have h1 : step (some (closed, cur)) x = some (closed ++ [cur], x) := if_neg hcur
        have h2 : step (some (closed, cur)) y = some (closed ++ [cur], y) := if_neg hcur'
        rw [h1, h2]
        exact hjoin _

theorem sweep_eq_of_perm {l l' : List (β × β)} (hperm : l.Perm l')
    (hl : l.Pairwise fun x y => x.1 ≤ y.1) (hl' : l'.Pairwise fun x y => x.1 ≤ y.1)
    (hproper : ∀ x ∈ l, x.1 ≤ x.2) : sweep l = sweep l' :=
  congrArg close (foldl_eq_of_perm hperm hl hl'
    (fun x hx y hy h => step_comm (hproper x hx) (hproper y hy) h) none)

end Sweep
