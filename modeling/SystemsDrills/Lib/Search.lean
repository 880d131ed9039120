import Mathlib.Tactic

/-!
# Searching for a cut

A list is *cut* at `k` by a predicate when the predicate holds of the first
`k` elements and of none of the others.  Two searches find the cut of a list
that has one: `advance` walks from the left while the predicate holds, and
`bisect` halves the interval that contains the cut.  A third, `firstFrom`,
looks for a position where the predicate holds.  All are stated over a
predicate on positions, so that a caller may read its elements from anywhere.
-/

namespace Search

/-! ## The searches -/

/-- `while (i < n && p(i)) i++`. -/
def advance (p : Nat → Bool) (n i : Nat) : Nat :=
  if i < n ∧ p i then advance p n (i + 1) else i
termination_by n - i

/-- Binary search for the first position in `[lo, hi)` where `p` fails. -/
def bisect (p : Nat → Bool) (lo hi : Nat) : Nat :=
  if lo < hi then
    let mid := lo + (hi - lo) / 2
    if p mid then bisect p (mid + 1) hi else bisect p lo mid
  else lo
termination_by hi - lo

/-- `for (; i < n; i++) if (p(i)) return i`. -/
def firstFrom (p : Nat → Bool) (n i : Nat) : Option Nat :=
  if i < n then
    if p i then some i else firstFrom p n (i + 1)
  else none
termination_by n - i

theorem bisect_of_ge {p : Nat → Bool} {lo hi : Nat} (h : ¬ lo < hi) : bisect p lo hi = lo := by
  rw [bisect, if_neg h]

theorem bisect_right {p : Nat → Bool} {lo hi : Nat} (h : lo < hi)
    (hp : p (lo + (hi - lo) / 2)) :
    bisect p lo hi = bisect p (lo + (hi - lo) / 2 + 1) hi := by
  rw [bisect, if_pos h]
  simp only [hp, if_true]

theorem bisect_left {p : Nat → Bool} {lo hi : Nat} (h : lo < hi)
    (hp : p (lo + (hi - lo) / 2) = false) :
    bisect p lo hi = bisect p lo (lo + (hi - lo) / 2) := by
  rw [bisect, if_pos h]
  simp only [hp, Bool.false_eq_true, if_false]

/-- The walk stops at the first position from `i` on where `p` fails. -/
theorem advance_eq {p : Nat → Bool} {n i k : Nat} (hik : i ≤ k) (hkn : k ≤ n)
    (hp : ∀ j, i ≤ j → j < k → p j) (hk : k < n → p k = false) : advance p n i = k := by
  fun_induction advance p n i with
  | case1 i h ih =>
      have hne : i ≠ k := by
        rintro rfl
        simp [hk h.1] at h
      exact ih (by omega) fun j hj => hp j (by omega)
  | case2 i h =>
      by_contra hne
      exact h ⟨by omega, hp i (Nat.le_refl i) (by omega)⟩

/-- The halving ends at the position that separates `p` from not `p`. -/
theorem bisect_eq {p : Nat → Bool} {lo hi k : Nat} (hlo : lo ≤ k) (hhi : k ≤ hi)
    (hp : ∀ j, lo ≤ j → j < hi → (p j = true ↔ j < k)) : bisect p lo hi = k := by
  fun_induction bisect p lo hi with
  | case1 lo hi h mid hmid ih =>
      have hk := (hp mid (by omega) (by omega)).mp hmid
      exact ih (by omega) hhi fun j hj => hp j (by omega)
  | case2 lo hi h mid hmid ih =>
      have hk : ¬ mid < k := fun hk => hmid ((hp mid (by omega) (by omega)).mpr hk)
      exact ih hlo (by omega) fun j hj hj' => hp j hj (by omega)
  | case3 lo hi h => omega

/-- The loop finds a position exactly if there is one. -/
theorem firstFrom_spec (p : Nat → Bool) (n i : Nat) :
    match firstFrom p n i with
    | some j => i ≤ j ∧ j < n ∧ p j
    | none => ∀ j, i ≤ j → j < n → p j = false := by
  fun_induction firstFrom p n i with
  | case1 i h hp => exact ⟨Nat.le_refl i, h, hp⟩
  | case2 i h hp ih =>
      split at ih
      · exact ⟨by omega, ih.2⟩
      · intro j hj hjn
        by_cases hij : j = i
        · subst hij; simpa using hp
        · exact ih j (by omega) hjn
  | case3 i h => intro j _ _; omega

/-! ## Cuts of lists -/

/-- The predicate holds of the first `k` elements and of no other. -/
structure IsCut (p : α → Bool) (l : List α) (k : Nat) : Prop where
  le : k ≤ l.length
  iff : ∀ (i : Nat) (h : i < l.length), p l[i] = true ↔ i < k

/-- A list along which the predicate is only ever lost has a cut. -/
theorem exists_isCut {p : α → Bool} :
    ∀ {l : List α}, l.Pairwise (fun a b => p b → p a) → ∃ k, IsCut p l k
  | [], _ => ⟨0, by simp, by simp⟩
  | a :: l, h => by
      rw [List.pairwise_cons] at h
      obtain ⟨k, hk⟩ := exists_isCut h.2
      cases ha : p a with
      | true =>
          refine ⟨k + 1, by simpa using hk.le, ?_⟩
          intro i hi
          cases i with
          | zero => simp [ha]
          | succ i => simpa using hk.iff i (by simpa using hi)
      | false =>
          refine ⟨0, by simp, ?_⟩
          intro i hi
          cases i with
          | zero => simp [ha]
          | succ i =>
              have hi' : i < l.length := by simpa using hi
              have := h.1 l[i] (List.getElem_mem hi')
              simpa [ha] using this

namespace IsCut

variable {p : α → Bool} {l : List α} {k : Nat}

theorem mem_take (h : IsCut p l k) {a : α} (ha : a ∈ l.take k) : p a := by
  obtain ⟨i, hi, rfl⟩ := List.mem_take_iff_getElem.mp ha
  exact (h.iff i (by omega)).mpr (by omega)

theorem mem_drop (h : IsCut p l k) {a : α} (ha : a ∈ l.drop k) : p a = false := by
  obtain ⟨i, hi, rfl⟩ := List.mem_drop_iff_getElem.mp ha
  have := h.iff (k + i) (by omega)
  simpa using this

theorem advance_eq (h : IsCut p l k) {q : Nat → Bool}
    (hq : ∀ (i : Nat) (hi : i < l.length), q i = p l[i]) : advance q l.length 0 = k := by
  refine Search.advance_eq (Nat.zero_le k) h.le ?_ ?_
  · intro j _ hj
    rw [hq j (by have := h.le; omega)]
    exact (h.iff j _).mpr hj
  · intro hk
    rw [hq k hk]
    simpa using h.iff k hk

theorem bisect_eq (h : IsCut p l k) {q : Nat → Bool}
    (hq : ∀ (i : Nat) (hi : i < l.length), q i = p l[i]) : bisect q 0 l.length = k := by
  refine Search.bisect_eq (Nat.zero_le k) h.le ?_
  intro j _ hj
  rw [hq j hj]
  exact h.iff j hj

end IsCut

end Search
