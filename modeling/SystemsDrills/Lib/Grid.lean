import Mathlib.Tactic

/-!
# Grids in one array

The places of a grid with `w` columns lie row by row in one array, `(i, j)` at `i * w + j`.
`find` is two nested loops that return the first place with a property.
-/

namespace Grid

variable {h w i j i' j' : Nat}

theorem index_lt (hi : i < h) (hj : j < w) : i * w + j < h * w := by
  have := Nat.mul_le_mul_right w (Nat.succ_le_of_lt hi)
  rw [Nat.succ_mul] at this
  omega

/-- Different places have different indices. -/
theorem index_inj (hj : j < w) (hj' : j' < w) (heq : i * w + j = i' * w + j') :
    i = i' ∧ j = j' := by
  have hcol : j = j' := by
    have := congrArg (· % w) heq
    simpa [Nat.mod_eq_of_lt hj, Nat.mod_eq_of_lt hj'] using this
  subst hcol
  exact ⟨Nat.eq_of_mul_eq_mul_right (Nat.zero_lt_of_lt hj) (Nat.add_right_cancel heq), rfl⟩

/-- The indices of the array, row by row. -/
theorem range_mul (h w : Nat) :
    List.range (h * w) = (List.range h).flatMap fun i => (List.range w).map (i * w + ·) := by
  induction h with
  | zero => simp
  | succ h ih =>
      rw [Nat.succ_mul, List.range_add, ih, List.range_succ, List.flatMap_append]
      simp

/-- If the rows are all alike, one row tells how often a property holds. -/
theorem countP_mod (p : Nat → Bool) (h w : Nat) :
    (List.range (h * w)).countP (fun k => p (k % w)) = h * (List.range w).countP p := by
  have hrow : ∀ i, ((List.range w).map (i * w + ·)).countP (fun k => p (k % w)) =
      (List.range w).countP p := by
    intro i
    rw [List.countP_map]
    refine List.countP_congr fun j hj => ?_
    rw [Function.comp_apply, Nat.mul_add_mod_of_lt (List.mem_range.mp hj)]
  rw [range_mul, List.countP_flatMap]
  simp only [Function.comp_def, hrow, List.map_const', List.length_range, List.sum_replicate,
    smul_eq_mul]

/-- `for (i = 0; i < h; i++) for (j = 0; j < w; j++) if (p(i, j)) return (i, j)`. -/
def find (p : Nat → Nat → Bool) (h w : Nat) : Option (Nat × Nat) :=
  (List.range h).findSome? fun i => ((List.range w).find? (p i)).map (i, ·)

theorem find_eq_none_iff {p : Nat → Nat → Bool} :
    find p h w = none ↔ ∀ i < h, ∀ j < w, p i j = false := by
  simp [find, List.findSome?_eq_none_iff]

/-- The place that is found is the first one, row by row. -/
theorem of_find_eq_some {p : Nat → Nat → Bool} (heq : find p h w = some (i, j)) :
    i < h ∧ j < w ∧ p i j = true ∧
      ∀ i' < h, ∀ j' < w, p i' j' = true → i < i' ∨ i = i' ∧ j ≤ j' := by
  obtain ⟨before, r, after, hrange, hrow, hbefore⟩ := List.findSome?_eq_some_iff.mp heq
  obtain ⟨c, hc, hpair⟩ := Option.map_eq_some_iff.mp hrow
  obtain ⟨rfl, rfl⟩ := Prod.mk.inj hpair
  obtain ⟨hp, hlt, hfirst⟩ := List.find?_range_eq_some.mp hc
  have hmem : ∀ k, k ∈ List.range h ↔ k ∈ before ∨ k = r ∨ k ∈ after := by
    intro k
    rw [hrange]
    simp
  refine ⟨List.mem_range.mp ((hmem r).mpr (.inr (.inl rfl))), List.mem_range.mp hlt, hp, ?_⟩
  intro i' hi' j' hj' hp'
  rcases (hmem i').mp (List.mem_range.mpr hi') with hin | rfl | hin
  · -- No place of an earlier row has the property.
    have hnone := hbefore i' hin
    rw [Option.map_eq_none_iff, List.find?_range_eq_none] at hnone
    have := hnone j' hj'
    simp [hp'] at this
  · refine .inr ⟨rfl, ?_⟩
    by_contra hgt
    have := hfirst j' (not_le.mp hgt)
    simp [hp'] at this
  · have hsorted := List.pairwise_lt_range (n := h)
    rw [hrange] at hsorted
    exact .inl ((List.pairwise_cons.mp (List.pairwise_append.mp hsorted).2.1).1 i' hin)

end Grid
