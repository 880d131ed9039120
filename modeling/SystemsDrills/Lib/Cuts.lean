import Mathlib.Tactic

/-!
# Cutting a list into groups

A list of weights is cut into contiguous groups, none of them heavier than `cap`.  The
greedy cut opens a new group only when the next weight does not fit, and `overflows` counts
how often it does.

The greedy cut is one of the cuts (`exists_cut`) and no cut has fewer groups
(`overflows_lt_length`).  For the latter it matters how much more a group that is already
loaded costs: never less than an empty one, and at most one group more
(`overflows_le_of_le`).
-/

namespace Cuts

variable {α : Type} [AddCommMonoid α] [LinearOrder α] [IsOrderedAddMonoid α] {cap load : α}

/-- A cut of `ws` into groups, none of them heavier than `cap`. -/
structure Cut (cap : α) (ws : List α) (groups : List (List α)) : Prop where
  flatten : groups.flatten = ws
  le : ∀ g ∈ groups, g.sum ≤ cap

/-- How many groups the greedy cut opens, when the first one is loaded already. -/
def overflows (cap : α) : α → List α → Nat
  | _, [] => 0
  | load, w :: ws =>
    if cap < load + w then overflows cap w ws + 1 else overflows cap (load + w) ws

/-- More load costs no fewer groups, and at most one more. -/
theorem overflows_le_of_le {load load' : α} {ws : List α} (hws : ∀ w ∈ ws, 0 ≤ w)
    (h0 : 0 ≤ load) (h : load ≤ load') :
    overflows cap load ws ≤ overflows cap load' ws ∧
      overflows cap load' ws ≤ overflows cap load ws + 1 := by
  induction ws generalizing load load' with
  | nil => exact ⟨le_rfl, Nat.zero_le _⟩
  | cons w ws ih =>
      have hw : 0 ≤ w := hws w List.mem_cons_self
      have hws' : ∀ v ∈ ws, 0 ≤ v := fun v hv => hws v (List.mem_cons_of_mem w hv)
      have hle : load + w ≤ load' + w := add_le_add_left h w
      simp only [overflows]
      by_cases hfits : cap < load + w
      · have hfits' : cap < load' + w := hfits.trans_le hle
        simp [hfits, hfits']
      · rw [if_neg hfits]
        by_cases hfits' : cap < load' + w
        · -- Only the heavier group is closed.
          rw [if_pos hfits']
          obtain ⟨h1, h2⟩ := ih hws' hw (le_add_of_nonneg_left h0)
          exact ⟨h2, Nat.succ_le_succ h1⟩
        · rw [if_neg hfits']
          exact ih hws' (add_nonneg h0 hw) hle

/-- A group that fits is taken whole. -/
theorem overflows_append {g ws : List α} (hg : ∀ w ∈ g, 0 ≤ w) (h : load + g.sum ≤ cap) :
    overflows cap load (g ++ ws) = overflows cap (load + g.sum) ws := by
  induction g generalizing load with
  | nil => rw [List.nil_append, List.sum_nil, add_zero]
  | cons w g ih =>
      have hg' : ∀ v ∈ g, 0 ≤ v := fun v hv => hg v (List.mem_cons_of_mem w hv)
      rw [List.sum_cons, ← add_assoc] at h ⊢
      have hfits : ¬ cap < load + w :=
        not_lt.mpr ((le_add_of_nonneg_right (List.sum_nonneg hg')).trans h)
      rw [List.cons_append, overflows, if_neg hfits]
      exact ih hg' h

/-- No cut has fewer groups than the greedy one. -/
theorem overflows_lt_length {ws : List α} {groups : List (List α)} (hws : ∀ w ∈ ws, 0 ≤ w)
    (h : Cut cap ws groups) (hne : groups ≠ []) : overflows cap 0 ws < groups.length := by
  obtain ⟨rfl, hle⟩ := h
  induction groups with
  | nil => exact absurd rfl hne
  | cons g groups ih =>
      rw [List.flatten_cons] at hws ⊢
      have hg : ∀ w ∈ g, 0 ≤ w := fun w hw => hws w (List.mem_append_left _ hw)
      have hrest : ∀ w ∈ groups.flatten, 0 ≤ w := fun w hw => hws w (List.mem_append_right _ hw)
      have hfits : 0 + g.sum ≤ cap := by
        rw [zero_add]
        exact hle g List.mem_cons_self
      rw [overflows_append hg hfits, zero_add, List.length_cons]
      rcases eq_or_ne groups [] with rfl | hne'
      · exact Nat.succ_pos _
      · have hstart : overflows cap g.sum groups.flatten ≤ overflows cap 0 groups.flatten + 1 :=
          (overflows_le_of_le hrest le_rfl (List.sum_nonneg hg)).2
        have := ih hne' (fun g' hg' => hle g' (List.mem_cons_of_mem g hg')) hrest
        omega

/-- The first weight opens no group. -/
theorem overflows_lt_of_le {ws : List α} (hws : ∀ w ∈ ws, 0 ≤ w) (hcap : ∀ w ∈ ws, w ≤ cap)
    (hne : ws ≠ []) : overflows cap 0 ws < ws.length := by
  have hcut : Cut cap ws (ws.map fun w => [w]) := by
    refine ⟨(List.flatMap_def ..).symm.trans (List.flatMap_singleton' ws), fun g hg => ?_⟩
    obtain ⟨w, hw, rfl⟩ := List.mem_map.mp hg
    simpa using hcap w hw
  have hlt := overflows_lt_length hws hcut (by simpa using hne)
  rwa [List.length_map] at hlt

omit [IsOrderedAddMonoid α] in
/-- The greedy cut, when the first group is loaded already. -/
theorem exists_groups {ws : List α} (hws : ∀ w ∈ ws, w ≤ cap) (hload : load ≤ cap) :
    ∃ (g : List α) (groups : List (List α)), g ++ groups.flatten = ws ∧ load + g.sum ≤ cap ∧
      (∀ g ∈ groups, g.sum ≤ cap) ∧ groups.length = overflows cap load ws := by
  induction ws generalizing load with
  | nil => exact ⟨[], [], rfl, by simpa using hload, by simp, rfl⟩
  | cons w ws ih =>
      have hw : w ≤ cap := hws w List.mem_cons_self
      have hws' : ∀ v ∈ ws, v ≤ cap := fun v hv => hws v (List.mem_cons_of_mem w hv)
      rw [overflows]
      split
      · obtain ⟨g, groups, rfl, hg, hgroups, hlen⟩ := ih hws' hw
        refine ⟨[], (w :: g) :: groups, rfl, by simpa using hload, ?_, by simp [hlen]⟩
        intro g' hg'
        rcases List.mem_cons.mp hg' with rfl | hg'
        · rwa [List.sum_cons]
        · exact hgroups g' hg'
      · rename_i hfits
        obtain ⟨g, groups, rfl, hg, hgroups, hlen⟩ := ih hws' (not_lt.mp hfits)
        exact ⟨w :: g, groups, rfl, by rwa [List.sum_cons, ← add_assoc], hgroups, hlen⟩

omit [IsOrderedAddMonoid α] in
theorem exists_cut {ws : List α} (hws : ∀ w ∈ ws, w ≤ cap) (hcap : 0 ≤ cap) :
    ∃ groups, Cut cap ws groups ∧ groups.length = overflows cap 0 ws + 1 := by
  obtain ⟨g, groups, hflat, hg, hgroups, hlen⟩ := exists_groups hws hcap
  rw [zero_add] at hg
  refine ⟨g :: groups, ⟨hflat, ?_⟩, by rw [List.length_cons, hlen]⟩
  intro g' hg'
  rcases List.mem_cons.mp hg' with rfl | hg'
  · exact hg
  · exact hgroups g' hg'

/-- No weight is heavier than its group. -/
theorem Cut.le_cap {ws : List α} {groups : List (List α)} (hws : ∀ w ∈ ws, 0 ≤ w)
    (h : Cut cap ws groups) {w : α} (hw : w ∈ ws) : w ≤ cap := by
  obtain ⟨rfl, hle⟩ := h
  obtain ⟨g, hg, hwg⟩ := List.mem_flatten.mp hw
  refine le_trans ?_ (hle g hg)
  exact List.single_le_sum (fun v hv => hws v (List.mem_flatten.mpr ⟨g, hg, hv⟩)) w hwg

/-- There is a cut into at most `days` groups exactly if the greedy one has no more. -/
theorem exists_cut_iff {ws : List α} (hws : ∀ w ∈ ws, 0 ≤ w) (hne : ws ≠ []) (hcap : 0 ≤ cap)
    (days : Nat) :
    (∃ groups, Cut cap ws groups ∧ groups.length ≤ days) ↔
      (∀ w ∈ ws, w ≤ cap) ∧ overflows cap 0 ws < days := by
  constructor
  · rintro ⟨groups, hcut, hlen⟩
    refine ⟨fun w hw => hcut.le_cap hws hw, ?_⟩
    have hgroups : groups ≠ [] := by
      rintro rfl
      exact hne hcut.flatten.symm
    exact (overflows_lt_length hws hcut hgroups).trans_le hlen
  · rintro ⟨hle, hlt⟩
    obtain ⟨groups, hcut, hlen⟩ := exists_cut hle hcap
    exact ⟨groups, hcut, hlen ▸ hlt⟩

omit [IsOrderedAddMonoid α] in
/-- A cut for a capacity is one for every larger capacity. -/
theorem Cut.mono {cap cap' : α} {ws : List α} {groups : List (List α)} (h : Cut cap ws groups)
    (hle : cap ≤ cap') : Cut cap' ws groups :=
  ⟨h.flatten, fun g hg => (h.le g hg).trans hle⟩

end Cuts
