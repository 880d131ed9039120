import Mathlib.Data.List.TakeWhile
import SystemsDrills.Lib.Cuts

/-!
# Shipping packages within days

`can_ship` and `ship_within_days` of `Interview/leetcode/13-ship-packages.c`.  Every `int`
expression that could overflow is checked: `int` has no value then, and neither has the
function.  The binary search gets fuel.

`can_ship` makes the greedy cut of the weights into days.  So it tells whether there is any
cut, and the search for the least capacity that it accepts finds the least capacity that
there is.
-/

namespace Shipping

open Cuts

/-- An `int` expression.  It is undefined if it overflows. -/
def int (x : Int) : Option Int := if -2 ^ 31 ≤ x ∧ x < 2 ^ 31 then some x else none

/-- The loop of `can_ship` and its return. -/
def canShipFrom (days cap : Int) : List Int → Int → Int → Option Bool
  | [], _, used => some (used ≤ days)
  | w :: ws, load, used =>
    if w > cap then
      some false
    else do
      if (← int (load + w)) > cap then
        let used ← int (used + 1)
        canShipFrom days cap ws (← int (0 + w)) used
      else
        canShipFrom days cap ws (← int (load + w)) used

/-- `can_ship`. -/
def canShip (weights : List Int) (days cap : Int) : Option Bool := canShipFrom days cap weights 0 1

/-- The `for` loop of `ship_within_days`: `lo` and `hi` after it. -/
def bounds : List Int → Int → Int → Option (Int × Int)
  | [], lo, hi => some (lo, hi)
  | w :: ws, lo, hi => do
    let hi ← int (hi + w)
    bounds ws (if w > lo then w else lo) hi

/-- The `while` loop of `ship_within_days` and its return. -/
def search (weights : List Int) (days : Int) : Nat → Int → Int → Option Int
  | 0, _, _ => none
  | fuel + 1, lo, hi =>
    if lo < hi then do
      let mid ← int (lo + (← int (hi - lo)).tdiv 2)
      if ← canShip weights days mid then
        search weights days fuel lo mid
      else
        search weights days fuel (← int (mid + 1)) hi
    else
      some lo

/-- `ship_within_days`. -/
def shipWithinDays (fuel : Nat) (weights : List Int) (days : Int) : Option Int := do
  let (lo, hi) ← bounds weights (← weights[0]?) 0
  search weights days fuel lo hi

/-! ## `can_ship` -/

theorem int_eq {x : Int} (h : -2 ^ 31 ≤ x) (h' : x < 2 ^ 31) : int x = some x := if_pos ⟨h, h'⟩

/-- The values of `load + weights[i]` in the loop of `can_ship`. -/
def sums (cap : Int) : Int → List Int → List Int
  | _, [] => []
  | load, w :: ws =>
    if w > cap then
      []
    else
      (load + w) :: (if load + w > cap then sums cap (0 + w) ws else sums cap (load + w) ws)

/-- The loop counts the days of the greedy cut, as long as it computes no sum that overflows.
It stops at the first weight that is too heavy, and counts no day after that. -/
theorem canShipFrom_of_sums {days cap load used : Int} {ws : List Int} (hws : ∀ w ∈ ws, 0 ≤ w)
    (hload : 0 ≤ load) (hsums : ∀ x ∈ sums cap load ws, x < 2 ^ 31) (hused : 0 ≤ used)
    (hdays : used + overflows cap load (ws.takeWhile (· ≤ cap)) < 2 ^ 31) :
    canShipFrom days cap ws load used =
      some (decide ((∀ w ∈ ws, w ≤ cap) ∧ used + overflows cap load ws ≤ days)) := by
  induction ws generalizing load used with
  | nil => simp [canShipFrom, overflows]
  | cons w ws ih =>
      have hw : 0 ≤ w := hws w List.mem_cons_self
      have hws' : ∀ v ∈ ws, 0 ≤ v := fun v hv => hws v (List.mem_cons_of_mem w hv)
      rw [canShipFrom]
      split
      · rename_i hgt
        simp [hgt]
      · rename_i hle
        rw [List.takeWhile_cons, if_pos (by simpa using hle), overflows] at hdays
        rw [sums, if_neg hle] at hsums
        obtain ⟨hsum, hsums⟩ := List.forall_mem_cons.mp hsums
        rw [overflows, int_eq (by omega) hsum]
        simp only [Option.bind_eq_bind, Option.bind_some]
        split
        · rename_i hfits
          rw [if_pos hfits] at hsums hdays
          rw [zero_add] at hsums
          push_cast at hdays
          have hadd : used + ((overflows cap w ws + 1 : Nat) : Int) =
              used + 1 + overflows cap w ws := by
            push_cast
            ring
          rw [int_eq (by omega) (by omega), int_eq (by omega) (by omega), Option.bind_some,
            Option.bind_some, zero_add, ih hws' hw hsums (by omega) (by omega), hadd]
          simp [not_lt.mp hle]
        · rename_i hfits
          rw [if_neg hfits] at hsums hdays
          rw [ih hws' (by omega) hsums hused (by omega)]
          simp [not_lt.mp hle]

/-- No sum is larger than the total. -/
theorem sums_le {cap load : Int} {ws : List Int} (hws : ∀ w ∈ ws, 0 ≤ w) (hload : 0 ≤ load) :
    ∀ x ∈ sums cap load ws, x ≤ load + ws.sum := by
  induction ws generalizing load with
  | nil => exact List.forall_mem_nil _
  | cons w ws ih =>
      have hw : 0 ≤ w := hws w List.mem_cons_self
      have hws' : ∀ v ∈ ws, 0 ≤ v := fun v hv => hws v (List.mem_cons_of_mem w hv)
      have hsum := List.sum_nonneg hws'
      rw [sums, List.sum_cons]
      split
      · exact List.forall_mem_nil _
      · refine List.forall_mem_cons.mpr ⟨by omega, fun x hx => ?_⟩
        split at hx
        · have := ih hws' (by omega) x hx
          omega
        · have := ih hws' (by omega) x hx
          omega

/-- The weights can be cut into at most `days` contiguous groups, none heavier than `cap`. -/
def Feasible (weights : List Int) (days cap : Int) : Prop :=
  ∃ groups, Cut cap weights groups ∧ groups.length ≤ days

theorem Feasible.mono {weights : List Int} {days cap cap' : Int} (h : Feasible weights days cap)
    (hle : cap ≤ cap') : Feasible weights days cap' := by
  obtain ⟨groups, hcut, hlen⟩ := h
  exact ⟨groups, hcut.mono hle, hlen⟩

/-! ## The search -/

/-- The loop leaves the heaviest weight and the total. -/
theorem bounds_eq {ws : List Int} (lo : Int) {hi : Int} (hws : ∀ w ∈ ws, 0 ≤ w) (hhi : 0 ≤ hi)
    (htotal : hi + ws.sum < 2 ^ 31) :
    ∃ lo', bounds ws lo hi = some (lo', hi + ws.sum) ∧ lo ≤ lo' ∧ (∀ w ∈ ws, w ≤ lo') ∧
      (lo' = lo ∨ lo' ∈ ws) := by
  induction ws generalizing lo hi with
  | nil => exact ⟨lo, by simp [bounds], le_rfl, by simp, .inl rfl⟩
  | cons w ws ih =>
      have hw : 0 ≤ w := hws w List.mem_cons_self
      have hws' : ∀ v ∈ ws, 0 ≤ v := fun v hv => hws v (List.mem_cons_of_mem w hv)
      have hsum := List.sum_nonneg hws'
      rw [List.sum_cons, ← add_assoc] at htotal ⊢
      obtain ⟨lo', heq, hle, hbound, hmem⟩ := ih (max lo w) hws' (by omega) htotal
      have hmax : (if w > lo then w else lo) = max lo w := by
        split <;> omega
      refine ⟨lo', ?_, (le_max_left lo w).trans hle, ?_, ?_⟩
      · rw [bounds, int_eq (by omega) (by omega), hmax]
        exact heq
      · intro v hv
        rcases List.mem_cons.mp hv with rfl | hv
        · exact (le_max_right lo v).trans hle
        · exact hbound v hv
      · rcases hmem with rfl | hmem
        · rcases max_choice lo w with h | h
          · exact .inl h
          · rw [h]
            exact .inr List.mem_cons_self
        · exact .inr (List.mem_cons_of_mem w hmem)

section

variable {weights : List Int} {days : Int} (hne : weights ≠ []) (hn : weights.length < 2 ^ 31)
  (hpos : ∀ w ∈ weights, 0 ≤ w) (hsum : weights.sum < 2 ^ 31) (hdays : 1 ≤ days)

include hne hpos in
/-- The weights bound the capacity from below. -/
theorem nonneg_of_bound {lo : Int} (hlo : ∀ w ∈ weights, w ≤ lo) : 0 ≤ lo := by
  obtain ⟨w, hw⟩ := List.exists_mem_of_ne_nil weights hne
  exact (hpos w hw).trans (hlo w hw)

include hne hn hpos in
/-- `can_ship` tells whether there is a cut, if none of its sums overflows. -/
theorem canShip_of_sums {cap : Int} (hcap : 0 ≤ cap)
    (hsums : ∀ x ∈ sums cap 0 weights, x < 2 ^ 31) :
    ∃ b : Bool, canShip weights days cap = some b ∧ (b = true ↔ Feasible weights days cap) := by
  have hused : 1 + overflows cap 0 (weights.takeWhile (· ≤ cap)) < (2 ^ 31 : Int) := by
    have hlen := (List.takeWhile_prefix (p := fun w => decide (w ≤ cap)) (l := weights)).length_le
    rcases eq_or_ne (weights.takeWhile (· ≤ cap)) [] with hnil | hprefix
    · rw [hnil]
      norm_num [overflows]
    · have hlt := overflows_lt_of_le (fun w hw => hpos w ((List.takeWhile_sublist _).subset hw))
        (fun w hw => by simpa using List.mem_takeWhile_imp hw) hprefix
      omega
  refine ⟨_, canShipFrom_of_sums hpos le_rfl hsums (by omega) hused, ?_⟩
  have hiff := exists_cut_iff hpos hne hcap days.toNat
  rw [decide_eq_true_iff]
  constructor
  · rintro ⟨hle, hdays⟩
    obtain ⟨groups, hcut, hlen⟩ := hiff.mpr ⟨hle, by omega⟩
    exact ⟨groups, hcut, by omega⟩
  · rintro ⟨groups, hcut, hlen⟩
    obtain ⟨hle, hlt⟩ := hiff.mp ⟨groups, hcut, by omega⟩
    exact ⟨hle, by omega⟩

include hne hn hpos hsum in
/-- No sum overflows if the total does not. -/
theorem canShip_eq {cap : Int} (hcap : ∀ w ∈ weights, w ≤ cap) :
    ∃ b : Bool, canShip weights days cap = some b ∧ (b = true ↔ Feasible weights days cap) := by
  refine canShip_of_sums hne hn hpos (nonneg_of_bound hne hpos hcap) fun x hx => ?_
  have := sums_le hpos le_rfl x hx
  omega

include hne hn hpos hsum in
/-- The halving ends at the least feasible capacity. -/
theorem search_eq {c lo hi : Int} (hc : IsLeast {c | Feasible weights days c} c) {fuel : Nat}
    (hbound : ∀ w ∈ weights, w ≤ lo) (hlo : lo ≤ c) (hhi : c ≤ hi) (hmax : hi < 2 ^ 31)
    (hfuel : hi - lo < fuel) : search weights days fuel lo hi = some c := by
  induction fuel generalizing lo hi with
  | zero => omega
  | succ fuel ih =>
      have h0 := nonneg_of_bound hne hpos hbound
      rw [search]
      split
      · rename_i hlt
        have hmid : lo + (hi - lo).tdiv 2 = lo + (hi - lo) / 2 := by
          rw [Int.tdiv_eq_ediv_of_nonneg (by omega)]
        have hge : lo ≤ lo + (hi - lo) / 2 := by omega
        obtain ⟨b, hship, hb⟩ := canShip_eq hne hn hpos hsum
          fun w hw => (hbound w hw).trans hge
        rw [int_eq (by omega) (by omega)]
        simp only [Option.bind_eq_bind, Option.bind_some]
        rw [hmid, int_eq (by omega) (by omega), Option.bind_some, hship, Option.bind_some]
        cases b with
        | true =>
            have hle : c ≤ lo + (hi - lo) / 2 := hc.2 (hb.mp rfl)
            exact ih hbound hlo hle (by omega) (by omega)
        | false =>
            have hgt : ¬ c ≤ lo + (hi - lo) / 2 := by
              intro hle
              simpa using hb.mpr (hc.1.mono hle)
            simp only [Bool.false_eq_true, if_false]
            rw [int_eq (by omega) (by omega), Option.bind_some]
            exact ih (fun w hw => (hbound w hw).trans (by omega)) (by omega) hhi hmax (by omega)
      · congr 1
        omega

include hne hpos hdays in
/-- There is a least feasible capacity, between the heaviest weight and the total. -/
theorem exists_least :
    ∃ c, IsLeast {c | Feasible weights days c} c ∧ (∀ w ∈ weights, w ≤ c) ∧ c ≤ weights.sum := by
  have hle : ∀ c, Feasible weights days c → ∀ w ∈ weights, w ≤ c := by
    rintro c ⟨groups, hcut, -⟩ w hw
    exact hcut.le_cap hpos hw
  have htotal : Feasible weights days weights.sum :=
    ⟨[weights], ⟨by simp, by simp⟩, by simpa using hdays⟩
  obtain ⟨c, hc, hmin⟩ := Int.exists_least_of_bdd
    ⟨0, fun c hc => nonneg_of_bound hne hpos (hle c hc)⟩ ⟨weights.sum, htotal⟩
  exact ⟨c, ⟨hc, hmin⟩, hle c hc, hmin _ htotal⟩

end

/-- A cut, spelled out. -/
theorem feasible_iff {weights : List Int} {days cap : Int} :
    Feasible weights days cap ↔ ∃ groups : List (List Int), groups.flatten = weights ∧
      groups.length ≤ days ∧ ∀ g ∈ groups, g.sum ≤ cap := by
  constructor
  · rintro ⟨groups, hcut, hlen⟩
    exact ⟨groups, hcut.flatten, hlen, hcut.le⟩
  · rintro ⟨groups, hflat, hlen, hle⟩
    exact ⟨groups, ⟨hflat, hle⟩, hlen⟩

/-- The greedy check is exact.  For at least one and fewer than `2 ^ 31` weights that are not
negative, and as long as no sum `load + weights[i]` overflows, `can_ship` returns true exactly if
the weights, in order, can be cut into at most `days` contiguous groups of at most `cap`. -/
theorem can_ship_exact {weights : List Int} {cap : Int} (hne : weights ≠ [])
    (hn : weights.length < 2 ^ 31) (hpos : ∀ w ∈ weights, 0 ≤ w) (hcap : 0 ≤ cap) (days : Int)
    (hsums : ∀ x ∈ sums cap 0 weights, x < 2 ^ 31) :
    ∃ b : Bool, canShip weights days cap = some b ∧
      (b = true ↔ ∃ groups : List (List Int), groups.flatten = weights ∧ groups.length ≤ days ∧
        ∀ g ∈ groups, g.sum ≤ cap) := by
  obtain ⟨b, hship, hb⟩ : ∃ b : Bool, canShip weights days cap = some b ∧
      (b = true ↔ Feasible weights days cap) := canShip_of_sums hne hn hpos hcap hsums
  exact ⟨b, hship, hb.trans feasible_iff⟩

/-- Weights whose total does not fit an `int`. -/
theorem can_ship_exact_heavy :
    ∃ b : Bool, canShip [1000000000, 1000000000, 1000000000] 2 1000000000 = some b ∧
      (b = true ↔ ∃ groups : List (List Int),
        groups.flatten = [1000000000, 1000000000, 1000000000] ∧ groups.length ≤ (2 : Int) ∧
          ∀ g ∈ groups, g.sum ≤ 1000000000) :=
  can_ship_exact (by simp) (by decide) (by decide) (by decide) 2 (by decide)

/-- `ship_within_days` returns the optimum.  For at least one and fewer than `2 ^ 31`
weights that are not negative and whose total is an `int`, and for at least one day, it
returns without an overflow, after at most as many rounds as the total, and its value is
the least capacity for which the weights, in order, can be cut into at most `days`
contiguous groups of at most that total. -/
theorem ship_within_days_least {weights : List Int} {days : Int} (hne : weights ≠ [])
    (hn : weights.length < 2 ^ 31) (hpos : ∀ w ∈ weights, 0 ≤ w) (hsum : weights.sum < 2 ^ 31) (hdays : 1 ≤ days) :
    ∃ c, (∀ fuel : Nat, weights.sum < fuel → shipWithinDays fuel weights days = some c) ∧
      IsLeast
        {c | ∃ groups : List (List Int), groups.flatten = weights ∧ groups.length ≤ days ∧
          ∀ g ∈ groups, g.sum ≤ c} c := by
  obtain ⟨c, hleast, hbound, hmax⟩ := exists_least hne hpos hdays
  have hset : {c | Feasible weights days c} =
      {c | ∃ groups : List (List Int), groups.flatten = weights ∧ groups.length ≤ days ∧
        ∀ g ∈ groups, g.sum ≤ c} := by
    ext c
    exact feasible_iff
  refine ⟨c, fun fuel hfuel => ?_, hset ▸ hleast⟩
  cases weights with
  | nil => exact absurd rfl hne
  | cons w ws =>
      obtain ⟨lo, hbounds, -, hlo, hmem⟩ := bounds_eq w hpos le_rfl (by omega)
      have hmem : lo ∈ w :: ws := hmem.elim (fun h => h ▸ List.mem_cons_self) id
      have h0 := hpos lo hmem
      rw [shipWithinDays]
      simp only [List.getElem?_cons_zero, Option.bind_eq_bind, Option.bind_some, hbounds, zero_add]
      exact search_eq hne hn hpos hsum hleast hlo (hbound lo hmem) hmax hsum (by omega)

/-- The packages of the first test, in three days. -/
theorem ship_within_days_least_five :
    ∃ c, shipWithinDays 16 [1, 2, 3, 4, 5] 3 = some c ∧
      ∃ groups : List (List Int), groups.flatten = [1, 2, 3, 4, 5] ∧ groups.length ≤ (3 : Int) ∧
        ∀ g ∈ groups, g.sum ≤ c := by
  obtain ⟨c, hship, hleast⟩ :=
    @ship_within_days_least [1, 2, 3, 4, 5] 3 (by simp) (by decide) (by decide) (by decide)
      (by decide)
  exact ⟨c, hship 16 (by decide), hleast.1⟩

end Shipping
