import SystemsDrills.ParkingLot.Counters

/-!
# The best fit

On a lot with the right counters `assigner` parks a vehicle whenever some spot fits it, takes
a spot of the smallest size it can get, and takes the first one of that size.  A size whose
counter is zero has no free spot, so the loop that skips it does what a loop over all spots
would do (`scanner`).  `deassigner` undoes it.
-/

namespace ParkingLot

variable {lot lot' : Lot} {v : Vehicle} {s : Size} {t : Ticket}

/-- The loop of `assigner` without its look at the counters. -/
def scanFrom (lot : Lot) : List Size → Option Ticket × Lot
  | [] => (none, lot)
  | s :: sizes =>
    match lot.find s with
    | some t => (some t, lot.take t s)
    | none => scanFrom lot sizes

/-- An `assigner` that looks at every spot. -/
def scanner (lot : Lot) (v : Vehicle) : Option Ticket × Lot := scanFrom lot (smallestFit v).upTo

/-- The spot at `t` is what a vehicle should get. -/
structure BestFit (lot : Lot) (v : Vehicle) (s : Size) (t : Ticket) : Prop where
  free : lot.Free s t
  fits : (smallestFit v).rank ≤ s.rank
  smallest : ∀ s' t', (smallestFit v).rank ≤ s'.rank → lot.Free s' t' → s.rank ≤ s'.rank
  /-- It is the first one, level by level. -/
  first : ∀ t', lot.Free s t' → t.level < t'.level ∨ t.level = t'.level ∧ t.spot ≤ t'.spot

/-- Only the flag of the spot at `t` and the counter of its size differ. -/
structure Takes (lot : Lot) (s : Size) (t : Ticket) (lot' : Lot) : Prop where
  levels : lot'.levels = lot.levels
  spots_floor : lot'.spots_floor = lot.spots_floor
  length : lot'.spots.length = lot.spots.length
  spot : lot'.spotAt t = ⟨true, s⟩
  others : ∀ t', lot.InRange t' → t' ≠ t → lot'.spotAt t' = lot.spotAt t'
  count : (freeSpots lot' s).toNat + 1 = (freeSpots lot s).toNat
  counts : ∀ s' ≠ s, freeSpots lot' s' = freeSpots lot s'

namespace Lot

/-- The loop passes over a size exactly if it has no free spot. -/
theorem Inv.skipped_iff (h : lot.Inv) : lot.Skipped s ↔ ∀ t, ¬ lot.Free s t := by
  rw [Skipped, h.free_count_eq_zero_iff, find_eq_none_iff, or_self]

theorem Inv.scanFrom_eq (h : lot.Inv) (sizes : List Size) :
    scanFrom lot sizes = assignFrom lot sizes := by
  induction sizes with
  | nil => rfl
  | cons s sizes ih =>
      rw [scanFrom, assignFrom, ih]
      cases hfind : lot.find s with
      | none => rw [ite_self]
      | some t =>
          have hcount : lot.free_count s ≠ 0 := fun h0 =>
            h.free_count_eq_zero_iff.mp h0 t (of_find_eq_some hfind).1
          rw [if_neg hcount]

theorem Shape.spotAt_take (h : lot.Shape) (ht : lot.Free s t) :
    (lot.take t s).spotAt t = ⟨true, s⟩ := by
  have hspot := h.spotAt_setSpot_self ht.1 { lot.spotAt t with occupied := true }
  rw [ht.2] at hspot
  rw [← hspot, take, ht.2]
  rfl

theorem Shape.takes_take (h : lot.Shape) (ht : lot.Free s t) (hcount : lot.free_count s ≠ 0) :
    Takes lot s t (lot.take t s) where
  levels := rfl
  spots_floor := rfl
  length := List.length_set ..
  spot := h.spotAt_take ht
  others _ ht' hne := h.spotAt_setSpot_of_ne ht.1 ht' hne _
  count := (freeSpots_take hcount).1
  counts := (freeSpots_take hcount).2

/-- Leaving a spot that was just taken gives the lot back. -/
theorem Shape.leave_take (h : lot.Shape) (ht : lot.Free s t) : (lot.take t s).leave t = lot := by
  rw [leave, h.spotAt_take ht]
  refine Lot.ext ?_ rfl rfl ?_
  · show (lot.spots.set (lot.index t) _).set (lot.index t) ⟨false, s⟩ = lot.spots
    rw [← ht.2, h.setSpot_spotAt ht.1]
  · show Function.update (Function.update lot.free_count s _) s
      (Function.update lot.free_count s (lot.free_count s - 1) s + 1) = lot.free_count
    simp

theorem Shape.deassigner_take (h : lot.Shape) (ht : lot.Free s t) :
    deassigner (lot.take t s) t = (true, lot) := by
  have hcase := deassigns_deassigner (lot.take t s) t
  generalize deassigner (lot.take t s) t = r at hcase
  cases hcase with
  | rejected hno =>
      refine absurd ⟨ht.1, ?_⟩ hno
      rw [h.spotAt_take ht]
  | left _ _ => rw [h.leave_take ht]

end Lot

/-- The sizes before `s` are the smaller ones. -/
theorem Size.mem_before {fit s s' : Size} {before after : List Size}
    (h : fit.upTo = before ++ s :: after) (hfit : fit.rank ≤ s'.rank) (hlt : s'.rank < s.rank) :
    s' ∈ before := by
  have hsorted := fit.pairwise_upTo
  rw [h] at hsorted
  have hmem := Size.mem_upTo.mpr hfit
  rw [h, List.mem_append, List.mem_cons] at hmem
  rcases hmem with hin | rfl | hin
  · exact hin
  · exact absurd hlt (lt_irrefl _)
  · have hafter := (List.pairwise_cons.mp (List.pairwise_append.mp hsorted).2.1).1 s' hin
    exact absurd hlt hafter.not_gt

/-- If every size that fits was passed over, no spot fits. -/
theorem Lot.Inv.not_free (h : lot.Inv) {fit : Size} (hall : ∀ s ∈ fit.upTo, lot.Skipped s)
    (hfit : fit.rank ≤ s.rank) : ¬ lot.Free s t :=
  h.skipped_iff.mp (hall s (Size.mem_upTo.mpr hfit)) t

theorem Lot.Inv.bestFit (h : lot.Inv) {before after : List Size}
    (hsizes : (smallestFit v).upTo = before ++ s :: after)
    (hbefore : ∀ s' ∈ before, lot.Skipped s') (hfind : lot.find s = some t) :
    BestFit lot v s t where
  free := (of_find_eq_some hfind).1
  fits := Size.mem_upTo.mp (by simp [hsizes])
  smallest s' t' hfit hfree := by
    by_contra hlt
    have hin := Size.mem_before hsizes hfit (not_le.mp hlt)
    exact h.skipped_iff.mp (hbefore s' hin) t' hfree
  first := (of_find_eq_some hfind).2

/-- `assigner` is an exact best fit on every lot with the right counters. -/
theorem assigner_best_fit (h : lot.Inv) (v : Vehicle) :
    ((assigner lot v).1.isSome ↔ ∃ s t, (smallestFit v).rank ≤ s.rank ∧ lot.Free s t) ∧
      (∀ t lot', assigner lot v = (some t, lot') →
        ∃ s, BestFit lot v s t ∧ Takes lot s t lot' ∧ deassigner lot' t = (true, lot)) ∧
      assigner lot v = scanner lot v := by
  refine ⟨?_, ?_, (h.scanFrom_eq _).symm⟩
  · have hcase := assigns_assigner lot v
    generalize assigner lot v = r at hcase
    cases hcase with
    | full hall =>
        refine ⟨fun hsome => absurd hsome Bool.false_ne_true, ?_⟩
        rintro ⟨s, t, hfit, hfree⟩
        exact absurd hfree (h.not_free hall hfit)
    | parked before hsizes hbefore _ hfind =>
        have hbest := h.bestFit hsizes hbefore hfind
        exact ⟨fun _ => ⟨_, _, hbest.fits, hbest.free⟩, fun _ => rfl⟩
  · intro t lot' heq
    have hcase := assigns_assigner lot v
    rw [heq] at hcase
    cases hcase with
    | parked before hsizes hbefore hcount hfind =>
        have hbest := h.bestFit hsizes hbefore hfind
        exact ⟨_, hbest, h.takes_take hbest.free hcount, h.deassigner_take hbest.free⟩

/-- One level with a small, a medium and a large spot, of which the small one is taken. -/
def oneTaken : Lot where
  spots := [⟨true, .small⟩, ⟨false, .medium⟩, ⟨false, .large⟩]
  levels := 1
  spots_floor := 3
  free_count
    | .small => 0
    | .medium => 1
    | .large => 1

theorem oneTaken_inv : oneTaken.Inv :=
  ⟨⟨by decide, rfl⟩, fun s => by cases s <;> decide⟩

theorem assigner_best_fit_overflow :
    assigner oneTaken .motorcycle = scanner oneTaken .motorcycle ∧
      (assigner oneTaken .motorcycle).1 = some ⟨0, 1⟩ ∧
      deassigner (assigner oneTaken .motorcycle).2 ⟨0, 1⟩ = (true, oneTaken) := by
  obtain ⟨-, hbest, hscan⟩ := assigner_best_fit oneTaken_inv .motorcycle
  obtain ⟨s, -, -, hback⟩ := hbest ⟨0, 1⟩ (assigner oneTaken .motorcycle).2 rfl
  exact ⟨hscan, rfl, hback⟩

end ParkingLot
