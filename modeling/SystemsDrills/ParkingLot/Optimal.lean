import SystemsDrills.Lib.Matching
import SystemsDrills.ParkingLot.BestFit

/-!
# Vehicles that come one after the other

`assigner` decides about each vehicle when it comes and knows nothing of those to come.  As long as
nobody leaves this costs nothing: whatever was parked before, no other way to give out the free
spots parks more of the vehicles that arrive, not even one that knows all of them beforehand.
-/

namespace ParkingLot

open Matching

variable {lot : Lot} {s : Size} {t : Ticket} {v : Vehicle} {vs : List Vehicle}

/-- The vehicles come to the lot one after the other. -/
def arrive (lot : Lot) : List Vehicle → List (Option Ticket) × Lot
  | [] => ([], lot)
  | v :: vs =>
    let (t, lot') := assigner lot v
    let (ts, lot'') := arrive lot' vs
    (t :: ts, lot'')

/-- What a vehicle needs of a spot. -/
def need (v : Vehicle) : Nat := (smallestFit v).rank

namespace Lot

/-- What the spot of a ticket has. -/
def grade (lot : Lot) (t : Ticket) : Nat := (lot.spotAt t).size.rank

/-- The spot of a ticket can be given to a vehicle. -/
def Vacant (lot : Lot) (t : Ticket) : Prop := lot.InRange t ∧ (lot.spotAt t).occupied = false

/-- A way to park the vehicles on the spots that are free: each gets one that it fits in or none, and
no two get the same. -/
def Parks (lot : Lot) : List Vehicle → List (Option Ticket) → Prop :=
  Assignment need lot.grade lot.Vacant

theorem Free.vacant (h : lot.Free s t) : lot.Vacant t := ⟨h.1, congrArg Spot.occupied h.2⟩

theorem Free.grade_eq (h : lot.Free s t) : lot.grade t = s.rank := by rw [grade, h.2]

theorem Vacant.free (h : lot.Vacant t) : lot.Free (lot.spotAt t).size t :=
  ⟨h.1, congrArg (fun occ => Spot.mk occ (lot.spotAt t).size) h.2⟩

/-- Of the spots that were free all are left but the one that was taken. -/
theorem Shape.vacant_take (h : lot.Shape) (ht : lot.Free s t) :
    (lot.take t s).Vacant = fun t' => lot.Vacant t' ∧ t' ≠ t := by
  funext t'
  refine propext ⟨fun hvacant => ?_, fun ⟨⟨hrange, hocc⟩, hne⟩ => ⟨hrange, ?_⟩⟩
  · have hne : t' ≠ t := by
      rintro rfl
      have hocc := hvacant.2
      rw [h.spotAt_take ht] at hocc
      cases hocc
    refine ⟨⟨hvacant.1, ?_⟩, hne⟩
    rw [← h.spotAt_setSpot_of_ne ht.1 hvacant.1 hne]
    exact hvacant.2
  · exact (congrArg Spot.occupied (h.spotAt_setSpot_of_ne ht.1 hrange hne _)).trans hocc

theorem grade_eq (lot : Lot) (t : Ticket) :
    lot.grade t = ((lot.spots.map Spot.size)[lot.index t]?.getD Size.small).rank := by
  rw [grade, spotAt, List.getElem?_map]
  cases lot.spots[lot.index t]? <;> rfl

/-- No spot changes its size when one is taken. -/
theorem grade_take (lot : Lot) (t : Ticket) (s : Size) : (lot.take t s).grade = lot.grade := by
  funext t'
  have hsizes : (lot.take t s).spots.map (·.size) = lot.spots.map (·.size) :=
    lot.map_size_setSpot t true
  rw [grade_eq, grade_eq, hsizes]
  rfl

/-- The vehicles that arrive are parked the greedy way. -/
theorem Inv.greedy (h : lot.Inv) (vs : List Vehicle) :
    Greedy need lot.grade lot.Vacant vs (arrive lot vs).1 := by
  induction vs generalizing lot with
  | nil => exact .nil
  | cons v vs ih =>
      have hcase := assigns_assigner lot v
      rw [arrive]
      generalize assigner lot v = r at hcase
      cases hcase with
      | full hall =>
          refine .turnAway (fun t ht hneed => ?_) (ih h)
          exact h.not_free hall hneed ht.free
      | @parked before s after t hsizes hbefore _ hfind =>
          have hbest := h.bestFit hsizes hbefore hfind
          refine .place hbest.free.vacant ?_ (fun t' ht' hneed => ?_) ?_
          · rw [hbest.free.grade_eq]
            exact hbest.fits
          · rw [hbest.free.grade_eq]
            exact hbest.smallest _ t' hneed ht'.free
          · rw [← h.vacant_take hbest.free, ← lot.grade_take t s]
            exact ih (h.take hbest.free)

end Lot

variable {mem : Bool} {levels num_small num_medium num_large : UInt64}

/-- The vehicles that arrive at a lot while nobody leaves get a spot each that they fit in, as far as
there is one for them, and no way to park them on the same spots parks more. -/
theorem assigner_optimal (h : createLot mem levels num_small num_medium num_large = some lot)
    (hfits : Fits levels num_small num_medium num_large) (calls : List Call) (vs : List Vehicle) :
    (run lot calls).Parks vs (arrive (run lot calls) vs).1 ∧
      ∀ g, (run lot calls).Parks vs g → served g ≤ served (arrive (run lot calls) vs).1 := by
  have hgreedy := ((createLot_inv h hfits).run calls).greedy vs
  exact ⟨hgreedy.assignment, fun g hg => hgreedy.served_le hg⟩

/-- Of a motorcycle and two cars the lot with a medium and a large spot parks two. -/
theorem assigner_optimal_three :
    ∃ lot, createLot true 1 0 1 1 = some lot ∧
      (arrive lot [.motorcycle, .car, .car]).1 = [some ⟨0, 0⟩, some ⟨0, 1⟩, none] ∧
      ∀ g, lot.Parks [.motorcycle, .car, .car] g → served g ≤ 2 := by
  have hnew : createLot true 1 0 1 1 = some ((createLot true 1 0 1 1).get rfl) :=
    (Option.some_get _).symm
  refine ⟨_, hnew, by decide, fun g hg => ?_⟩
  exact (assigner_optimal hnew ⟨by decide, by decide⟩ [] _).2 g hg

end ParkingLot
