import SystemsDrills.Lib.Grid

/-!
# The parking lot

`create_lot`, `assigner` and `deassigner` of `Interview/leetcode/08-parking-lot.c`.  The
spots lie level by level in one array, and the lot keeps for each size the number of spots
that are free.  `assigner` skips the sizes of which there is none and takes the first free
spot of the next size.  A ticket is the place of the spot and nothing more.

`size_t` is `UInt64`.  `Lot.Inv` says that the counters are those of the spots; every call
keeps it.
-/

namespace ParkingLot

/-! ## The code -/

/-- `enum Size`. -/
inductive Size where
  | small
  | medium
  | large
deriving DecidableEq, Repr

/-- The value of the enumerator. -/
def Size.rank : Size → Nat
  | .small => 0
  | .medium => 1
  | .large => 2

/-- `enum Vehicle`. -/
inductive Vehicle where
  | motorcycle
  | car
  | truck
deriving DecidableEq, Repr

@[ext] structure Ticket where
  level : UInt64
  spot : UInt64
deriving DecidableEq, Repr

structure Spot where
  occupied : Bool
  size : Size
deriving DecidableEq, Repr

@[ext] structure Lot where
  spots : List Spot
  levels : UInt64
  spots_floor : UInt64
  free_count : Size → UInt64

/-- `smallest_fit`. -/
def smallestFit : Vehicle → Size
  | .motorcycle => .small
  | .car => .medium
  | .truck => .large

namespace Lot

/-- The index of `spot_at`. -/
def index (lot : Lot) (t : Ticket) : Nat := (t.level * lot.spots_floor + t.spot).toNat

/-- `*spot_at(lot, level, spot)`. -/
def spotAt (lot : Lot) (t : Ticket) : Spot := lot.spots[lot.index t]?.getD ⟨false, .small⟩

/-- A store to `*spot_at(lot, level, spot)`. -/
@[simps] def setSpot (lot : Lot) (t : Ticket) (sp : Spot) : Lot :=
  { lot with spots := lot.spots.set (lot.index t) sp }

/-- A store to `free_count[s]`. -/
@[simps] def setCount (lot : Lot) (s : Size) (n : UInt64) : Lot :=
  { lot with free_count := Function.update lot.free_count s n }

end Lot

/-- The size that `create_lot` gives to spot `j` of a level. -/
def sizeAt (num_small num_medium j : UInt64) : Size :=
  if j < num_small then .small else if j < num_small + num_medium then .medium else .large

/-- The body of the loops of `create_lot`. -/
def Lot.setSize (lot : Lot) (num_small num_medium : UInt64) (t : Ticket) : Lot :=
  lot.setSpot t { lot.spotAt t with size := sizeAt num_small num_medium t.spot }

/-- The loops of `create_lot`. -/
def Lot.setSizes (lot : Lot) (num_small num_medium : UInt64) : Lot :=
  (List.range lot.levels.toNat).foldl
    (fun lot' i =>
      (List.range lot.spots_floor.toNat).foldl
        (fun lot' j => lot'.setSize num_small num_medium ⟨UInt64.ofNat i, UInt64.ofNat j⟩) lot')
    lot

/-- `create_lot`.  `mem` tells whether `calloc` finds memory, which is all zero then. -/
def createLot (mem : Bool) (levels num_small num_medium num_large : UInt64) : Option Lot :=
  let per_floor := num_small + num_medium + num_large
  if levels = 0 ∨ per_floor = 0 then
    none
  else if mem then
    let lot := Lot.setSizes
      { spots := List.replicate (levels * per_floor).toNat ⟨false, .small⟩
        levels := levels
        spots_floor := per_floor
        free_count := fun _ => 0 } num_small num_medium
    some (((lot.setCount .small (levels * num_small)).setCount .medium
      (levels * num_medium)).setCount .large (levels * num_large))
  else
    none

/-- The first free spot of a size, level by level. -/
def Lot.find (lot : Lot) (s : Size) : Option Ticket :=
  (Grid.find
    (fun i j =>
      let sp := lot.spotAt ⟨UInt64.ofNat i, UInt64.ofNat j⟩
      !sp.occupied && sp.size = s)
    lot.levels.toNat lot.spots_floor.toNat).map
      fun (i, j) => ⟨UInt64.ofNat i, UInt64.ofNat j⟩

/-- The spot of a ticket is taken. -/
def Lot.take (lot : Lot) (t : Ticket) (s : Size) : Lot :=
  (lot.setSpot t { lot.spotAt t with occupied := true }).setCount s (lot.free_count s - 1)

/-- The sizes from `s` to `LARGE`. -/
def Size.upTo : Size → List Size
  | .small => [.small, .medium, .large]
  | .medium => [.medium, .large]
  | .large => [.large]

/-- The loop of `assigner` over the sizes. -/
def assignFrom (lot : Lot) : List Size → Option Ticket × Lot
  | [] => (none, lot)
  | s :: sizes =>
    if lot.free_count s = 0 then
      assignFrom lot sizes
    else
      match lot.find s with
      | some t => (some t, lot.take t s)
      | none => assignFrom lot sizes

/-- `assigner`: the ticket if it returned true, and the lot after it. -/
def assigner (lot : Lot) (v : Vehicle) : Option Ticket × Lot := assignFrom lot (smallestFit v).upTo

/-- The spot of a ticket is free again. -/
def Lot.leave (lot : Lot) (t : Ticket) : Lot :=
  (lot.setSpot t { lot.spotAt t with occupied := false }).setCount (lot.spotAt t).size
    (lot.free_count (lot.spotAt t).size + 1)

/-- `deassigner`. -/
def deassigner (lot : Lot) (t : Ticket) : Bool × Lot :=
  if t.level ≥ lot.levels ∨ t.spot ≥ lot.spots_floor then
    (false, lot)
  else if (lot.spotAt t).occupied = false then
    (false, lot)
  else
    (true, lot.leave t)

/-- `free_spots`. -/
def freeSpots (lot : Lot) (s : Size) : UInt64 := lot.free_count s

/-! ## Spots -/

namespace Lot

variable {lot : Lot} {t t' : Ticket} {s : Size}

/-- What `deassigner` tests. -/
def InRange (lot : Lot) (t : Ticket) : Prop := t.level < lot.levels ∧ t.spot < lot.spots_floor

/-- The spot is free and of size `s`. -/
def Free (lot : Lot) (s : Size) (t : Ticket) : Prop := lot.InRange t ∧ lot.spotAt t = ⟨false, s⟩

/-- The array has a spot for each place, and no index wraps. -/
structure Shape (lot : Lot) : Prop where
  fits : lot.levels.toNat * lot.spots_floor.toNat < 2 ^ 64
  length : lot.spots.length = lot.levels.toNat * lot.spots_floor.toNat

theorem Shape.index_eq (h : lot.Shape) (ht : lot.InRange t) :
    lot.index t = t.level.toNat * lot.spots_floor.toNat + t.spot.toNat := by
  obtain ⟨hl, hs⟩ := ht
  rw [UInt64.lt_iff_toNat_lt] at hl hs
  have hlt := (Grid.index_lt hl hs).trans h.fits
  rw [index, UInt64.toNat_add, UInt64.toNat_mul, Nat.mod_eq_of_lt (a := _ * _) (by omega),
    Nat.mod_eq_of_lt hlt]

theorem Shape.index_lt (h : lot.Shape) (ht : lot.InRange t) : lot.index t < lot.spots.length := by
  rw [h.index_eq ht, h.length]
  exact Grid.index_lt (UInt64.lt_iff_toNat_lt.mp ht.1) (UInt64.lt_iff_toNat_lt.mp ht.2)

theorem Shape.index_inj (h : lot.Shape) (ht : lot.InRange t) (ht' : lot.InRange t')
    (heq : lot.index t = lot.index t') : t = t' := by
  rw [h.index_eq ht, h.index_eq ht'] at heq
  obtain ⟨hlevel, hspot⟩ := Grid.index_inj (UInt64.lt_iff_toNat_lt.mp ht.2)
    (UInt64.lt_iff_toNat_lt.mp ht'.2) heq
  exact Ticket.ext (UInt64.toNat_inj.mp hlevel) (UInt64.toNat_inj.mp hspot)

theorem Shape.getElem_index (h : lot.Shape) (ht : lot.InRange t) :
    ∃ _ : lot.index t < lot.spots.length, lot.spots[lot.index t] = lot.spotAt t := by
  refine ⟨h.index_lt ht, ?_⟩
  rw [spotAt, List.getElem?_eq_getElem (h.index_lt ht)]
  rfl

/-- Every index is that of a place. -/
theorem Shape.exists_ticket (h : lot.Shape) {k : Nat} (hk : k < lot.spots.length) :
    ∃ t, lot.InRange t ∧ lot.index t = k ∧ t.spot.toNat = k % lot.spots_floor.toNat := by
  have hpos : 0 < lot.spots_floor.toNat := by
    by_contra h0
    rw [h.length, Nat.eq_zero_of_not_pos h0, Nat.mul_zero] at hk
    exact absurd hk (Nat.not_lt_zero k)
  rw [h.length] at hk
  have hlevel : k / lot.spots_floor.toNat < lot.levels.toNat := Nat.div_lt_of_lt_mul (by
    rwa [Nat.mul_comm])
  have hspot := Nat.mod_lt k hpos
  have hl : (UInt64.ofNat (k / lot.spots_floor.toNat)).toNat = k / lot.spots_floor.toNat :=
    UInt64.toNat_ofNat_of_lt' (hlevel.trans lot.levels.toNat_lt)
  have hs : (UInt64.ofNat (k % lot.spots_floor.toNat)).toNat = k % lot.spots_floor.toNat :=
    UInt64.toNat_ofNat_of_lt' (hspot.trans lot.spots_floor.toNat_lt)
  have ht : lot.InRange ⟨UInt64.ofNat (k / lot.spots_floor.toNat),
      UInt64.ofNat (k % lot.spots_floor.toNat)⟩ := by
    refine ⟨UInt64.lt_iff_toNat_lt.mpr ?_, UInt64.lt_iff_toNat_lt.mpr ?_⟩
    · rwa [hl]
    · rwa [hs]
  refine ⟨_, ht, ?_, hs⟩
  rw [h.index_eq ht, hl, hs, Nat.div_add_mod']

theorem Shape.setSpot (h : lot.Shape) (t : Ticket) (sp : Spot) : (lot.setSpot t sp).Shape :=
  ⟨h.fits, by rw [setSpot_spots, List.length_set]; exact h.length⟩

theorem Shape.setCount (h : lot.Shape) (s : Size) (n : UInt64) : (lot.setCount s n).Shape :=
  ⟨h.fits, h.length⟩

theorem Shape.spotAt_setSpot_self (h : lot.Shape) (ht : lot.InRange t) (sp : Spot) :
    (lot.setSpot t sp).spotAt t = sp := by
  show ((lot.spots.set (lot.index t) sp)[lot.index t]?).getD _ = sp
  rw [List.getElem?_set_self (h.index_lt ht)]
  rfl

theorem Shape.spotAt_setSpot_of_ne (h : lot.Shape) (ht : lot.InRange t) (ht' : lot.InRange t')
    (hne : t' ≠ t) (sp : Spot) : (lot.setSpot t sp).spotAt t' = lot.spotAt t' := by
  show ((lot.spots.set (lot.index t) sp)[lot.index t']?).getD _ = _
  rw [List.getElem?_set_ne fun heq => hne (h.index_inj ht ht' heq).symm]
  rfl

/-- Storing what is there changes nothing. -/
theorem Shape.setSpot_spotAt (h : lot.Shape) (ht : lot.InRange t) (sp : Spot) :
    (lot.spots.set (lot.index t) sp).set (lot.index t) (lot.spotAt t) = lot.spots := by
  obtain ⟨hlt, hget⟩ := h.getElem_index ht
  rw [List.set_set, ← hget, List.set_getElem_self]

/-! ## Counting -/

/-- The number of free spots of a size, over all levels. -/
def unoccupied (lot : Lot) (s : Size) : Nat :=
  lot.spots.countP fun sp => !sp.occupied && sp.size = s

/-- A free spot is taken. -/
theorem Shape.unoccupied_take (h : lot.Shape) (ht : lot.Free s t) (s' : Size) :
    (lot.setSpot t { lot.spotAt t with occupied := true }).unoccupied s' +
      (if s' = s then 1 else 0) = lot.unoccupied s' := by
  obtain ⟨ht, hspot⟩ := ht
  obtain ⟨hlt, hget⟩ := h.getElem_index ht
  rw [unoccupied, setSpot_spots, List.countP_set hlt, hget, hspot]
  by_cases hs : s' = s
  · subst hs
    have hpos : 0 < lot.unoccupied s' :=
      List.countP_pos_iff.mpr ⟨_, List.getElem_mem hlt, by rw [hget, hspot]; simp⟩
    simp only [Bool.not_false, Bool.true_and, decide_true, if_true, Bool.not_true, Bool.false_and,
      Bool.false_eq_true, if_false]
    rw [unoccupied] at hpos ⊢
    omega
  · simp [hs, Ne.symm hs, unoccupied]

/-- A spot that was taken is free again. -/
theorem Shape.unoccupied_leave (h : lot.Shape) (ht : lot.InRange t)
    (hocc : (lot.spotAt t).occupied = true) (s' : Size) :
    (lot.setSpot t { lot.spotAt t with occupied := false }).unoccupied s' =
      lot.unoccupied s' + if s' = (lot.spotAt t).size then 1 else 0 := by
  obtain ⟨hlt, hget⟩ := h.getElem_index ht
  rw [unoccupied, setSpot_spots, List.countP_set hlt, hget]
  simp [hocc, unoccupied, eq_comm]

theorem unoccupied_le_length (lot : Lot) (s : Size) : lot.unoccupied s ≤ lot.spots.length :=
  List.countP_le_length

end Lot

end ParkingLot
