import SystemsDrills.ParkingLot.Counters

/-!
# The layout of a new lot

`create_lot` adds the three numbers of spots and multiplies by the levels modulo `2 ^ 64` before
`calloc` can see that the product is too large.  If it wraps to a small number, a lot is made that
has too few spots for its levels, or whose counters speak of spots that it does not have.

`Layout` is what the numbers of a lot have to be.  `lotFits_iff` gives the arguments for which
every lot that is made has them.
-/

namespace ParkingLot

variable {levels num_small num_medium num_large : UInt64} {lot : Lot}

/-- `sizeof *lot->spots`: a `bool` and an `enum`, aligned. -/
def sizeofSpot : Nat := 8

/-- `levels * per_floor`, which `calloc` is asked for. -/
def requested (levels num_small num_medium num_large : UInt64) : UInt64 :=
  levels * (num_small + num_medium + num_large)

/-- `create_lot` with a `calloc` that succeeds exactly if its own product is below `2 ^ 47`. -/
def createLotCalloc (levels num_small num_medium num_large : UInt64) : Option Lot :=
  createLot ((requested levels num_small num_medium num_large).toNat * sizeofSpot < 2 ^ 47)
    levels num_small num_medium num_large

/-- The spots of a level, as an exact number. -/
def exactFloor (num_small num_medium num_large : UInt64) : Nat :=
  num_small.toNat + num_medium.toNat + num_large.toNat

/-- The array of the lot has a spot for each place that any of the calls looks at, and the counters
are the numbers of spots of each size. -/
structure Layout (levels num_small num_medium num_large : UInt64) (lot : Lot) : Prop where
  exact : (requested levels num_small num_medium num_large).toNat =
    levels.toNat * exactFloor num_small num_medium num_large
  inside : ∀ calls t, (run lot calls).InRange t →
    (run lot calls).index t < (requested levels num_small num_medium num_large).toNat
  counts : ∀ s, (lot.free_count s).toNat = lot.spots.countP (·.size = s)

/-- Every lot that is made from these arguments is laid out right. -/
def LotFits (levels num_small num_medium num_large : UInt64) : Prop :=
  ∀ lot, createLotCalloc levels num_small num_medium num_large = some lot →
    Layout levels num_small num_medium num_large lot

/-! ## The wrapped numbers -/

theorem toNat_per_floor (num_small num_medium num_large : UInt64) :
    (num_small + num_medium + num_large).toNat =
      exactFloor num_small num_medium num_large % 2 ^ 64 := by
  rw [UInt64.toNat_add, UInt64.toNat_add, Nat.mod_add_mod]
  rfl

theorem toNat_requested (levels num_small num_medium num_large : UInt64) :
    (requested levels num_small num_medium num_large).toNat =
      levels.toNat * exactFloor num_small num_medium num_large % 2 ^ 64 := by
  rw [requested, UInt64.toNat_mul, toNat_per_floor, Nat.mul_mod_mod]

/-- `create_lot` makes a lot if there are levels, a level has spots and `calloc` succeeds. -/
theorem createLot_isSome_iff {mem : Bool} :
    (createLot mem levels num_small num_medium num_large).isSome ↔
      levels ≠ 0 ∧ num_small + num_medium + num_large ≠ 0 ∧ mem = true := by
  simp only [createLot]
  by_cases hempty : levels = 0 ∨ num_small + num_medium + num_large = 0
  · rw [if_pos hempty]
    refine ⟨fun hsome => absurd hsome Bool.false_ne_true, fun hall => ?_⟩
    exact absurd hempty (not_or.mpr ⟨hall.1, hall.2.1⟩)
  · rw [if_neg hempty]
    obtain ⟨hlevels, hfloor⟩ := not_or.mp hempty
    cases mem with
    | false =>
        exact ⟨fun hsome => absurd hsome Bool.false_ne_true,
          fun hall => absurd hall.2.2 Bool.false_ne_true⟩
    | true => exact ⟨fun _ => ⟨hlevels, hfloor, rfl⟩, fun _ => rfl⟩

theorem createLotCalloc_isSome_iff :
    (createLotCalloc levels num_small num_medium num_large).isSome ↔
      levels.toNat ≠ 0 ∧ exactFloor num_small num_medium num_large % 2 ^ 64 ≠ 0 ∧
        levels.toNat * exactFloor num_small num_medium num_large % 2 ^ 64 < 2 ^ 44 := by
  rw [createLotCalloc, createLot_isSome_iff, decide_eq_true_eq, toNat_requested,
    ← toNat_per_floor, ← UInt64.toNat_inj.ne, ← UInt64.toNat_inj.ne, UInt64.toNat_zero, sizeofSpot]
  refine and_congr_right' (and_congr_right' ?_)
  omega

/-! ## A lot that does not wrap -/

theorem fits_of_lt (hlevels : levels.toNat ≠ 0)
    (h : levels.toNat * exactFloor num_small num_medium num_large < 2 ^ 64) :
    Fits levels num_small num_medium num_large := by
  refine ⟨lt_of_le_of_lt ?_ h, h⟩
  exact Nat.le_mul_of_pos_left _ (Nat.pos_of_ne_zero hlevels)

/-- All spots of a new lot are free. -/
theorem createLot_free {mem : Bool}
    (h : createLot mem levels num_small num_medium num_large = some lot)
    (hfits : Fits levels num_small num_medium num_large) (sp : Spot) (hsp : sp ∈ lot.spots) :
    sp.occupied = false := by
  obtain ⟨hshape, -, -, -, hspots⟩ := createLot_spots h hfits
  obtain ⟨k, hk, rfl⟩ := List.getElem_of_mem hsp
  obtain ⟨t, ht, rfl, -⟩ := hshape.exists_ticket hk
  obtain ⟨_, hget⟩ := hshape.getElem_index ht
  rw [hget, hspots t ht]

/-- A lot whose arguments do not wrap is laid out right. -/
theorem layout_of_fits {mem : Bool}
    (h : createLot mem levels num_small num_medium num_large = some lot)
    (hfits : Fits levels num_small num_medium num_large) :
    Layout levels num_small num_medium num_large lot := by
  have hinv := createLot_inv h hfits
  obtain ⟨hshape, hlevels, hfloor, -⟩ := createLot_spots h hfits
  have hexact : (requested levels num_small num_medium num_large).toNat =
      levels.toNat * exactFloor num_small num_medium num_large := by
    rw [toNat_requested]
    exact Nat.mod_eq_of_lt hfits.spots
  refine ⟨hexact, fun calls t ht => ?_, fun s => ?_⟩
  · have hlt := (hinv.run calls).toShape.index_lt ht
    have hlength := congrArg List.length (map_size_run lot calls)
    rw [List.length_map, List.length_map] at hlength
    rw [hlength, hshape.length, hlevels, hfloor, hfits.per_floor] at hlt
    rw [hexact]
    exact hlt
  · rw [hinv.counts, Lot.unoccupied]
    refine List.countP_congr fun sp hsp => ?_
    simp [createLot_free h hfits sp hsp]

/-- Every lot that `create_lot` makes is laid out right exactly if the product does not wrap, or
wraps to what `create_lot` or `calloc` refuses. -/
theorem lot_fits_iff (levels num_small num_medium num_large : UInt64) :
    LotFits levels num_small num_medium num_large ↔
      levels.toNat * exactFloor num_small num_medium num_large < 2 ^ 64 ∨
        exactFloor num_small num_medium num_large % 2 ^ 64 = 0 ∨
        2 ^ 44 ≤ levels.toNat * exactFloor num_small num_medium num_large % 2 ^ 64 := by
  constructor
  · intro hfits
    by_contra hnot
    push Not at hnot
    obtain ⟨hwraps, hfloor, hsmall⟩ := hnot
    have hlevels : levels.toNat ≠ 0 := by
      intro h0
      rw [h0, Nat.zero_mul] at hwraps
      exact absurd hwraps (by norm_num)
    obtain ⟨lot, hlot⟩ := Option.isSome_iff_exists.mp
      (createLotCalloc_isSome_iff.mpr ⟨hlevels, hfloor, hsmall⟩)
    have hexact := (hfits lot hlot).exact
    rw [toNat_requested] at hexact
    omega
  · intro hcond lot hlot
    have hmade := createLotCalloc_isSome_iff.mp (Option.isSome_of_eq_some hlot)
    obtain ⟨hlevels, hfloor, hsmall⟩ := hmade
    rcases hcond with hlt | hzero | hlarge
    · exact layout_of_fits hlot (fits_of_lt hlevels hlt)
    · exact absurd hzero hfloor
    · omega

/-- A small lot. -/
theorem lot_fits_iff_small : LotFits 2 3 2 1 := (lot_fits_iff 2 3 2 1).mpr (.inl (by decide))

/-- One level with so many small spots that the sum wraps to 1.  The lot that is made has one spot,
and a counter for all of them. -/
theorem not_lotFits :
    (createLotCalloc 1 18446744073709551615 1 1).map
        (fun lot => (lot.spots, lot.free_count .small)) =
      some ([⟨false, .small⟩], 18446744073709551615) ∧
      ¬ LotFits 1 18446744073709551615 1 1 := by
  have hmade : ∃ lot, createLotCalloc 1 18446744073709551615 1 1 = some lot :=
    Option.isSome_iff_exists.mp (by decide)
  refine ⟨by decide, fun h => ?_⟩
  obtain ⟨lot, hlot⟩ := hmade
  exact absurd (h lot hlot).exact (by decide)

end ParkingLot
