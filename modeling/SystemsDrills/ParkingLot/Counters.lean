import SystemsDrills.ParkingLot.Lot

/-!
# The counters of the lot

`free_count` says again what the flags of the spots say.  A lot that `create_lot` made has
the right counters, a ticket that `assigner` returns names a free spot of the size whose
counter goes down, and `deassigner` raises the counter of the spot's own size.  So the
counters are right after every sequence of calls, and no counter is lowered at zero.
-/

namespace ParkingLot

namespace Lot

variable {lot : Lot} {t : Ticket} {s : Size}

/-- The counters are those of the spots. -/
structure Inv (lot : Lot) : Prop extends lot.Shape where
  counts : ∀ s, (lot.free_count s).toNat = lot.unoccupied s

/-! ## Finding a spot -/

theorem inRange_ofNat {i j : Nat} (hi : i < lot.levels.toNat) (hj : j < lot.spots_floor.toNat) :
    lot.InRange ⟨UInt64.ofNat i, UInt64.ofNat j⟩ := by
  refine ⟨UInt64.lt_iff_toNat_lt.mpr ?_, UInt64.lt_iff_toNat_lt.mpr ?_⟩
  · rwa [UInt64.toNat_ofNat_of_lt' (hi.trans lot.levels.toNat_lt)]
  · rwa [UInt64.toNat_ofNat_of_lt' (hj.trans lot.spots_floor.toNat_lt)]

theorem eq_spot_iff {sp : Spot} :
    (!sp.occupied && decide (sp.size = s)) = true ↔ sp = ⟨false, s⟩ := by
  obtain ⟨occupied, size⟩ := sp
  simp

/-- There is no free spot of the size if none is found. -/
theorem find_eq_none_iff : lot.find s = none ↔ ∀ t, ¬ lot.Free s t := by
  rw [find, Option.map_eq_none_iff, Grid.find_eq_none_iff]
  constructor
  · rintro h ⟨level, spot⟩ ⟨⟨hl, hs⟩, hspot⟩
    have hfree := h level.toNat (UInt64.lt_iff_toNat_lt.mp hl) spot.toNat
      (UInt64.lt_iff_toNat_lt.mp hs)
    rw [UInt64.ofNat_toNat, UInt64.ofNat_toNat, hspot] at hfree
    simp at hfree
  · intro h i hi j hj
    by_contra hfree
    rw [Bool.not_eq_false, eq_spot_iff] at hfree
    exact h _ ⟨inRange_ofNat hi hj, hfree⟩

/-- The spot that is found is the first free one of the size. -/
theorem of_find_eq_some (h : lot.find s = some t) :
    lot.Free s t ∧ ∀ t', lot.Free s t' →
      t.level < t'.level ∨ t.level = t'.level ∧ t.spot ≤ t'.spot := by
  obtain ⟨⟨i, j⟩, hfind, rfl⟩ := Option.map_eq_some_iff.mp h
  obtain ⟨hi, hj, hfree, hfirst⟩ := Grid.of_find_eq_some hfind
  refine ⟨⟨inRange_ofNat hi hj, eq_spot_iff.mp hfree⟩, ?_⟩
  rintro ⟨level, spot⟩ ⟨⟨hl, hs⟩, hspot⟩
  have hi' : (UInt64.ofNat i).toNat = i := UInt64.toNat_ofNat_of_lt' (hi.trans lot.levels.toNat_lt)
  have hj' : (UInt64.ofNat j).toNat = j :=
    UInt64.toNat_ofNat_of_lt' (hj.trans lot.spots_floor.toNat_lt)
  have hlex := hfirst level.toNat (UInt64.lt_iff_toNat_lt.mp hl) spot.toNat
    (UInt64.lt_iff_toNat_lt.mp hs)
    (by rw [UInt64.ofNat_toNat, UInt64.ofNat_toNat, hspot]; simp)
  simp only [UInt64.lt_iff_toNat_lt, UInt64.le_iff_toNat_le, ← UInt64.toNat_inj, hi', hj']
  exact hlex

/-- A counter is zero exactly if no spot of the size is free. -/
theorem Inv.free_count_eq_zero_iff (h : lot.Inv) : lot.free_count s = 0 ↔ ∀ t, ¬ lot.Free s t := by
  rw [← UInt64.toNat_inj, h.counts, UInt64.toNat_zero, unoccupied, List.countP_eq_zero]
  constructor
  · rintro hnone t ⟨ht, hspot⟩
    obtain ⟨hlt, hget⟩ := h.getElem_index ht
    refine hnone _ (List.getElem_mem hlt) ?_
    rw [hget, eq_spot_iff, hspot]
  · intro hnone sp hsp hfree
    obtain ⟨k, hk, rfl⟩ := List.getElem_of_mem hsp
    obtain ⟨t, ht, hindex, -⟩ := h.exists_ticket hk
    obtain ⟨hlt, hget⟩ := h.getElem_index ht
    subst hindex
    rw [hget, eq_spot_iff] at hfree
    exact hnone t ⟨ht, hfree⟩

/-! ## Taking and leaving a spot -/

/-- A free spot is taken and the counter of its size goes down. -/
theorem Inv.take (h : lot.Inv) (ht : lot.Free s t) : (lot.take t s).Inv := by
  refine ⟨(h.toShape.setSpot _ _).setCount _ _, fun s' => ?_⟩
  have hcount := h.unoccupied_take ht s'
  have hold := h.counts s'
  have := (lot.free_count s').toNat_lt
  show (Function.update lot.free_count s (lot.free_count s - 1) s').toNat =
    (lot.setSpot t { lot.spotAt t with occupied := true }).unoccupied s'
  by_cases hs : s' = s
  · subst hs
    rw [if_pos rfl] at hcount
    rw [Function.update_self, UInt64.toNat_sub, UInt64.toNat_one]
    omega
  · rw [if_neg hs] at hcount
    rw [Function.update_of_ne hs]
    omega

/-- A spot is free again and the counter of its size goes up. -/
theorem Inv.leave (h : lot.Inv) (ht : lot.InRange t) (hocc : (lot.spotAt t).occupied = true) :
    (lot.leave t).Inv := by
  refine ⟨(h.toShape.setSpot _ _).setCount _ _, fun s' => ?_⟩
  have hcount := h.unoccupied_leave ht hocc s'
  have hold := h.counts s'
  show (Function.update lot.free_count (lot.spotAt t).size
      (lot.free_count (lot.spotAt t).size + 1) s').toNat =
    (lot.setSpot t { lot.spotAt t with occupied := false }).unoccupied s'
  by_cases hs : s' = (lot.spotAt t).size
  · -- There are fewer spots than `2 ^ 64`, so the counter does not wrap.
    have hle := unoccupied_le_length (lot.setSpot t { lot.spotAt t with occupied := false }) s'
    rw [setSpot_spots, List.length_set, h.length] at hle
    have hfits := h.fits
    subst hs
    rw [if_pos rfl] at hcount
    rw [Function.update_self, UInt64.toNat_add, UInt64.toNat_one]
    omega
  · rw [if_neg hs] at hcount
    rw [Function.update_of_ne hs]
    omega

end Lot

/-! ## What a call does -/

section Calls

variable {s fit : Size}

/-- The sizes that a vehicle fits in. -/
theorem Size.mem_upTo : s ∈ fit.upTo ↔ fit.rank ≤ s.rank := by
  cases fit <;> cases s <;> decide

theorem Size.pairwise_upTo (fit : Size) : fit.upTo.Pairwise (·.rank < ·.rank) := by
  cases fit <;> decide

/-- What `assigner` does with a size before it goes on to the next one. -/
def Lot.Skipped (lot : Lot) (s : Size) : Prop := lot.free_count s = 0 ∨ lot.find s = none

/-- What the loop over the sizes may come to. -/
inductive Assigns (lot : Lot) (sizes : List Size) : Option Ticket × Lot → Prop where
  | full : (∀ s ∈ sizes, lot.Skipped s) → Assigns lot sizes (none, lot)
  | parked (before : List Size) {s : Size} {after : List Size} {t : Ticket} :
      sizes = before ++ s :: after → (∀ s' ∈ before, lot.Skipped s') →
      lot.free_count s ≠ 0 → lot.find s = some t → Assigns lot sizes (some t, lot.take t s)

theorem Assigns.cons {lot : Lot} {sizes : List Size} {r : Option Ticket × Lot}
    (h : Assigns lot sizes r) (hs : lot.Skipped s) : Assigns lot (s :: sizes) r := by
  cases h with
  | full hall => exact .full (List.forall_mem_cons.mpr ⟨hs, hall⟩)
  | parked before hsizes hbefore hcount hfind =>
      exact .parked (s :: before) (congrArg (s :: ·) hsizes)
        (List.forall_mem_cons.mpr ⟨hs, hbefore⟩) hcount hfind

theorem assigns_assignFrom (lot : Lot) (sizes : List Size) :
    Assigns lot sizes (assignFrom lot sizes) := by
  fun_induction assignFrom lot sizes with
  | case1 => exact .full (List.forall_mem_nil _)
  | case2 s sizes hcount ih => exact ih.cons (.inl hcount)
  | case3 s sizes hcount t hfind =>
      exact .parked [] rfl (List.forall_mem_nil _) hcount hfind
  | case4 s sizes hcount hfind ih => exact ih.cons (.inr hfind)

theorem assigns_assigner (lot : Lot) (v : Vehicle) :
    Assigns lot (smallestFit v).upTo (assigner lot v) :=
  assigns_assignFrom lot _

/-- What `deassigner` may come to. -/
inductive Deassigns (lot : Lot) (t : Ticket) : Bool × Lot → Prop where
  | rejected : ¬ (lot.InRange t ∧ (lot.spotAt t).occupied = true) → Deassigns lot t (false, lot)
  | left : lot.InRange t → (lot.spotAt t).occupied = true → Deassigns lot t (true, lot.leave t)

theorem deassigns_deassigner (lot : Lot) (t : Ticket) : Deassigns lot t (deassigner lot t) := by
  rw [deassigner]
  split
  · next hout =>
      refine .rejected fun ⟨⟨hl, hs⟩, _⟩ => ?_
      rcases hout with hout | hout
      · exact UInt64.not_lt.mpr hout hl
      · exact UInt64.not_lt.mpr hout hs
  · next hin =>
      rw [not_or, ge_iff_le, ge_iff_le, UInt64.not_le, UInt64.not_le] at hin
      split
      · next hfree => exact .rejected fun ⟨_, hocc⟩ => by simp [hfree] at hocc
      · next hocc => exact .left hin (Bool.not_eq_false _ ▸ hocc)

variable {lot lot' : Lot} {v : Vehicle} {t : Ticket}

/-- A ticket names a free spot, which is taken. -/
theorem of_assigner_eq_some (h : assigner lot v = (some t, lot')) :
    ∃ s, lot.free_count s ≠ 0 ∧ lot.Free s t ∧ lot' = lot.take t s := by
  have hcase := assigns_assigner lot v
  rw [h] at hcase
  cases hcase with
  | parked _ _ _ hcount hfind => exact ⟨_, hcount, (Lot.of_find_eq_some hfind).1, rfl⟩

theorem of_assigner_eq_none (h : assigner lot v = (none, lot')) : lot' = lot := by
  have hcase := assigns_assigner lot v
  rw [h] at hcase
  cases hcase with
  | full _ => rfl

/-- A ticket is accepted if its spot is occupied. -/
theorem of_deassigner_eq_true (h : deassigner lot t = (true, lot')) :
    lot.InRange t ∧ (lot.spotAt t).occupied = true ∧ lot' = lot.leave t := by
  have hcase := deassigns_deassigner lot t
  rw [h] at hcase
  cases hcase with
  | left ht hocc => exact ⟨ht, hocc, rfl⟩

theorem of_deassigner_eq_false (h : deassigner lot t = (false, lot')) :
    ¬ (lot.InRange t ∧ (lot.spotAt t).occupied = true) ∧ lot' = lot := by
  have hcase := deassigns_deassigner lot t
  rw [h] at hcase
  cases hcase with
  | rejected hno => exact ⟨hno, rfl⟩

end Calls

/-! ## A new lot -/

section Create

variable {lot : Lot} (num_small num_medium : UInt64)

/-- The loops of `create_lot` visit a list of spots and set the size of each. -/
theorem Lot.Shape.foldl_setSize (h : lot.Shape) (ts : List Ticket) (hts : ∀ t ∈ ts, lot.InRange t) :
    let lot' := ts.foldl (fun lot' t => lot'.setSize num_small num_medium t) lot
    lot'.levels = lot.levels ∧ lot'.spots_floor = lot.spots_floor ∧
      lot'.spots.length = lot.spots.length ∧
      ∀ t, lot.InRange t → lot'.spotAt t =
        if t ∈ ts then { lot.spotAt t with size := sizeAt num_small num_medium t.spot }
        else lot.spotAt t := by
  induction ts generalizing lot with
  | nil => exact ⟨rfl, rfl, rfl, fun _ _ => rfl⟩
  | cons t₀ ts ih =>
      obtain ⟨ht₀, hts⟩ := List.forall_mem_cons.mp hts
      have hshape : (lot.setSize num_small num_medium t₀).Shape := h.setSpot _ _
      obtain ⟨hlevels, hfloor, hlength, hspots⟩ := ih hshape hts
      refine ⟨hlevels, hfloor, hlength.trans (List.length_set ..), fun t ht => ?_⟩
      rw [List.foldl_cons, hspots t ht]
      by_cases heq : t = t₀
      · subst heq
        rw [Lot.setSize, h.spotAt_setSpot_self ht]
        simp
      · rw [Lot.setSize, h.spotAt_setSpot_of_ne ht₀ ht heq]
        simp [heq]

/-- The places of a lot, level by level. -/
def Lot.places (lot : Lot) : List Ticket :=
  (List.range lot.levels.toNat).flatMap fun i =>
    (List.range lot.spots_floor.toNat).map fun j => ⟨UInt64.ofNat i, UInt64.ofNat j⟩

theorem Lot.mem_places {t : Ticket} : t ∈ lot.places ↔ lot.InRange t := by
  simp only [Lot.places, List.mem_flatMap, List.mem_map, List.mem_range]
  constructor
  · rintro ⟨i, hi, j, hj, rfl⟩
    exact Lot.inRange_ofNat hi hj
  · rintro ⟨hl, hs⟩
    exact ⟨_, UInt64.lt_iff_toNat_lt.mp hl, _, UInt64.lt_iff_toNat_lt.mp hs, by simp⟩

/-- They visit every spot. -/
theorem Lot.Shape.setSizes (h : lot.Shape) :
    let lot' := lot.setSizes num_small num_medium
    lot'.levels = lot.levels ∧ lot'.spots_floor = lot.spots_floor ∧
      lot'.spots.length = lot.spots.length ∧
      ∀ t, lot.InRange t → lot'.spotAt t =
        { lot.spotAt t with size := sizeAt num_small num_medium t.spot } := by
  have hflat : lot.setSizes num_small num_medium =
      lot.places.foldl (fun lot' t => lot'.setSize num_small num_medium t) lot := by
    rw [Lot.setSizes, Lot.places, List.foldl_flatMap]
    simp only [List.foldl_map]
  rw [hflat]
  obtain ⟨hlevels, hfloor, hlength, hspots⟩ := h.foldl_setSize num_small num_medium lot.places
    fun t ht => Lot.mem_places.mp ht
  refine ⟨hlevels, hfloor, hlength, fun t ht => ?_⟩
  rw [hspots t ht, if_pos (Lot.mem_places.mpr ht)]

/-- The number of spots of a size on each level. -/
def perFloor (num_small num_medium num_large : UInt64) : Size → UInt64
  | .small => num_small
  | .medium => num_medium
  | .large => num_large

variable {num_small num_medium}

/-- A level has its small spots first, then the medium ones and then the large ones. -/
theorem map_sizeAt {large : Nat} (h : num_small.toNat + num_medium.toNat + large < 2 ^ 64) :
    (List.range (num_small.toNat + num_medium.toNat + large)).map
        (fun j => sizeAt num_small num_medium (UInt64.ofNat j)) =
      List.replicate num_small.toNat Size.small ++ List.replicate num_medium.toNat Size.medium ++
        List.replicate large Size.large := by
  have hmid : (num_small + num_medium).toNat = num_small.toNat + num_medium.toNat := by
    rw [UInt64.toNat_add, Nat.mod_eq_of_lt (by omega)]
  have hsize : ∀ j < num_small.toNat + num_medium.toNat + large,
      sizeAt num_small num_medium (UInt64.ofNat j) =
        if j < num_small.toNat then .small
        else if j < num_small.toNat + num_medium.toNat then .medium else .large := by
    intro j hj
    rw [sizeAt]
    simp only [UInt64.lt_iff_toNat_lt, hmid, UInt64.toNat_ofNat_of_lt' (hj.trans h)]
  rw [List.map_congr_left fun j hj => hsize j (List.mem_range.mp hj), List.range_add,
    List.range_add, List.map_append, List.map_append, List.map_map, List.map_map]
  congr 1
  · congr 1
    · refine List.eq_replicate_iff.mpr ⟨by simp, ?_⟩
      simp +contextual
    · refine List.eq_replicate_iff.mpr ⟨by simp, ?_⟩
      simp +contextual
  · refine List.eq_replicate_iff.mpr ⟨by simp, fun s hs => ?_⟩
    obtain ⟨j, -, rfl⟩ := List.mem_map.mp hs
    simp only [Function.comp_apply]
    rw [if_neg (by omega), if_neg (by omega)]

/-- The arguments of `create_lot` do not wrap. -/
structure Fits (levels num_small num_medium num_large : UInt64) : Prop where
  floor : num_small.toNat + num_medium.toNat + num_large.toNat < 2 ^ 64
  spots : levels.toNat * (num_small.toNat + num_medium.toNat + num_large.toNat) < 2 ^ 64

variable {mem : Bool} {levels num_large : UInt64}

theorem Fits.per_floor (h : Fits levels num_small num_medium num_large) :
    (num_small + num_medium + num_large).toNat =
      num_small.toNat + num_medium.toNat + num_large.toNat := by
  have := h.floor
  rw [UInt64.toNat_add, UInt64.toNat_add, Nat.mod_eq_of_lt (a := _ % _ + _), Nat.mod_eq_of_lt]
  all_goals omega

/-- The number of spots of a size does not wrap either. -/
theorem Fits.count (h : Fits levels num_small num_medium num_large) (s : Size) :
    (levels * perFloor num_small num_medium num_large s).toNat =
      levels.toNat * (perFloor num_small num_medium num_large s).toNat := by
  have hle : (perFloor num_small num_medium num_large s).toNat ≤
      num_small.toNat + num_medium.toNat + num_large.toNat := by
    cases s <;> simp only [perFloor] <;> omega
  rw [UInt64.toNat_mul, Nat.mod_eq_of_lt ((Nat.mul_le_mul_left _ hle).trans_lt h.spots)]

/-- What `create_lot` has got before its loops. -/
theorem Fits.shape (h : Fits levels num_small num_medium num_large) :
    Lot.Shape
      { spots := List.replicate (levels * (num_small + num_medium + num_large)).toNat ⟨false, .small⟩
        levels := levels
        spots_floor := num_small + num_medium + num_large
        free_count := fun _ => 0 } := by
  refine ⟨?_, ?_⟩
  · show levels.toNat * (num_small + num_medium + num_large).toNat < _
    rw [h.per_floor]
    exact h.spots
  · rw [List.length_replicate, UInt64.toNat_mul, h.per_floor, Nat.mod_eq_of_lt h.spots]

/-- All spots of a new lot are free, and they have the sizes that were asked for. -/
theorem createLot_spots (h : createLot mem levels num_small num_medium num_large = some lot)
    (hfits : Fits levels num_small num_medium num_large) :
    lot.Shape ∧ lot.levels = levels ∧ lot.spots_floor = num_small + num_medium + num_large ∧
      (∀ s, lot.free_count s = levels * perFloor num_small num_medium num_large s) ∧
      ∀ t, lot.InRange t → lot.spotAt t = ⟨false, sizeAt num_small num_medium t.spot⟩ := by
  simp only [createLot] at h
  split at h
  · cases h
  split at h
  · obtain rfl := Option.some.inj h
    obtain ⟨hlevels, hfloor, hlength, hspots⟩ := hfits.shape.setSizes num_small num_medium
    refine ⟨⟨?_, ?_⟩, hlevels, hfloor, ?_, ?_⟩
    · simp only [Lot.setCount_levels, Lot.setCount_spots_floor, hlevels, hfloor]
      exact hfits.shape.fits
    · simp only [Lot.setCount_levels, Lot.setCount_spots_floor, Lot.setCount_spots, hlevels, hfloor,
        hlength]
      exact hfits.shape.length
    · intro s
      cases s <;> simp [perFloor]
    · intro t ht
      refine (hspots t ?_).trans ?_
      · simpa only [Lot.InRange, Lot.setCount_levels, Lot.setCount_spots_floor, hlevels, hfloor]
          using ht
      · rw [Lot.spotAt, List.getElem?_replicate]
        split <;> rfl
  · cases h

/-- A new lot has the right counters. -/
theorem createLot_inv (h : createLot mem levels num_small num_medium num_large = some lot)
    (hfits : Fits levels num_small num_medium num_large) : lot.Inv := by
  obtain ⟨hshape, hlevels, hfloor, hcounts, hspots⟩ := createLot_spots h hfits
  have hwidth : lot.spots_floor.toNat = num_small.toNat + num_medium.toNat + num_large.toNat := by
    rw [hfloor, hfits.per_floor]
  refine ⟨hshape, fun s => ?_⟩
  have hall : lot.spots = (List.range (lot.levels.toNat * lot.spots_floor.toNat)).map fun k =>
      ⟨false, sizeAt num_small num_medium (UInt64.ofNat (k % lot.spots_floor.toNat))⟩ := by
    refine List.ext_getElem (by simp [hshape.length]) fun k hk _ => ?_
    obtain ⟨t, ht, rfl, hspot⟩ := hshape.exists_ticket hk
    obtain ⟨_, hget⟩ := hshape.getElem_index ht
    rw [hget, hspots t ht, List.getElem_map, List.getElem_range, ← hspot, UInt64.ofNat_toNat]
  have hrow : (List.range lot.spots_floor.toNat).countP
      (fun j => sizeAt num_small num_medium (UInt64.ofNat j) = s) =
        (perFloor num_small num_medium num_large s).toNat := by
    have hcount := congrArg (List.countP (· = s)) (map_sizeAt hfits.floor)
    rw [List.countP_map, ← hwidth] at hcount
    refine hcount.trans ?_
    cases s <;> simp [perFloor, List.countP_replicate]
  calc (lot.free_count s).toNat
      = lot.levels.toNat * (perFloor num_small num_medium num_large s).toNat := by
        rw [hcounts, hfits.count, hlevels]
    _ = lot.unoccupied s := by
        rw [← hrow, ← Grid.countP_mod, Lot.unoccupied, hall, List.countP_map]
        simp [Function.comp_def]

end Create

/-! ## Calls in any order -/

/-- A call of `assigner` or of `deassigner`, with any ticket. -/
inductive Call where
  | assigner (v : Vehicle)
  | deassigner (t : Ticket)
deriving DecidableEq, Repr

/-- What a call returns and the lot after it. -/
def Call.exec (lot : Lot) : Call → Bool × Lot
  | .assigner v => ((ParkingLot.assigner lot v).1.isSome, (ParkingLot.assigner lot v).2)
  | .deassigner t => ParkingLot.deassigner lot t

/-- The lot after some calls. -/
def run (lot : Lot) (calls : List Call) : Lot := calls.foldl (fun lot c => (c.exec lot).2) lot

variable {lot : Lot} {mem : Bool} {levels num_small num_medium num_large : UInt64}

theorem run_cons (lot : Lot) (c : Call) (calls : List Call) :
    run lot (c :: calls) = run (c.exec lot).2 calls := rfl

/-- A call takes a spot, leaves one or does nothing. -/
theorem Call.exec_cases (lot : Lot) (c : Call) :
    (∃ s t, lot.free_count s ≠ 0 ∧ lot.Free s t ∧ c.exec lot = (true, lot.take t s)) ∨
      (∃ t, lot.InRange t ∧ (lot.spotAt t).occupied = true ∧ c.exec lot = (true, lot.leave t)) ∨
      c.exec lot = (false, lot) := by
  cases c with
  | assigner v =>
      rw [Call.exec]
      obtain ⟨t | t, lot', h⟩ : ∃ r lot', ParkingLot.assigner lot v = (r, lot') := ⟨_, _, rfl⟩
      · obtain rfl := of_assigner_eq_none h
        exact .inr (.inr (by rw [h]; rfl))
      · obtain ⟨s, hcount, hfree, rfl⟩ := of_assigner_eq_some h
        exact .inl ⟨s, t, hcount, hfree, by rw [h]; rfl⟩
  | deassigner t =>
      rw [Call.exec]
      obtain ⟨_ | _, lot', h⟩ : ∃ r lot', ParkingLot.deassigner lot t = (r, lot') := ⟨_, _, rfl⟩
      · obtain ⟨-, rfl⟩ := of_deassigner_eq_false h
        exact .inr (.inr h)
      · obtain ⟨ht, hocc, rfl⟩ := of_deassigner_eq_true h
        exact .inr (.inl ⟨t, ht, hocc, h⟩)

/-- A call keeps the counters right. -/
theorem Lot.Inv.exec (h : lot.Inv) (c : Call) : (c.exec lot).2.Inv := by
  obtain ⟨s, t, -, ht, heq⟩ | ⟨t, ht, hocc, heq⟩ | heq := c.exec_cases lot
  · rw [heq]
    exact h.take ht
  · rw [heq]
    exact h.leave ht hocc
  · rw [heq]
    exact h

theorem Lot.Inv.run (h : lot.Inv) (calls : List Call) : (run lot calls).Inv := by
  induction calls generalizing lot with
  | nil => exact h
  | cons c calls ih => exact ih (h.exec c)

/-- A store of a flag leaves the sizes as they are. -/
theorem Lot.map_size_setSpot (lot : Lot) (t : Ticket) (occupied : Bool) :
    (lot.setSpot t { lot.spotAt t with occupied := occupied }).spots.map (·.size) =
      lot.spots.map (·.size) := by
  rw [Lot.setSpot_spots, List.map_set]
  by_cases hlt : lot.index t < lot.spots.length
  · have hget : lot.spots[lot.index t] = lot.spotAt t := by simp [Lot.spotAt, hlt]
    conv_rhs => rw [← List.set_getElem_self hlt, List.map_set, hget]
  · exact List.set_eq_of_length_le (by simpa using hlt)

theorem map_size_exec (lot : Lot) (c : Call) :
    (c.exec lot).2.spots.map (·.size) = lot.spots.map (·.size) := by
  obtain ⟨s, t, -, -, heq⟩ | ⟨t, -, -, heq⟩ | heq := c.exec_cases lot
  · rw [heq]
    exact lot.map_size_setSpot t true
  · rw [heq]
    exact lot.map_size_setSpot t false
  · rw [heq]

theorem map_size_run (lot : Lot) (calls : List Call) :
    (run lot calls).spots.map (·.size) = lot.spots.map (·.size) := by
  induction calls generalizing lot with
  | nil => rfl
  | cons c calls ih => rw [run_cons, ih, map_size_exec]

/-- The counter that goes down was not zero. -/
theorem freeSpots_take {t : Ticket} {s : Size} (h : lot.free_count s ≠ 0) :
    (freeSpots (lot.take t s) s).toNat + 1 = (freeSpots lot s).toNat ∧
      ∀ s' ≠ s, freeSpots (lot.take t s) s' = freeSpots lot s' := by
  refine ⟨?_, fun s' hs => Function.update_of_ne hs _ _⟩
  show (Function.update lot.free_count s (lot.free_count s - 1) s).toNat + 1 =
    (lot.free_count s).toNat
  have hpos : 0 < (lot.free_count s).toNat := Nat.pos_of_ne_zero fun h0 =>
    h (UInt64.toNat_inj.mp h0)
  rw [Function.update_self, UInt64.toNat_sub_of_le]
  · rw [UInt64.toNat_one]
    omega
  · rw [UInt64.le_iff_toNat_le, UInt64.toNat_one]
    exact hpos

/-- The counters of a lot count its unoccupied spots after any calls.  The sizes stay as
`create_lot` set them, a successful `assigner` takes one from a counter that is not zero, and a
call that returns false changes nothing. -/
theorem free_count_exact (h : createLot mem levels num_small num_medium num_large = some lot)
    (hfits : Fits levels num_small num_medium num_large) (calls : List Call) :
    (∀ s, (freeSpots (run lot calls) s).toNat = (run lot calls).unoccupied s) ∧
      (run lot calls).spots.map (·.size) = lot.spots.map (·.size) ∧
      (∀ v, (assigner (run lot calls) v).1.isSome → ∃ s,
        (freeSpots (assigner (run lot calls) v).2 s).toNat + 1 =
            (freeSpots (run lot calls) s).toNat ∧
          ∀ s' ≠ s, freeSpots (assigner (run lot calls) v).2 s' = freeSpots (run lot calls) s') ∧
      ∀ c : Call, (c.exec (run lot calls)).1 = false →
        (c.exec (run lot calls)).2 = run lot calls := by
  have hinv := (createLot_inv h hfits).run calls
  refine ⟨hinv.counts, map_size_run lot calls, ?_, ?_⟩
  · intro v hsome
    obtain ⟨t, ht⟩ := Option.isSome_iff_exists.mp hsome
    have hres : assigner (run lot calls) v = (some t, (assigner (run lot calls) v).2) :=
      Prod.ext ht rfl
    obtain ⟨s, hcount, -, heq⟩ := of_assigner_eq_some hres
    rw [heq]
    exact ⟨s, freeSpots_take hcount⟩
  · intro c hfalse
    obtain ⟨_, _, -, -, heq⟩ | ⟨_, -, -, heq⟩ | heq := c.exec_cases (run lot calls)
    · rw [heq] at hfalse
      cases hfalse
    · rw [heq] at hfalse
      cases hfalse
    · rw [heq]

/-- A lot with a single spot, a medium one. -/
def oneMedium : Lot := (createLot true 1 0 1 0).get rfl

theorem createLot_oneMedium : createLot true 1 0 1 0 = some oneMedium := (Option.some_get _).symm

/-- A motorcycle that finds no small spot takes a medium one, and the medium counter gets it
back. -/
theorem free_count_exact_overflow :
    ∃ lot, createLot true 1 0 1 0 = some lot ∧
      let calls : List Call := [.assigner .motorcycle, .assigner .car, .deassigner ⟨0, 0⟩,
        .deassigner ⟨0, 0⟩, .deassigner ⟨7, 0⟩]
      freeSpots (run lot (calls.take 2)) .medium = 0 ∧ freeSpots (run lot calls) .medium = 1 ∧
        ∀ s, (freeSpots (run lot calls) s).toNat = (run lot calls).unoccupied s :=
  ⟨oneMedium, createLot_oneMedium, by decide, by decide,
    (free_count_exact createLot_oneMedium ⟨by decide, by decide⟩ _).1⟩

end ParkingLot
