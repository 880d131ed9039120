import SystemsDrills.Region.MemoryMap

/-!
# The linear region table

`region_add` and `translate` of `Interview/mock1.c`: a fixed array that is
filled from the left and searched from the left.  The table refines
`MemoryMap` (`regionAdd_refines`, `translate_refines`).
-/

namespace GuestMemory.Linear

open Spans Search

/-- `enum register_codes`. -/
inductive RegisterCodes where
  | registerSuccess
  | regionOverlap
  | sizeZero
  | addressOverflow
  | regionsFull
deriving DecidableEq, Repr

def RegisterCodes.outcome : RegisterCodes → Outcome
  | .registerSuccess => .added
  | .regionOverlap => .overlap
  | .sizeZero => .badSize
  | .addressOverflow => .wraps
  | .regionsFull => .full

/-- `struct region_table`: `regions[0 .. registered - 1]` are valid. -/
structure RegionTable where
  regions : List Region
  registered : Nat
  length_eq : regions.length = maxRegions

/-- The statically zero-initialized table. -/
def RegionTable.zero : RegionTable where
  regions := List.replicate maxRegions ⟨0, 0, 0⟩
  registered := 0
  length_eq := List.length_replicate

def RegionTable.get (tbl : RegionTable) (i : Nat) : Region := tbl.regions[i]?.getD default

/-- The overlap test of the loop in `region_add`. -/
def overlaps (newStart newEnd : UInt64) (old : Region) : Bool :=
  !(newEnd ≤ old.gpaStart || newStart ≥ old.gpaStart + old.size)

def regionAdd (tbl : RegionTable) (rgn : Region) : RegisterCodes × RegionTable :=
  if rgn.size = 0 then (.sizeZero, tbl)
  else if (18446744073709551615 : UInt64) - rgn.size < rgn.gpaStart then (.addressOverflow, tbl)
  else if (18446744073709551615 : UInt64) - rgn.size < rgn.hva then (.addressOverflow, tbl)
  else if tbl.registered = maxRegions then (.regionsFull, tbl)
  else
    let newStart := rgn.gpaStart
    let newEnd := newStart + rgn.size
    match firstFrom (fun i => overlaps newStart newEnd (tbl.get i)) tbl.registered 0 with
    | some _ => (.regionOverlap, tbl)
    | none =>
        (.registerSuccess,
          { regions := tbl.regions.set tbl.registered rgn
            registered := tbl.registered + 1
            length_eq := by rw [List.length_set, tbl.length_eq] })

/-- `gpa` is in the region: `gpa >= start` makes `gpa - start` safe. -/
def hits (gpa : UInt64) (r : Region) : Bool :=
  gpa ≥ r.gpaStart && gpa - r.gpaStart < r.size

/-- The answer and what `*hva` holds afterwards. -/
def translate (tbl : RegionTable) (gpa hva : UInt64) : Bool × UInt64 :=
  match firstFrom (fun i => hits gpa (tbl.get i)) tbl.registered 0 with
  | some i => (true, (tbl.get i).hva + (gpa - (tbl.get i).gpaStart))
  | none => (false, hva)

/-! ## Refinement -/

/-- The regions in use. -/
def RegionTable.used (tbl : RegionTable) : List Region := tbl.regions.take tbl.registered

/-- The table stores the map. -/
structure RegionTable.Represents (tbl : RegionTable) (m : MemoryMap) : Prop where
  le : tbl.registered ≤ maxRegions
  listed : m.ListedBy tbl.used

theorem zero_represents : RegionTable.zero.Represents .empty :=
  ⟨Nat.zero_le _, MemoryMap.listedBy_empty⟩

variable {tbl : RegionTable} {m : MemoryMap}

theorem RegionTable.get_mem_used (h : tbl.registered ≤ maxRegions) {i : Nat}
    (hi : i < tbl.registered) : tbl.get i ∈ tbl.used := by
  have hlt : i < tbl.regions.length := by rw [tbl.length_eq]; omega
  rw [get, List.getElem?_eq_getElem hlt, Option.getD_some]
  exact List.mem_take_iff_getElem.mpr ⟨i, by omega, rfl⟩

theorem RegionTable.exists_get_of_mem {r : Region} (hr : r ∈ tbl.used) :
    ∃ i, i < tbl.registered ∧ tbl.get i = r := by
  obtain ⟨i, hi, rfl⟩ := List.mem_take_iff_getElem.mp hr
  exact ⟨i, by omega, by rw [get, List.getElem?_eq_getElem (by omega), Option.getD_some]⟩

/-- A left-to-right loop over the table stops at a region in use that passes
the test. -/
theorem RegionTable.firstFrom_some (h : tbl.registered ≤ maxRegions) {p : Region → Bool} {i : Nat}
    (hi : firstFrom (fun i => p (tbl.get i)) tbl.registered 0 = some i) :
    tbl.get i ∈ tbl.used ∧ p (tbl.get i) := by
  have key := Search.firstFrom_spec (fun i => p (tbl.get i)) tbl.registered 0
  rw [hi] at key
  exact ⟨get_mem_used h key.2.1, key.2.2⟩

/-- It runs to the end only if none does. -/
theorem RegionTable.firstFrom_none {p : Region → Bool}
    (hi : firstFrom (fun i => p (tbl.get i)) tbl.registered 0 = none) :
    ∀ r ∈ tbl.used, p r = false := by
  have key := Search.firstFrom_spec (fun i => p (tbl.get i)) tbl.registered 0
  rw [hi] at key
  intro r hr
  obtain ⟨i, hlt, rfl⟩ := exists_get_of_mem hr
  exact key i (Nat.zero_le i) hlt

theorem overlaps_iff {r old : Region} (hr : r.Valid) (hold : old.Valid) :
    overlaps r.gpaStart (r.gpaStart + r.size) old ↔ Meets Region.lo Region.hi old r := by
  simp only [overlaps, Bool.not_eq_true', Bool.or_eq_false_iff, decide_eq_false_iff_not,
    UInt64.le_iff_toNat_le, ge_iff_le, hr.toNat_end, hold.toNat_end, Meets, Region.lo]
  omega

theorem hits_iff {gpa : UInt64} {r : Region} : hits gpa r ↔ gpa.toNat ∈ r.range := by
  simp only [hits, Bool.and_eq_true, decide_eq_true_eq, ge_iff_le]
  constructor
  · rintro ⟨hle, hlt⟩
    exact ⟨UInt64.le_iff_toNat_le.mp hle, (Region.sub_lt_size_iff hle).mp hlt⟩
  · rintro ⟨hlo, hhi⟩
    have hle : r.gpaStart ≤ gpa := UInt64.le_iff_toNat_le.mpr hlo
    exact ⟨hle, (Region.sub_lt_size_iff hle).mpr hhi⟩

/-- Storing a region behind the used ones lists the extended map. -/
theorem listedBy_push (h : tbl.Represents m) {r : Region} (hv : r.Valid)
    (hc : m.regions.card < maxRegions)
    (hno : ∀ a ∈ m.regions, ¬ Meets Region.lo Region.hi a r) :
    (m.extend r hv hc hno).ListedBy ((tbl.regions.set tbl.registered r).take (tbl.registered + 1)) := by
  have hlen : tbl.registered < tbl.regions.length := by
    have := h.listed.length_eq
    rw [RegionTable.used, List.length_take, tbl.length_eq] at this
    rw [tbl.length_eq]
    omega
  have heq : (tbl.regions.set tbl.registered r).take (tbl.registered + 1) = tbl.used ++ [r] := by
    rw [List.take_succ_eq_append_getElem (by simpa using hlen), List.take_set_of_le (Nat.le_refl _)]
    simp [RegionTable.used]
  have hfresh : r ∉ m.regions := fun hr => hno r hr ⟨hv.lo_lt_hi, hv.lo_lt_hi⟩
  rw [heq]
  refine ⟨?_, fun a => ?_⟩
  · rw [List.nodup_append]
    refine ⟨h.listed.nodup, by simp, ?_⟩
    intro a ha b hb hab
    obtain rfl := List.mem_singleton.mp hb
    exact hfresh (hab ▸ (h.listed.mem_iff a).mp ha)
  · simp [MemoryMap.extend, h.listed.mem_iff a, or_comm]

theorem RegionTable.Represents.registered_eq (h : tbl.Represents m) :
    tbl.registered = m.regions.card := by
  rw [← h.listed.length_eq, RegionTable.used, List.length_take, tbl.length_eq]
  have := h.le
  omega

/-- `region_add` of `mock1.c` adds to the map. -/
theorem regionAdd_refines (h : tbl.Represents m) (r : Region) :
    (regionAdd tbl r).1.outcome = (m.add r).1 ∧ (regionAdd tbl r).2.Represents (m.add r).2 := by
  unfold regionAdd
  simp only [Region.wraps_iff]
  split_ifs with hz hg hh hfull
  · rw [MemoryMap.add_of_size_eq_zero hz]
    exact ⟨rfl, h⟩
  · rw [MemoryMap.add_of_not_valid hz fun hv => absurd hv.gpa_fits (not_lt.mpr hg)]
    exact ⟨rfl, h⟩
  · rw [MemoryMap.add_of_not_valid hz fun hv => absurd hv.hva_fits (not_lt.mpr hh)]
    exact ⟨rfl, h⟩
  · rw [MemoryMap.add_of_full (Region.valid_of_checks hz hg hh) (h.registered_eq ▸ hfull)]
    exact ⟨rfl, h⟩
  have hv := Region.valid_of_checks hz hg hh
  have hcard : m.regions.card ≠ maxRegions := h.registered_eq ▸ hfull
  split
  next i hi =>
    obtain ⟨hused, hov⟩ := RegionTable.firstFrom_some h.le hi
    have hmem := (h.listed.mem_iff _).mp hused
    rw [MemoryMap.add_of_meets hv hcard hmem ((overlaps_iff hv (m.valid _ hmem)).mp hov)]
    exact ⟨rfl, h⟩
  next hi =>
    have hno : ∀ a ∈ m.regions, ¬ Meets Region.lo Region.hi a r := by
      intro a ha hm
      have hov := RegionTable.firstFrom_none hi a ((h.listed.mem_iff a).mpr ha)
      rw [(overlaps_iff hv (m.valid a ha)).mpr hm] at hov
      cases hov
    rw [MemoryMap.add_of_free hv hcard hno]
    have hlt := lt_of_le_of_ne h.le hfull
    exact ⟨rfl, hlt, listedBy_push h hv (lt_of_le_of_ne m.card_le hcard) hno⟩

/-- `translate` of `mock1.c` translates through the map, and leaves `*hva`
alone on a miss. -/
theorem translate_refines (h : tbl.Represents m) (gpa hva : UInt64) :
    translate tbl gpa hva =
      match m.translate gpa with
      | some v => (true, v)
      | none => (false, hva) := by
  unfold translate
  split
  next i hi =>
    obtain ⟨hused, hhit⟩ := RegionTable.firstFrom_some h.le hi
    rw [m.translate_of_mem ((h.listed.mem_iff _).mp hused) (hits_iff.mp hhit)]
    rfl
  next hi =>
    have hmiss : ∀ r ∈ m.regions, gpa.toNat ∉ r.range := by
      intro r hr hg
      have hhit := RegionTable.firstFrom_none hi r ((h.listed.mem_iff r).mpr hr)
      rw [hits_iff.mpr hg] at hhit
      cases hhit
    rw [m.translate_of_forall hmiss]

end GuestMemory.Linear
