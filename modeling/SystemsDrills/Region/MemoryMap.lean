import SystemsDrills.Lib.Spans
import Mathlib.Data.Finset.Card
import Mathlib.Order.Interval.Set.Basic

/-!
# Guest memory regions and the map they form

Both `Interview/mock1.c` and `Interview/mock1_rcu.c` keep a table of guest
memory regions and translate guest-physical to host-virtual addresses through
it.  This module says what such a table is for, apart from how it is stored.

A region covers `[gpaStart, gpaStart + size)`.  The ends are taken as exact
natural numbers: `Region.hi` does not wrap, whatever the fields hold.  A
`MemoryMap` is a set of regions that are non-empty, wrap in neither address
space and are pairwise disjoint.  `MemoryMap.add` and `MemoryMap.translate`
are the two operations on it, and both tables refine them.
-/

namespace GuestMemory

open Spans

/-- A guest memory region.  The fields are `gpa_start`, `size` and `hva` in
`mock1_rcu.c`, and `guest_physical_start`, `memsize` and `host_virtual` in
`mock1.c`. -/
structure Region where
  gpaStart : UInt64
  size : UInt64
  hva : UInt64
deriving DecidableEq, Repr, Inhabited

namespace Region

/-- The first guest-physical address. -/
def lo (r : Region) : Nat := r.gpaStart.toNat

/-- One past the last guest-physical address, computed without wrap. -/
def hi (r : Region) : Nat := r.gpaStart.toNat + r.size.toNat

/-- The guest-physical addresses of the region. -/
def range (r : Region) : Set Nat := Set.Ico r.lo r.hi

/-- The region has an address, and `start + size` wraps in neither address
space. -/
structure Valid (r : Region) : Prop where
  size_pos : 0 < r.size.toNat
  gpa_fits : r.gpaStart.toNat + r.size.toNat < 2 ^ 64
  hva_fits : r.hva.toNat + r.size.toNat < 2 ^ 64

/-- The host-virtual address of a guest-physical address of the region. -/
def translate (r : Region) (gpa : UInt64) : UInt64 := r.hva + (gpa - r.gpaStart)

variable {r a b : Region}

theorem Valid.lo_lt_hi (h : r.Valid) : r.lo < r.hi := by
  have := h.size_pos
  simp only [lo, hi]
  omega

theorem Valid.size_ne (h : r.Valid) : r.size ≠ 0 := by
  rintro hz
  have := h.size_pos
  simp [hz] at this

/-- What the two argument checks of `region_add` let through. -/
theorem valid_of_checks (hz : r.size ≠ 0) (hg : ¬ 2 ^ 64 ≤ r.gpaStart.toNat + r.size.toNat)
    (hh : ¬ 2 ^ 64 ≤ r.hva.toNat + r.size.toNat) : r.Valid where
  size_pos := Nat.pos_of_ne_zero fun h0 => hz (UInt64.toNat_inj.mp (by simpa using h0))
  gpa_fits := not_le.mp hg
  hva_fits := not_le.mp hh

/-- The code's `start + size` is the exact end of a valid region. -/
theorem Valid.toNat_end (h : r.Valid) : (r.gpaStart + r.size).toNat = r.hi := by
  rw [UInt64.toNat_add, hi, Nat.mod_eq_of_lt h.gpa_fits]

/-- `UINT64_MAX - size < start` is the exact test for a wrapping sum. -/
theorem wraps_iff (start size : UInt64) :
    (18446744073709551615 : UInt64) - size < start ↔ 2 ^ 64 ≤ start.toNat + size.toNat := by
  have := size.toNat_lt
  have := start.toNat_lt
  rw [UInt64.lt_iff_toNat_lt, UInt64.toNat_sub_of_le _ _ (by
    rw [UInt64.le_iff_toNat_le]; simp; omega)]
  simp
  omega

/-- Ranges intersect exactly when the spans meet. -/
theorem inter_nonempty_iff (ha : a.lo < a.hi) (hb : b.lo < b.hi) :
    (a.range ∩ b.range).Nonempty ↔ Meets lo hi a b := by
  simp only [range, Set.Ico_inter_Ico, Set.nonempty_Ico, Meets, sup_lt_iff, lt_inf_iff]
  omega

/-- The code's test for `gpa` in the region, once `gpa` is not below it. -/
theorem sub_lt_size_iff {gpa : UInt64} (h : r.gpaStart ≤ gpa) :
    gpa - r.gpaStart < r.size ↔ gpa.toNat < r.hi := by
  have hle := UInt64.le_iff_toNat_le.mp h
  rw [UInt64.lt_iff_toNat_lt, UInt64.toNat_sub_of_le _ _ h, hi]
  omega

/-- Inside a valid region the translation does not wrap. -/
theorem Valid.toNat_translate (h : r.Valid) {gpa : UInt64} (hg : gpa.toNat ∈ r.range) :
    (r.translate gpa).toNat = r.hva.toNat + (gpa.toNat - r.gpaStart.toNat) := by
  obtain ⟨hlo, hhi⟩ := hg
  simp only [lo, hi] at hlo hhi
  have := h.hva_fits
  rw [translate, UInt64.toNat_add, UInt64.toNat_sub_of_le _ _ (UInt64.le_iff_toNat_le.mpr hlo),
    Nat.mod_eq_of_lt (by omega)]

end Region

/-! ## The abstract map -/

/-- `MAX_REGIONS` of `mock1_rcu.c`, `NUM_REGIONS` of `mock1.c`. -/
def maxRegions : Nat := 512

/-- A set of valid, pairwise disjoint regions that is not too large. -/
@[ext] structure MemoryMap where
  regions : Finset Region
  valid : ∀ r ∈ regions, r.Valid
  apart : ∀ a ∈ regions, ∀ b ∈ regions, a ≠ b → ¬ Meets Region.lo Region.hi a b
  card_le : regions.card ≤ maxRegions

/-- What became of a request to add a region. -/
inductive Outcome where
  | added
  | badSize
  | wraps
  | full
  | overlap
deriving DecidableEq, Repr

namespace MemoryMap

/-- The map without regions. -/
def empty : MemoryMap where
  regions := ∅
  valid := by simp
  apart := by simp
  card_le := by simp

/-- The map with one more region. -/
def extend (m : MemoryMap) (r : Region) (hv : r.Valid) (hc : m.regions.card < maxRegions)
    (hno : ∀ a ∈ m.regions, ¬ Meets Region.lo Region.hi a r) : MemoryMap where
  regions := insert r m.regions
  valid := by
    intro a ha
    rcases Finset.mem_insert.mp ha with rfl | ha
    · exact hv
    · exact m.valid a ha
  apart := by
    intro a ha b hb hab
    rcases Finset.mem_insert.mp ha with har | ham
    · rcases Finset.mem_insert.mp hb with hbr | hbm
      · exact absurd (har.trans hbr.symm) hab
      · exact fun h => hno b hbm (har ▸ h.symm)
    · rcases Finset.mem_insert.mp hb with hbr | hbm
      · exact fun h => hno a ham (hbr ▸ h)
      · exact m.apart a ham b hbm hab
  card_le := (Finset.card_insert_le _ _).trans hc

open Classical in
/-- Adding a region.  A request that is refused leaves the map as it is. -/
noncomputable def add (m : MemoryMap) (r : Region) : Outcome × MemoryMap :=
  if r.size = 0 then (.badSize, m)
  else if hv : r.Valid then
    if hc : m.regions.card = maxRegions then (.full, m)
    else if hno : ∀ a ∈ m.regions, ¬ Meets Region.lo Region.hi a r then
      (.added, m.extend r hv (lt_of_le_of_ne m.card_le hc) hno)
    else (.overlap, m)
  else (.wraps, m)

section

variable {m : MemoryMap} {r : Region}

theorem add_of_size_eq_zero (hz : r.size = 0) : m.add r = (.badSize, m) := by
  rw [add, if_pos hz]

theorem add_of_not_valid (hz : r.size ≠ 0) (hv : ¬ r.Valid) : m.add r = (.wraps, m) := by
  rw [add, if_neg hz, dif_neg hv]

theorem add_of_full (hv : r.Valid) (hc : m.regions.card = maxRegions) :
    m.add r = (.full, m) := by
  rw [add, if_neg hv.size_ne, dif_pos hv, dif_pos hc]

theorem add_of_meets (hv : r.Valid) (hc : m.regions.card ≠ maxRegions) {a : Region}
    (ha : a ∈ m.regions) (hm : Meets Region.lo Region.hi a r) : m.add r = (.overlap, m) := by
  rw [add, if_neg hv.size_ne, dif_pos hv, dif_neg hc, dif_neg fun hno => hno a ha hm]

theorem add_of_free (hv : r.Valid) (hc : m.regions.card ≠ maxRegions)
    (hno : ∀ a ∈ m.regions, ¬ Meets Region.lo Region.hi a r) :
    m.add r = (.added, m.extend r hv (lt_of_le_of_ne m.card_le hc) hno) := by
  rw [add, if_neg hv.size_ne, dif_pos hv, dif_neg hc, dif_pos hno]

end

theorem subset_add (m : MemoryMap) (r : Region) : m.regions ⊆ (m.add r).2.regions := by
  unfold add
  split_ifs
  · exact subset_rfl
  · exact subset_rfl
  · exact Finset.subset_insert _ _
  · exact subset_rfl
  · exact subset_rfl

theorem mem_add_of_added {m : MemoryMap} {r : Region} (h : (m.add r).1 = .added) :
    r ∈ (m.add r).2.regions := by
  unfold add at h ⊢
  split_ifs at h ⊢
  exact Finset.mem_insert_self _ _

/-- Two regions of a map that contain an address are one. -/
theorem eq_of_contains (m : MemoryMap) {a b : Region} {x : Nat} (ha : a ∈ m.regions)
    (hb : b ∈ m.regions) (hax : x ∈ a.range) (hbx : x ∈ b.range) : a = b := by
  by_contra hab
  exact m.apart a ha b hb hab ⟨hax.1.trans_lt hbx.2, hbx.1.trans_lt hax.2⟩

open Classical in
/-- The translation of an address: through the region that contains it, if
there is one. -/
noncomputable def translate (m : MemoryMap) (gpa : UInt64) : Option UInt64 :=
  if h : ∃ r ∈ m.regions, gpa.toNat ∈ r.range then some (h.choose.translate gpa) else none

theorem translate_of_mem (m : MemoryMap) {r : Region} {gpa : UInt64} (hr : r ∈ m.regions)
    (hg : gpa.toNat ∈ r.range) : m.translate gpa = some (r.translate gpa) := by
  have h : ∃ r ∈ m.regions, gpa.toNat ∈ r.range := ⟨r, hr, hg⟩
  rw [translate, dif_pos h, m.eq_of_contains h.choose_spec.1 hr h.choose_spec.2 hg]

theorem translate_of_forall (m : MemoryMap) {gpa : UInt64}
    (h : ∀ r ∈ m.regions, gpa.toNat ∉ r.range) : m.translate gpa = none := by
  rw [translate, dif_neg]
  rintro ⟨r, hr, hg⟩
  exact h r hr hg

/-- A larger map translates what the smaller one translates, in the same way. -/
theorem translate_mono {m m' : MemoryMap} (h : m.regions ⊆ m'.regions) {gpa v : UInt64}
    (hv : m.translate gpa = some v) : m'.translate gpa = some v := by
  by_cases hex : ∃ r ∈ m.regions, gpa.toNat ∈ r.range
  · obtain ⟨r, hr, hg⟩ := hex
    rw [translate_of_mem m hr hg] at hv
    rw [translate_of_mem m' (h hr) hg, hv]
  · rw [translate_of_forall m fun r hr hg => hex ⟨r, hr, hg⟩] at hv
    cases hv

/-- The list has the regions of the map, each once. -/
structure ListedBy (m : MemoryMap) (l : List Region) : Prop where
  nodup : l.Nodup
  mem_iff : ∀ r, r ∈ l ↔ r ∈ m.regions

theorem ListedBy.length_eq {m : MemoryMap} {l : List Region} (h : m.ListedBy l) :
    l.length = m.regions.card := by
  rw [← List.toFinset_card_of_nodup h.nodup]
  congr 1
  ext r
  simp [h.mem_iff]

theorem listedBy_empty : empty.ListedBy [] := ⟨.nil, by simp [empty]⟩

end MemoryMap

end GuestMemory
