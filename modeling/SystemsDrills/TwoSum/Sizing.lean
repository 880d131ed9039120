import SystemsDrills.Lib.Bits
import SystemsDrills.TwoSum.Pairs

/-!
# The size of the map

`twoSum` asks `init_map` for `2 * numsSize` slots, and `init_map` doubles `c` until it reaches that.
Both are signed.  Above `2 ^ 29` numbers the loop comes to `2 ^ 30`, which is not enough, and the
next doubling overflows; from `2 ^ 30` numbers on the argument does so before.
-/

namespace TwoSum

open Bits

/-- The values that `c` takes in the loop of `init_map`, without regard to the range of `int`. -/
inductive Takes (cap : Int) : Int → Prop where
  | one : Takes cap 1
  | double {c : Int} : Takes cap c → c < cap → Takes cap (c * 2)

/-- `init_map` gets a size that it can reach, and the capacity is the smallest power of two that is
enough. -/
structure Sized (numsSize : Nat) : Prop where
  arg : IsInt (2 * numsSize)
  values : ∀ c, Takes (2 * numsSize) c → IsInt c ∧ 0 < c
  map : ∀ keys values, ∃ mp, initMap (2 * numsSize) (some keys) (some values) true = some mp ∧
    IsLeast (PowersFrom (max 1 (2 * numsSize))) mp.cap ∧ mp.mask = UInt64.ofNat (mp.cap - 1)

variable {cap : Int} {fuel : Nat}

/-- The powers of two that are not enough are all taken. -/
theorem takes_two_pow {j : Nat} (h : ∀ i < j, (2 : Int) ^ i < cap) : Takes cap (2 ^ j) := by
  induction j with
  | zero => exact .one
  | succ j ih =>
      rw [pow_succ]
      exact .double (ih fun i hi => h i (Nat.lt_succ_of_lt hi)) (h j (Nat.lt_succ_self j))

/-- Up to `2 ^ 30` slots `c` stays in range. -/
theorem exists_two_pow_of_takes (hcap : cap ≤ 2 ^ 30) {c : Int} (h : Takes cap c) :
    ∃ j ≤ 30, c = 2 ^ j := by
  induction h with
  | one => exact ⟨0, Nat.zero_le 30, rfl⟩
  | double _ hlt ih =>
      obtain ⟨j, -, rfl⟩ := ih
      have hj : j < 30 := (pow_lt_pow_iff_right₀ one_lt_two).mp (hlt.trans_le hcap)
      exact ⟨j + 1, hj, (pow_succ ..).symm⟩

/-- The loop stops at the first power of two that is enough. -/
theorem first_of_growCap {c' j : Nat} (hpast : ∀ i < j, (2 : Int) ^ i < cap)
    (h : growCap cap fuel (2 ^ j) = some c') :
    ∃ k, c' = 2 ^ k ∧ cap ≤ 2 ^ k ∧ ∀ i < k, (2 : Int) ^ i < cap := by
  induction fuel generalizing j with
  | zero => cases h
  | succ fuel ih =>
      rw [growCap] at h
      split_ifs at h with hlt hsmall
      · have hnow : (2 : Int) ^ j < cap := by exact_mod_cast hlt
        rw [← pow_succ] at h
        refine ih (fun i hi => ?_) h
        rcases Nat.lt_succ_iff_lt_or_eq.mp hi with hi | rfl
        · exact hpast i hi
        · exact hnow
      · cases h
        exact ⟨j, rfl, by exact_mod_cast not_lt.mp hlt, hpast⟩

theorem isLeast_of_growCap {n c : Nat} (h : growCap n fuel 1 = some c) :
    IsLeast (PowersFrom (max 1 n)) c := by
  obtain ⟨k, rfl, hle, hpast⟩ := first_of_growCap (j := 0) nofun h
  refine ⟨⟨⟨k, rfl⟩, max_le Nat.one_le_two_pow (by exact_mod_cast hle)⟩, ?_⟩
  rintro p ⟨⟨i, rfl⟩, hi⟩
  refine Nat.pow_le_pow_right Nat.zero_lt_two ?_
  by_contra hik
  have hsmall : 2 ^ i < n := by exact_mod_cast hpast i (not_le.mp hik)
  exact absurd ((le_max_right 1 n).trans hi) (not_le.mpr hsmall)

/-- The capacity of a map is what the loop stops at. -/
theorem growCap_of_initMap {mp : Map} {keys values : Option (Nat → Int32)} {exist : Bool}
    (h : initMap cap keys values exist = some mp) :
    growCap cap 31 1 = some mp.cap ∧ mp.mask = UInt64.ofNat (mp.cap - 1) := by
  obtain ⟨c, hc, h⟩ := Option.bind_eq_some_iff.mp h
  obtain ⟨ks, -, h⟩ := Option.bind_eq_some_iff.mp h
  obtain ⟨vs, -, h⟩ := Option.bind_eq_some_iff.mp h
  split at h
  · cases h
    exact ⟨hc, rfl⟩
  · cases h

theorem Sized.le {numsSize : Nat} (h : Sized numsSize) : numsSize ≤ 2 ^ 29 := by
  by_contra hgt
  have hpast : ∀ i < 31, (2 : Int) ^ i < 2 * numsSize := by
    intro i hi
    have hle : (2 : Int) ^ i ≤ 2 ^ 30 := pow_le_pow_right₀ one_le_two (by omega)
    have hlt : (2 : Int) ^ 29 < numsSize := by exact_mod_cast not_le.mp hgt
    omega
  obtain ⟨⟨-, hrange⟩, -⟩ := h.values _ (takes_two_pow hpast)
  exact absurd hrange (by norm_num)

/-- The map of `twoSum` gets the size it should exactly for up to `2 ^ 29` numbers. -/
theorem map_sized_iff (numsSize : Nat) : Sized numsSize ↔ numsSize ≤ 2 ^ 29 := by
  refine ⟨Sized.le, fun hle => ?_⟩
  have hcap : (2 * numsSize : Int) ≤ 2 ^ 30 := by omega
  refine ⟨⟨by omega, by omega⟩, fun c hc => ?_, fun keys values => ?_⟩
  · obtain ⟨j, hj, rfl⟩ := exists_two_pow_of_takes hcap hc
    have htop : (2 : Int) ^ j ≤ 2 ^ 30 := pow_le_pow_right₀ one_le_two hj
    have hpos : (0 : Int) < 2 ^ j := pow_pos two_pos j
    exact ⟨⟨by omega, by omega⟩, hpos⟩
  · obtain ⟨mp, hmp⟩ := Option.isSome_iff_exists.mp (initMap_isSome hcap keys values)
    obtain ⟨hgrow, hmask⟩ := growCap_of_initMap hmp
    refine ⟨mp, hmp, ?_, hmask⟩
    exact isLeast_of_growCap (n := 2 * numsSize) (by exact_mod_cast hgrow)

theorem map_sized_iff_three : Sized 3 := (map_sized_iff 3).mpr (by norm_num)

/-- One number more than that: `c` would have to double from `2 ^ 30`. -/
theorem not_sized : ¬ Sized 536870913 := fun h => absurd h.le (by norm_num)

end TwoSum
