import SystemsDrills.Lib.Bits
import SystemsDrills.Ring.Spsc

/-!
# The capacity of a ring

`next_pow2` of `SPSC_Ring_buffer/rb.c`, which `rb_lock.c` has too, and the capacity that `main`
takes from the command line.  The loop fills the bits below the top bit of `c - 1`, so that the
next number is a power of two.  From `2 ^ 63` on there is none that fits, and the sum wraps to 0,
which `init_ring` refuses.
-/

namespace Spsc

open Bits

/-! ## The code -/

/-- The values of `shift`, which starts at 1 and doubles while it is below 64. -/
def shifts : List UInt64 := [1, 2, 4, 8, 16, 32]

/-- `next_pow2`. -/
def nextPow2 (c : UInt64) : UInt64 :=
  if c ≤ 1 then
    1
  else
    shifts.foldl (fun c shift => c ||| (c >>> shift)) (c - 1) + 1

/-- The capacity that `main` gives to `init_ring`, from the command-line argument as `atol` reads
it, if there is one.  There is none if `main` refuses the argument. -/
def mainCapacity : Option Int64 → Option UInt64
  | none => some 1024
  | some c => if c ≤ 0 then none else some (nextPow2 c.toUInt64)

/-- The test at the start of `init_ring`, for which it returns -1. -/
def refused (capacity : UInt64) : Prop := capacity = 0 ∨ capacity &&& (capacity - 1) ≠ 0

instance (capacity : UInt64) : Decidable (refused capacity) := inferInstanceAs (Decidable (_ ∨ _))

theorem initRing_of_refused {capacity : UInt64} (h : refused capacity)
    (malloc : UInt64 → Option (List UInt64)) : initRing malloc capacity = none := if_pos h

/-- A capacity that is not refused is tried. -/
theorem initRing_of_not_refused {capacity : UInt64} (h : ¬ refused capacity)
    (malloc : UInt64 → Option (List UInt64)) {buf : List UInt64}
    (hmalloc : malloc (capacity * 8) = some buf) :
    initRing malloc capacity = some ⟨capacity, capacity - 1, buf, 0, 0⟩ := by
  rw [refused] at h
  rw [initRing, if_neg h, hmalloc]

/-- The test is one for powers of two. -/
theorem not_refused_iff {capacity : UInt64} :
    ¬ refused capacity ↔ ∃ k, capacity.toNat = 2 ^ k := by
  rw [refused, not_or, not_not]
  constructor
  · rintro ⟨hne, hand⟩
    exact Cyclic.exists_two_pow hne hand
  · rintro ⟨k, hk⟩
    have hpos : capacity.toNat ≠ 0 := hk ▸ (Nat.two_pow_pos k).ne'
    have hle : (1 : UInt64) ≤ capacity := UInt64.le_iff_toNat_le.mpr (Nat.one_le_iff_ne_zero.mpr hpos)
    refine ⟨fun h0 => hpos (by rw [h0, UInt64.toNat_zero]), UInt64.toNat_inj.mp ?_⟩
    rw [UInt64.toNat_and, UInt64.toNat_sub_of_le _ _ hle]
    exact (Nat.and_sub_one_eq_zero_iff_isPowerOfTwo hpos).mpr ⟨k, hk⟩

/-! ## `next_pow2` -/

theorem toNat_or_shiftRight (c : UInt64) {shift : UInt64} {w : Nat} (hw : shift.toNat = w)
    (hlt : w < 64) : (c ||| (c >>> shift)).toNat = c.toNat ||| (c.toNat >>> w) := by
  rw [UInt64.toNat_or, UInt64.toNat_shiftRight, hw, Nat.mod_eq_of_lt hlt]

/-- A round of the loop. -/
theorem smeared_round {x w : Nat} {c : UInt64} (shift : UInt64) (h : Smeared x w c.toNat)
    (hw : shift.toNat = w) (hlt : w < 64) :
    Smeared x (w + w) (c ||| (c >>> shift)).toNat := by
  rw [toNat_or_shiftRight c hw hlt]
  exact h.double

/-- The loop fills all places. -/
theorem smeared_shifts (c : UInt64) :
    Smeared c.toNat 64 (shifts.foldl (fun c shift => c ||| (c >>> shift)) c).toNat := by
  have h1 := smeared_one c.toNat
  have h2 := smeared_round 1 h1 rfl (by norm_num)
  have h4 := smeared_round 2 h2 rfl (by norm_num)
  have h8 := smeared_round 4 h4 rfl (by norm_num)
  have h16 := smeared_round 8 h8 rfl (by norm_num)
  have h32 := smeared_round 16 h16 rfl (by norm_num)
  exact smeared_round 32 h32 rfl (by norm_num)

/-- The result, before it wraps, is the power of two above the top bit of `c - 1`. -/
theorem toNat_nextPow2 {c : UInt64} (h : 1 < c.toNat) :
    (nextPow2 c).toNat = 2 ^ ((c.toNat - 1).log2 + 1) % 2 ^ 64 := by
  have hle : ¬ c ≤ 1 := by
    rw [UInt64.le_iff_toNat_le, UInt64.toNat_one]
    omega
  have hpred : (c - 1).toNat = c.toNat - 1 := by
    rw [UInt64.toNat_sub_of_le _ _ (UInt64.le_iff_toNat_le.mpr (by rw [UInt64.toNat_one]; omega)),
      UInt64.toNat_one]
  have hfilled := (smeared_shifts (c - 1)).eq (by rw [hpred]; omega) (c - 1).toNat_lt
  rw [nextPow2, if_neg hle, UInt64.toNat_add, hfilled, hpred, UInt64.toNat_one,
    Nat.sub_add_cancel Nat.one_le_two_pow]

/-- Up to `2 ^ 63` the result does not wrap. -/
theorem isLeast_nextPow2 {c : UInt64} (h : c.toNat ≤ 2 ^ 63) :
    IsLeast (PowersFrom c.toNat) (nextPow2 c).toNat := by
  by_cases hone : c.toNat ≤ 1
  · have hresult : nextPow2 c = 1 := if_pos (UInt64.le_iff_toNat_le.mpr hone)
    rw [hresult]
    exact isLeast_powersFrom_one hone
  · have hne : c.toNat - 1 ≠ 0 := by omega
    have hlow := Nat.log2_self_le hne
    have hhigh : c.toNat - 1 < 2 ^ ((c.toNat - 1).log2 + 1) := Nat.lt_log2_self
    have hlog : (c.toNat - 1).log2 < 63 := (Nat.log2_lt hne).mpr (by omega)
    have hfits : 2 ^ ((c.toNat - 1).log2 + 1) < 2 ^ 64 :=
      Nat.pow_lt_pow_right Nat.one_lt_two (by omega)
    rw [toNat_nextPow2 (by omega), Nat.mod_eq_of_lt hfits]
    exact isLeast_powersFrom (by omega) (by omega)

theorem nextPow2_eq_zero {c : UInt64} (h : 2 ^ 63 < c.toNat) : nextPow2 c = 0 := by
  have hne : c.toNat - 1 ≠ 0 := by omega
  have hlog : (c.toNat - 1).log2 = 63 := by
    have := c.toNat_lt
    rw [Nat.log2_eq_iff hne]
    omega
  refine UInt64.toNat_inj.mp ?_
  rw [toNat_nextPow2 (by omega), hlog]
  rfl

/-- `next_pow2` is the smallest power of two that is not below `c`, or 0 if that does not fit in 64
bits.  So `init_ring` accepts it exactly if it fits. -/
theorem next_pow2_exact (c : UInt64) :
    (c.toNat ≤ 2 ^ 63 → IsLeast (PowersFrom c.toNat) (nextPow2 c).toNat) ∧
      (2 ^ 63 < c.toNat → nextPow2 c = 0) ∧
      (¬ refused (nextPow2 c) ↔ c.toNat ≤ 2 ^ 63) := by
  refine ⟨isLeast_nextPow2, nextPow2_eq_zero, fun hacc => ?_, fun h => ?_⟩
  · by_contra hgt
    exact hacc (.inl (nextPow2_eq_zero (not_le.mp hgt)))
  · exact not_refused_iff.mpr (isLeast_nextPow2 h).1.1

/-- The largest number that has a power of two, and the next one. -/
theorem next_pow2_exact_top :
    IsLeast (PowersFrom 9223372036854775808) (nextPow2 9223372036854775808).toNat ∧
      nextPow2 9223372036854775809 = 0 :=
  ⟨(next_pow2_exact 9223372036854775808).1 (by decide),
    (next_pow2_exact 9223372036854775809).2.1 (by decide)⟩

end Spsc
