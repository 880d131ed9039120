import Mathlib.Tactic
import Mathlib.Order.Bounds.Basic

/-!
# Filling the bits below the top bit

A number that is combined with itself shifted to the right has, at each place, a bit if there was
one at that place or at the place shifted from.  With shifts that double, the bits are filled in
over a width that doubles (`Smeared.double`).  Once the width is that of the number, all places
below its top bit are filled, and the next number is a power of two.
-/

namespace Bits

/-- A bit of `y` says whether `x` has a bit in one of the `w` places from there on. -/
def Smeared (x w y : Nat) : Prop := ∀ i, y.testBit i = true ↔ ∃ j < w, x.testBit (i + j) = true

variable {x w y k c : Nat}

theorem smeared_one (x : Nat) : Smeared x 1 x := by
  intro i
  constructor
  · exact fun hi => ⟨0, Nat.zero_lt_one, hi⟩
  · rintro ⟨j, hj, hi⟩
    rwa [Nat.lt_one_iff.mp hj] at hi

theorem Smeared.double (h : Smeared x w y) : Smeared x (w + w) (y ||| (y >>> w)) := by
  intro i
  rw [Nat.testBit_or, Bool.or_eq_true, Nat.testBit_shiftRight, h, h]
  constructor
  · rintro (⟨j, hj, hi⟩ | ⟨j, hj, hi⟩)
    · exact ⟨j, by omega, hi⟩
    · refine ⟨w + j, by omega, ?_⟩
      rwa [← Nat.add_assoc, Nat.add_comm i w]
  · rintro ⟨j, hj, hi⟩
    by_cases hlt : j < w
    · exact .inl ⟨j, hlt, hi⟩
    · refine .inr ⟨j - w, by omega, ?_⟩
      rwa [show w + i + (j - w) = i + j by omega]

/-- When the width is that of the number, all places up to the top bit are filled. -/
theorem Smeared.eq (h : Smeared x w y) (hx : x ≠ 0) (hlt : x < 2 ^ w) :
    y = 2 ^ (x.log2 + 1) - 1 := by
  refine Nat.eq_of_testBit_eq fun i => ?_
  rw [Nat.testBit_two_pow_sub_one, Bool.eq_iff_iff, h, decide_eq_true_eq]
  constructor
  · rintro ⟨j, -, hi⟩
    by_contra hgt
    have hsmall : x < 2 ^ (i + j) :=
      Nat.lt_log2_self.trans_le (Nat.pow_le_pow_right Nat.zero_lt_two (by omega))
    rw [Nat.testBit_lt_two_pow hsmall] at hi
    cases hi
  · intro hi
    have hw : x.log2 < w := (Nat.log2_lt hx).mpr hlt
    refine ⟨x.log2 - i, by omega, ?_⟩
    rw [show i + (x.log2 - i) = x.log2 by omega]
    exact Nat.testBit_log2 hx

/-- The powers of two that are not below a number. -/
def PowersFrom (c : Nat) : Set Nat := {p | (∃ k, p = 2 ^ k) ∧ c ≤ p}

/-- The first of them is determined by the power below it. -/
theorem isLeast_powersFrom (hlt : 2 ^ k < c) (hle : c ≤ 2 ^ (k + 1)) :
    IsLeast (PowersFrom c) (2 ^ (k + 1)) := by
  refine ⟨⟨⟨k + 1, rfl⟩, hle⟩, ?_⟩
  rintro p ⟨⟨j, rfl⟩, hj⟩
  have hkj : k < j := (Nat.pow_lt_pow_iff_right Nat.one_lt_two).mp (hlt.trans_le hj)
  exact Nat.pow_le_pow_right Nat.zero_lt_two hkj

theorem isLeast_powersFrom_one (hle : c ≤ 1) : IsLeast (PowersFrom c) 1 := by
  refine ⟨⟨⟨0, rfl⟩, hle⟩, ?_⟩
  rintro p ⟨⟨j, rfl⟩, -⟩
  exact Nat.one_le_two_pow

end Bits
