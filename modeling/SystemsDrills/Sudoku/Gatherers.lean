import SystemsDrills.Sudoku.Exact

/-!
# What the gatherers read

Each gatherer takes the cells of unit `u`, one for each position `i`, from an index of the board
that depends on `u` and `i`.  Over all units and positions every index is read once.

For the squares the row and the column of the cell come from the digits of `u` and `i` to the base
`b`: the low digit of `u` and the high digit of `i` change places.  Done twice this gives `u` and
`i` back, so it is a bijection.
-/

namespace Sudoku

open Set

/-- The units and the positions, or the rows and the columns. -/
def places (n : Nat) : Set (Nat × Nat) := Iio n ×ˢ Iio n

/-- The indices of the cells of the square with the row band `u / b` and the column band `u % b`. -/
def square (n b u : Nat) : Set Nat := {k | k < n * n ∧ k / n / b = u / b ∧ k % n / b = u % b}

/-- The gatherer stores `board[index u i]` in `out[i]`, for each `i`, and every index of the board
belongs to one unit and one position. -/
structure Tiles (g : List Int → Nat → Nat → Nat → Vals → Vals) (n b : Nat)
    (index : Nat → Nat → Nat) : Prop where
  reads : ∀ board u out, g board n b u out = gather board n (index u) out
  bijOn : BijOn (fun p => index p.1 p.2) (places n) (Iio (n * n))

variable {n b : Nat}

/-- On a board that passes the guard the indices are in the range of `int`. -/
theorem Tiles.index_lt {g : List Int → Nat → Nat → Nat → Vals → Vals} {index : Nat → Nat → Nat}
    (h : Tiles g n b index) (hn : n ≤ maxN) {u i : Nat} (hu : u < n) (hi : i < n) :
    index u i < 2 ^ 31 := by
  have hlt : index u i < n * n := h.bijOn.mapsTo (show (u, i) ∈ places n from ⟨hu, hi⟩)
  have hle : n * n ≤ maxN * maxN := Nat.mul_le_mul hn hn
  exact (hlt.trans_le hle).trans (by decide)

/-- The row and the column of the cell at position `i` of the square `u`. -/
def exchange (b : Nat) (p : Nat × Nat) : Nat × Nat :=
  (p.1 / b * b + p.2 / b, p.1 % b * b + p.2 % b)

section

variable (hb : b * b = n) {u i : Nat}
include hb

end

end Sudoku
