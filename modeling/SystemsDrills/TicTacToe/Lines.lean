import SystemsDrills.TicTacToe.Board

/-!
# Lines through a move

`is_win` looks only along the four lines through the last move.  It finds out
exactly if one of them has `k` equal marks in a row with the move among them
(`isWin_iff`), whatever else is on the board.
-/

namespace TicTacToe

namespace Board

variable {b : Board} {s : Char} {dr dc x y : Int}

/-- The place `j` steps from `(x, y)` is on the board and has the mark `s`. -/
def Marked (b : Board) (s : Char) (dr dc x y : Int) (j : Int) : Prop :=
  b.InRange (x + j * dr) (y + j * dc) ∧ b.cell (x + j * dr) (y + j * dc) = s

/-- `k` places in a row, from `(x, y)` on, have the mark `s`. -/
def Line (b : Board) (s : Char) (dr dc x y : Int) : Prop :=
  ∀ j, 0 ≤ j → j < b.k → b.Marked s dr dc x y j

theorem marked_shift (b : Board) (s : Char) (dr dc x y i j : Int) :
    b.Marked s dr dc (x + i * dr) (y + i * dc) j ↔ b.Marked s dr dc x y (i + j) := by
  have hx : x + i * dr + j * dr = x + (i + j) * dr := by ring
  have hy : y + i * dc + j * dc = y + (i + j) * dc := by ring
  rw [Marked, Marked, hx, hy]

/-- One step on. -/
theorem marked_next (b : Board) (s : Char) (dr dc x y j : Int) :
    b.Marked s dr dc (x + dr) (y + dc) j ↔ b.Marked s dr dc x y (j + 1) := by
  have h := marked_shift b s dr dc x y 1 j
  rwa [one_mul, one_mul, add_comm 1 j] at h

theorem marked_neg (b : Board) (s : Char) (dr dc x y j : Int) :
    b.Marked s (-dr) (-dc) x y j ↔ b.Marked s dr dc x y (-j) := by
  rw [Marked, Marked, mul_neg, mul_neg, ← neg_mul, ← neg_mul]

end Board

open Board

variable {b : Board} {s : Char} {dr dc x y : Int} {move : Move} {rounds : Nat}

/-! ## `count_dir` -/

/-- All places that are counted are marked. -/
theorem marked_of_lt_countFrom {j : Nat} (h : j < countFrom b s dr dc rounds x y) :
    b.Marked s dr dc x y j := by
  induction rounds generalizing x y j with
  | zero => simp [countFrom] at h
  | succ rounds ih =>
      rw [countFrom] at h
      split at h
      · rename_i hmark
        cases j with
        | zero => simpa [Marked] using hmark
        | succ j =>
            have hj := ih (Nat.lt_of_succ_lt_succ h)
            rw [Nat.cast_succ]
            exact (marked_next ..).mp hj
      · simp at h

/-- Marked places are counted, as long as there are rounds. -/
theorem le_countFrom {t : Nat} (ht : t ≤ rounds) (h : ∀ j : Nat, j < t → b.Marked s dr dc x y j) :
    t ≤ countFrom b s dr dc rounds x y := by
  induction rounds generalizing x y t with
  | zero => omega
  | succ rounds ih =>
      cases t with
      | zero => exact Nat.zero_le _
      | succ t =>
          have h0 : b.InRange x y ∧ b.cell x y = s := by simpa [Marked] using h 0 (Nat.succ_pos t)
          rw [countFrom, if_pos h0]
          refine Nat.succ_le_succ (ih (Nat.le_of_succ_le_succ ht) fun j hj => ?_)
          have hnext := h (j + 1) (Nat.succ_lt_succ hj)
          rw [Nat.cast_succ] at hnext
          exact (marked_next ..).mpr hnext

/-- `count_dir` counts the places next to the move, all of them marked. -/
theorem marked_of_le_countDir {j : Nat} (h0 : 0 < j) (hj : j ≤ countDir b move dr dc) :
    b.Marked (b.cell move.x move.y) dr dc move.x move.y j := by
  obtain ⟨j, rfl⟩ := Nat.exists_eq_succ_of_ne_zero h0.ne'
  have hm := marked_of_lt_countFrom (Nat.lt_of_succ_le hj)
  rw [Nat.succ_eq_add_one, Nat.cast_succ]
  exact (marked_next ..).mp hm

theorem le_countDir {t : Nat} (ht : (t : Int) ≤ b.n)
    (h : ∀ j : Nat, 0 < j → j ≤ t → b.Marked (b.cell move.x move.y) dr dc move.x move.y j) :
    t ≤ countDir b move dr dc := by
  refine le_countFrom (by omega) fun j hj => ?_
  have hnext := h (j + 1) (Nat.succ_pos j) hj
  rw [Nat.cast_succ] at hnext
  exact (marked_next ..).mpr hnext

/-- The run through the move is at least `k` long if and only if `k` places in a
row, with the move among them, have its mark. -/
theorem run_iff (hb : b.Wf) (hm : b.InRange move.x move.y) :
    b.k ≤ 1 + (countDir b move dr dc : Int) + countDir b move (-dr) (-dc) ↔
      ∃ p, 0 ≤ p ∧ p < b.k ∧
        b.Line (b.cell move.x move.y) dr dc (move.x + -p * dr) (move.y + -p * dc) := by
  constructor
  · intro hrun
    -- The line starts as far back as the marks go, but keeps the move.
    refine ⟨min (countDir b move (-dr) (-dc)) (b.k - 1), ?_, ?_, fun j h0 hj => ?_⟩
    · have := hb.k_pos
      omega
    · omega
    · rw [marked_shift]
      generalize ho : -min (countDir b move (-dr) (-dc) : Int) (b.k - 1) + j = o
      rcases lt_trichotomy o 0 with hlt | rfl | hgt
      · have hj : (-o).toNat ≤ countDir b move (-dr) (-dc) := by omega
        have := marked_of_le_countDir (by omega) hj
        rw [marked_neg] at this
        rwa [show -((-o).toNat : Int) = o by omega] at this
      · exact ⟨by simpa using hm, by simp⟩
      · have hj : o.toNat ≤ countDir b move dr dc := by omega
        have := marked_of_le_countDir (by omega) hj
        rwa [show (o.toNat : Int) = o by omega] at this
  · rintro ⟨p, h0, hp, hline⟩
    have hle := hb.k_le
    have hmark : ∀ o, -p ≤ o → o < b.k - p →
        b.Marked (b.cell move.x move.y) dr dc move.x move.y o := by
      intro o h1 h2
      have := hline (p + o) (by omega) (by omega)
      rwa [marked_shift, neg_add_cancel_left] at this
    have hfwd : (b.k - 1 - p).toNat ≤ countDir b move dr dc :=
      le_countDir (by omega) fun j h1 h2 => hmark j (by omega) (by omega)
    have hback : p.toNat ≤ countDir b move (-dr) (-dc) := by
      refine le_countDir (by omega) fun j h1 h2 => ?_
      rw [marked_neg]
      exact hmark _ (by omega) (by omega)
    omega

/-- `is_win` is exact on the lines through the move. -/
theorem isWin_iff (hb : b.Wf) (hm : b.InRange move.x move.y) :
    isWin b move = true ↔ ∃ d ∈ dirs, ∃ p, 0 ≤ p ∧ p < b.k ∧
      b.Line (b.cell move.x move.y) d.1 d.2 (move.x + -p * d.1) (move.y + -p * d.2) := by
  rw [isWin, List.any_eq_true]
  refine exists_congr fun d => and_congr_right fun _ => ?_
  rw [decide_eq_true_iff, ge_iff_le]
  exact run_iff hb hm

/-! ## The places that are read -/

end TicTacToe
