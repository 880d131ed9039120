import SystemsDrills.Lib.Transition
import SystemsDrills.TicTacToe.Lines

/-!
# The game

The loop of `main` in `tictactoe.c`, fed with any sequence of attempted moves.  The
game is a transition system whose states are the loop heads and the ends of the
game, and whose labels are the moves that are attempted.

`is_win` sees only the lines through the last move.  That is enough for the whole
board because no line was there before the move (`hasLine_play_iff`), which is part
of the invariant `Game.Fair`.
-/

namespace TicTacToe

open Transition Board

/-! ## The loop -/

/-- `num_player`. -/
def numPlayer : Nat := 2

/-- `players[turn].symbol`. -/
def symbol : Nat → Char
  | 0 => 'X'
  | _ => 'O'

/-- How `main` returned. -/
inductive Outcome where
  | wins (turn : Nat)
  | draw
deriving DecidableEq, Repr

structure Game where
  board : Board
  turn : Nat
  /-- `none` at the head of the loop. -/
  outcome : Option Outcome
deriving DecidableEq, Repr

/-- The player to move: `turn` after the test at the head of the loop. -/
def Game.toMove (g : Game) : Nat := if g.turn ≥ numPlayer then g.turn % numPlayer else g.turn

theorem Game.toMove_eq (g : Game) : g.toMove = g.turn % 2 := by
  unfold Game.toMove numPlayer
  split
  · rfl
  · omega

theorem Game.toMove_cases (g : Game) : g.toMove = 0 ∨ g.toMove = 1 := by
  rw [g.toMove_eq]
  omega

/-- A round of the loop in which the player enters `move`. -/
def Game.attempt (g : Game) (move : Move) : Game :=
  match makeMove move g.board (symbol g.toMove) with
  | (false, board) => { board, turn := g.toMove, outcome := none }
  | (true, board) =>
    match checkGamestate board move with
    | .win => { board, turn := g.toMove, outcome := some (.wins g.toMove) }
    | .draw => { board, turn := g.toMove, outcome := some .draw }
    | .unfinished => { board, turn := g.toMove + 1, outcome := none }

/-- A game on a board that `set_board` accepted. -/
def game : System Game Move where
  init g := ∃ malloc n k, (∀ size block, malloc size = some block → block.length = size) ∧
    setBoard malloc n k = some g.board ∧ g.turn = 0 ∧ g.outcome = none
  step g move g' := g.outcome = none ∧ g' = g.attempt move

/-! ## `set_board` -/

theorem getElem?_foldl_set {α : Type} (ps : List Nat) (l : List α) (a : α) {p : Nat}
    (hp : p < l.length) :
    (ps.foldl (fun l q => l.set q a) l)[p]? = if p ∈ ps then some a else l[p]? := by
  induction ps generalizing l with
  | nil => simp
  | cons q ps ih =>
      rw [List.foldl_cons, ih _ (by simpa using hp)]
      by_cases hmem : p ∈ ps
      · simp [hmem]
      · by_cases hq : p = q
        · subst hq
          simp [hmem, hp]
        · simp [hmem, hq, List.getElem?_set_ne (Ne.symm hq)]

/-- The places in the order in which `set_board` fills them. -/
def places (n : Nat) : List (Nat × Nat) :=
  (List.range n).flatMap fun i => (List.range n).map fun j => (i, j)

theorem foldl_setCell (qs : List (Nat × Nat)) (b : Board) (c : Char) :
    qs.foldl (fun (b : Board) q => b.setCell q.1 q.2 c) b =
      { b with cells := (qs.map fun q => b.index q.1 q.2).foldl (fun l p => l.set p c) b.cells } := by
  induction qs generalizing b with
  | nil => rfl
  | cons q qs ih =>
      rw [List.foldl_cons, ih]
      rfl

theorem mem_index_places {b : Board} {n p : Nat} (hn : b.n = n) (hp : p < n * n) :
    p ∈ (places n).map fun q => b.index q.1 q.2 := by
  have hpos : 0 < n := Nat.pos_of_ne_zero fun h => by simp [h] at hp
  refine List.mem_map.mpr ⟨(p / n, p % n), ?_, ?_⟩
  · exact List.mem_flatMap.mpr ⟨p / n, List.mem_range.mpr (Nat.div_lt_of_lt_mul hp),
      List.mem_map.mpr ⟨p % n, List.mem_range.mpr (Nat.mod_lt p hpos), rfl⟩⟩
  · show ((b.n * (p / n : Nat) + (p % n : Nat)) : Int).toNat = p
    rw [hn, ← Nat.cast_mul, ← Nat.cast_add, Int.toNat_natCast, Nat.div_add_mod]

theorem length_foldl_set {α : Type} (ps : List Nat) (l : List α) (a : α) :
    (ps.foldl (fun l q => l.set q a) l).length = l.length := by
  induction ps generalizing l with
  | nil => rfl
  | cons q ps ih => rw [List.foldl_cons, ih, List.length_set]

/-- The loop clears every cell. -/
theorem clear_eq {b : Board} {n : Nat} (hn : b.n = n) (hlen : b.cells.length = n * n) :
    b.clear = { b with cells := List.replicate (n * n) '-' } := by
  have hfill : b.clear = { b with
      cells := ((places n).map fun q => b.index q.1 q.2).foldl (fun l p => l.set p '-') b.cells } := by
    rw [← foldl_setCell, places, List.foldl_flatMap, clear, hn]
    simp only [List.foldl_map, Int.toNat_natCast]
  have hcells := length_foldl_set ((places n).map fun q => b.index q.1 q.2) b.cells '-'
  rw [hlen] at hcells
  rw [hfill, List.eq_replicate_iff.mpr ⟨hcells, fun c hc => ?_⟩]
  obtain ⟨p, hp, rfl⟩ := List.mem_iff_getElem.mp hc
  have hget := getElem?_foldl_set ((places n).map fun q => b.index q.1 q.2) b.cells '-' (p := p)
    (by omega)
  rw [if_pos (mem_index_places hn (by omega)), List.getElem?_eq_getElem hp] at hget
  exact Option.some.inj hget

/-- `set_board` makes an empty board. -/
theorem setBoard_eq_some {malloc : Nat → Option (List Char)} {n k : Int} {b : Board}
    (hmalloc : ∀ size block, malloc size = some block → block.length = size)
    (h : setBoard malloc n k = some b) :
    b.Wf ∧ b.counter = b.n * b.n ∧ b.cells = List.replicate (b.n * b.n).toNat '-' := by
  unfold setBoard at h
  split at h
  · cases h
  · rename_i hargs
    push Not at hargs
    obtain ⟨h1, -, h3, h4⟩ := hargs
    obtain ⟨block, hblock, rfl⟩ := Option.map_eq_some_iff.mp h
    obtain ⟨m, rfl⟩ := Int.eq_ofNat_of_zero_le (show 0 ≤ n by omega)
    have hsize : ((m : Int) * m).toNat = m * m := by rw [← Nat.cast_mul, Int.toNat_natCast]
    rw [clear_eq (n := m) rfl (by rw [hmalloc _ _ hblock, hsize])]
    refine ⟨⟨?_, ?_, h4, by simp⟩, rfl, ?_⟩
    · show (0 : Int) < m
      omega
    · show 0 < k
      omega
    · show _ = List.replicate ((m : Int) * m).toNat '-'
      rw [hsize]

/-! ## A move -/

/-- The board after a move that was possible. -/
def Board.play (b : Board) (move : Move) (s : Char) : Board :=
  { b.setCell move.x move.y s with counter := b.counter - 1 }

/-- Some line of `k` marks `s` is on the board. -/
def Board.HasLine (b : Board) (s : Char) : Prop := ∃ d ∈ dirs, ∃ x y, b.Line s d.1 d.2 x y

variable {b : Board} {move : Move} {s : Char}

/-- A move is possible on a free place of the board, and otherwise does nothing. -/
theorem makeMove_eq (move : Move) (b : Board) (s : Char) :
    (b.InRange move.x move.y ∧ b.cell move.x move.y = '-' ∧ makeMove move b s = (true, b.play move s)) ∨
    (¬ (b.InRange move.x move.y ∧ b.cell move.x move.y = '-') ∧ makeMove move b s = (false, b)) := by
  rw [makeMove]
  split
  · rename_i hout
    refine .inr ⟨fun h => ?_, rfl⟩
    obtain ⟨⟨h1, h2, h3, h4⟩, -⟩ := h
    omega
  · rename_i hin
    have hr : b.InRange move.x move.y := by
      unfold InRange
      omega
    split
    · rename_i hfree
      exact .inl ⟨hr, hfree, rfl⟩
    · rename_i htaken
      exact .inr ⟨fun h => htaken h.2, rfl⟩

theorem Board.Wf.play (hb : b.Wf) (move : Move) (s : Char) : (b.play move s).Wf :=
  ⟨hb.n_pos, hb.k_pos, hb.k_le, (hb.setCell move.x move.y s).length⟩

theorem marked_play (hb : b.Wf) (hm : b.InRange move.x move.y) {c : Char} {dr dc x y j : Int} :
    (b.play move s).Marked c dr dc x y j ↔
      if move.x = x + j * dr ∧ move.y = y + j * dc then c = s else b.Marked c dr dc x y j := by
  have hcell : ∀ row col, (b.play move s).cell row col = (b.setCell move.x move.y s).cell row col :=
    fun _ _ => rfl
  have hrange : ∀ row col, (b.play move s).InRange row col ↔ b.InRange row col := fun _ _ => Iff.rfl
  rw [Marked, hcell, hrange]
  split
  · rename_i hat
    rw [← hat.1, ← hat.2, cell_setCell_self hb hm]
    exact ⟨fun h => h.2.symm, fun h => ⟨hm, h.symm⟩⟩
  · rename_i hne
    refine and_congr_right fun hr => ?_
    rw [cell_setCell_ne hm hr hne]

/-- If no line was there before the move, a line after it goes through the move.  So
`is_win` decides for the whole board. -/
theorem hasLine_play_iff (hb : b.Wf) (hm : b.InRange move.x move.y)
    (hno : ∀ c, c ≠ '-' → ¬ b.HasLine c) {c : Char} (hc : c ≠ '-') :
    (b.play move s).HasLine c ↔ c = s ∧ isWin (b.play move s) move = true := by
  have hcell : (b.play move s).cell move.x move.y = s := cell_setCell_self hb hm s
  rw [isWin_iff (hb.play move s) hm, hcell]
  constructor
  · rintro ⟨d, hd, x, y, hline⟩
    by_cases hat : ∃ j, 0 ≤ j ∧ j < b.k ∧ move.x = x + j * d.1 ∧ move.y = y + j * d.2
    · obtain ⟨j, h0, hj, hx, hy⟩ := hat
      have hcs : c = s := by
        have := (marked_play hb hm).mp (hline j h0 hj)
        rwa [if_pos ⟨hx, hy⟩] at this
      subst hcs
      refine ⟨rfl, d, hd, j, h0, hj, ?_⟩
      rwa [hx, hy, neg_mul, neg_mul, add_neg_cancel_right, add_neg_cancel_right]
    · -- A line that misses the move was there before.
      refine absurd ⟨d, hd, x, y, fun j h0 hj => ?_⟩ (hno c hc)
      have := (marked_play hb hm).mp (hline j h0 hj)
      rwa [if_neg fun h => hat ⟨j, h0, hj, h.1, h.2⟩] at this
  · rintro ⟨rfl, d, hd, p, -, -, hline⟩
    exact ⟨d, hd, _, _, hline⟩

/-! ## The invariant -/

/-- What holds at the head of the loop. -/
structure Game.Fair (g : Game) : Prop where
  wf : g.board.Wf
  counter : g.board.counter = g.board.cells.count '-'
  free : 0 < g.board.counter
  noLine : ∀ c, c ≠ '-' → ¬ g.board.HasLine c
  balance : (g.board.cells.count 'X' : Int) - g.board.cells.count 'O' = g.toMove

variable {g : Game}

theorem fair_start (h : game.init g) : g.Fair := by
  obtain ⟨malloc, n, k, hmalloc, hset, hturn, -⟩ := h
  obtain ⟨hwf, hcounter, hcells⟩ := setBoard_eq_some hmalloc hset
  have hpos : 0 < g.board.n * g.board.n := Int.mul_pos hwf.n_pos hwf.n_pos
  have hmove : g.toMove = 0 := by rw [g.toMove_eq, hturn]
  refine ⟨hwf, ?_, hcounter ▸ hpos, ?_, ?_⟩
  · rw [hcounter, hcells, List.count_replicate_self, Int.toNat_of_nonneg hpos.le]
  · rintro c hc ⟨d, hd, x, y, hline⟩
    -- The first cell of a line would have the mark `c`.
    obtain ⟨hr, hcell⟩ := hline 0 le_rfl hwf.k_pos
    have hlt := hr.index_lt hwf
    rw [cell, List.getElem?_eq_getElem hlt, Option.getD_some] at hcell
    have hmem := List.getElem_mem hlt
    rw [hcell, hcells] at hmem
    exact hc (List.eq_of_mem_replicate hmem)
  · rw [hmove, hcells]
    simp [List.count_replicate]

theorem symbol_ne_free (turn : Nat) : symbol turn ≠ '-' := by
  unfold symbol
  split <;> decide

/-- The marks after a move. -/
theorem Game.Fair.count_play (h : g.Fair) {move : Move} (hm : g.board.InRange move.x move.y)
    (hfree : g.board.cell move.x move.y = '-') :
    (g.board.play move (symbol g.toMove)).counter =
      (g.board.play move (symbol g.toMove)).cells.count '-' ∧
    ((g.board.play move (symbol g.toMove)).cells.count 'X' : Int) -
      (g.board.play move (symbol g.toMove)).cells.count 'O' = 1 - g.toMove := by
  have hcount := fun d => count_setCell h.wf hm (symbol g.toMove) d
  have hbal := h.balance
  have hcnt := h.counter
  refine ⟨?_, ?_⟩
  · show g.board.counter - 1 =
      ((g.board.setCell move.x move.y (symbol g.toMove)).cells.count '-' : Int)
    rw [hcount, hfree, if_pos rfl, if_neg (symbol_ne_free _)]
    omega
  · show ((g.board.setCell move.x move.y (symbol g.toMove)).cells.count 'X' : Int) -
      ((g.board.setCell move.x move.y (symbol g.toMove)).cells.count 'O' : Int) = 1 - g.toMove
    rw [hcount, hcount, hfree]
    rcases g.toMove_cases with hp | hp
    · rw [hp] at hbal ⊢
      simp only [symbol, Char.reduceEq, if_true, if_false]
      omega
    · rw [hp] at hbal ⊢
      simp only [symbol, Char.reduceEq, if_true, if_false]
      omega

/-- `check_gamestate` after a move decides for the whole board. -/
theorem Game.Fair.checkGamestate_iff (h : g.Fair) {move : Move}
    (hm : g.board.InRange move.x move.y) (hfree : g.board.cell move.x move.y = '-') :
    (checkGamestate (g.board.play move (symbol g.toMove)) move = .win ↔
      ∃ c, c ≠ '-' ∧ (g.board.play move (symbol g.toMove)).HasLine c) ∧
    (checkGamestate (g.board.play move (symbol g.toMove)) move = .draw ↔
      (∀ c, c ≠ '-' → ¬ (g.board.play move (symbol g.toMove)).HasLine c) ∧
        '-' ∉ (g.board.play move (symbol g.toMove)).cells) ∧
    (checkGamestate (g.board.play move (symbol g.toMove)) move = .unfinished ↔
      (∀ c, c ≠ '-' → ¬ (g.board.play move (symbol g.toMove)).HasLine c) ∧
        '-' ∈ (g.board.play move (symbol g.toMove)).cells) := by
  have hline := fun {c} (hc : c ≠ '-') =>
    hasLine_play_iff (s := symbol g.toMove) h.wf hm h.noLine hc
  have hwin : (∃ c, c ≠ '-' ∧ (g.board.play move (symbol g.toMove)).HasLine c) ↔
      isWin (g.board.play move (symbol g.toMove)) move = true := by
    constructor
    · rintro ⟨c, hc, hl⟩
      exact ((hline hc).mp hl).2
    · intro hw
      exact ⟨_, symbol_ne_free _, (hline (symbol_ne_free _)).mpr ⟨rfl, hw⟩⟩
  have hno : (∀ c, c ≠ '-' → ¬ (g.board.play move (symbol g.toMove)).HasLine c) ↔
      ¬ isWin (g.board.play move (symbol g.toMove)) move = true := by
    rw [← hwin]
    push Not
    rfl
  have hzero : (g.board.play move (symbol g.toMove)).counter = 0 ↔
      '-' ∉ (g.board.play move (symbol g.toMove)).cells := by
    rw [(h.count_play hm hfree).1, ← List.count_eq_zero]
    exact Nat.cast_eq_zero
  rw [hwin, hno, checkGamestate]
  by_cases hw : isWin (g.board.play move (symbol g.toMove)) move = true
  · simp [hw]
  · by_cases hz : (g.board.play move (symbol g.toMove)).counter = 0
    · simp [hw, hz, hzero.mp hz]
    · simp [hw, hz, not_not.mp fun hn => hz (hzero.mpr hn)]

/-- A rejected attempt changes neither the board nor the turn. -/
theorem attempt_rejected {move : Move} {b : Board}
    (h : makeMove move g.board (symbol g.toMove) = (false, b)) :
    (g.attempt move).board = g.board ∧ (g.attempt move).toMove = g.toMove ∧
      (g.attempt move).outcome = none := by
  rcases makeMove_eq move g.board (symbol g.toMove) with ⟨-, -, heq⟩ | ⟨-, heq⟩
  · rw [heq] at h
    cases h
  · have hattempt : g.attempt move = ⟨g.board, g.toMove, none⟩ := by
      simp only [Game.attempt, heq]
    rw [hattempt]
    refine ⟨rfl, ?_, rfl⟩
    rw [Game.toMove_eq, Game.toMove_eq, Nat.mod_mod]

theorem fair_attempt (h : g.Fair) (move : Move) (hhead : (g.attempt move).outcome = none) :
    (g.attempt move).Fair := by
  rcases makeMove_eq move g.board (symbol g.toMove) with ⟨hm, hfree, heq⟩ | ⟨-, heq⟩
  · obtain ⟨hcnt, hbal⟩ := h.count_play hm hfree
    cases hres : checkGamestate (g.board.play move (symbol g.toMove)) move with
    | win => simp [Game.attempt, heq, hres] at hhead
    | draw => simp [Game.attempt, heq, hres] at hhead
    | unfinished =>
        obtain ⟨hno, hmem⟩ := (h.checkGamestate_iff hm hfree).2.2.mp hres
        have hattempt : g.attempt move =
            ⟨g.board.play move (symbol g.toMove), g.toMove + 1, none⟩ := by
          simp only [Game.attempt, heq, hres]
        rw [hattempt]
        refine ⟨h.wf.play _ _, hcnt, ?_, hno, ?_⟩
        · show 0 < (g.board.play move (symbol g.toMove)).counter
          rw [hcnt]
          exact_mod_cast List.count_pos_iff.mpr hmem
        · refine hbal.trans ?_
          rcases g.toMove_cases with hp | hp
          · rw [hp, Game.toMove_eq]
            norm_num
          · rw [hp, Game.toMove_eq]
            norm_num
  · obtain ⟨hb, ht, -⟩ := attempt_rejected heq
    exact ⟨hb ▸ h.wf, hb ▸ h.counter, hb ▸ h.free, hb ▸ h.noLine, hb ▸ ht ▸ h.balance⟩

theorem fair_invariant : game.Invariant fun g => g.outcome = none → g.Fair where
  start _ h _ := fair_start h
  next := by
    rintro g move g' - ih ⟨hhead, rfl⟩
    exact fair_attempt (ih hhead) move

/-- The whole game.  At every loop head `counter` is the number of free cells and is
positive, there is no line of `k` equal marks on the board, and there are as many
marks X as O if player 1 is to move and one more if player 2 is.  A rejected attempt
changes neither the board nor the turn.  After an accepted move `check_gamestate`
says WIN if and only if a line of `k` is on the whole board, which then is the
player's, DRAW if and only if there is no line and no free cell, and UNFINISHED
otherwise. -/
theorem game_correct (hg : game.Reachable g) (hhead : g.outcome = none) :
    g.board.counter = g.board.cells.count '-' ∧ 0 < g.board.counter ∧
    (∀ c, c ≠ '-' → ¬ g.board.HasLine c) ∧
    ((g.toMove = 0 ∧ (g.board.cells.count 'X' : Int) - g.board.cells.count 'O' = 0) ∨
      (g.toMove = 1 ∧ (g.board.cells.count 'X' : Int) - g.board.cells.count 'O' = 1)) ∧
    (∀ move b, makeMove move g.board (symbol g.toMove) = (false, b) →
      (g.attempt move).board = g.board ∧ (g.attempt move).toMove = g.toMove ∧
        (g.attempt move).outcome = none) ∧
    (∀ move b, makeMove move g.board (symbol g.toMove) = (true, b) →
      (checkGamestate b move = .win ↔ ∃ c, c ≠ '-' ∧ b.HasLine c) ∧
      (∀ c, c ≠ '-' → b.HasLine c → c = symbol g.toMove) ∧
      (checkGamestate b move = .draw ↔ (∀ c, c ≠ '-' → ¬ b.HasLine c) ∧ '-' ∉ b.cells) ∧
      (checkGamestate b move = .unfinished ↔
        (∀ c, c ≠ '-' → ¬ b.HasLine c) ∧ '-' ∈ b.cells)) := by
  have h := fair_invariant.reachable hg hhead
  refine ⟨h.counter, h.free, h.noLine, ?_, fun move b hrej => attempt_rejected hrej,
    fun move b hacc => ?_⟩
  · have hbal := h.balance
    rcases g.toMove_cases with hp | hp
    · rw [hp] at hbal
      exact .inl ⟨hp, hbal⟩
    · rw [hp] at hbal
      exact .inr ⟨hp, hbal⟩
  · rcases makeMove_eq move g.board (symbol g.toMove) with ⟨hm, hfree, heq⟩ | ⟨-, heq⟩
    · rw [heq] at hacc
      obtain rfl := (Prod.mk.inj hacc).2
      obtain ⟨hwin, hdraw, hunf⟩ := h.checkGamestate_iff hm hfree
      exact ⟨hwin, fun c hc hl => ((hasLine_play_iff h.wf hm h.noLine hc).mp hl).1, hdraw, hunf⟩
    · rw [heq] at hacc
      cases hacc

/-- On a board of 3 by 3, after X took the middle and O tried to take it too. -/
theorem game_correct_three :
    ∃ g : Game, game.Reachable g ∧ g.board.counter = 8 ∧ 0 < g.board.counter ∧
      (g.board.cells.count 'X' : Int) - g.board.cells.count 'O' = 1 := by
  have h0 : game.Reachable ⟨⟨3, 3, 9, List.replicate 9 '-'⟩, 0, none⟩ :=
    .init ⟨fun size => some (List.replicate size 'z'), 3, 3,
      fun size block h => by simp [← Option.some.inj h], by decide, rfl, rfl⟩
  have h1 := h0.step (a := ⟨1, 1⟩) ⟨rfl, rfl⟩
  have h2 := h1.step (a := ⟨1, 1⟩) ⟨by decide, rfl⟩
  have key := game_correct h2 (by decide)
  exact ⟨_, h2, by decide, key.2.1, by decide⟩

end TicTacToe
