import SystemsDrills.Lib.Stdio
import SystemsDrills.TicTacToe.Game

/-!
# The input of the game

The loop of `main` in `tictactoe.c` again, with the moves as they come from the keyboard.  `fgets`
reads into `input[256]` and `sscanf` takes two numbers from it; if there are two, `make_move` is
called with them.  The place of each chunk in the input is kept beside the call, so that a call can
be traced to the line it came from.

A line of more than 255 bytes comes in several chunks, and nothing skips the rest of a line once a
move was taken from it.  So a line can lead to several calls, the second of them for the other player.
Which lines do not is said in terms of the moves in their chunks and of the game before them.
-/

namespace TicTacToe

open Stdio

/-- The two numbers, if `sscanf(input, "%d , %d", &move.x, &move.y)` is 2. -/
def scanMove (input : List UInt8) : Option Move := do
  let first ← scanInt (cString input)
  let rest ← scanChar 44 (skipSpace first.2)
  let second ← scanInt (skipSpace rest)
  return ⟨first.1, second.1⟩

/-- A call of `make_move`: where in the input the chunk starts from which the move was taken, for
which player, and the move. -/
structure Call where
  start : Nat
  player : Nat
  move : Move
deriving DecidableEq, Repr

/-- The loop of `main` in the game `g`, with `s` still to read, which starts at `pos` in the input.
The game that is left has no outcome if the input came to its end. -/
def mainLoop (g : Game) (pos : Nat) (s : List UInt8) : List Call × Game :=
  match h : fgets 256 s with
  | none => ([], g)
  | some (input, rest) =>
      have := fgets_length h
      match scanMove input with
      | none => mainLoop g (pos + input.length) rest
      | some move =>
          if (g.attempt move).outcome = none then
            (⟨pos, g.toMove, move⟩ :: (mainLoop (g.attempt move) (pos + input.length) rest).1,
              (mainLoop (g.attempt move) (pos + input.length) rest).2)
          else
            ([⟨pos, g.toMove, move⟩], g.attempt move)
termination_by s.length

/-! ## Lines -/

/-- After `p`, which ends with a newline or is empty, the input `s` has the line `line`, which ends
with its only newline. -/
structure LineAfter (s p line : List UInt8) : Prop where
  whole : Ended p
  ends : ∃ t, newline ∉ t ∧ line = t ++ [newline]
  input : ∃ rest, s = p ++ (line ++ rest)

/-- The calls with a move from `len` bytes at `pos`. -/
def callsFrom (calls : List Call) (pos len : Nat) : List Call :=
  calls.filter fun c => pos ≤ c.start ∧ c.start < pos + len

/-- No line leads to more than one call of `make_move`. -/
def OneCallPerLine (g : Game) (s : List UInt8) : Prop :=
  ∀ p line, LineAfter s p line →
    (callsFrom (mainLoop g 0 s).1 p.length line.length).length ≤ 1

/-- The moves in a line, one at most in each chunk. -/
def moves (line : List UInt8) : List Move := (chunks 254 line).filterMap scanMove

/-- There is at most one move, or the first one ends the game. -/
def AtMostOne (g : Game) : List Move → Prop
  | [] => True
  | [_] => True
  | m :: _ :: _ => (g.attempt m).outcome ≠ none

/-- The moves that are played until the game ends. -/
def played (g : Game) : List Move → List Move
  | [] => []
  | m :: ms => m :: if (g.attempt m).outcome = none then played (g.attempt m) ms else []

/-- The game after them. -/
def Game.after (g : Game) : List Move → Game
  | [] => g
  | m :: ms => if (g.attempt m).outcome = none then (g.attempt m).after ms else g.attempt m

variable {g : Game} {pos : Nat} {p s line : List UInt8}

/-! ## The loop -/

theorem mainLoop_nil (g : Game) (pos : Nat) : mainLoop g pos [] = ([], g) := by
  rw [mainLoop]
  rfl

theorem mainLoop_some {input rest : List UInt8} (h : fgets 256 s = some (input, rest)) :
    mainLoop g pos s =
      match scanMove input with
      | none => mainLoop g (pos + input.length) rest
      | some move =>
          if (g.attempt move).outcome = none then
            (⟨pos, g.toMove, move⟩ :: (mainLoop (g.attempt move) (pos + input.length) rest).1,
              (mainLoop (g.attempt move) (pos + input.length) rest).2)
          else
            ([⟨pos, g.toMove, move⟩], g.attempt move) := by
  rw [mainLoop]
  split
  · next heq => rw [h] at heq; cases heq
  · next heq =>
    rw [h] at heq
    cases heq
    rfl

/-- A round of the loop: nothing is called, a call that leaves the game on, or the last call. -/
theorem mainLoop_cases (g : Game) (pos : Nat) {input rest : List UInt8}
    (h : fgets 256 s = some (input, rest)) :
    (scanMove input = none ∧ mainLoop g pos s = mainLoop g (pos + input.length) rest) ∨
    (∃ m, scanMove input = some m ∧ (g.attempt m).outcome = none ∧
      mainLoop g pos s =
        (⟨pos, g.toMove, m⟩ :: (mainLoop (g.attempt m) (pos + input.length) rest).1,
          (mainLoop (g.attempt m) (pos + input.length) rest).2)) ∨
    ∃ m, scanMove input = some m ∧ (g.attempt m).outcome ≠ none ∧
      mainLoop g pos s = ([⟨pos, g.toMove, m⟩], g.attempt m) := by
  rw [mainLoop_some h]
  cases hscan : scanMove input with
  | none => exact .inl ⟨rfl, rfl⟩
  | some m =>
      by_cases hon : (g.attempt m).outcome = none
      · exact .inr (.inl ⟨m, rfl, hon, if_pos hon⟩)
      · exact .inr (.inr ⟨m, rfl, hon, if_neg hon⟩)

/-- The calls come from the input that is read. -/
theorem start_mem (s : List UInt8) : ∀ (g : Game) (pos : Nat), ∀ c ∈ (mainLoop g pos s).1,
    pos ≤ c.start ∧ c.start < pos + s.length := by
  induction s using fgets_induction 254 with
  | nil =>
      intro g pos c hc
      rw [mainLoop_nil] at hc
      cases hc
  | read s input rest h ih =>
      obtain ⟨hs, -, -⟩ := fgets_eq_some h
      have hlt := fgets_length h
      have hlen : s.length = input.length + rest.length := by rw [← hs, List.length_append]
      intro g pos c hc
      rcases mainLoop_cases g pos h with ⟨-, heq⟩ | ⟨m, -, -, heq⟩ | ⟨m, -, -, heq⟩
      · rw [heq] at hc
        have := ih g (pos + input.length) c hc
        omega
      · rw [heq] at hc
        rcases List.mem_cons.mp hc with rfl | hc
        · show pos ≤ pos ∧ pos < pos + s.length
          omega
        · have := ih (g.attempt m) (pos + input.length) c hc
          omega
      · rw [heq] at hc
        obtain rfl := List.mem_singleton.mp hc
        show pos ≤ pos ∧ pos < pos + s.length
        omega

/-- The calls are made with the moves of the chunks, until the game ends. -/
theorem mainLoop_eq_played (s : List UInt8) : ∀ (g : Game) (pos : Nat),
    (mainLoop g pos s).1.map Call.move = played g (moves s) ∧
      (mainLoop g pos s).2 = g.after (moves s) := by
  induction s using fgets_induction 254 with
  | nil =>
      intro g pos
      rw [mainLoop_nil, moves, chunks_nil]
      exact ⟨rfl, rfl⟩
  | read s input rest h ih =>
      intro g pos
      rw [moves, chunks_some h, List.filterMap_cons]
      rcases mainLoop_cases g pos h with
        ⟨hscan, heq⟩ | ⟨m, hscan, hon, heq⟩ | ⟨m, hscan, hon, heq⟩
      · rw [heq, hscan]
        exact ih g (pos + input.length)
      · obtain ⟨hcalls, hgame⟩ := ih (g.attempt m) (pos + input.length)
        rw [heq, hscan, hgame, List.map_cons, hcalls]
        rw [played, Game.after, if_pos hon, if_pos hon]
        exact ⟨rfl, rfl⟩
      · rw [heq, hscan]
        rw [played, Game.after, if_neg hon, if_neg hon]
        exact ⟨rfl, rfl⟩

/-- Input that ends with a newline is read first, whatever comes after it. -/
theorem mainLoop_append (p s : List UInt8) : ∀ (g : Game) (pos : Nat), g.outcome = none → Ended p →
    mainLoop g pos (p ++ s) =
      if (mainLoop g pos p).2.outcome = none then
        ((mainLoop g pos p).1 ++ (mainLoop (mainLoop g pos p).2 (pos + p.length) s).1,
          (mainLoop (mainLoop g pos p).2 (pos + p.length) s).2)
      else mainLoop g pos p := by
  induction p using fgets_induction 254 with
  | nil =>
      intro g pos hg _
      rw [mainLoop_nil, if_pos hg]
      rfl
  | read p input rest h ih =>
      intro g pos hg hp
      obtain ⟨happ, hrest⟩ := fgets_append hp h s
      obtain ⟨hs, -, -⟩ := fgets_eq_some h
      have hpos : pos + p.length = pos + input.length + rest.length := by
        rw [← hs, List.length_append, Nat.add_assoc]
      rw [mainLoop_some happ, mainLoop_some h, hpos]
      cases scanMove input with
      | none => exact ih g (pos + input.length) hg hrest
      | some m =>
          by_cases hon : (g.attempt m).outcome = none
          · simp only [if_pos hon]
            rw [ih (g.attempt m) (pos + input.length) hon hrest]
            split
            · rfl
            · rfl
          · simp only [if_neg hon]

/-- The loop plays the game with the moves of its calls. -/
theorem exec_mainLoop (s : List UInt8) : ∀ (g : Game) (pos : Nat), g.outcome = none →
    game.Exec g ((mainLoop g pos s).1.map Call.move) (mainLoop g pos s).2 := by
  induction s using fgets_induction 254 with
  | nil =>
      intro g pos _
      rw [mainLoop_nil]
      exact .nil
  | read s input rest h ih =>
      intro g pos hg
      rcases mainLoop_cases g pos h with ⟨-, heq⟩ | ⟨m, -, hon, heq⟩ | ⟨m, -, -, heq⟩
      · rw [heq]
        exact ih g (pos + input.length) hg
      · rw [heq]
        exact .cons ⟨hg, rfl⟩ (ih (g.attempt m) (pos + input.length) hon)
      · rw [heq]
        exact .cons ⟨hg, rfl⟩ .nil

/-! ## The calls of a line -/

theorem callsFrom_of_forall {calls : List Call} {len : Nat}
    (h : ∀ c ∈ calls, pos ≤ c.start ∧ c.start < pos + len) : callsFrom calls pos len = calls :=
  List.filter_eq_self.mpr fun c hc => decide_eq_true (h c hc)

theorem callsFrom_of_outside {calls : List Call} {len : Nat}
    (h : ∀ c ∈ calls, ¬ (pos ≤ c.start ∧ c.start < pos + len)) : callsFrom calls pos len = [] :=
  List.filter_eq_nil_iff.mpr fun c hc => by simpa using h c hc

theorem callsFrom_append (calls calls' : List Call) (pos len : Nat) :
    callsFrom (calls ++ calls') pos len = callsFrom calls pos len ++ callsFrom calls' pos len :=
  List.filter_append ..

/-- The line leads to the calls that the loop makes with it alone, in the game that the input before
it leaves, if that is not over. -/
theorem callsFrom_line (hg : g.outcome = none) (h : LineAfter s p line) :
    callsFrom (mainLoop g 0 s).1 p.length line.length =
      if (mainLoop g 0 p).2.outcome = none then
        (mainLoop (mainLoop g 0 p).2 p.length line).1
      else [] := by
  obtain ⟨hp, ⟨t, -, rfl⟩, rest, rfl⟩ := h
  have hbefore : callsFrom (mainLoop g 0 p).1 p.length (t ++ [newline]).length = [] := by
    refine callsFrom_of_outside fun c hc => ?_
    have := start_mem p g 0 c hc
    omega
  rw [mainLoop_append p _ g 0 hg hp, Nat.zero_add]
  split
  · next hon =>
    have hself := callsFrom_of_forall (start_mem (t ++ [newline]) (mainLoop g 0 p).2 p.length)
    rw [mainLoop_append _ rest _ _ hon (ended_append_newline t)]
    split
    · next hon' =>
      have hafter : callsFrom (mainLoop (mainLoop (mainLoop g 0 p).2 p.length (t ++ [newline])).2
          (p.length + (t ++ [newline]).length) rest).1 p.length (t ++ [newline]).length = [] := by
        refine callsFrom_of_outside fun c hc => ?_
        have := start_mem rest _ (p.length + (t ++ [newline]).length) c hc
        omega
      rw [callsFrom_append, callsFrom_append, hbefore, hself, hafter]
      simp
    · rw [callsFrom_append, hbefore, hself]
      rfl
  · exact hbefore

theorem length_played_le_one (ms : List Move) : (played g ms).length ≤ 1 ↔ AtMostOne g ms := by
  match ms with
  | [] => exact iff_of_true (Nat.zero_le 1) trivial
  | [m] =>
      refine iff_of_true ?_ trivial
      rw [played]
      split
      · exact Nat.le_refl 1
      · exact Nat.le_refl 1
  | m :: m' :: ms =>
      rw [played]
      split
      · next hon =>
        refine iff_of_false ?_ (not_not.mpr hon)
        rw [played, List.length_cons, List.length_cons]
        omega
      · next hover => exact iff_of_true (Nat.le_refl 1) hover

theorem length_callsFrom_le_one (hg : g.outcome = none) (h : LineAfter s p line) :
    (callsFrom (mainLoop g 0 s).1 p.length line.length).length ≤ 1 ↔
      ((g.after (moves p)).outcome = none → AtMostOne (g.after (moves p)) (moves line)) := by
  rw [callsFrom_line hg h, (mainLoop_eq_played p g 0).2]
  split
  · next hon =>
    obtain ⟨hcalls, -⟩ := mainLoop_eq_played line (g.after (moves p)) p.length
    rw [← length_played_le_one, ← hcalls, List.length_map]
    exact ⟨fun hle _ => hle, fun hle => hle hon⟩
  · next hover => exact iff_of_true (Nat.zero_le 1) fun hon => absurd hon hover

/-- No line leads to two calls exactly if each line that comes while the game is on has one move at
most, or its first move ends the game. -/
theorem one_call_per_line_iff (hg : game.init g) (s : List UInt8) :
    OneCallPerLine g s ↔
      ∀ p line, LineAfter s p line → (g.after (moves p)).outcome = none →
        AtMostOne (g.after (moves p)) (moves line) := by
  obtain ⟨malloc, n, k, -, -, -, hon⟩ := hg
  exact forall_congr' fun p => forall_congr' fun line =>
    forall_congr' fun h => length_callsFrom_le_one hon h

/-- A line that the buffer can hold comes in one chunk. -/
theorem atMostOne_of_length_le (h : LineAfter s p line) (hlen : line.length ≤ 255) (g : Game) :
    AtMostOne g (moves line) := by
  obtain ⟨-, ⟨t, ht, rfl⟩, -⟩ := h
  rw [List.length_append, List.length_singleton] at hlen
  have hread : fgets 256 (t ++ [newline]) = some (t ++ [newline], []) := by
    rw [fgets, if_neg (by simp)]
    exact congrArg some (readLine_line ht (by omega) [])
  rw [moves, chunks_some hread, chunks_nil, List.filterMap_cons, List.filterMap_nil]
  split
  · trivial
  · trivial

/-- A game on a board of 3 by 3. -/
def start : Game := ⟨⟨3, 3, 9, List.replicate 9 '-'⟩, 0, none⟩

theorem init_start : game.init start :=
  ⟨fun size => some (List.replicate size 'z'), 3, 3,
    fun size block h => by simp [← Option.some.inj h], by decide, rfl, rfl⟩

/-- Two short lines. -/
theorem one_call_per_line_iff_short :
    OneCallPerLine start [48, 44, 48, 10, 48, 44, 49, 10] := by
  refine (one_call_per_line_iff init_start _).mpr fun p line h _ => ?_
  refine atMostOne_of_length_le h ?_ _
  obtain ⟨-, -, rest, hs⟩ := h
  have hlen := congrArg List.length hs
  simp only [List.length_cons, List.length_nil, List.length_append] at hlen
  omega

/-- `0,0` and so many blanks that the buffer is full. -/
def padded : List UInt8 := [48, 44, 48] ++ List.replicate 252 32

theorem newline_not_mem_padded : newline ∉ padded := by
  rw [padded, List.mem_append, List.mem_replicate]
  decide

theorem length_padded : padded.length = 255 := by
  rw [padded, List.length_append, List.length_replicate]
  rfl

theorem scanMove_padded : scanMove padded = some ⟨0, 0⟩ := by decide

/-- A line of 259 bytes, with `0,1` at its end. -/
def longLine : List UInt8 := padded ++ [48, 44, 49, 10]

theorem calls_longLine :
    (mainLoop start 0 longLine).1 = [⟨0, 0, ⟨0, 0⟩⟩, ⟨255, 1, ⟨0, 1⟩⟩] := by
  have hfirst : fgets 256 longLine = some (padded, [48, 44, 49, 10]) :=
    fgets_full newline_not_mem_padded length_padded _
  have hsecond : fgets 256 [48, 44, 49, 10] = some ([48, 44, 49, 10], []) := by decide
  have hscan : scanMove [48, 44, 49, 10] = some ⟨0, 1⟩ := by decide
  have hon : (start.attempt ⟨0, 0⟩).outcome = none := by decide
  have hon' : ((start.attempt ⟨0, 0⟩).attempt ⟨0, 1⟩).outcome = none := by decide
  have hturn : (start.attempt ⟨0, 0⟩).toMove = 1 := by decide
  simp only [mainLoop_some hfirst, scanMove_padded, if_pos hon, mainLoop_some hsecond, hscan,
    if_pos hon', mainLoop_nil, length_padded, hturn]
  rfl

/-- It leads to two calls, one for each player. -/
theorem not_oneCallPerLine :
    game.init start ∧ ¬ OneCallPerLine start longLine ∧
      (mainLoop start 0 longLine).1.map Call.player = [0, 1] := by
  refine ⟨init_start, fun h => ?_, by rw [calls_longLine]; rfl⟩
  have hends : ∃ t, newline ∉ t ∧ longLine = t ++ [newline] := by
    refine ⟨padded ++ [48, 44, 49], ?_, (List.append_assoc padded [48, 44, 49] [newline]).symm⟩
    rw [List.mem_append, not_or]
    exact ⟨newline_not_mem_padded, by decide⟩
  have hle := h [] longLine ⟨ended_nil, hends, [], (List.append_nil _).symm⟩
  have hlen : longLine.length = 259 := by rw [longLine, List.length_append, length_padded]; rfl
  rw [calls_longLine, hlen] at hle
  exact absurd hle (by decide)

end TicTacToe
