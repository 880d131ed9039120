import SystemsDrills.Sudoku.Validators

/-!
# What `sudoku_valid_v0` accepts

The first part runs the code with every access checked: a cell outside the board, a value
outside `seen` and a square that does not fit an `int` stop the run.  On a board of `n * n`
cells none of this happens.

The second part says what a valid board is by the rows and the columns of its cells.  Two cells
are in one square if their rows have the same quotient by the box size, and so their columns.
-/

namespace Sudoku

/-! ## The code, with the accesses checked -/

/-- Why a run ends early: `return false`, or an access or an overflow that C does not define. -/
inductive Stop where
  | invalid
  | undefined
deriving DecidableEq

/-- The guard, from left to right.  `box * box` is an `int`. -/
def checkSize (n box : Int) : Except Stop Unit :=
  if n < 0 ∨ n > maxN ∨ box ≤ 0 ∨ box > n then
    .error .invalid
  else if box * box < -2 ^ 31 ∨ 2 ^ 31 ≤ box * box then
    .error .undefined
  else if box * box ≠ n then
    .error .invalid
  else
    .ok ()

/-- What the loops do with `board[k]`. -/
def visit (board : List Int) (n : Nat) (seen : Seen) (k : Nat) : Except Stop Seen :=
  match board[k]? with
  | none => .error .undefined
  | some v =>
      if v = 0 then
        .ok seen
      else if v < 0 ∨ v > n then
        .error .invalid
      else
        match seen[v.toNat]? with
        | none => .error .undefined
        | some mark =>
            if mark = 1 then .error .invalid else .ok (seen.setIfInBounds v.toNat 1)

/-- The loops over the rows. -/
def visitRows (board : List Int) (n : Nat) (seen : Seen) : Except Stop Seen :=
  (List.range n).foldlM (fun seen i => do
    let _ ← (List.range n).foldlM (fun seen j => visit board n seen (i * n + j)) seen
    return unseen) seen

/-- The loops over the columns. -/
def visitCols (board : List Int) (n : Nat) (seen : Seen) : Except Stop Seen :=
  (List.range n).foldlM (fun seen i => do
    let _ ← (List.range n).foldlM (fun seen j => visit board n seen (j * n + i)) seen
    return unseen) seen

/-- The loops over the boxes. -/
def visitBoxes (board : List Int) (n box : Nat) (seen : Seen) : Except Stop Seen :=
  (List.range box).foldlM (fun seen i =>
    (List.range box).foldlM (fun seen j => do
      let r0 := i * box
      let c0 := j * box
      let _ ← (List.range box).foldlM (fun seen k =>
        (List.range box).foldlM (fun seen l =>
          visit board n seen ((k + r0) * n + c0 + l)) seen) seen
      return unseen) seen) seen

/-- `sudoku_valid_v0`, which returns true if it comes to its end. -/
def runV0 (board : List Int) (n box : Int) : Except Stop Seen := do
  checkSize n box
  let seen ← visitRows board n.toNat unseen
  let seen ← visitCols board n.toNat seen
  visitBoxes board n.toNat box.toNat seen

/-! ## No access is out of range -/

/-- A run that only ends early with `return false`. -/
def orInvalid {α : Type} : Option α → Except Stop α
  | none => .error .invalid
  | some a => .ok a

variable {α β : Type} {n b : Nat} {board : List Int}

theorem orInvalid_bind (x : Option α) (f : α → Option β) :
    orInvalid (x >>= f) = orInvalid x >>= fun a => orInvalid (f a) := by
  cases x <;> rfl

theorem foldlM_orInvalid {f : β → α → Except Stop β} {g : β → α → Option β} {l : List α}
    (h : ∀ a ∈ l, ∀ s, f s a = orInvalid (g s a)) (s : β) :
    l.foldlM f s = orInvalid (l.foldlM g s) := by
  induction l generalizing s with
  | nil => rfl
  | cons a l ih =>
      obtain ⟨ha, hl⟩ := List.forall_mem_cons.mp h
      rw [List.foldlM_cons, List.foldlM_cons, orInvalid_bind, ha]
      congr 1
      funext s'
      exact ih hl s'

/-- A unit, after which the array is cleared. -/
theorem unit_orInvalid {x : Except Stop Seen} {y : Option Seen} (h : x = orInvalid y) :
    (do let _ ← x; return unseen) = orInvalid (do let _ ← y; return unseen) := by
  rw [h, orInvalid_bind]
  rfl

/-- The value is compared with `n` before it is an index into `seen`. -/
theorem visit_eq (hn : n ≤ maxN) {k : Nat} (hk : k < board.length) (seen : Seen) :
    visit board n seen k = orInvalid (checkCell n seen (cell board k)) := by
  rw [visit, checkCell, cell, List.getElem?_eq_getElem hk, Option.getD_some]
  simp only
  split_ifs with h0 hrange hmark
  · rfl
  · rfl
  all_goals
    have hlt : board[k].toNat < maxN + 1 := by omega
    rw [Vector.getElem?_eq_getElem hlt] at hmark ⊢
  · exact if_pos hmark
  · exact if_neg hmark

theorem visitRows_eq (hn : n ≤ maxN) (hlen : board.length = n * n) (seen : Seen) :
    visitRows board n seen = orInvalid (checkRows board n seen) := by
  refine foldlM_orInvalid (fun i hi seen => unit_orInvalid ?_) seen
  refine foldlM_orInvalid (fun j hj seen => visit_eq hn ?_ seen) seen
  rw [hlen]
  exact Grid.index_lt (List.mem_range.mp hi) (List.mem_range.mp hj)

theorem visitCols_eq (hn : n ≤ maxN) (hlen : board.length = n * n) (seen : Seen) :
    visitCols board n seen = orInvalid (checkCols board n seen) := by
  refine foldlM_orInvalid (fun i hi seen => unit_orInvalid ?_) seen
  refine foldlM_orInvalid (fun j hj seen => visit_eq hn ?_ seen) seen
  rw [hlen]
  exact Grid.index_lt (List.mem_range.mp hj) (List.mem_range.mp hi)

theorem visitBoxes_eq (hn : n ≤ maxN) (hb : b * b = n) (hlen : board.length = n * n)
    (seen : Seen) : visitBoxes board n b seen = orInvalid (checkBoxes board n b seen) := by
  refine foldlM_orInvalid (fun i hi seen => ?_) seen
  refine foldlM_orInvalid (fun j hj seen => unit_orInvalid ?_) seen
  refine foldlM_orInvalid (fun k hk seen => ?_) seen
  refine foldlM_orInvalid (fun l hl seen => visit_eq hn ?_ seen) seen
  rw [List.mem_range] at hi hj hk hl
  have hrow : i * b + k < b * b := Grid.index_lt hi hk
  have hcol : j * b + l < b * b := Grid.index_lt hj hl
  rw [hlen, ← hb, Nat.add_assoc, Nat.add_comm k]
  exact Grid.index_lt hrow hcol

/-- `box * box` is at most `MAX_N * MAX_N` when it is computed. -/
theorem checkSize_eq (n box : Int) :
    checkSize n box = if badSize n box then .error .invalid else .ok () := by
  have hmax : (maxN : Int) = 1000 := rfl
  have hbad : badSize n box ↔ (n < 0 ∨ n > maxN ∨ box ≤ 0 ∨ box > n) ∨ box * box ≠ n := by
    simp only [badSize, or_assoc]
  unfold checkSize
  by_cases hguard : n < 0 ∨ n > maxN ∨ box ≤ 0 ∨ box > n
  · rw [if_pos hguard, if_pos (hbad.mpr (.inl hguard))]
  have hle : box * box ≤ 1000 * 1000 := by
    have hbox : box ≤ 1000 := by omega
    exact Int.mul_le_mul hbox hbox (by omega) (by omega)
  have hpos : 0 ≤ box * box := Int.mul_nonneg (by omega) (by omega)
  rw [if_neg hguard, if_neg (by omega)]
  by_cases hsq : box * box ≠ n
  · rw [if_pos hsq, if_pos (hbad.mpr (.inr hsq))]
  · rw [if_neg hsq, if_neg (hbad.not.mpr (not_or.mpr ⟨hguard, hsq⟩))]

/-- The runs with and without the checks are the same. -/
theorem runV0_eq {n box : Int} (hlen : (board.length : Int) = n * n) :
    (runV0 board n box).isOk = sudokuValidV0 board n box ∧
      runV0 board n box ≠ .error .undefined := by
  rw [runV0, sudokuValidV0, checkSize_eq]
  by_cases hbad : badSize n box
  · rw [if_pos hbad, if_pos hbad]
    refine ⟨rfl, ?_⟩
    rintro ⟨⟩
  rw [if_neg hbad, if_neg hbad]
  obtain ⟨hn, hb⟩ := size_of_not_badSize hbad
  have h0 : 0 ≤ n := by
    simp only [badSize, not_or] at hbad
    omega
  have hlen : board.length = n.toNat * n.toNat := by
    rw [← Int.toNat_mul h0 h0, ← hlen, Int.toNat_natCast]
  have heq : (do
      let seen ← visitRows board n.toNat unseen
      let seen ← visitCols board n.toNat seen
      visitBoxes board n.toNat box.toNat seen) = orInvalid (do
        let seen ← checkRows board n.toNat unseen
        let seen ← checkCols board n.toNat seen
        checkBoxes board n.toNat box.toNat seen) := by
    simp only [orInvalid_bind, visitRows_eq hn hlen, visitCols_eq hn hlen, visitBoxes_eq hn hb hlen]
  rw [show (Except.ok () : Except Stop Unit) >>= _ = _ from rfl, heq]
  generalize (do
    let seen ← checkRows board n.toNat unseen
    let seen ← checkCols board n.toNat seen
    checkBoxes board n.toNat box.toNat seen) = result
  cases result with
  | none =>
      refine ⟨rfl, ?_⟩
      rintro ⟨⟩
  | some seen =>
      refine ⟨rfl, ?_⟩
      rintro ⟨⟩

/-! ## The valid boards -/

/-- The cell in row `r` and column `c`. -/
def cellAt (board : List Int) (n r c : Nat) : Int := cell board (r * n + c)

/-- No value but zero stands in two different cells of a row, a column or a square. -/
structure Valid (board : List Int) (n box : Nat) : Prop where
  inRange : ∀ r < n, ∀ c < n, 0 ≤ cellAt board n r c ∧ cellAt board n r c ≤ n
  rows : ∀ r < n, ∀ c < n, ∀ c' < n,
    cellAt board n r c ≠ 0 → cellAt board n r c = cellAt board n r c' → c = c'
  cols : ∀ c < n, ∀ r < n, ∀ r' < n,
    cellAt board n r c ≠ 0 → cellAt board n r c = cellAt board n r' c → r = r'
  squares : ∀ r < n, ∀ c < n, ∀ r' < n, ∀ c' < n, r / box = r' / box → c / box = c' / box →
    cellAt board n r c ≠ 0 → cellAt board n r c = cellAt board n r' c' → r = r' ∧ c = c'

theorem noRepeat_map {f : Nat → Int} :
    NoRepeat ((List.range n).map f) ↔ ∀ i < n, ∀ j < n, f i ≠ 0 → f i = f j → i = j := by
  rw [NoRepeat, List.filter_map, List.nodup_map_iff_inj_on (List.nodup_range.filter _)]
  simp only [List.mem_filter, List.mem_range, Function.comp_apply, decide_eq_true_eq]
  constructor
  · intro h i hi j hj h0 heq
    exact h i ⟨hi, h0⟩ j ⟨hj, heq ▸ h0⟩ heq
  · rintro h i ⟨hi, h0⟩ j ⟨hj, -⟩ heq
    exact h i hi j hj h0 heq

theorem unitValid_cells {index : Nat → Nat} :
    UnitValid n (unitCells board n index) ↔
      (∀ i < n, 0 ≤ cell board (index i) ∧ cell board (index i) ≤ n) ∧
      ∀ i < n, ∀ j < n, cell board (index i) ≠ 0 →
        cell board (index i) = cell board (index j) → i = j := by
  have hrange : (∀ v ∈ unitCells board n index, 0 ≤ v ∧ v ≤ n) ↔
      ∀ i < n, 0 ≤ cell board (index i) ∧ cell board (index i) ≤ n := by
    simp only [unitCells, List.forall_mem_map, List.mem_range]
  rw [← hrange, ← noRepeat_map]
  exact ⟨fun h => ⟨h.inRange, h.noRepeat⟩, fun h => ⟨h.1, h.2⟩⟩

/-- Cell `i` of the box `u`, by its row and its column. -/
theorem boxCells_cellAt (u : Nat) : boxCells board n b u =
    (List.range n).map fun i => cellAt board n (u / b * b + i / b) (u % b * b + i % b) := by
  refine List.map_congr_left fun i _ => ?_
  show cell board ((u / b * b + i / b) * n + u % b * b + i % b) = _
  rw [cellAt, Nat.add_assoc]

/-- The number with the digits `q` and `d` to the base `b`. -/
theorem digits {q d : Nat} (hd : d < b) : (q * b + d) / b = q ∧ (q * b + d) % b = d := by
  refine ⟨?_, Nat.mul_add_mod_of_lt hd⟩
  rw [Nat.mul_comm, Nat.mul_add_div (Nat.zero_lt_of_lt hd), Nat.div_eq_of_lt hd, Nat.add_zero]

theorem boxSize_pos (hb : b * b = n) {i : Nat} (hi : i < n) : 0 < b := by
  refine Nat.pos_of_ne_zero fun h0 => ?_
  rw [h0] at hb
  omega

/-- The squares are the boxes, each with every one of its cells. -/
theorem squares_iff (hb : b * b = n) :
    (∀ u < n, NoRepeat (boxCells board n b u)) ↔
      ∀ r < n, ∀ c < n, ∀ r' < n, ∀ c' < n, r / b = r' / b → c / b = c' / b →
        cellAt board n r c ≠ 0 → cellAt board n r c = cellAt board n r' c' → r = r' ∧ c = c' := by
  have hlt : ∀ {i j}, i < b → j < b → i * b + j < n := fun hi hj => hb ▸ Grid.index_lt hi hj
  have hdiv : ∀ {i}, i < n → i / b < b := fun hi => Nat.div_lt_of_lt_mul (hb.symm ▸ hi)
  have hmod : ∀ {i}, i < n → i % b < b := fun {i} hi => Nat.mod_lt i (boxSize_pos hb hi)
  simp only [boxCells_cellAt, noRepeat_map]
  constructor
  · intro h r hr c hc r' hr' c' hc' hrow hcol h0 heq
    have hu := digits (q := r / b) (hdiv hc)
    have hi := digits (q := r % b) (hmod hc)
    have hi' := digits (q := r' % b) (hmod hc')
    have := h (r / b * b + c / b) (hlt (hdiv hr) (hdiv hc))
      (r % b * b + c % b) (hlt (hmod hr) (hmod hc))
      (r' % b * b + c' % b) (hlt (hmod hr') (hmod hc'))
    rw [hu.1, hu.2, hi.1, hi.2, hi'.1, hi'.2, Nat.div_add_mod', Nat.div_add_mod', hrow, hcol,
      Nat.div_add_mod', Nat.div_add_mod'] at this
    have hplace := this h0 heq
    have hr := congrArg (· / b) hplace
    have hc := congrArg (· % b) hplace
    simp only [hi.1, hi.2, hi'.1, hi'.2] at hr hc
    exact ⟨by rw [← Nat.div_add_mod' r b, hrow, hr, Nat.div_add_mod'],
      by rw [← Nat.div_add_mod' c b, hcol, hc, Nat.div_add_mod']⟩
  · intro h u hu i hi j hj h0 heq
    obtain ⟨hr, hc⟩ := h _ (hlt (hdiv hu) (hdiv hi)) _ (hlt (hmod hu) (hmod hi))
      _ (hlt (hdiv hu) (hdiv hj)) _ (hlt (hmod hu) (hmod hj))
      (by rw [(digits (hdiv hi)).1, (digits (hdiv hj)).1])
      (by rw [(digits (hmod hi)).1, (digits (hmod hj)).1]) h0 heq
    rw [← Nat.div_add_mod' i b, ← Nat.div_add_mod' j b, Nat.add_left_cancel hr,
      Nat.add_left_cancel hc]

/-- The units are valid if the board is. -/
theorem unitsValid_iff (hb : b * b = n) : UnitsValid board n b ↔ Valid board n b := by
  constructor
  · intro h
    have hrow := fun r hr => unitValid_cells.mp (h.rows r (List.mem_range.mpr hr))
    have hcol := fun c hc => unitValid_cells.mp (h.cols c (List.mem_range.mpr hc))
    exact ⟨fun r hr => (hrow r hr).1, fun r hr => (hrow r hr).2, fun c hc => (hcol c hc).2,
      (squares_iff hb).mp fun u hu => (h.boxes u (List.mem_range.mpr hu)).noRepeat⟩
  · intro h
    refine ⟨fun u hu => ?_, fun u hu => ?_, fun u hu => ?_⟩
    all_goals have hu := List.mem_range.mp hu
    · exact unitValid_cells.mpr ⟨h.inRange u hu, h.rows u hu⟩
    · exact unitValid_cells.mpr ⟨fun i hi => h.inRange i hi u hu, h.cols u hu⟩
    · refine ⟨?_, (squares_iff hb).mpr h.squares u hu⟩
      have hpos : 0 < b := boxSize_pos hb hu
      rw [boxCells_cellAt]
      simp only [List.forall_mem_map, List.mem_range]
      intro i hi
      exact h.inRange _ (hb ▸ Grid.index_lt (Nat.div_lt_of_lt_mul (hb.symm ▸ hu))
        (Nat.div_lt_of_lt_mul (hb.symm ▸ hi))) _ (hb ▸ Grid.index_lt (Nat.mod_lt u hpos)
        (Nat.mod_lt i hpos))

/-- The guard, with no bound on `box`. -/
theorem not_badSize_iff {n box : Int} :
    ¬ badSize n box ↔ 0 < box ∧ box * box = n ∧ n ≤ 1000 := by
  have hmax : (maxN : Int) = 1000 := rfl
  simp only [badSize, not_or, not_lt, not_le, not_not, hmax]
  constructor
  · rintro ⟨-, hn, hbox, -, hsq⟩
    exact ⟨hbox, hsq, hn⟩
  · rintro ⟨hbox, hsq, hn⟩
    have hle : box * 1 ≤ box * box := Int.mul_le_mul_of_nonneg_left hbox hbox.le
    exact ⟨by omega, hn, hbox, by omega, hsq⟩

/-- `sudoku_valid_v0` accepts exactly the valid boards, and no access is out of range. -/
theorem sudoku_valid_v0_exact (board : List Int) (n box : Int)
    (hlen : (board.length : Int) = n * n) :
    (sudokuValidV0 board n box = true ↔
      0 < box ∧ box * box = n ∧ n ≤ 1000 ∧ Valid board n.toNat box.toNat) ∧
    (runV0 board n box).isOk = sudokuValidV0 board n box ∧
      runV0 board n box ≠ .error .undefined := by
  refine ⟨?_, runV0_eq hlen⟩
  by_cases hbad : badSize n box
  · have hsize : ¬ (0 < box ∧ box * box = n ∧ n ≤ 1000) := fun h => not_badSize_iff.mpr h hbad
    rw [sudokuValidV0, if_pos hbad]
    refine ⟨fun h => Bool.noConfusion h, ?_⟩
    rintro ⟨hbox, hsq, hn, -⟩
    exact absurd ⟨hbox, hsq, hn⟩ hsize
  · obtain ⟨hn, hb⟩ := size_of_not_badSize hbad
    obtain ⟨hbox, hsq, hmax⟩ := not_badSize_iff.mp hbad
    rw [sudokuValidV0, if_neg hbad, (accepts_v0 hn hb board).isSome unseen rfl,
      unitsValid_iff hb]
    exact ⟨fun h => ⟨hbox, hsq, hmax, h⟩, fun h => h.2.2.2⟩

/-- A board of the tests, of which only the last square is bad. -/
theorem sudoku_valid_v0_exact_square :
    sudokuValidV0 [1, 3, 2, 4, 2, 4, 0, 3, 3, 0, 1, 2, 4, 2, 3, 1] 4 2 = false ∧
      ¬ Valid [1, 3, 2, 4, 2, 4, 0, 3, 3, 0, 1, 2, 4, 2, 3, 1] 4 2 := by
  have h := sudoku_valid_v0_exact [1, 3, 2, 4, 2, 4, 0, 3, 3, 0, 1, 2, 4, 2, 3, 1] 4 2 rfl
  have hfalse : sudokuValidV0 [1, 3, 2, 4, 2, 4, 0, 3, 3, 0, 1, 2, 4, 2, 3, 1] 4 2 = false := by
    decide +kernel
  refine ⟨hfalse, fun hvalid => ?_⟩
  have htrue := h.1.mpr ⟨by decide, by decide, by decide, hvalid⟩
  rw [hfalse] at htrue
  cases htrue

end Sudoku
