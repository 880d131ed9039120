import SystemsDrills.Lib.Checks
import SystemsDrills.Lib.Grid

/-!
# Two sudoku validators

`Interview/leetcode/12-sudoku-validator.c` has two of them.  `sudoku_valid_v0` walks over the
rows, the columns and the boxes with index loops and marks the values of a unit in one array
`seen`, which it clears after each unit.  `sudoku_valid` copies each unit into `vals` with a
gatherer from a table and hands it to `unit_ok`, which has a fresh `seen`; its table has the
two diagonals as well.

The guard lets only sizes up to `MAX_N` pass, so the indices fit an `int` and are `Nat` here.
Both validators come down to `UnitValid` of the same lists of cells.
-/

namespace Sudoku

/-! ## The code -/

/-- `MAX_N`. -/
def maxN : Nat := 1000

/-- The guard of both validators. -/
def badSize (n box : Int) : Prop := n < 0 ∨ n > maxN ∨ box ≤ 0 ∨ box > n ∨ box * box ≠ n

instance (n box : Int) : Decidable (badSize n box) := inferInstanceAs (Decidable (_ ∨ _))

/-- `board[k]`. -/
def cell (board : List Int) (k : Nat) : Int := board[k]?.getD 0

/-- The array `seen`. -/
abbrev Seen := Vector Nat (maxN + 1)

/-- `{0}`, and what `memset` leaves. -/
def unseen : Seen := Vector.replicate (maxN + 1) 0

/-- What both validators do with a cell.  There is no array if they return false. -/
def checkCell (n : Nat) (seen : Seen) (v : Int) : Option Seen :=
  if v = 0 then
    some seen
  else if v < 0 ∨ v > n then
    none
  else if seen[v.toNat]?.getD 0 = 1 then
    none
  else
    some (seen.setIfInBounds v.toNat 1)

/-- The loops over the rows. -/
def checkRows (board : List Int) (n : Nat) (seen : Seen) : Option Seen :=
  (List.range n).foldlM (fun seen i => do
    let _ ← (List.range n).foldlM (fun seen j => checkCell n seen (cell board (i * n + j))) seen
    return unseen) seen

/-- The loops over the columns. -/
def checkCols (board : List Int) (n : Nat) (seen : Seen) : Option Seen :=
  (List.range n).foldlM (fun seen i => do
    let _ ← (List.range n).foldlM (fun seen j => checkCell n seen (cell board (j * n + i))) seen
    return unseen) seen

/-- The loops over the boxes. -/
def checkBoxes (board : List Int) (n box : Nat) (seen : Seen) : Option Seen :=
  (List.range box).foldlM (fun seen i =>
    (List.range box).foldlM (fun seen j => do
      let r0 := i * box
      let c0 := j * box
      let _ ← (List.range box).foldlM (fun seen k =>
        (List.range box).foldlM (fun seen l =>
          checkCell n seen (cell board ((k + r0) * n + c0 + l))) seen) seen
      return unseen) seen) seen

/-- `sudoku_valid_v0`. -/
def sudokuValidV0 (board : List Int) (n box : Int) : Bool :=
  if badSize n box then
    false
  else
    Option.isSome do
      let seen ← checkRows board n.toNat unseen
      let seen ← checkCols board n.toNat seen
      checkBoxes board n.toNat box.toNat seen

/-- The array `vals`. -/
abbrev Vals := Vector Int maxN

/-- `unit_ok`. -/
def unitOk (vals : Vals) (n : Nat) : Bool :=
  ((List.range n).foldlM (fun seen i => checkCell n seen (vals[i]?.getD 0)) unseen).isSome

/-- The loop of a gatherer, which reads the cells at the indices `index i`. -/
def gather (board : List Int) (n : Nat) (index : Nat → Nat) (out : Vals) : Vals :=
  (List.range n).foldl (fun out i => out.setIfInBounds i (cell board (index i))) out

/-- `row_gatherer`. -/
def rowGatherer (board : List Int) (n _b u : Nat) (out : Vals) : Vals :=
  gather board n (fun i => u * n + i) out

/-- `col_gatherer`. -/
def colGatherer (board : List Int) (n _b u : Nat) (out : Vals) : Vals :=
  gather board n (fun i => i * n + u) out

/-- `sqr_gatherer`. -/
def sqrGatherer (board : List Int) (n b u : Nat) (out : Vals) : Vals :=
  let r0 := u / b * b
  let c0 := u % b * b
  gather board n (fun i => (r0 + i / b) * n + c0 + i % b) out

/-- `diag_gatherer`, which asserts that `u` is 0 or 1. -/
def diagGatherer (board : List Int) (n _b u : Nat) (out : Vals) : Vals :=
  match u with
  | 0 => gather board n (fun i => i * n + i) out
  | 1 => gather board n (fun i => i * n + n - 1 - i) out
  | _ => out

/-- `gather_kind`. -/
structure GatherKind where
  g : List Int → Nat → Nat → Nat → Vals → Vals
  n : Nat

/-- The table of `sudoku_valid`. -/
def kinds (n : Nat) : List GatherKind :=
  [⟨rowGatherer, n⟩, ⟨colGatherer, n⟩, ⟨sqrGatherer, n⟩, ⟨diagGatherer, 2⟩]

/-- `sudoku_valid`.  `vals` is what the array holds before anything is stored. -/
def sudokuValid (vals : Vals) (board : List Int) (n box : Int) : Bool :=
  if badSize n box then
    false
  else
    Option.isSome <| (kinds n.toNat).foldlM (fun vals kind =>
      (List.range kind.n).foldlM (fun vals j =>
        let vals := kind.g board n.toNat box.toNat j vals
        if unitOk vals n.toNat then some vals else none) vals) vals

/-! ## One unit -/

/-- No value but zero stands twice in a unit. -/
def NoRepeat (vs : List Int) : Prop := (vs.filter (· ≠ 0)).Nodup

/-- The values of a unit are in range and none but zero stands there twice. -/
structure UnitValid (n : Nat) (vs : List Int) : Prop where
  inRange : ∀ v ∈ vs, 0 ≤ v ∧ v ≤ n
  noRepeat : NoRepeat vs

variable {n b : Nat} {v w : Int} {vs : List Int} {seen : Seen} {board : List Int}

theorem NoRepeat.cons_iff : NoRepeat (v :: vs) ↔ (v ≠ 0 → v ∉ vs) ∧ NoRepeat vs := by
  by_cases h0 : v = 0
  · simp [NoRepeat, h0]
  · simp [NoRepeat, h0]

theorem UnitValid.cons_iff :
    UnitValid n (v :: vs) ↔ (0 ≤ v ∧ v ≤ n) ∧ (v ≠ 0 → v ∉ vs) ∧ UnitValid n vs := by
  constructor
  · rintro ⟨hrange, hrep⟩
    obtain ⟨hv, hvs⟩ := List.forall_mem_cons.mp hrange
    obtain ⟨hnew, hrest⟩ := NoRepeat.cons_iff.mp hrep
    exact ⟨hv, hnew, hvs, hrest⟩
  · rintro ⟨hv, hnew, hvs, hrest⟩
    exact ⟨List.forall_mem_cons.mpr ⟨hv, hvs⟩, NoRepeat.cons_iff.mpr ⟨hnew, hrest⟩⟩

/-- A value that was just marked is seen, and of the others those that were seen before. -/
theorem seen_set (hn : n ≤ maxN) (hv : 0 ≤ v ∧ v ≤ n) (hw : 0 ≤ w) :
    (seen.setIfInBounds v.toNat 1)[w.toNat]?.getD 0 = 1 ↔
      v = w ∨ seen[w.toNat]?.getD 0 = 1 := by
  have hlt : v.toNat < maxN + 1 := by omega
  by_cases heq : v = w
  · subst heq
    simp [hlt]
  · have hne : v.toNat ≠ w.toNat := by omega
    simp [heq, Vector.getElem?_setIfInBounds_ne hne]

/-- The loop over a unit goes through if the unit is valid and none of its values was seen. -/
theorem foldlM_checkCell (hn : n ≤ maxN) (vs : List Int) (seen : Seen) :
    (vs.foldlM (checkCell n) seen).isSome ↔
      UnitValid n vs ∧ ∀ v ∈ vs, v ≠ 0 → seen[v.toNat]?.getD 0 ≠ 1 := by
  induction vs generalizing seen with
  | nil => simpa using (⟨nofun, List.nodup_nil⟩ : UnitValid n [])
  | cons v vs ih =>
      rw [List.foldlM_cons, checkCell, UnitValid.cons_iff, List.forall_mem_cons]
      by_cases h0 : v = 0
      · rw [if_pos h0, Option.bind_eq_bind, Option.bind_some, ih]
        simp [h0]
      rw [if_neg h0]
      by_cases hrange : v < 0 ∨ v > n
      · rw [if_pos hrange]
        refine ⟨nofun, fun ⟨⟨hv, _⟩, _⟩ => ?_⟩
        omega
      rw [if_neg hrange]
      by_cases hseen : seen[v.toNat]?.getD 0 = 1
      · rw [if_pos hseen]
        exact ⟨nofun, fun ⟨_, hnot, _⟩ => absurd hseen (hnot h0)⟩
      rw [if_neg hseen, Option.bind_eq_bind, Option.bind_some, ih]
      have hv : 0 ≤ v ∧ v ≤ n := by omega
      constructor
      · rintro ⟨hvalid, hfresh⟩
        have hmark : ∀ w ∈ vs, w ≠ 0 → ¬ (v = w ∨ seen[w.toNat]?.getD 0 = 1) := fun w hw hw0 =>
          (seen_set hn hv (hvalid.inRange w hw).1).not.mp (hfresh w hw hw0)
        exact ⟨⟨hv, fun _ hin => hmark v hin h0 (.inl rfl), hvalid⟩, fun _ => hseen,
          fun w hw hw0 => (not_or.mp (hmark w hw hw0)).2⟩
      · rintro ⟨⟨-, hnew, hvalid⟩, -, hfresh⟩
        refine ⟨hvalid, fun w hw hw0 => (seen_set hn hv (hvalid.inRange w hw).1).not.mpr ?_⟩
        rintro (rfl | hold)
        · exact hnew h0 hw
        · exact hfresh w hw hw0 hold

theorem foldlM_unseen (hn : n ≤ maxN) :
    (vs.foldlM (checkCell n) unseen).isSome ↔ UnitValid n vs := by
  rw [foldlM_checkCell hn, and_iff_left]
  intro v _ _
  rw [unseen, Vector.getElem?_replicate]
  split <;> decide

/-- The cells of a unit. -/
def unitCells (board : List Int) (n : Nat) (index : Nat → Nat) : List Int :=
  (List.range n).map fun i => cell board (index i)

/-- The cells of the box `u`. -/
def boxCells (board : List Int) (n b u : Nat) : List Int :=
  unitCells board n fun i => (u / b * b + i / b) * n + u % b * b + i % b

/-- The rows, the columns and the boxes are valid. -/
structure UnitsValid (board : List Int) (n b : Nat) : Prop where
  rows : ∀ u ∈ List.range n, UnitValid n (unitCells board n fun i => u * n + i)
  cols : ∀ u ∈ List.range n, UnitValid n (unitCells board n fun i => i * n + u)
  boxes : ∀ u ∈ List.range n, UnitValid n (boxCells board n b u)

/-! ## `sudoku_valid_v0` -/

open Checks

/-- The array is clear. -/
def Clear (seen : Seen) : Prop := seen = unseen

/-- A unit is checked with a clear array and leaves one. -/
theorem accepts_unit (hn : n ≤ maxN) {m : Seen → Option Seen}
    (hm : ∀ seen, m seen = vs.foldlM (checkCell n) seen) :
    Accepts Clear (fun seen => do let _ ← m seen; return unseen) (UnitValid n vs) := by
  refine ⟨?_, ?_⟩
  · rintro _ rfl
    rw [hm, ← foldlM_unseen hn]
    cases vs.foldlM (checkCell n) unseen <;> simp
  · rintro _ seen' rfl heq
    obtain ⟨_, -, hret⟩ := Option.bind_eq_some_iff.mp heq
    exact (Option.some.inj hret).symm

theorem accepts_checkRows (hn : n ≤ maxN) (board : List Int) :
    Accepts Clear (checkRows board n)
      (∀ u ∈ List.range n, UnitValid n (unitCells board n fun i => u * n + i)) :=
  .foldlM _ fun _ _ => accepts_unit hn fun _ => List.foldlM_map.symm

theorem accepts_checkCols (hn : n ≤ maxN) (board : List Int) :
    Accepts Clear (checkCols board n)
      (∀ u ∈ List.range n, UnitValid n (unitCells board n fun i => i * n + u)) :=
  .foldlM _ fun _ _ => accepts_unit hn fun _ => List.foldlM_map.symm

/-- The box in row `i` and column `j` of boxes is box `i * b + j`, and its cell in row `k` and
column `l` is cell `k * b + l`. -/
theorem boxCells_eq {i j : Nat} (hj : j < b) :
    boxCells board (b * b) b (i * b + j) = (List.range b).flatMap fun k =>
      (List.range b).map fun l => cell board ((k + i * b) * (b * b) + j * b + l) := by
  have hb : 0 < b := Nat.zero_lt_of_lt hj
  rw [boxCells, unitCells, Grid.range_mul, List.map_flatMap]
  refine List.flatMap_congr fun k _ => ?_
  rw [List.map_map]
  refine List.map_congr_left fun l hl => ?_
  have hl := List.mem_range.mp hl
  rw [Function.comp_apply, Nat.mul_add_mod_of_lt hj, Nat.mul_add_mod_of_lt hl,
    Nat.mul_comm i b, Nat.mul_add_div hb, Nat.div_eq_of_lt hj, Nat.mul_comm k b,
    Nat.mul_add_div hb, Nat.div_eq_of_lt hl, Nat.add_zero, Nat.add_zero, Nat.mul_comm b i,
    Nat.add_comm k]

theorem accepts_checkBoxes (hn : n ≤ maxN) (hb : b * b = n) (board : List Int) :
    Accepts Clear (checkBoxes board n b)
      (∀ u ∈ List.range n, UnitValid n (boxCells board n b u)) := by
  subst hb
  have hloops : Accepts Clear (checkBoxes board (b * b) b)
      (∀ i ∈ List.range b, ∀ j ∈ List.range b,
        UnitValid (b * b) (boxCells board (b * b) b (i * b + j))) := by
    refine .foldlM _ fun i _ => .foldlM _ fun j hj => accepts_unit hn fun seen => ?_
    rw [boxCells_eq (List.mem_range.mp hj), foldlM_flatMap]
    simp only [List.foldlM_map]
  refine hloops.congr ?_
  rw [Grid.range_mul]
  simp only [List.forall_mem_flatMap, List.forall_mem_map]

theorem accepts_v0 (hn : n ≤ maxN) (hb : b * b = n) (board : List Int) :
    Accepts Clear (fun seen => do
      let seen ← checkRows board n seen
      let seen ← checkCols board n seen
      checkBoxes board n b seen) (UnitsValid board n b) := by
  refine Accepts.congr ((accepts_checkRows hn board).bind
    ((accepts_checkCols hn board).bind (accepts_checkBoxes hn hb board))) ?_
  exact ⟨fun ⟨hrows, hcols, hboxes⟩ => ⟨hrows, hcols, hboxes⟩,
    fun h => ⟨h.rows, h.cols, h.boxes⟩⟩

/-! ## `sudoku_valid` -/

/-- A gatherer copies the cells of its unit. -/
theorem getElem?_gather (board : List Int) (index : Nat → Nat) (out : Vals) (hn : n ≤ maxN)
    {i : Nat} (hi : i < n) : (gather board n index out)[i]?.getD 0 = cell board (index i) := by
  induction n with
  | zero => exact absurd hi (Nat.not_lt_zero i)
  | succ n ih =>
      rw [gather, List.range_succ, List.foldl_append, List.foldl_cons, List.foldl_nil]
      by_cases heq : n = i
      · subst heq
        rw [Vector.getElem?_setIfInBounds_self_of_lt hn]
        rfl
      · rw [Vector.getElem?_setIfInBounds_ne heq]
        exact ih (by omega) (by omega)

theorem unitOk_gather (board : List Int) (index : Nat → Nat) (out : Vals) (hn : n ≤ maxN) :
    unitOk (gather board n index out) n ↔ UnitValid n (unitCells board n index) := by
  have hcells : unitCells board n index =
      (List.range n).map fun i => (gather board n index out)[i]?.getD 0 :=
    List.map_congr_left fun i hi =>
      (getElem?_gather board index out hn (List.mem_range.mp hi)).symm
  rw [← foldlM_unseen hn, hcells, List.foldlM_map]
  rfl

/-- The loop over one kind of unit, whatever is in `vals`. -/
theorem accepts_kind {g : List Int → Nat → Nat → Nat → Vals → Vals} {k : Nat} {p : Nat → Prop}
    (h : ∀ j < k, ∀ vals, unitOk (g board n b j vals) n ↔ p j) :
    Accepts (fun _ => True) (fun vals => (List.range k).foldlM (fun vals j =>
      let vals := g board n b j vals
      if unitOk vals n then some vals else none) vals) (∀ j ∈ List.range k, p j) := by
  refine .foldlM _ fun j hj => ⟨fun vals _ => ?_, fun _ _ _ _ => trivial⟩
  rw [← h j (List.mem_range.mp hj) vals]
  simp only
  split <;> simp [*]

/-- The diagonal whose cells are in column `col i` of row `i`. -/
def diagonal (board : List Int) (n : Nat) (col : Nat → Nat) : List Int :=
  unitCells board n fun i => i * n + col i

theorem accepts_kinds (hn : n ≤ maxN) (board : List Int) :
    Accepts (fun _ => True) (fun vals => (kinds n).foldlM (fun vals kind =>
      (List.range kind.n).foldlM (fun vals j =>
        let vals := kind.g board n b j vals
        if unitOk vals n then some vals else none) vals) vals)
      (UnitsValid board n b ∧ UnitValid n (diagonal board n id) ∧
        UnitValid n (diagonal board n fun i => n - 1 - i)) := by
  have hrow : ∀ j < n, ∀ vals, unitOk (rowGatherer board n b j vals) n ↔
      UnitValid n (unitCells board n fun i => j * n + i) := fun _ _ vals =>
    unitOk_gather board _ vals hn
  have hcol : ∀ j < n, ∀ vals, unitOk (colGatherer board n b j vals) n ↔
      UnitValid n (unitCells board n fun i => i * n + j) := fun _ _ vals =>
    unitOk_gather board _ vals hn
  have hsqr : ∀ j < n, ∀ vals, unitOk (sqrGatherer board n b j vals) n ↔
      UnitValid n (boxCells board n b j) := fun _ _ vals =>
    unitOk_gather board _ vals hn
  have hanti : diagonal board n (fun i => n - 1 - i) =
      unitCells board n fun i => i * n + n - 1 - i := by
    refine List.map_congr_left fun i hi => ?_
    have hi := List.mem_range.mp hi
    show cell board (i * n + (n - 1 - i)) = cell board (i * n + n - 1 - i)
    congr 1
    omega
  have hdiag : ∀ j < 2, ∀ vals, unitOk (diagGatherer board n b j vals) n ↔
      UnitValid n (diagonal board n (if j = 0 then id else fun i => n - 1 - i)) := by
    intro j hj vals
    match j, hj with
    | 0, _ => exact unitOk_gather board _ vals hn
    | 1, _ =>
        rw [if_neg Nat.one_ne_zero, hanti]
        exact unitOk_gather board _ vals hn
  simp only [kinds, List.foldlM_cons, List.foldlM_nil, bind_pure]
  refine Accepts.congr ((accepts_kind hrow).bind ((accepts_kind hcol).bind
    ((accepts_kind hsqr).bind (accepts_kind hdiag)))) ?_
  constructor
  · rintro ⟨hrows, hcols, hboxes, hdiags⟩
    exact ⟨⟨hrows, hcols, hboxes⟩, hdiags 0 (by decide), hdiags 1 (by decide)⟩
  · rintro ⟨h, hmain, hanti⟩
    refine ⟨h.rows, h.cols, h.boxes, fun j hj => ?_⟩
    split
    · exact hmain
    · exact hanti

/-! ## The two agree -/

/-- The guard, once it is passed. -/
theorem size_of_not_badSize {n box : Int} (h : ¬ badSize n box) :
    n.toNat ≤ maxN ∧ box.toNat * box.toNat = n.toNat := by
  simp only [badSize, not_or, not_lt, not_le, not_not] at h
  obtain ⟨h0, hmax, hbox, -, hsq⟩ := h
  refine ⟨by omega, ?_⟩
  rw [← hsq, Int.toNat_mul hbox.le hbox.le]

/-- The cells of a diagonal are cells of the rows, so they are in range. -/
theorem UnitsValid.diagonal_iff (h : UnitsValid board n b) {col : Nat → Nat}
    (hcol : ∀ i < n, col i < n) :
    UnitValid n (diagonal board n col) ↔ NoRepeat (diagonal board n col) := by
  refine ⟨fun hunit => hunit.noRepeat, fun hrep => ⟨fun v hv => ?_, hrep⟩⟩
  obtain ⟨i, hi, rfl⟩ := List.mem_map.mp hv
  exact (h.rows i hi).inRange _
    (List.mem_map.mpr ⟨col i, List.mem_range.mpr (hcol i (List.mem_range.mp hi)), rfl⟩)

/-- `sudoku_valid` accepts the boards that `sudoku_valid_v0` accepts and whose diagonals have
no value but zero twice. -/
theorem validators_agree (vals : Vals) (board : List Int) (n box : Int) :
    sudokuValid vals board n box = true ↔
      sudokuValidV0 board n box = true ∧ NoRepeat (diagonal board n.toNat id) ∧
        NoRepeat (diagonal board n.toNat fun i => n.toNat - 1 - i) := by
  by_cases hbad : badSize n box
  · simp [sudokuValid, sudokuValidV0, hbad]
  · obtain ⟨hn, hb⟩ := size_of_not_badSize hbad
    rw [sudokuValid, if_neg hbad, sudokuValidV0, if_neg hbad,
      (accepts_kinds hn board).isSome vals trivial, (accepts_v0 hn hb board).isSome unseen rfl]
    refine and_congr_right fun h => and_congr ?_ ?_
    · exact h.diagonal_iff fun _ hi => hi
    · exact h.diagonal_iff fun i _ => by omega

-- A board of the tests, of which only a diagonal is bad.
example :
    let board := [1, 3, 2, 4, 2, 0, 1, 3, 3, 0, 4, 2, 0, 2, 3, 1]
    sudokuValidV0 board 4 2 = true ∧ sudokuValid (Vector.replicate maxN 7) board 4 2 = false := by
  decide +kernel

end Sudoku
