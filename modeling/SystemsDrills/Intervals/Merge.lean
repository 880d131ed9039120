import SystemsDrills.Lib.Sweep

/-!
# Merging intervals, in C and in C++

`merge` of `Interview/leetcode/14-merge-intervals.c` and `mergeIntervals` of
`Interview/leetcode/07-merge-intervals.cpp`.  Ends are only compared, so they are integers
of any size.

The C code sorts by the start alone and writes the joined intervals into a block, with a
pointer to the last one.  `qsort` is a parameter: all that is known of it is that its
result is sorted.  The C++ code sorts pairs and keeps the last interval twice, in the
vector and in two variables.  Both are the sweep of `Lib.Sweep`.
-/

namespace Intervals

open Sweep

/-! ## The C code -/

/-- `struct Interval`. -/
structure Interval where
  start : Int
  end_ : Int
deriving DecidableEq, Repr

def Interval.pair (x : Interval) : Int × Int := (x.start, x.end_)

/-- `cmp`. -/
def cmp (x y : Interval) : Int :=
  (if x.start > y.start then 1 else 0) - (if x.start < y.start then 1 else 0)

/-- The block that `merge` fills and the index that `ptr` points to. -/
structure Block where
  head : List Interval
  ptr : Nat

namespace Block

/-- `*ptr`. -/
def cur (o : Block) : Interval := o.head[o.ptr]?.getD ⟨0, 0⟩

/-- `*ptr = x`. -/
def store (o : Block) (x : Interval) : Block := { o with head := o.head.set o.ptr x }

/-- The body of the loop, for `iv[i]`. -/
def next (o : Block) (x : Interval) : Block :=
  if x.start ≤ o.cur.end_ then
    if x.end_ < o.cur.end_ then o else o.store { o.cur with end_ := x.end_ }
  else
    store { o with ptr := o.ptr + 1 } x

end Block

/-- `merge`: the pointer that is returned, and `*out_n` if it was written. -/
def merge (qsort : (Interval → Interval → Int) → List Interval → List Interval)
    (malloc : Nat → Option (List Interval)) (iv : List Interval) :
    Option (List Interval) × Option Nat :=
  if iv.length = 0 then
    (none, some 0)
  else
    match qsort cmp iv, malloc iv.length with
    | x :: rest, some block =>
      let o := rest.foldl Block.next (Block.store ⟨block, 0⟩ x)
      (some o.head, some (o.ptr + 1))
    -- `malloc` failed.
    | _, _ => (none, none)

/-! ## The C++ code -/

/-- The order of `std::pair<int, int>`. -/
def pairLe (x y : Int × Int) : Bool := x.1 < y.1 || (x.1 == y.1 && x.2 ≤ y.2)

/-- The vector `res` and the variables of the loop. -/
structure Loop where
  res : List (Int × Int)
  start : Int
  end_ : Int

/-- The body of the loop. -/
def Loop.next (s : Loop) (x : Int × Int) : Loop :=
  if x.1 ≤ s.end_ then
    let e := max s.end_ x.2
    { s with res := s.res.dropLast ++ [(s.start, e)], end_ := e }
  else
    { res := s.res ++ [(x.1, x.2)], start := x.1, end_ := x.2 }

/-- `mergeIntervals`. -/
def mergeIntervals (intervals : List (Int × Int)) : List (Int × Int) :=
  match intervals.mergeSort pairLe with
  | [] => []
  | x :: rest => (rest.foldl Loop.next ⟨[x], x.1, x.2⟩).res

/-! ## Both are sweeps -/

/-- The block holds the intervals of the sweep. -/
structure Block.Holds (o : Block) (closed : List (Int × Int)) (cur : Int × Int) : Prop where
  closed : (o.head.take o.ptr).map Interval.pair = closed
  cur : o.head[o.ptr]?.map Interval.pair = some cur

namespace Block

variable {o : Block} {closed : List (Int × Int)} {cur : Int × Int}

theorem Holds.take (h : o.Holds closed cur) :
    (o.head.take (o.ptr + 1)).map Interval.pair = closed ++ [cur] := by
  obtain ⟨x, hx, rfl⟩ := Option.map_eq_some_iff.mp h.cur
  rw [List.take_add_one, List.map_append, h.closed, hx]
  rfl

theorem Holds.lt (h : o.Holds closed cur) : o.ptr < o.head.length := by
  obtain ⟨x, hx, -⟩ := Option.map_eq_some_iff.mp h.cur
  exact (List.getElem?_eq_some_iff.mp hx).1

theorem Holds.cur_pair (h : o.Holds closed cur) : o.cur.pair = cur := by
  obtain ⟨x, hx, rfl⟩ := Option.map_eq_some_iff.mp h.cur
  rw [Block.cur, hx]
  rfl

theorem holds_store (hlt : o.ptr < o.head.length) (x : Interval)
    (hclosed : (o.head.take o.ptr).map Interval.pair = closed) : (o.store x).Holds closed x.pair := by
  refine ⟨?_, ?_⟩
  · show ((o.head.set o.ptr x).take o.ptr).map _ = _
    rw [List.take_set_of_le (le_refl _), hclosed]
  · show (o.head.set o.ptr x)[o.ptr]?.map _ = _
    rw [List.getElem?_set_self hlt]
    rfl

/-- One round of the loop, when the block has room. -/
theorem Holds.next (h : o.Holds closed cur) (hroom : o.ptr + 1 < o.head.length) (x : Interval) :
    ∃ closed' cur', step (some (closed, cur)) x.pair = some (closed', cur') ∧
      (o.next x).Holds closed' cur' := by
  have hcur := h.cur_pair
  subst hcur
  rw [Block.next, step]
  split
  · rename_i hjoin
    rw [if_pos (show x.start ≤ o.cur.end_ from hjoin)]
    split
    · rename_i hlt
      refine ⟨_, _, rfl, ?_⟩
      rw [max_eq_left (show x.pair.2 ≤ o.cur.pair.2 from hlt.le)]
      exact h
    · rename_i hge
      refine ⟨_, _, rfl, ?_⟩
      rw [max_eq_right (show o.cur.pair.2 ≤ x.pair.2 from not_lt.mp hge)]
      exact holds_store h.lt _ h.closed
  · rename_i hjoin
    rw [if_neg (show ¬ x.start ≤ o.cur.end_ from hjoin)]
    exact ⟨_, _, rfl, holds_store hroom x h.take⟩

theorem length_next (o : Block) (x : Interval) : (o.next x).head.length = o.head.length := by
  rw [next]
  split
  · split
    · rfl
    · simp [store]
  · simp [store]

theorem ptr_next_le (o : Block) (x : Interval) : (o.next x).ptr ≤ o.ptr + 1 := by
  rw [next]
  split
  · split
    · exact Nat.le_succ _
    · exact Nat.le_succ _
  · exact le_rfl

/-- The whole loop. -/
theorem Holds.foldl (h : o.Holds closed cur) (iv : List Interval)
    (hroom : o.ptr + iv.length < o.head.length) :
    ∃ closed' cur',
      (iv.map Interval.pair).foldl step (some (closed, cur)) = some (closed', cur') ∧
      (iv.foldl Block.next o).Holds closed' cur' := by
  induction iv generalizing o closed cur with
  | nil => exact ⟨closed, cur, rfl, h⟩
  | cons x iv ih =>
      rw [List.length_cons] at hroom
      obtain ⟨closed', cur', hstep, hnext⟩ := h.next (by omega) x
      have hlen := o.length_next x
      have hptr := o.ptr_next_le x
      rw [List.map_cons, List.foldl_cons, List.foldl_cons, hstep]
      exact ih hnext (by omega)

end Block

/-- The vector holds the intervals of the sweep, and the variables the last one. -/
structure Loop.Holds (s : Loop) (closed : List (Int × Int)) (cur : Int × Int) : Prop where
  res : s.res = closed ++ [cur]
  last : (s.start, s.end_) = cur

theorem Loop.Holds.foldl {s : Loop} {closed : List (Int × Int)} {cur : Int × Int}
    (h : s.Holds closed cur) (iv : List (Int × Int)) :
    ∃ closed' cur', iv.foldl step (some (closed, cur)) = some (closed', cur') ∧
      (iv.foldl Loop.next s).Holds closed' cur' := by
  induction iv generalizing s closed cur with
  | nil => exact ⟨closed, cur, rfl, h⟩
  | cons x iv ih =>
      obtain ⟨hres, rfl⟩ := h
      rw [List.foldl_cons, List.foldl_cons, step, Loop.next]
      split
      · refine ih ⟨?_, rfl⟩
        rw [hres, List.dropLast_concat]
      · refine ih ⟨?_, rfl⟩
        rw [hres]

theorem mergeIntervals_eq (iv : List (Int × Int)) :
    mergeIntervals iv = sweep (iv.mergeSort pairLe) := by
  rw [mergeIntervals]
  cases iv.mergeSort pairLe with
  | nil => rfl
  | cons x rest =>
      have h0 : Loop.Holds ⟨[x], x.1, x.2⟩ [] x := ⟨rfl, rfl⟩
      obtain ⟨closed, cur, hfold, hholds⟩ := h0.foldl rest
      rw [sweep, List.foldl_cons]
      show _ = close (rest.foldl step (some ([], x)))
      rw [hfold]
      exact hholds.res

/-! ## Both agree -/

theorem cmp_le_zero {x y : Interval} : cmp x y ≤ 0 ↔ x.start ≤ y.start := by
  rw [cmp]
  split <;> split <;> omega

theorem pairLe_iff {x y : Int × Int} : pairLe x y = true ↔ x.1 < y.1 ∨ x.1 = y.1 ∧ x.2 ≤ y.2 := by
  simp [pairLe]

theorem mergeSort_pairwise (iv : List (Int × Int)) :
    (iv.mergeSort pairLe).Pairwise fun x y => x.1 ≤ y.1 := by
  have hsorted := @List.pairwise_mergeSort _ pairLe
    (fun x y z hxy hyz => by
      rw [pairLe_iff] at *
      omega)
    (fun x y => by
      rw [Bool.or_eq_true, pairLe_iff, pairLe_iff]
      omega) iv
  refine hsorted.imp fun h => ?_
  rw [pairLe_iff] at h
  omega

section

variable {qsort : (Interval → Interval → Int) → List Interval → List Interval}
  {malloc : Nat → Option (List Interval)}

/-- The order in which `qsort` leaves equal starts does not matter. -/
theorem sweep_qsort (hperm : ∀ l, (qsort cmp l).Perm l)
    (hsorted : ∀ l, (qsort cmp l).Pairwise fun x y => cmp x y ≤ 0)
    {iv : List Interval} (hproper : ∀ x ∈ iv, x.start ≤ x.end_) :
    sweep ((qsort cmp iv).map Interval.pair) = mergeIntervals (iv.map Interval.pair) := by
  rw [mergeIntervals_eq]
  refine sweep_eq_of_perm ?_ ?_ (mergeSort_pairwise _) ?_
  · exact ((hperm iv).map _).trans (List.mergeSort_perm _ _).symm
  · exact List.pairwise_map.mpr ((hsorted iv).imp fun h => cmp_le_zero.mp h)
  · intro x hx
    obtain ⟨y, hy, rfl⟩ := List.mem_map.mp hx
    exact hproper y ((hperm iv).subset hy)

/-- The block that the loop leaves. -/
theorem merge_eq {iv rest : List Interval} {x : Interval} {block : List Interval}
    (hq : qsort cmp iv = x :: rest) (hblock : malloc iv.length = some block)
    (hlen : block.length = rest.length + 1) (hne : iv ≠ []) :
    ∃ head out_n, merge qsort malloc iv = (some head, some out_n) ∧ out_n ≤ head.length ∧
      (head.take out_n).map Interval.pair = sweep ((x :: rest).map Interval.pair) := by
  have h0 : (Block.store ⟨block, 0⟩ x).Holds [] x.pair :=
    Block.holds_store (o := ⟨block, 0⟩) (by show 0 < block.length; omega) x rfl
  obtain ⟨closed, cur, hfold, hholds⟩ := h0.foldl rest (by
    show 0 + rest.length < (block.set 0 x).length
    rw [List.length_set]
    omega)
  refine ⟨_, _, ?_, hholds.lt, ?_⟩
  · rw [merge, if_neg (by simpa using hne), hq, hblock]
  · rw [hholds.take, sweep, List.map_cons, List.foldl_cons]
    show _ = close ((rest.map Interval.pair).foldl step (some ([], x.pair)))
    rw [hfold]
    rfl

/-- The two mergers agree.  For every list of proper intervals the block that `merge`
returns starts with the `*out_n` intervals of `mergeIntervals`, in whatever order `qsort`
left intervals with the same start.  For the empty list `merge` returns no block and
`*out_n` is 0. -/
theorem mergers_agree (hperm : ∀ l, (qsort cmp l).Perm l)
    (hsorted : ∀ l, (qsort cmp l).Pairwise fun x y => cmp x y ≤ 0)
    (hmalloc : ∀ n, ∃ block, malloc n = some block ∧ block.length = n)
    {iv : List Interval} (hproper : ∀ x ∈ iv, x.start ≤ x.end_) :
    ∃ res out_n, merge qsort malloc iv = (res, some out_n) ∧ (res = none ↔ iv = []) ∧
      out_n ≤ (res.getD []).length ∧
      ((res.getD []).take out_n).map Interval.pair = mergeIntervals (iv.map Interval.pair) := by
  rcases eq_or_ne iv [] with rfl | hne
  · exact ⟨none, 0, rfl, by simp, Nat.zero_le _, by simp [mergeIntervals]⟩
  · obtain ⟨block, hblock, hlen⟩ := hmalloc iv.length
    have hq := (hperm iv).length_eq
    cases hsort : qsort cmp iv with
    | nil =>
        rw [hsort] at hq
        exact absurd (List.length_eq_zero_iff.mp hq.symm) hne
    | cons x rest =>
        rw [hsort, List.length_cons] at hq
        obtain ⟨head, out_n, hmerge, hle, htake⟩ := merge_eq hsort hblock (by omega) hne
        refine ⟨some head, out_n, hmerge, by simp [hne], hle, ?_⟩
        rw [← sweep_qsort hperm hsorted hproper, hsort]
        exact htake

/-- Intervals with the same start, which `qsort` leaves in another order than `std::sort`. -/
theorem mergers_agree_ties :
    ∃ res out_n,
      merge (fun cmp l => l.mergeSort fun x y => decide (cmp x y ≤ 0))
        (fun n => some (List.replicate n ⟨0, 0⟩)) [⟨8, 9⟩, ⟨1, 5⟩, ⟨1, 3⟩] = (res, some out_n) ∧
      ((res.getD []).take out_n).map Interval.pair = mergeIntervals [(8, 9), (1, 5), (1, 3)] := by
  have hle : ∀ x y : Interval, decide (cmp x y ≤ 0) = true ↔ x.start ≤ y.start := by
    intro x y
    rw [decide_eq_true_iff, cmp_le_zero]
  obtain ⟨res, out_n, hmerge, -, -, hout⟩ := @mergers_agree
    (fun cmp l => l.mergeSort fun x y => decide (cmp x y ≤ 0))
    (fun n => some (List.replicate n ⟨0, 0⟩))
    (fun l => List.mergeSort_perm l _)
    (fun l => (List.pairwise_mergeSort
      (fun x y z hxy hyz => by
        rw [hle] at *
        omega)
      (fun x y => by
        rw [Bool.or_eq_true, hle, hle]
        omega) l).imp fun h => of_decide_eq_true h)
    (fun n => ⟨_, rfl, List.length_replicate⟩)
    [⟨8, 9⟩, ⟨1, 5⟩, ⟨1, 3⟩] (by decide)
  exact ⟨res, out_n, hmerge, hout⟩

end

end Intervals
