import SystemsDrills.Lib.Cells
import SystemsDrills.Lib.Checks
import SystemsDrills.Lib.Flood
import SystemsDrills.Lib.Layers

/-!
# Rotting oranges

`orangesRotting` of `Interview/leetcode/04-rotting-oranges.c`.  A cell is empty (0), fresh (1) or
rotten (2), and each minute the fresh cells beside a rotten one rot.  The cells that rotted in the
last minute wait in one of two queues, and those that rot now are added to the other one.  The
queues change their roles each minute and are never reset.

The entries that were added to a queue are a list, so `head` is its length, and there is no result
if an entry is added behind the end of `buff`.  Both loops have fuel.
-/

namespace Oranges

open Cells Flood Layers

/-! ## The code -/

variable {m n : Nat}

/-- `grid`, which is rectangular. -/
abbrev Grid (m n : Nat) := Cell m n → Int

/-- `struct Queue`. -/
structure Queue (m n : Nat) where
  buff : List (Cell m n)
  tail : Nat

/-- `dir_x`. -/
def dirX : Fin 4 → Int := ![-1, 0, 1, 0]

/-- `dir_y`. -/
def dirY : Fin 4 → Int := ![0, 1, 0, -1]

/-- `queue_add`. -/
def queueAdd (q : Queue m n) (c : Cell m n) : Option (Queue m n) :=
  if q.buff.length < 100 then some { q with buff := q.buff ++ [c] } else none

/-- `q->head != q->tail`. -/
def waiting (q : Queue m n) : Bool := q.buff.length != q.tail

/-- The grid and the variables. -/
structure State (m n : Nat) where
  grid : Grid m n
  fresh : Int
  curr : Queue m n
  next : Queue m n
  minutes : Nat

/-- The loops that count the fresh cells and collect the rotten ones. -/
def start (s : State m n) (c : Cell m n) : Option (State m n) :=
  if s.grid c = 1 then
    some { s with fresh := s.fresh + 1 }
  else if s.grid c = 2 then do
    let next ← queueAdd s.next c
    return { s with next }
  else
    some s

/-- The neighbour in direction `k`, unless it is outside of the grid. -/
def nextCell (this : Cell m n) (k : Fin 4) : Option (Cell m n) := shift this (dirX k) (dirY k)

/-- The body of the loop over the directions. -/
def look (this : Cell m n) (s : State m n) (k : Fin 4) : Option (State m n) :=
  match nextCell this k with
  | none => some s
  | some c =>
      if s.grid c = 1 then do
        let next ← queueAdd s.next c
        return { s with fresh := s.fresh - 1, next, grid := Function.update s.grid c 2 }
      else
        some s

/-- The loop over the cells that wait in `curr`. -/
def minute : Nat → State m n → Option (State m n)
  | 0, _ => none
  | fuel + 1, s =>
    if waiting s.curr then do
      let this ← s.curr.buff[s.curr.tail]?
      let s ← (List.finRange 4).foldlM (look this)
        { s with curr := { s.curr with tail := s.curr.tail + 1 } }
      minute fuel s
    else
      some s

/-- The loop over the minutes. -/
def rot (inner : Nat) : Nat → State m n → Option (State m n)
  | 0, _ => none
  | fuel + 1, s =>
    if waiting s.next ∧ s.fresh ≠ 0 then do
      let s ← minute inner { s with minutes := s.minutes + 1, curr := s.next, next := s.curr }
      rot inner fuel s
    else
      some s

/-- `orangesRotting`: what it returns, and the grid after it. -/
def orangesRotting (inner fuel : Nat) (grid : Grid m n) : Option (Int × Grid m n) := do
  let s ← (List.finRange m).foldlM (fun s i =>
    (List.finRange n).foldlM (fun s j => start s (i, j)) s) ⟨grid, 0, ⟨[], 0⟩, ⟨[], 0⟩, 0⟩
  let s ← rot inner fuel s
  return (if s.fresh ≠ 0 then -1 else s.minutes, s.grid)

/-! ## The queues -/

variable {grid g : Grid m n} {s : State m n} {q : Queue m n} {c d : Cell m n} {fuel : Nat}

/-- The cells that are looked at from a cell. -/
def neighbours (c : Cell m n) : List (Cell m n) := (List.finRange 4).filterMap (nextCell c)

theorem mem_neighbours : d ∈ neighbours c ↔ Adjacent c d := mem_around

/-- The number of fresh cells. -/
def freshCount (g : Grid m n) : Nat := (all m n).countP fun c => g c = 1

theorem freshCount_update (hc : g c = 1) :
    freshCount (Function.update g c 2) + 1 = freshCount g :=
  countP_update (p := fun v : Int => decide (v = 1)) (nodup_all m n) (mem_all c) (by simpa using hc)
    (by decide)

/-- The entries of a queue are different cells, which are rotten. -/
def Rotten (g : Grid m n) (q : Queue m n) : Prop := Recorded 2 g q.buff

/-- The queues and the counter fit the grid. -/
structure Fits (s : State m n) : Prop where
  curr : Rotten s.grid s.curr
  next : Rotten s.grid s.next
  fresh : s.fresh = freshCount s.grid

/-! ## One minute -/

/-- The cell is fresh. -/
def Fresh (v : Int) : Prop := v = 1

theorem not_fresh : ¬ Fresh 2 := by simp [Fresh]

/-- The state after some cells have rotted. -/
def State.rotted (s : State m n) (g : Grid m n) (new : List (Cell m n)) : State m n :=
  { s with grid := g, fresh := freshCount g, next := { s.next with buff := s.next.buff ++ new } }

theorem Fits.rotted_nil (h : Fits s) : s.rotted s.grid [] = s := by
  rw [State.rotted, ← h.fresh, List.append_nil]

/-- A fresh cell rots. -/
theorem Fits.hit (hsize : m * n ≤ 100) (h : Fits s) (hc : s.grid c = 1) :
    queueAdd s.next c = some { s.next with buff := s.next.buff ++ [c] } ∧
      { s with
        fresh := s.fresh - 1
        next := { s.next with buff := s.next.buff ++ [c] }
        grid := Function.update s.grid c 2 } = s.rotted (Function.update s.grid c 2) [c] ∧
      Fits (s.rotted (Function.update s.grid c 2) [c]) := by
  have hne : s.grid c ≠ 2 := by
    rw [hc]
    decide
  obtain ⟨hlt, hnext⟩ := Recorded.put h.next hne
  have hcount := freshCount_update hc
  refine ⟨if_pos (hlt.trans_le hsize), ?_, Recorded.update h.curr c, hnext, rfl⟩
  rw [State.rotted, h.fresh, ← hcount]
  congr 1
  push_cast
  omega

/-- The loop over the directions. -/
theorem foldlM_look (hsize : m * n ≤ 100) (h : Fits s) (this : Cell m n) (ks : List (Fin 4)) :
    ∃ g new, ks.foldlM (look this) s = some (s.rotted g new) ∧ Fits (s.rotted g new) ∧
      Marks Fresh 2 s.grid (ks.filterMap (nextCell this)) g new := by
  induction ks generalizing s with
  | nil =>
      refine ⟨s.grid, [], ?_, h.rotted_nil.symm ▸ h, Marks.nil _⟩
      rw [h.rotted_nil]
      rfl
  | cons k ks ih =>
      rw [List.foldlM_cons, look]
      cases hk : nextCell this k with
      | none =>
          rw [List.filterMap_cons_none hk]
          exact ih h
      | some c =>
          rw [List.filterMap_cons_some hk]
          by_cases hc : s.grid c = 1
          · obtain ⟨hadd, hstate, hfits⟩ := h.hit hsize hc
            obtain ⟨g, new, hrun, hfits, hmarks⟩ := ih hfits
            have hhit : Marks Fresh 2 s.grid [c] (Function.update s.grid c 2) [c] := Marks.hit hc
            have hrotted : (s.rotted (Function.update s.grid c 2) [c]).rotted g new =
                s.rotted g (c :: new) := by
              simp [State.rotted]
            rw [hrotted] at hrun hfits
            refine ⟨g, c :: new, ?_, hfits, hhit.append not_fresh hmarks⟩
            simp only [hc, if_true, hadd, Option.bind_eq_bind, Option.bind_some]
            rw [← hrun, ← hstate]
            rfl
          · obtain ⟨g, new, hrun, hfits, hmarks⟩ := ih h
            have hmiss : Marks Fresh 2 s.grid [c] s.grid [] := Marks.miss hc
            refine ⟨g, new, ?_, hfits, hmiss.append not_fresh hmarks⟩
            simp only [hc, if_false]
            exact hrun

/-- A minute looks at the neighbours of the cells that wait. -/
theorem minute_spec (hsize : m * n ≤ 100) (h : Fits s) {done pending : List (Cell m n)}
    (hcurr : s.curr = ⟨done ++ pending, done.length⟩) (hfuel : pending.length < fuel) :
    ∃ g new, minute fuel s = some { s.rotted g new with
        curr := ⟨done ++ pending, (done ++ pending).length⟩ } ∧
      Fits { s.rotted g new with curr := ⟨done ++ pending, (done ++ pending).length⟩ } ∧
      Marks Fresh 2 s.grid (pending.flatMap neighbours) g new := by
  induction pending generalizing s done fuel with
  | nil =>
      obtain ⟨fuel, rfl⟩ := Nat.exists_eq_succ_of_ne_zero (Nat.ne_of_gt hfuel)
      have hidle : waiting s.curr = false := by simp [waiting, hcurr]
      have hsame : { s.rotted s.grid [] with curr := ⟨done ++ [], (done ++ []).length⟩ } = s := by
        rw [h.rotted_nil, List.append_nil]
        rw [List.append_nil] at hcurr
        rw [← hcurr]
      refine ⟨s.grid, [], ?_, hsame.symm ▸ h, Marks.nil _⟩
      rw [hsame, minute, hidle]
      rfl
  | cons this rest ih =>
      obtain ⟨fuel, rfl⟩ := Nat.exists_eq_succ_of_ne_zero (Nat.ne_of_gt (Nat.zero_lt_of_lt hfuel))
      have hbusy : waiting s.curr = true := by simp [waiting, hcurr]
      have hget : s.curr.buff[s.curr.tail]? = some this := by
        rw [hcurr, List.getElem?_append_right le_rfl]
        simp
      have h₁ : Fits { s with curr := { s.curr with tail := s.curr.tail + 1 } } :=
        ⟨h.curr, h.next, h.fresh⟩
      obtain ⟨g₁, new₁, hlook, hfits₁, hmarks₁⟩ := foldlM_look hsize h₁ this (List.finRange 4)
      have hassoc : done ++ this :: rest = done ++ [this] ++ rest := by simp
      have hcurr₁ :
          ({ s with curr := { s.curr with tail := s.curr.tail + 1 } }.rotted g₁ new₁).curr =
            ⟨done ++ [this] ++ rest, (done ++ [this]).length⟩ := by
        simp [State.rotted, hcurr]
      obtain ⟨g, new, hrun, hfits, hmarks⟩ := ih hfits₁ hcurr₁ (Nat.lt_of_succ_lt_succ hfuel)
      rw [← hassoc] at hrun hfits
      have hstate : { ({ s with curr := { s.curr with tail := s.curr.tail + 1 } }.rotted
            g₁ new₁).rotted g new with
          curr := ⟨done ++ this :: rest, (done ++ this :: rest).length⟩ } =
          { s.rotted g (new₁ ++ new) with
            curr := ⟨done ++ this :: rest, (done ++ this :: rest).length⟩ } := by
        simp [State.rotted]
      rw [hstate] at hrun hfits
      refine ⟨g, new₁ ++ new, ?_, hfits, ?_⟩
      · rw [minute, if_pos hbusy, hget, Option.bind_eq_bind, Option.bind_some, hlook]
        exact hrun
      · rw [List.flatMap_cons]
        exact hmarks₁.append not_fresh hmarks

/-! ## The minutes -/

/-- There is a path of this length from the cell to a cell that is rotten at first, through cells
that are not empty. -/
def PathTo (grid : Grid m n) : Nat → Cell m n → Prop :=
  Walk (fun c => grid c = 2) (fun c => grid c ≠ 0) Adjacent

/-- The shortest such path has this length. -/
def Minute (grid : Grid m n) : Nat → Cell m n → Prop :=
  Layer (fun c => grid c = 2) (fun c => grid c ≠ 0) Adjacent

/-- The cells have the three values. -/
def Values (grid : Grid m n) : Prop := ∀ c, grid c = 0 ∨ grid c = 1 ∨ grid c = 2

variable {t : Nat} {done pending : List (Cell m n)}

theorem pathTo_of_rotten (h : grid c = 2) : PathTo grid 0 c := Walk.source h

/-- Paths go through cells that are not empty. -/
theorem ne_zero_of_pathTo {k : Nat} (h : PathTo grid k c) : grid c ≠ 0 := by
  cases h with
  | source hrotten =>
      rw [hrotten]
      decide
  | step hne _ _ => exact hne

/-- After `t` minutes the cells within distance `t` are rotten, and those at distance `t` wait. -/
structure Spread (grid : Grid m n) (t : Nat) (s : State m n) (done pending : List (Cell m n)) :
    Prop extends Fits s where
  minutes : s.minutes = t
  idle : s.curr.tail = s.curr.buff.length
  next_eq : s.next = ⟨done ++ pending, done.length⟩
  pending_iff : ∀ c, c ∈ pending ↔ Minute grid t c
  left : ∀ c, (∀ k ≤ t, ¬ PathTo grid k c) → s.grid c = grid c
  rotted : ∀ c, ∀ k ≤ t, PathTo grid k c → s.grid c = 2
  late : 0 < t → ∃ c, grid c = 1 ∧ ∀ k < t, ¬ PathTo grid k c
  le : t ≤ m * n

/-- The cells that are still fresh are those further away. -/
theorem Spread.fresh_iff (h : Spread grid t s done pending) (c : Cell m n) :
    s.grid c = 1 ↔ grid c = 1 ∧ ∀ k ≤ t, ¬ PathTo grid k c := by
  constructor
  · intro hc
    have hfar : ∀ k ≤ t, ¬ PathTo grid k c := by
      intro k hk hpath
      rw [h.rotted c k hk hpath] at hc
      exact absurd hc (by decide)
    exact ⟨h.left c hfar ▸ hc, hfar⟩
  · rintro ⟨hc, hfar⟩
    rw [h.left c hfar, hc]

/-- The next layer is what rots in the next minute. -/
theorem Spread.minute_iff (hvals : Values grid) (h : Spread grid t s done pending) (c : Cell m n) :
    Minute grid (t + 1) c ↔ c ∈ pending.flatMap neighbours ∧ s.grid c = 1 := by
  rw [Minute, layer_succ_iff, h.fresh_iff, List.mem_flatMap]
  constructor
  · rintro ⟨hne, hfar, w, hadj, hw⟩
    refine ⟨⟨w, (h.pending_iff w).mpr hw, mem_neighbours.mpr hadj.symm⟩, ?_, hfar⟩
    rcases hvals c with h0 | h1 | h2
    · exact absurd h0 hne
    · exact h1
    · exact absurd (pathTo_of_rotten h2) (hfar 0 (Nat.zero_le t))
  · rintro ⟨⟨w, hw, hadj⟩, hc, hfar⟩
    refine ⟨?_, hfar, w, (mem_neighbours.mp hadj).symm, (h.pending_iff w).mp hw⟩
    rw [hc]
    decide

theorem Fits.exists_fresh_iff (h : Fits s) : s.fresh ≠ 0 ↔ ∃ c, s.grid c = 1 := by
  have hcount : freshCount s.grid ≠ 0 ↔ ∃ c, s.grid c = 1 := by
    rw [freshCount, ← Nat.pos_iff_ne_zero, List.countP_pos_iff]
    simp [mem_all]
  rw [h.fresh, ← hcount]
  exact Int.natCast_ne_zero

/-- One minute, while some cells wait and some are fresh. -/
theorem Spread.step (hsize : m * n ≤ 100) (hvals : Values grid) (h : Spread grid t s done pending)
    (hpending : pending ≠ []) (hfresh : s.fresh ≠ 0) {inner : Nat} (hinner : 100 < inner) :
    ∃ s' new, minute inner { s with minutes := s.minutes + 1, curr := s.next, next := s.curr } =
        some s' ∧ Spread grid (t + 1) s' s.curr.buff new := by
  have hfits : Fits { s with minutes := s.minutes + 1, curr := s.next, next := s.curr } :=
    ⟨h.next, h.curr, h.fresh⟩
  have hlen : pending.length < inner := by
    have hnodup := h.next.nodup
    rw [h.next_eq] at hnodup
    have hle := length_le hnodup
    rw [List.length_append] at hle
    omega
  obtain ⟨g, new, hrun, hfits', hmarks⟩ := minute_spec hsize hfits h.next_eq hlen
  have hnew : ∀ c, c ∈ new ↔ Minute grid (t + 1) c := fun c =>
    (hmarks.mem_iff c).trans (h.minute_iff hvals c).symm
  refine ⟨_, new, hrun, hfits', congrArg (· + 1) h.minutes, ?_, ?_, hnew, fun c hfar => ?_,
    fun c k hk hpath => ?_, fun _ => ?_, ?_⟩
  · rfl
  · show (⟨s.curr.buff ++ new, s.curr.tail⟩ : Queue m n) = _
    rw [h.idle]
  · have hout : c ∉ new := fun hin => hfar (t + 1) le_rfl ((hnew c).mp hin).1
    show g c = grid c
    rw [hmarks.kept c hout]
    exact h.left c fun k hk => hfar k (Nat.le_succ_of_le hk)
  · show g c = 2
    by_cases hin : c ∈ new
    · exact hmarks.marked c hin
    · obtain ⟨j, hj, hlayer⟩ := exists_layer hpath
      have hjt : j ≤ t := by
        by_contra hgt
        have hj : j = t + 1 := by omega
        exact hin ((hnew c).mpr (hj ▸ hlayer))
      rw [hmarks.kept c hin]
      exact h.rotted c j hjt hlayer.1
  · obtain ⟨c, hc⟩ := h.exists_fresh_iff.mp hfresh
    obtain ⟨hc, hfar⟩ := (h.fresh_iff c).mp hc
    exact ⟨c, hc, fun k hk => hfar k (Nat.le_of_lt_succ hk)⟩
  · obtain ⟨c, hc⟩ := List.exists_mem_of_ne_nil pending hpending
    have hcard := ((h.pending_iff c).mp hc).lt_card
    rwa [Fintype.card_prod, Fintype.card_fin, Fintype.card_fin] at hcard

/-- The loop over the minutes ends when no cell waits or none is fresh. -/
theorem Spread.rot (hsize : m * n ≤ 100) (hvals : Values grid) (h : Spread grid t s done pending)
    {inner : Nat} (hinner : 100 < inner) (hfuel : m * n < fuel + t) :
    ∃ t' s' done' pending', rot inner fuel s = some s' ∧ Spread grid t' s' done' pending' ∧
      (pending' = [] ∨ s'.fresh = 0) := by
  induction fuel generalizing t s done pending with
  | zero =>
      have hle := h.le
      omega
  | succ fuel ih =>
      have hwaiting : waiting s.next = true ↔ pending ≠ [] := by
        rw [waiting, h.next_eq, bne_iff_ne, List.length_append, ← List.length_pos_iff]
        show done.length + pending.length ≠ done.length ↔ _
        omega
      rw [Oranges.rot]
      by_cases hgo : waiting s.next = true ∧ s.fresh ≠ 0
      · obtain ⟨s₁, new, hrun, h₁⟩ := h.step hsize hvals (hwaiting.mp hgo.1) hgo.2 hinner
        rw [if_pos hgo, hrun, Option.bind_eq_bind, Option.bind_some]
        exact ih h₁ (by omega)
      · rw [if_neg hgo]
        refine ⟨t, s, done, pending, rfl, h, ?_⟩
        rw [hwaiting, not_and_or, not_not, not_not] at hgo
        exact hgo

/-! ## The first loops -/

/-- The fresh cells are counted and the rotten ones are collected. -/
theorem foldlM_start (l : List (Cell m n)) (hroom : s.next.buff.length + l.length ≤ 100) :
    l.foldlM start s = some { s with
      fresh := s.fresh + l.countP (fun c => s.grid c = 1)
      next := { s.next with buff := s.next.buff ++ l.filter (fun c => s.grid c = 2) } } := by
  induction l generalizing s with
  | nil => simp
  | cons c l ih =>
      rw [List.length_cons] at hroom
      rw [List.foldlM_cons]
      by_cases hfresh : s.grid c = 1
      · have hstart : start s c = some { s with fresh := s.fresh + 1 } := if_pos hfresh
        rw [hstart, Option.bind_eq_bind, Option.bind_some, ih (by simpa using by omega)]
        simp [hfresh]
        omega
      by_cases hrotten : s.grid c = 2
      · have hadd : queueAdd s.next c = some { s.next with buff := s.next.buff ++ [c] } :=
          if_pos (by omega)
        have hstart : start s c =
            some { s with next := { s.next with buff := s.next.buff ++ [c] } } := by
          rw [start, if_neg hfresh, if_pos hrotten, hadd]
          rfl
        rw [hstart, Option.bind_eq_bind, Option.bind_some, ih (by simp; omega)]
        simp [hrotten]
      · have hstart : start s c = some s := by
          rw [start, if_neg hfresh, if_neg hrotten]
        rw [hstart, Option.bind_eq_bind, Option.bind_some, ih (by omega)]
        simp [hfresh, hrotten]

/-- The rotten cells wait at first. -/
theorem spread_zero (hsize : m * n ≤ 100) (grid : Grid m n) :
    ∃ s pending, (all m n).foldlM start ⟨grid, 0, ⟨[], 0⟩, ⟨[], 0⟩, 0⟩ = some s ∧
      Spread grid 0 s [] pending := by
  have hlen := length_le (nodup_all m n)
  have hrotten : Recorded 2 grid ((all m n).filter fun c => grid c = 2) :=
    ⟨(nodup_all m n).filter _, fun c hc => of_decide_eq_true (List.mem_filter.mp hc).2⟩
  refine ⟨_, (all m n).filter fun c => grid c = 2,
    foldlM_start (all m n) (by simpa using by omega),
    ⟨⟨List.nodup_nil, nofun⟩, hrotten, Int.zero_add _⟩, rfl, rfl, rfl, fun c => ?_, fun c _ => rfl,
    fun c k hk hpath => ?_, nofun, Nat.zero_le _⟩
  · rw [List.mem_filter, decide_eq_true_eq, and_iff_right (mem_all c), Minute, layer_zero_iff]
  · rw [Nat.le_zero.mp hk] at hpath
    cases hpath with
    | source hrotten => exact hrotten

/-! ## The result -/

/-- The result says how long it takes until no cell is fresh. -/
structure Answer (grid : Grid m n) (r : Int) : Prop where
  never : (∃ c, grid c = 1 ∧ ∀ k, ¬ PathTo grid k c) → r = -1
  none : (∀ c, grid c ≠ 1) → r = 0
  last : (∃ c, grid c = 1) → (∀ c, grid c = 1 → ∃ k, PathTo grid k c) →
    ∃ t : Nat, r = t ∧
      IsGreatest {k | ∃ c, grid c = 1 ∧ IsLeast {j | PathTo grid j c} k} t

/-- When the loop has ended, nothing that is left can be reached. -/
theorem Spread.unreachable (h : Spread grid t s done pending) (hend : pending = [] ∨ s.fresh = 0)
    (hc : s.grid c = 1) (k : Nat) : ¬ PathTo grid k c := by
  intro hpath
  have hfar := ((h.fresh_iff c).mp hc).2
  rcases hend with rfl | hzero
  · obtain ⟨j, -, hlayer⟩ := exists_layer hpath
    have hgt : t ≤ j := by
      by_contra hlt
      exact hfar j (by omega) hlayer.1
    obtain ⟨d, hd⟩ := hlayer.exists_le hgt
    exact absurd ((h.pending_iff d).mpr hd) List.not_mem_nil
  · exact h.exists_fresh_iff.mpr ⟨c, hc⟩ hzero

/-- The cells that are fresh at the end are those that cannot be reached. -/
theorem Spread.end_grid (hvals : Values grid) (h : Spread grid t s done pending)
    (hend : pending = [] ∨ s.fresh = 0) (c : Cell m n) :
    (grid c = 1 → (∃ k, PathTo grid k c) → s.grid c = 2) ∧
      (¬ (grid c = 1 ∧ ∃ k, PathTo grid k c) → s.grid c = grid c) := by
  constructor
  · rintro hc ⟨k, hpath⟩
    by_contra hne
    have hfar : ∀ j ≤ t, ¬ PathTo grid j c := fun j hj hpath' => hne (h.rotted c j hj hpath')
    exact h.unreachable hend ((h.fresh_iff c).mpr ⟨hc, hfar⟩) k hpath
  · intro hnot
    by_cases hfar : ∀ k ≤ t, ¬ PathTo grid k c
    · exact h.left c hfar
    · push Not at hfar
      obtain ⟨k, hk, hpath⟩ := hfar
      rw [h.rotted c k hk hpath]
      rcases hvals c with h0 | h1 | h2
      · exact absurd h0 (ne_zero_of_pathTo hpath)
      · exact absurd ⟨h1, k, hpath⟩ hnot
      · exact h2.symm

/-- Some cells stay fresh. -/
theorem Spread.answer_never (h : Spread grid t s done pending)
    (hend : pending = [] ∨ s.fresh = 0) (hfresh : s.fresh ≠ 0) : Answer grid (-1) := by
  obtain ⟨c, hc⟩ := h.exists_fresh_iff.mp hfresh
  have hgrid : grid c = 1 := ((h.fresh_iff c).mp hc).1
  have hnever := h.unreachable hend hc
  refine ⟨fun _ => rfl, fun hno => absurd hgrid (hno c), fun _ hall => ?_⟩
  obtain ⟨k, hpath⟩ := hall c hgrid
  exact absurd hpath (hnever k)

/-- No cell stays fresh. -/
theorem Spread.answer_last (h : Spread grid t s done pending) (hfresh : s.fresh = 0) :
    Answer grid t := by
  have hnear : ∀ c, grid c = 1 → ∃ k ≤ t, PathTo grid k c := by
    intro c hc
    by_contra hfar
    push Not at hfar
    exact h.exists_fresh_iff.mpr ⟨c, (h.fresh_iff c).mpr ⟨hc, hfar⟩⟩ hfresh
  refine ⟨?_, fun hno => ?_, ?_⟩
  · rintro ⟨c, hc, hnever⟩
    obtain ⟨k, -, hpath⟩ := hnear c hc
    exact absurd hpath (hnever k)
  · have hzero : t = 0 := by
      by_contra hpos
      obtain ⟨c, hc, -⟩ := h.late (Nat.pos_of_ne_zero hpos)
      exact hno c hc
    rw [hzero]
    rfl
  · rintro ⟨c, hc⟩ -
    have hpos : 0 < t := by
      obtain ⟨k, hk, hpath⟩ := hnear c hc
      cases hpath with
      | source hrotten =>
          rw [hc] at hrotten
          exact absurd hrotten (by decide)
      | step _ _ _ => omega
    obtain ⟨d, hd, hlate⟩ := h.late hpos
    obtain ⟨k, hk, hpath⟩ := hnear d hd
    have hkt : k = t := by
      by_contra hne
      exact hlate k (by omega) hpath
    refine ⟨t, rfl, ⟨d, hd, hkt ▸ hpath, fun j hj => ?_⟩, ?_⟩
    · by_contra hlt
      exact hlate j (by omega) hj
    · rintro k ⟨e, he, hleast⟩
      obtain ⟨j, hj, hpath⟩ := hnear e he
      exact (hleast.2 hpath).trans hj

/-- The two loops over the cells are one. -/
theorem orangesRotting_eq (inner fuel : Nat) (grid : Grid m n) :
    orangesRotting inner fuel grid =
      (((all m n).foldlM start ⟨grid, 0, ⟨[], 0⟩, ⟨[], 0⟩, 0⟩).bind (rot inner fuel)).map fun s =>
        (if s.fresh ≠ 0 then (-1 : Int) else s.minutes, s.grid) := by
  rw [all, Checks.foldlM_flatMap, Option.map_eq_bind, Option.bind_assoc]
  simp only [List.foldlM_map]
  rfl

/-- `orangesRotting` returns how long the furthest fresh cell takes to rot, or -1 if some never
does, and the cells that can be reached are rotten after it. -/
theorem oranges_rotting_exact (grid : Grid m n) (hsize : m * n ≤ 100) (hvals : Values grid)
    {inner fuel : Nat} (hinner : 100 < inner) (hfuel : 100 < fuel) :
    ∃ r g, orangesRotting inner fuel grid = some (r, g) ∧ Answer grid r ∧
      ∀ c, (grid c = 1 → (∃ k, PathTo grid k c) → g c = 2) ∧
        (¬ (grid c = 1 ∧ ∃ k, PathTo grid k c) → g c = grid c) := by
  obtain ⟨s₀, pending₀, hstart, h₀⟩ := spread_zero hsize grid
  have hrounds : m * n < fuel + 0 := by omega
  obtain ⟨t, s, done, pending, hrot, h, hend⟩ := h₀.rot hsize hvals hinner hrounds
  rw [orangesRotting_eq, hstart, Option.bind_some, hrot, Option.map_some]
  refine ⟨_, _, rfl, ?_, fun c => h.end_grid hvals hend c⟩
  by_cases hfresh : s.fresh ≠ 0
  · rw [if_pos hfresh]
    exact h.answer_never hend hfresh
  · rw [if_neg hfresh, h.minutes]
    exact h.answer_last (not_not.mp hfresh)

/-- Two cells at distances one and two, and an empty one. -/
theorem oranges_rotting_exact_two :
    ∃ r g, orangesRotting 101 101 (fun c : Cell 2 2 => ![![2, 1], ![0, 1]] c.1 c.2) = some (r, g) ∧
      Answer (fun c : Cell 2 2 => ![![2, 1], ![0, 1]] c.1 c.2) r ∧ r = 2 := by
  have hvals : Values (fun c : Cell 2 2 => ![![2, 1], ![0, 1]] c.1 c.2) := by
    rw [Values]
    decide
  obtain ⟨r, g, hrun, hanswer, -⟩ := oranges_rotting_exact
    (fun c : Cell 2 2 => ![![2, 1], ![0, 1]] c.1 c.2) (by decide) hvals
    (Nat.lt_succ_self 100) (Nat.lt_succ_self 100)
  have hfirst : (orangesRotting 101 101 (fun c : Cell 2 2 => ![![2, 1], ![0, 1]] c.1 c.2)).map
      Prod.fst = some 2 := by
    decide +kernel
  rw [hrun] at hfirst
  exact ⟨r, g, hrun, hanswer, Option.some.inj hfirst⟩

end Oranges
