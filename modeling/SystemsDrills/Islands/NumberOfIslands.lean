import SystemsDrills.Lib.Cells
import SystemsDrills.Lib.Checks
import SystemsDrills.Lib.Flood

/-!
# Counting islands

`numberOfIslands` of `Interview/leetcode/03-number-of-islands.c` scans the grid row by row.  At a
cell that is not `'0'` it counts an island and clears it with a search that keeps its cells in a
queue.  The queue is shared by all islands and is never reset: its entries stay, and `head` and
`tail` only grow.

The entries that were put are a list here, so `head` is its length.  There is no result if an
entry is put behind the end of the arrays or if `num_islands` leaves the range of `int`.  A search
has fuel, and as many rounds as there are cells are enough.
-/

namespace Islands

open Cells Flood

/-! ## The code -/

variable {rows cols : Nat}

/-- `grid`, which is rectangular. -/
abbrev Grid (rows cols : Nat) := Cell rows cols → Char

/-- `struct Queue`. -/
structure Queue (rows cols : Nat) where
  entries : List (Cell rows cols)
  tail : Nat

/-- `dir_x`. -/
def dirX : Fin 4 → Int := ![-1, 0, 1, 0]

/-- `dir_y`. -/
def dirY : Fin 4 → Int := ![0, 1, 0, -1]

/-- `queue_put`.  The arrays have room for `rows * cols` entries. -/
def queuePut (q : Queue rows cols) (c : Cell rows cols) : Option (Queue rows cols) :=
  if q.entries.length < rows * cols then some { q with entries := q.entries ++ [c] } else none

/-- `queue_get`. -/
def queueGet (q : Queue rows cols) : Option (Cell rows cols × Queue rows cols) :=
  q.entries[q.tail]?.map fun c => (c, { q with tail := q.tail + 1 })

/-- `queue_empty`. -/
def queueEmpty (q : Queue rows cols) : Bool := q.entries.length == q.tail

/-- The grid and the variables. -/
structure State (rows cols : Nat) where
  grid : Grid rows cols
  q : Queue rows cols
  num_islands : Nat

/-- The neighbour in direction `k`, unless it is outside of the grid. -/
def next (this : Cell rows cols) (k : Fin 4) : Option (Cell rows cols) :=
  shift this (dirX k) (dirY k)

/-- The body of the loop over the directions. -/
def look (this : Cell rows cols) (s : State rows cols) (k : Fin 4) : Option (State rows cols) :=
  match next this k with
  | none => some s
  | some c =>
      if s.grid c = '0' then
        some s
      else do
        let q ← queuePut s.q c
        return { s with q, grid := Function.update s.grid c '0' }

/-- The loop while the queue is not empty. -/
def flood : Nat → State rows cols → Option (State rows cols)
  | 0, _ => none
  | fuel + 1, s =>
    if queueEmpty s.q then
      some s
    else do
      let (this, q) ← queueGet s.q
      let s ← (List.finRange 4).foldlM (look this) { s with q }
      flood fuel s

/-- The body of the loops over the cells. -/
def visit (fuel : Nat) (s : State rows cols) (c : Cell rows cols) : Option (State rows cols) :=
  if s.grid c = '0' then
    some s
  else do
    let q ← queuePut s.q c
    if s.num_islands + 1 < 2 ^ 31 then
      flood fuel ⟨Function.update s.grid c '0', q, s.num_islands + 1⟩
    else
      none

/-- How a call ends. -/
inductive Outcome (rows cols : Nat) where
  | exit
  | returns (num_islands : Nat) (grid : Grid rows cols)

/-- `numberOfIslands`.  `row` and `col` tell whether `malloc` found memory for the two arrays. -/
def numberOfIslands (row col : Bool) (fuel : Nat) (grid : Grid rows cols) :
    Option (Outcome rows cols) :=
  if !row then
    some .exit
  else if !col then
    some .exit
  else do
    let s ← (List.finRange rows).foldlM (fun s i =>
      (List.finRange cols).foldlM (fun s j => visit fuel s (i, j)) s) ⟨grid, ⟨[], 0⟩, 0⟩
    return .returns s.num_islands s.grid

/-! ## Islands -/

/-- The cells are connected through cells that are not `'0'`. -/
def Connected (grid : Grid rows cols) : Cell rows cols → Cell rows cols → Prop :=
  Relation.ReflTransGen fun a b => Adjacent a b ∧ grid a ≠ '0' ∧ grid b ≠ '0'

/-- The cells that are connected with a cell. -/
def islandOf (grid : Grid rows cols) (c : Cell rows cols) : Set (Cell rows cols) :=
  {d | Connected grid c d}

/-- The number of classes of connected cells that are not `'0'`. -/
noncomputable def islands (grid : Grid rows cols) : Nat :=
  (Set.image (islandOf grid) {c | grid c ≠ '0'}).ncard

variable {grid g : Grid rows cols} {c d : Cell rows cols} {s : State rows cols} {fuel : Nat}

theorem Connected.symm (h : Connected grid c d) : Connected grid d c := by
  induction h with
  | refl => exact .refl
  | tail _ hstep ih => exact .head ⟨hstep.1.symm, hstep.2.2, hstep.2.1⟩ ih

theorem Connected.land (h : Connected grid c d) (hc : grid c ≠ '0') : grid d ≠ '0' := by
  cases h with
  | refl => exact hc
  | tail _ hstep => exact hstep.2.2

/-- Connected cells have the same island. -/
theorem Connected.islandOf_eq (h : Connected grid c d) : islandOf grid d = islandOf grid c := by
  ext e
  exact ⟨fun he => h.trans he, fun he => h.symm.trans he⟩

/-! ## One search -/

/-- The cells that a search looks at from a cell. -/
def neighbours (c : Cell rows cols) : List (Cell rows cols) := (List.finRange 4).filterMap (next c)

theorem mem_neighbours : d ∈ neighbours c ↔ Adjacent c d := mem_around

/-- The cell is part of an island. -/
def Land (v : Char) : Prop := v ≠ '0'

theorem not_land : ¬ Land '0' := not_not_intro rfl

/-- The entries are different cells, which were cleared. -/
def Entries (s : State rows cols) : Prop := Recorded '0' s.grid s.q.entries

/-- The state after some cells were found. -/
def State.found (s : State rows cols) (g : Grid rows cols) (new : List (Cell rows cols)) :
    State rows cols :=
  { s with grid := g, q := { s.q with entries := s.q.entries ++ new } }

/-- There is room for a cell that was not cleared. -/
theorem Entries.put (h : Entries s) (hc : s.grid c ≠ '0') :
    queuePut s.q c = some { s.q with entries := s.q.entries ++ [c] } ∧
      Entries (s.found (Function.update s.grid c '0') [c]) := by
  obtain ⟨hlt, hput⟩ := Recorded.put h hc
  exact ⟨if_pos hlt, hput⟩

/-- The loop over the directions. -/
theorem foldlM_look (h : Entries s) (this : Cell rows cols) (ks : List (Fin 4)) :
    ∃ g new, ks.foldlM (look this) s = some (s.found g new) ∧ Entries (s.found g new) ∧
      Marks Land '0' s.grid (ks.filterMap (next this)) g new := by
  induction ks generalizing s with
  | nil =>
      have hsame : s.found s.grid [] = s := by simp [State.found]
      exact ⟨s.grid, [], by rw [hsame]; rfl, hsame.symm ▸ h, Marks.nil _⟩
  | cons k ks ih =>
      rw [List.foldlM_cons, look]
      cases hk : next this k with
      | none =>
          rw [List.filterMap_cons_none hk]
          exact ih h
      | some c =>
          rw [List.filterMap_cons_some hk]
          by_cases hc : s.grid c = '0'
          · obtain ⟨g, new, hrun, hentries, hmarks⟩ := ih h
            have hmiss : Marks Land '0' s.grid [c] s.grid [] := Marks.miss (not_not_intro hc)
            refine ⟨g, new, ?_, hentries, hmiss.append not_land hmarks⟩
            simp only [hc, if_true]
            exact hrun
          · obtain ⟨hput, hentries⟩ := h.put hc
            obtain ⟨g, new, hrun, hentries, hmarks⟩ := ih hentries
            have hhit : Marks Land '0' s.grid [c] (Function.update s.grid c '0') [c] := Marks.hit hc
            have hfound : (s.found (Function.update s.grid c '0') [c]).found g new =
                s.found g (c :: new) := by
              simp [State.found]
            rw [hfound] at hrun hentries
            refine ⟨g, c :: new, ?_, hentries, hhit.append not_land hmarks⟩
            simp only [hc, if_false, hput]
            exact hrun

/-- The search finds what is connected in the grid that is left. -/
theorem flood_spec {done pending old : List (Cell rows cols)} (h : Entries s)
    (hq : s.q = ⟨old ++ (done ++ pending), (old ++ done).length⟩)
    (hflood : Flooding Land '0' neighbours g c s.grid done pending)
    (hfuel : rows * cols < done.length + fuel) :
    ∃ s' found, flood fuel s = some s' ∧ Entries s' ∧ s'.num_islands = s.num_islands ∧
      s'.q.tail = s'.q.entries.length ∧ Flooding Land '0' neighbours g c s'.grid found [] := by
  have hlen := length_le hflood.nodup
  rw [List.length_append] at hlen
  induction fuel generalizing s done pending with
  | zero => omega
  | succ fuel ih =>
      rw [flood]
      cases pending with
      | nil =>
          have hempty : queueEmpty s.q = true := by simp [queueEmpty, hq]
          rw [if_pos hempty]
          exact ⟨s, done, rfl, h, rfl, by simp [hq], hflood⟩
      | cons this rest =>
          have hempty : queueEmpty s.q ≠ true := by
            simp [queueEmpty, hq]
          have hget : queueGet s.q = some (this, { s.q with tail := s.q.tail + 1 }) := by
            rw [queueGet, hq, ← List.append_assoc, List.getElem?_append_right le_rfl]
            simp
          rw [if_neg hempty, hget]
          simp only [Option.bind_eq_bind, Option.bind_some]
          have h₁ : Entries { s with q := { s.q with tail := s.q.tail + 1 } } := h
          obtain ⟨g', new, hlook, hentries, hmarks⟩ := foldlM_look h₁ this (List.finRange 4)
          rw [hlook, Option.bind_some]
          have hflood' := hflood.step not_land hmarks
          have hlen' := length_le hflood'.nodup
          simp only [List.length_append, List.length_cons, List.length_nil] at hlen'
          refine ih hentries ?_ hflood' (by simp; omega) (by simp; omega)
          simp [State.found, hq]
          omega

/-! ## The scan -/

/-- The cells of `grid` that were cleared. -/
def gone (grid : Grid rows cols) (s : State rows cols) : Set (Cell rows cols) :=
  {c | grid c ≠ '0' ∧ s.grid c = '0'}

/-- Between two searches some islands of `grid` are gone, and they were counted. -/
structure Scanning (grid : Grid rows cols) (s : State rows cols) : Prop where
  entries : Entries s
  tail : s.q.tail = s.q.entries.length
  sub : ∀ c, s.grid c = '0' ∨ s.grid c = grid c
  closed : ∀ c d, s.grid c ≠ '0' → Connected grid c d → s.grid d ≠ '0'
  count : s.num_islands = (Set.image (islandOf grid) (gone grid s)).ncard
  lt : s.num_islands < 2 ^ 31

theorem Scanning.init (grid : Grid rows cols) : Scanning grid ⟨grid, ⟨[], 0⟩, 0⟩ := by
  have hnone : gone grid ⟨grid, ⟨[], 0⟩, 0⟩ = ∅ :=
    Set.eq_empty_of_forall_notMem fun c hc => hc.1 hc.2
  refine ⟨⟨List.nodup_nil, nofun⟩, rfl, fun c => .inr rfl, fun c d hc h => h.land hc, ?_,
    by norm_num⟩
  rw [hnone, Set.image_empty, Set.ncard_empty]

/-- Of an island that is left, no cell is gone. -/
theorem Scanning.reach_iff (h : Scanning grid s) (hc : s.grid c ≠ '0') :
    Reach Land neighbours s.grid c d ↔ Connected grid c d := by
  have hland : ∀ {a}, s.grid a ≠ '0' → grid a ≠ '0' := fun {a} ha =>
    (h.sub a).resolve_left ha ▸ ha
  constructor
  · intro hreach
    induction hreach with
    | refl => exact .refl
    | @tail a b hreach hstep ih =>
        have ha : Land (s.grid a) := Reach.holds (show Land (s.grid c) from hc) hreach
        exact ih.tail ⟨mem_neighbours.mp hstep.1, hland ha, hland hstep.2⟩
  · intro hconn
    induction hconn with
    | refl => exact .refl
    | @tail a b hconn hstep ih =>
        have hb : s.grid b ≠ '0' := h.closed c b hc (hconn.tail hstep)
        exact ih.tail ⟨mem_neighbours.mpr hstep.1, hb⟩

/-- A cell that is left belongs to an island that was not counted. -/
theorem Scanning.islandOf_notMem (h : Scanning grid s) (hc : s.grid c ≠ '0') :
    islandOf grid c ∉ Set.image (islandOf grid) (gone grid s) := by
  rintro ⟨d, hd, heq⟩
  have hconn : Connected grid c d := by
    have hmem : d ∈ islandOf grid d := Relation.ReflTransGen.refl
    rwa [heq] at hmem
  exact h.closed c d hc hconn hd.2

/-- So there are more islands than were counted. -/
theorem Scanning.num_lt (h : Scanning grid s) (hc : s.grid c ≠ '0') :
    s.num_islands + 1 ≤ islands grid := by
  have hland : grid c ≠ '0' := (h.sub c).resolve_left hc ▸ hc
  rw [h.count, ← Set.ncard_insert_of_notMem (h.islandOf_notMem hc) (Set.toFinite _)]
  refine Set.ncard_le_ncard (Set.insert_subset ⟨c, hland, rfl⟩ ?_) (Set.toFinite _)
  exact Set.image_mono fun d hd => hd.1

/-- A search that has ended clears one island. -/
theorem Scanning.step (h : Scanning grid s) (hc : s.grid c ≠ '0') {s' : State rows cols}
    {found : List (Cell rows cols)} (hentries : Entries s')
    (hnum : s'.num_islands = s.num_islands + 1) (hlt : s.num_islands + 1 < 2 ^ 31)
    (htail : s'.q.tail = s'.q.entries.length)
    (hflood : Flooding Land '0' neighbours s.grid c s'.grid found []) :
    Scanning grid s' ∧ s'.grid c = '0' ∧ ∀ d, s.grid d = '0' → s'.grid d = '0' := by
  have hfound : ∀ d, d ∈ found ↔ Connected grid c d := fun d =>
    (hflood.mem_iff d).trans (h.reach_iff hc)
  have hmarked := hflood.marked
  have hkept := hflood.kept
  rw [List.append_nil] at hmarked hkept
  have hgone : ∀ d, s'.grid d = '0' ↔ Connected grid c d ∨ s.grid d = '0' := by
    intro d
    rw [← hfound]
    by_cases hin : d ∈ found
    · exact ⟨fun _ => .inl hin, fun _ => hmarked d hin⟩
    · rw [hkept d hin]
      exact ⟨.inr, fun hd => hd.resolve_left hin⟩
  have hland : grid c ≠ '0' := (h.sub c).resolve_left hc ▸ hc
  have himage : Set.image (islandOf grid) (gone grid s') =
      insert (islandOf grid c) (Set.image (islandOf grid) (gone grid s)) := by
    ext C
    constructor
    · rintro ⟨d, ⟨hd, hd'⟩, rfl⟩
      rcases (hgone d).mp hd' with hconn | hold
      · exact .inl hconn.islandOf_eq
      · exact .inr ⟨d, ⟨hd, hold⟩, rfl⟩
    · rintro (rfl | ⟨d, ⟨hd, hold⟩, rfl⟩)
      · exact ⟨c, ⟨hland, (hgone c).mpr (.inl .refl)⟩, rfl⟩
      · exact ⟨d, ⟨hd, (hgone d).mpr (.inr hold)⟩, rfl⟩
  refine ⟨⟨hentries, htail, fun d => ?_, fun a d ha hconn hd => ?_, ?_, hnum ▸ hlt⟩,
    (hgone c).mpr (.inl .refl), fun d hd => (hgone d).mpr (.inr hd)⟩
  · by_cases hin : d ∈ found
    · exact .inl (hmarked d hin)
    · rw [hkept d hin]
      exact h.sub d
  · obtain ⟨hnot, hold⟩ := not_or.mp ((hgone a).not.mp ha)
    rcases (hgone d).mp hd with hcd | hd
    · exact hnot (hcd.trans hconn.symm)
    · exact h.closed a d hold hconn hd
  · rw [hnum, himage, Set.ncard_insert_of_notMem (h.islandOf_notMem hc) (Set.toFinite _), h.count]

/-- One cell of the scan: an island is cleared, if there is one, unless it is one too many. -/
theorem Scanning.visit (h : Scanning grid s) (hfuel : rows * cols < fuel) (c : Cell rows cols) :
    (∃ s', visit fuel s c = some s' ∧ Scanning grid s' ∧ s'.grid c = '0' ∧
        ∀ d, s.grid d = '0' → s'.grid d = '0') ∨
      visit fuel s c = none ∧ 2 ^ 31 ≤ islands grid := by
  rw [Islands.visit]
  by_cases hc : s.grid c = '0'
  · rw [if_pos hc]
    exact .inl ⟨s, rfl, h, hc, fun _ => id⟩
  obtain ⟨hput, hentries⟩ := h.entries.put hc
  rw [if_neg hc, hput, Option.bind_eq_bind, Option.bind_some]
  by_cases hlt : s.num_islands + 1 < 2 ^ 31
  · rw [if_pos hlt]
    have hstart : Entries ⟨Function.update s.grid c '0', ⟨s.q.entries ++ [c], s.q.tail⟩,
        s.num_islands + 1⟩ := hentries
    have hq : (⟨s.q.entries ++ [c], s.q.tail⟩ : Queue rows cols) =
        ⟨s.q.entries ++ ([] ++ [c]), (s.q.entries ++ []).length⟩ := by
      rw [h.tail, List.append_nil, List.nil_append]
    obtain ⟨s', found, hrun, hentries', hnum, htail, hflood⟩ :=
      flood_spec hstart hq Flooding.init (by simpa using hfuel)
    exact .inl ⟨s', hrun, h.step hc hentries' hnum hlt htail hflood⟩
  · rw [if_neg hlt]
    exact .inr ⟨rfl, (not_lt.mp hlt).trans (h.num_lt hc)⟩

theorem Scanning.foldlM (h : Scanning grid s) (hfuel : rows * cols < fuel)
    (l : List (Cell rows cols)) :
    (∃ s', l.foldlM (Islands.visit fuel) s = some s' ∧ Scanning grid s' ∧
        (∀ c ∈ l, s'.grid c = '0') ∧ ∀ d, s.grid d = '0' → s'.grid d = '0') ∨
      l.foldlM (Islands.visit fuel) s = none ∧ 2 ^ 31 ≤ islands grid := by
  induction l generalizing s with
  | nil => exact .inl ⟨s, rfl, h, nofun, fun _ => id⟩
  | cons c l ih =>
      rw [List.foldlM_cons]
      obtain ⟨s₁, hvisit, h₁, hc, hkeep⟩ | ⟨hvisit, hmany⟩ := h.visit hfuel c
      · rw [hvisit, Option.bind_eq_bind, Option.bind_some]
        obtain ⟨s₂, hrun, h₂, hl, hkeep'⟩ | hmany := ih h₁
        · exact .inl ⟨s₂, hrun, h₂, List.forall_mem_cons.mpr ⟨hkeep' c hc, hl⟩,
            fun d hd => hkeep' d (hkeep d hd)⟩
        · exact .inr hmany
      · rw [hvisit]
        exact .inr ⟨rfl, hmany⟩

/-- The two loops over the cells are one. -/
theorem numberOfIslands_eq (fuel : Nat) (grid : Grid rows cols) :
    numberOfIslands true true fuel grid =
      ((all rows cols).foldlM (visit fuel) ⟨grid, ⟨[], 0⟩, 0⟩).map fun s =>
        .returns s.num_islands s.grid := by
  rw [all, Checks.foldlM_flatMap, Option.map_eq_bind]
  simp only [List.foldlM_map]
  rfl

/-- The islands are counted if an `int` has room for their number. -/
theorem numberOfIslands_spec (hfuel : rows * cols < fuel) (grid : Grid rows cols) :
    numberOfIslands true true fuel grid =
      if islands grid < 2 ^ 31 then some (.returns (islands grid) fun _ => '0') else none := by
  rw [numberOfIslands_eq]
  obtain ⟨s, hrun, h, hl, -⟩ | ⟨hrun, hmany⟩ := (Scanning.init grid).foldlM hfuel (all rows cols)
  · have hgrid : s.grid = fun _ => '0' := funext fun c => hl c (mem_all c)
    have hall : gone grid s = {c | grid c ≠ '0'} := by
      ext c
      exact ⟨fun hc => hc.1, fun hc => ⟨hc, congrFun hgrid c⟩⟩
    have hcount : s.num_islands = islands grid := by
      rw [h.count, hall, islands]
    rw [hrun, ← hcount, if_pos h.lt, ← hgrid]
    rfl
  · rw [hrun, if_neg (not_lt.mpr hmany)]
    rfl

/-! ## The count -/

/-- The call ends, returns the number of islands and leaves every cell `'0'`. -/
def CountsIslands (row col : Bool) (grid : Grid rows cols) : Prop :=
  ∃ n, ∀ fuel, n ≤ fuel →
    numberOfIslands row col fuel grid = some (.returns (islands grid) fun _ => '0')

/-- `numberOfIslands` counts the islands of every grid that has no more than `INT_MAX` of them. -/
theorem number_of_islands_exact (grid : Grid rows cols) (h : islands grid ≤ 2147483647) :
    CountsIslands true true grid := by
  refine ⟨rows * cols + 1, fun fuel hfuel => ?_⟩
  rw [numberOfIslands_spec hfuel, if_pos (by omega)]

/-- There are at most as many islands as there are cells. -/
theorem islands_le (grid : Grid rows cols) : islands grid ≤ rows * cols := by
  refine (Set.ncard_image_le (Set.toFinite _)).trans ?_
  have hcard := Set.ncard_le_card {c : Cell rows cols | grid c ≠ '0'}
  rwa [Nat.card_prod, Nat.card_fin, Nat.card_fin] at hcard

/-- The first grid of the tests. -/
def firstGrid : Grid 4 4 := fun c =>
  (![![ '1', '1', '0', '0'], ![ '1', '1', '0', '0'], ![ '0', '0', '1', '0'],
    ![ '0', '0', '0', '1']] : Fin 4 → Fin 4 → Char) c.1 c.2

theorem number_of_islands_exact_first : CountsIslands true true firstGrid :=
  number_of_islands_exact firstGrid ((islands_le firstGrid).trans (by norm_num))

/-- A grid in which no two cells that are not `'0'` have a side in common. -/
def sparse (k : Nat) : Grid (2 * k) (2 * k) := fun c =>
  if c.1.val % 2 = 0 ∧ c.2.val % 2 = 0 then '1' else '0'

theorem sparse_ne_zero {k : Nat} {c : Cell (2 * k) (2 * k)} :
    sparse k c ≠ '0' ↔ c.1.val % 2 = 0 ∧ c.2.val % 2 = 0 := by
  rw [sparse]
  split
  · next heven => simpa using heven
  · next hodd => simpa using hodd

theorem connected_sparse {k : Nat} {c d : Cell (2 * k) (2 * k)} (h : Connected (sparse k) c d) :
    c = d := by
  cases h with
  | refl => rfl
  | @tail b _ _ hstep =>
      obtain ⟨hadj, hb, hd⟩ := hstep
      rw [sparse_ne_zero] at hb hd
      rcases hadj with ⟨-, hcol⟩ | ⟨-, hrow⟩
      · omega
      · omega

/-- So each of them is an island. -/
theorem le_islands_sparse (k : Nat) : k * k ≤ islands (sparse k) := by
  let corner (p : Fin k × Fin k) : Cell (2 * k) (2 * k) :=
    (⟨2 * p.1.val, by omega⟩, ⟨2 * p.2.val, by omega⟩)
  have hinj : Function.Injective fun p => islandOf (sparse k) (corner p) := by
    intro p q heq
    have hmem : corner q ∈ islandOf (sparse k) (corner q) := Relation.ReflTransGen.refl
    have heq : islandOf (sparse k) (corner p) = islandOf (sparse k) (corner q) := heq
    rw [← heq] at hmem
    have hcorner := connected_sparse hmem
    simp only [corner, Prod.mk.injEq, Fin.mk.injEq] at hcorner
    exact Prod.ext (Fin.ext (by omega)) (Fin.ext (by omega))
  have hcard : (Set.range fun p => islandOf (sparse k) (corner p)).ncard = k * k := by
    rw [← Set.image_univ, Set.ncard_image_of_injective _ hinj, Set.ncard_univ, Nat.card_prod,
      Nat.card_fin]
  rw [← hcard]
  refine Set.ncard_le_ncard ?_ (Set.toFinite _)
  rintro _ ⟨p, rfl⟩
  exact ⟨corner p, sparse_ne_zero.mpr ⟨Nat.mul_mod_right .., Nat.mul_mod_right ..⟩, rfl⟩

/-- A grid of 131072 rows with more islands than an `int` can count, and a call that finds no
memory. -/
theorem not_countsIslands :
    ¬ CountsIslands true true (sparse 65536) ∧ ¬ CountsIslands false true (sparse 1) := by
  constructor
  · rintro ⟨n, hn⟩
    have hmany := le_islands_sparse 65536
    have hrun := hn (max n (2 * 65536 * (2 * 65536) + 1)) (le_max_left ..)
    rw [numberOfIslands_spec (Nat.lt_of_succ_le (le_max_right ..)), if_neg (by omega)] at hrun
    cases hrun
  · rintro ⟨n, hn⟩
    cases hn n le_rfl

end Islands
