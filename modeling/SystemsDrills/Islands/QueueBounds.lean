import SystemsDrills.Lib.Transition
import SystemsDrills.Islands.NumberOfIslands

/-!
# The queue of `numberOfIslands`

`queue_put` stores at `head` and does not look whether the arrays have room.  In
`Islands.NumberOfIslands` a call that would store behind their end has no result.  Here the call is
a machine in which `queue_put` always stores, so that `head` may go anywhere.  A step is the body of
a loop or the way out of it.

A cell is cleared when it is put, and only cells that are not cleared are put.  So the entries are
different cells, in every state, and `head` stays within the grid (`Bounded`).

`num_islands` has no part in the way that is taken and is exact here.
-/

namespace Islands

open Cells Transition

variable {rows cols : Nat}

/-! ## The machine -/

/-- Where the call is.  `rest` are the cells that the scan has yet to come to. -/
inductive Place (rows cols : Nat) where
  /-- At the head of the loops over the cells. -/
  | scan (rest : List (Cell rows cols))
  /-- At the head of the loop while the queue is not empty. -/
  | flood (rest : List (Cell rows cols))
  /-- At the head of the loop over the directions, with `ks` to come. -/
  | look (this : Cell rows cols) (ks : List (Fin 4)) (rest : List (Cell rows cols))
  | done

structure Config (rows cols : Nat) where
  place : Place rows cols
  state : State rows cols

/-- `queue_put`, whether there is room or not, and `grid[x][y] = '0'`. -/
def State.mark (s : State rows cols) (c : Cell rows cols) : State rows cols :=
  s.found (Function.update s.grid c '0') [c]

inductive Step : Config rows cols → Config rows cols → Prop where
  | water : s.grid c = '0' → Step ⟨.scan (c :: rest), s⟩ ⟨.scan rest, s⟩
  | land : s.grid c ≠ '0' →
      Step ⟨.scan (c :: rest), s⟩ ⟨.flood rest, { s.mark c with num_islands := s.num_islands + 1 }⟩
  | get : queueEmpty s.q = false → queueGet s.q = some (this, q) →
      Step ⟨.flood rest, s⟩ ⟨.look this (List.finRange 4) rest, { s with q }⟩
  | empty : queueEmpty s.q = true → Step ⟨.flood rest, s⟩ ⟨.scan rest, s⟩
  | outside : next this k = none → Step ⟨.look this (k :: ks) rest, s⟩ ⟨.look this ks rest, s⟩
  | cleared : next this k = some c → s.grid c = '0' →
      Step ⟨.look this (k :: ks) rest, s⟩ ⟨.look this ks rest, s⟩
  | found : next this k = some c → s.grid c ≠ '0' →
      Step ⟨.look this (k :: ks) rest, s⟩ ⟨.look this ks rest, s.mark c⟩
  | looked : Step ⟨.look this [] rest, s⟩ ⟨.flood rest, s⟩
  | scanned : Step ⟨.scan [], s⟩ ⟨.done, s⟩

/-- A call of `numberOfIslands` that gets its memory. -/
def machine (grid : Grid rows cols) : System (Config rows cols) Unit where
  init x := x = ⟨.scan (all rows cols), ⟨grid, ⟨[], 0⟩, 0⟩⟩
  step x _ y := Step x y

variable {grid : Grid rows cols} {s s' : State rows cols} {c this : Cell rows cols}
  {rest : List (Cell rows cols)} {ks : List (Fin 4)} {fuel : Nat}

/-! ## The machine does what the function does -/

theorem reachable_step {x y : Config rows cols} (h : (machine grid).Reachable x) (hstep : Step x y) :
    (machine grid).Reachable y := h.step (a := ()) hstep

/-- What a call of `look` with a result does. -/
theorem look_cases {k : Fin 4} (h : look this s k = some s') :
    (next this k = none ∧ s' = s) ∨
    (∃ c, next this k = some c ∧ s.grid c = '0' ∧ s' = s) ∨
    ∃ c, next this k = some c ∧ s.grid c ≠ '0' ∧ s' = s.mark c := by
  rw [look] at h
  cases hk : next this k with
  | none =>
      rw [hk] at h
      exact .inl ⟨rfl, (Option.some.inj h).symm⟩
  | some c =>
      rw [hk] at h
      simp only at h
      split at h
      · next hc => exact .inr (.inl ⟨c, rfl, hc, (Option.some.inj h).symm⟩)
      · next hc =>
        obtain ⟨q, hput, h⟩ := Option.bind_eq_some_iff.mp h
        rw [queuePut] at hput
        split at hput
        · cases hput
          exact .inr (.inr ⟨c, rfl, hc, (Option.some.inj h).symm⟩)
        · cases hput

theorem reachable_looked (h : (machine grid).Reachable ⟨.look this ks rest, s⟩)
    (hrun : ks.foldlM (look this) s = some s') :
    (machine grid).Reachable ⟨.look this [] rest, s'⟩ := by
  induction ks generalizing s with
  | nil =>
      cases hrun
      exact h
  | cons k ks ih =>
      rw [List.foldlM_cons] at hrun
      obtain ⟨s₁, hlook, hloop⟩ := Option.bind_eq_some_iff.mp hrun
      rcases look_cases hlook with ⟨hk, rfl⟩ | ⟨c, hk, hc, rfl⟩ | ⟨c, hk, hc, rfl⟩
      · exact ih (reachable_step h (.outside hk)) hloop
      · exact ih (reachable_step h (.cleared hk hc)) hloop
      · exact ih (reachable_step h (.found hk hc)) hloop

theorem reachable_flooded (h : (machine grid).Reachable ⟨.flood rest, s⟩)
    (hrun : flood fuel s = some s') : (machine grid).Reachable ⟨.scan rest, s'⟩ := by
  induction fuel generalizing s with
  | zero => cases hrun
  | succ fuel ih =>
      rw [flood] at hrun
      split at hrun
      · next hempty =>
        cases hrun
        exact reachable_step h (.empty hempty)
      · next hempty =>
        obtain ⟨⟨this, q⟩, hget, hrun⟩ := Option.bind_eq_some_iff.mp hrun
        obtain ⟨s₁, hlook, hrun⟩ := Option.bind_eq_some_iff.mp hrun
        have hthis := reachable_step h (.get (Bool.eq_false_of_not_eq_true hempty) hget)
        exact ih (reachable_step (reachable_looked hthis hlook) .looked) hrun

theorem reachable_visited (h : (machine grid).Reachable ⟨.scan (c :: rest), s⟩)
    (hrun : visit fuel s c = some s') : (machine grid).Reachable ⟨.scan rest, s'⟩ := by
  rw [visit] at hrun
  split at hrun
  · next hc =>
    cases hrun
    exact reachable_step h (.water hc)
  · next hc =>
    obtain ⟨q, hput, hrun⟩ := Option.bind_eq_some_iff.mp hrun
    rw [queuePut] at hput
    split at hput
    · cases hput
      split at hrun
      · exact reachable_flooded (reachable_step h (.land hc)) hrun
      · cases hrun
    · cases hput

theorem reachable_scanned (h : (machine grid).Reachable ⟨.scan rest, s⟩)
    (hrun : rest.foldlM (visit fuel) s = some s') : (machine grid).Reachable ⟨.done, s'⟩ := by
  induction rest generalizing s with
  | nil =>
      cases hrun
      exact reachable_step h .scanned
  | cons c rest ih =>
      rw [List.foldlM_cons] at hrun
      obtain ⟨s₁, hvisit, hrun⟩ := Option.bind_eq_some_iff.mp hrun
      exact ih (reachable_visited h hvisit) hrun

/-- What the function returns, the machine comes to. -/
theorem reachable_done {num_islands : Nat} {g : Grid rows cols}
    (h : numberOfIslands true true fuel grid = some (.returns num_islands g)) :
    ∃ s, (machine grid).Reachable ⟨.done, s⟩ ∧ s.num_islands = num_islands ∧ s.grid = g := by
  rw [numberOfIslands_eq] at h
  obtain ⟨s, hrun, h⟩ := Option.map_eq_some_iff.mp h
  cases h
  exact ⟨s, reachable_scanned (.init rfl) hrun, rfl, rfl⟩

/-! ## The bounds -/

/-- No cell is put twice, `head` stays within `rows * cols` and `tail` does not pass it. -/
structure Bounded (s : State rows cols) : Prop where
  nodup : s.q.entries.Nodup
  head_le : s.q.entries.length ≤ rows * cols
  tail_le : s.q.tail ≤ s.q.entries.length

/-- The entries are different cells, which were cleared, and `tail` does not pass `head`. -/
structure Kept (s : State rows cols) : Prop where
  entries : Entries s
  tail_le : s.q.tail ≤ s.q.entries.length

theorem Kept.bounded (h : Kept s) : Bounded s := ⟨h.entries.nodup, length_le h.entries.nodup, h.tail_le⟩

theorem Kept.mark (h : Kept s) (hc : s.grid c ≠ '0') : Kept (s.mark c) := by
  refine ⟨(h.entries.put hc).2, h.tail_le.trans ?_⟩
  show s.q.entries.length ≤ (s.q.entries ++ [c]).length
  rw [List.length_append]
  exact Nat.le_add_right _ _

theorem Kept.get (h : Kept s) {q : Queue rows cols} (hget : queueGet s.q = some (this, q)) :
    Kept { s with q } := by
  obtain ⟨d, hd, heq⟩ := Option.map_eq_some_iff.mp hget
  cases heq
  obtain ⟨hlt, -⟩ := List.getElem?_eq_some_iff.mp hd
  exact ⟨h.entries, hlt⟩

theorem kept_step {x y : Config rows cols} (h : Kept x.state) (hstep : Step x y) : Kept y.state := by
  cases hstep with
  | water _ => exact h
  | land hc => exact ⟨(h.mark hc).entries, (h.mark hc).tail_le⟩
  | get _ hget => exact h.get hget
  | empty _ => exact h
  | outside _ => exact h
  | cleared _ _ => exact h
  | found _ hc => exact h.mark hc
  | looked => exact h
  | scanned => exact h

theorem kept_invariant (grid : Grid rows cols) : (machine grid).Invariant fun x => Kept x.state where
  start := by
    rintro x rfl
    exact ⟨⟨List.nodup_nil, nofun⟩, Nat.le_refl 0⟩
  next _ _ _ _ := kept_step

/-- So there is always an entry to get while the queue is not empty. -/
theorem exists_step {x : Config rows cols} (hx : (machine grid).Reachable x) (hplace : x.place ≠ .done) :
    ∃ y, Step x y := by
  have hkept := (kept_invariant grid).reachable hx
  obtain ⟨place, s⟩ := x
  cases place with
  | scan rest =>
      cases rest with
      | nil => exact ⟨_, .scanned⟩
      | cons c rest =>
          by_cases hc : s.grid c = '0'
          · exact ⟨_, .water hc⟩
          · exact ⟨_, .land hc⟩
  | flood rest =>
      cases hempty : queueEmpty s.q with
      | true => exact ⟨_, .empty hempty⟩
      | false =>
          have hne : s.q.entries.length ≠ s.q.tail := by simpa [queueEmpty] using hempty
          have hlt : s.q.tail < s.q.entries.length := lt_of_le_of_ne hkept.tail_le hne.symm
          have hget : queueGet s.q = some (s.q.entries[s.q.tail], { s.q with tail := s.q.tail + 1 }) := by
            rw [queueGet, List.getElem?_eq_getElem hlt]
            rfl
          exact ⟨_, .get hempty hget⟩
  | look this ks rest =>
      cases ks with
      | nil => exact ⟨_, .looked⟩
      | cons k ks =>
          cases hk : next this k with
          | none => exact ⟨_, .outside hk⟩
          | some c =>
              by_cases hc : s.grid c = '0'
              · exact ⟨_, .cleared hk hc⟩
              · exact ⟨_, .found hk hc⟩
  | done => exact absurd rfl hplace

end Islands
