import SystemsDrills.Islands.QueueBounds
import SystemsDrills.Oranges.OrangesRotting

/-!
# The queues of `orangesRotting`

Neither does `queue_add` look whether `buff` has room, and here there are two queues, which change
their roles each minute.  As for `numberOfIslands` the call is a machine in which `queue_add` always
stores and whose steps are the bodies of the loops.

The entries of the two queues together are different cells, and all of them are rotten.  A cell
rots when it is added, and the first loops add each rotten cell when they come to it.  `fresh` is
the number of fresh cells among those that the first loops have come past, which in the end are all.
-/

namespace Oranges

open Cells Transition

variable {m n : Nat}

/-! ## The machine -/

/-- Where the call is. -/
inductive Place (m n : Nat) where
  /-- In the first loops, which have come past `seen` and have yet to come to `rest`. -/
  | count (seen rest : List (Cell m n))
  /-- At the head of the loop over the minutes. -/
  | minutes
  /-- At the head of the loop over the cells that wait in `curr`. -/
  | drain
  /-- At the head of the loop over the directions, with `ks` to come. -/
  | look (this : Cell m n) (ks : List (Fin 4))
  | done

structure Config (m n : Nat) where
  place : Place m n
  state : State m n

/-- `queue_add`, whether there is room or not. -/
def Queue.add (q : Queue m n) (c : Cell m n) : Queue m n := { q with buff := q.buff ++ [c] }

/-- A fresh cell rots. -/
def State.rot (s : State m n) (c : Cell m n) : State m n :=
  { s with fresh := s.fresh - 1, next := s.next.add c, grid := Function.update s.grid c 2 }

inductive Step : Config m n → Config m n → Prop where
  | fresh : s.grid c = 1 →
      Step ⟨.count seen (c :: rest), s⟩ ⟨.count (seen ++ [c]) rest, { s with fresh := s.fresh + 1 }⟩
  | rotten : s.grid c = 2 →
      Step ⟨.count seen (c :: rest), s⟩ ⟨.count (seen ++ [c]) rest, { s with next := s.next.add c }⟩
  | other : s.grid c ≠ 1 → s.grid c ≠ 2 →
      Step ⟨.count seen (c :: rest), s⟩ ⟨.count (seen ++ [c]) rest, s⟩
  | counted : Step ⟨.count seen [], s⟩ ⟨.minutes, s⟩
  | swap : waiting s.next = true → s.fresh ≠ 0 →
      Step ⟨.minutes, s⟩
        ⟨.drain, { s with minutes := s.minutes + 1, curr := s.next, next := s.curr }⟩
  | finished : ¬ (waiting s.next = true ∧ s.fresh ≠ 0) → Step ⟨.minutes, s⟩ ⟨.done, s⟩
  | get : waiting s.curr = true → s.curr.buff[s.curr.tail]? = some this →
      Step ⟨.drain, s⟩
        ⟨.look this (List.finRange 4), { s with curr := { s.curr with tail := s.curr.tail + 1 } }⟩
  | drained : waiting s.curr = false → Step ⟨.drain, s⟩ ⟨.minutes, s⟩
  | outside : nextCell this k = none → Step ⟨.look this (k :: ks), s⟩ ⟨.look this ks, s⟩
  | kept : nextCell this k = some c → s.grid c ≠ 1 →
      Step ⟨.look this (k :: ks), s⟩ ⟨.look this ks, s⟩
  | rots : nextCell this k = some c → s.grid c = 1 →
      Step ⟨.look this (k :: ks), s⟩ ⟨.look this ks, s.rot c⟩
  | looked : Step ⟨.look this [], s⟩ ⟨.drain, s⟩

/-- A call of `orangesRotting`. -/
def machine (grid : Grid m n) : System (Config m n) Unit where
  init x := x = ⟨.count [] (all m n), ⟨grid, 0, ⟨[], 0⟩, ⟨[], 0⟩, 0⟩⟩
  step x _ y := Step x y

variable {grid : Grid m n} {s s' : State m n} {c this : Cell m n} {seen rest : List (Cell m n)}
  {ks : List (Fin 4)} {inner fuel : Nat}

/-! ## The machine does what the function does -/

theorem reachable_step {x y : Config m n} (h : (machine grid).Reachable x) (hstep : Step x y) :
    (machine grid).Reachable y := h.step (a := ()) hstep

theorem queueAdd_eq_some {q q' : Queue m n} (h : queueAdd q c = some q') : q' = q.add c := by
  rw [queueAdd] at h
  split at h
  · exact (Option.some.inj h).symm
  · cases h

theorem reachable_counted (h : (machine grid).Reachable ⟨.count seen rest, s⟩)
    (hrun : rest.foldlM start s = some s') : (machine grid).Reachable ⟨.minutes, s'⟩ := by
  induction rest generalizing s seen with
  | nil =>
      cases hrun
      exact reachable_step h .counted
  | cons c rest ih =>
      rw [List.foldlM_cons] at hrun
      obtain ⟨s₁, hstart, hloop⟩ := Option.bind_eq_some_iff.mp hrun
      rw [start] at hstart
      split at hstart
      · next hc =>
        cases hstart
        exact ih (reachable_step h (.fresh hc)) hloop
      · next hc =>
        split at hstart
        · next hc' =>
          obtain ⟨q, hadd, hstart⟩ := Option.bind_eq_some_iff.mp hstart
          cases queueAdd_eq_some hadd
          cases hstart
          exact ih (reachable_step h (.rotten hc')) hloop
        · next hc' =>
          cases hstart
          exact ih (reachable_step h (.other hc hc')) hloop

theorem reachable_looked (h : (machine grid).Reachable ⟨.look this ks, s⟩)
    (hrun : ks.foldlM (look this) s = some s') : (machine grid).Reachable ⟨.drain, s'⟩ := by
  induction ks generalizing s with
  | nil =>
      cases hrun
      exact reachable_step h .looked
  | cons k ks ih =>
      rw [List.foldlM_cons] at hrun
      obtain ⟨s₁, hlook, hloop⟩ := Option.bind_eq_some_iff.mp hrun
      rw [look] at hlook
      split at hlook
      · next hk =>
        cases hlook
        exact ih (reachable_step h (.outside hk)) hloop
      · next c hk =>
        split at hlook
        · next hc =>
          obtain ⟨q, hadd, hlook⟩ := Option.bind_eq_some_iff.mp hlook
          cases queueAdd_eq_some hadd
          cases hlook
          exact ih (reachable_step h (.rots hk hc)) hloop
        · next hc =>
          cases hlook
          exact ih (reachable_step h (.kept hk hc)) hloop

theorem reachable_drained (h : (machine grid).Reachable ⟨.drain, s⟩)
    (hrun : minute fuel s = some s') : (machine grid).Reachable ⟨.minutes, s'⟩ := by
  induction fuel generalizing s with
  | zero => cases hrun
  | succ fuel ih =>
      rw [minute] at hrun
      split at hrun
      · next hwait =>
        obtain ⟨this, hget, hrun⟩ := Option.bind_eq_some_iff.mp hrun
        obtain ⟨s₁, hlook, hloop⟩ := Option.bind_eq_some_iff.mp hrun
        exact ih (reachable_looked (reachable_step h (.get hwait hget)) hlook) hloop
      · next hwait =>
        cases hrun
        exact reachable_step h (.drained (Bool.eq_false_of_not_eq_true hwait))

theorem reachable_finished (h : (machine grid).Reachable ⟨.minutes, s⟩)
    (hrun : rot inner fuel s = some s') : (machine grid).Reachable ⟨.done, s'⟩ := by
  induction fuel generalizing s with
  | zero => cases hrun
  | succ fuel ih =>
      rw [Oranges.rot] at hrun
      split at hrun
      · next hgo =>
        obtain ⟨s₁, hminute, hloop⟩ := Option.bind_eq_some_iff.mp hrun
        exact ih (reachable_drained (reachable_step h (.swap hgo.1 hgo.2)) hminute) hloop
      · next hgo =>
        cases hrun
        exact reachable_step h (.finished hgo)

/-- What the function returns, the machine comes to. -/
theorem reachable_done {r : Int} {g : Grid m n} (h : orangesRotting inner fuel grid = some (r, g)) :
    ∃ s, (machine grid).Reachable ⟨.done, s⟩ ∧ r = (if s.fresh ≠ 0 then (-1 : Int) else s.minutes) ∧
      s.grid = g := by
  rw [orangesRotting_eq] at h
  obtain ⟨s, hrun, h⟩ := Option.map_eq_some_iff.mp h
  obtain ⟨s₀, hstart, hrot⟩ := Option.bind_eq_some_iff.mp hrun
  cases h
  exact ⟨s, reachable_finished (reachable_counted (.init rfl) hstart) hrot, rfl, rfl⟩

/-! ## The bounds -/

/-- The cells that the first loops have come past. -/
def Place.passed : Place m n → List (Cell m n)
  | .count seen _ => seen
  | .minutes => all m n
  | .drain => all m n
  | .look _ _ => all m n
  | .done => all m n

/-- The number of them that are fresh. -/
def Config.freshPassed (x : Config m n) : Nat := x.place.passed.countP fun c => x.state.grid c = 1

/-- No cell is added twice, `head` stays within `buff` and `tail` does not pass it, in both queues,
and `fresh` is the number of fresh cells that were passed. -/
structure Bounded (x : Config m n) : Prop where
  nodup : (x.state.curr.buff ++ x.state.next.buff).Nodup
  curr_head : x.state.curr.buff.length ≤ 100
  next_head : x.state.next.buff.length ≤ 100
  curr_tail : x.state.curr.tail ≤ x.state.curr.buff.length
  next_tail : x.state.next.tail ≤ x.state.next.buff.length
  fresh : x.state.fresh = x.freshPassed

/-- In the first loops the entries are different cells, which are rotten and were passed. -/
structure Counting (seen rest : List (Cell m n)) (s : State m n) : Prop where
  whole : seen ++ rest = all m n
  entries : Recorded 2 s.grid (s.curr.buff ++ s.next.buff)
  passed : ∀ c ∈ s.curr.buff ++ s.next.buff, c ∈ seen
  curr_tail : s.curr.tail ≤ s.curr.buff.length
  next_tail : s.next.tail ≤ s.next.buff.length
  fresh : s.fresh = seen.countP fun c => s.grid c = 1

/-- After them it does not matter where the call is. -/
structure Settled (s : State m n) : Prop where
  entries : Recorded 2 s.grid (s.curr.buff ++ s.next.buff)
  curr_tail : s.curr.tail ≤ s.curr.buff.length
  next_tail : s.next.tail ≤ s.next.buff.length
  fresh : s.fresh = freshCount s.grid

def Kept (x : Config m n) : Prop :=
  match x.place with
  | .count seen rest => Counting seen rest x.state
  | .minutes => Settled x.state
  | .drain => Settled x.state
  | .look _ _ => Settled x.state
  | .done => Settled x.state

theorem bounded_of_recorded {x : Config m n} (hsize : m * n ≤ 100)
    (hentries : Recorded 2 x.state.grid (x.state.curr.buff ++ x.state.next.buff))
    (hcurr : x.state.curr.tail ≤ x.state.curr.buff.length)
    (hnext : x.state.next.tail ≤ x.state.next.buff.length)
    (hfresh : x.state.fresh = x.freshPassed) : Bounded x := by
  have hlen := (length_le hentries.nodup).trans hsize
  rw [List.length_append] at hlen
  exact ⟨hentries.nodup, by omega, by omega, hcurr, hnext, hfresh⟩

theorem Kept.bounded {x : Config m n} (h : Kept x) (hsize : m * n ≤ 100) : Bounded x := by
  obtain ⟨place, s⟩ := x
  cases place with
  | count seen rest =>
      have h : Counting seen rest s := h
      exact bounded_of_recorded hsize h.entries h.curr_tail h.next_tail h.fresh
  | minutes | drain | look _ _ | done =>
      have h : Settled s := h
      exact bounded_of_recorded hsize h.entries h.curr_tail h.next_tail h.fresh

/-- The first loops come past a cell. -/
theorem Counting.pass (h : Counting seen (c :: rest) s) :
    seen ++ [c] ++ rest = all m n ∧ c ∉ s.curr.buff ++ s.next.buff ∧
      (∀ d ∈ s.curr.buff ++ s.next.buff, d ∈ seen ++ [c]) ∧
      ((seen ++ [c]).countP (fun d => s.grid d = 1) : Int) =
        s.fresh + if s.grid c = 1 then 1 else 0 := by
  have hnodup : (seen ++ c :: rest).Nodup := h.whole ▸ nodup_all m n
  refine ⟨(List.append_cons seen c rest).symm.trans h.whole, fun hin => ?_,
    fun d hd => List.mem_append_left [c] (h.passed d hd), ?_⟩
  · exact List.disjoint_of_nodup_append hnodup (h.passed c hin) List.mem_cons_self
  · rw [h.fresh, List.countP_append, List.countP_singleton]
    simp

theorem Counting.countFresh (h : Counting seen (c :: rest) s) (hc : s.grid c = 1) :
    Counting (seen ++ [c]) rest { s with fresh := s.fresh + 1 } := by
  obtain ⟨hwhole, -, hpassed, hfresh⟩ := h.pass
  rw [if_pos hc] at hfresh
  exact ⟨hwhole, h.entries, hpassed, h.curr_tail, h.next_tail, hfresh.symm⟩

theorem Counting.addRotten (h : Counting seen (c :: rest) s) (hc : s.grid c = 2) :
    Counting (seen ++ [c]) rest { s with next := s.next.add c } := by
  obtain ⟨hwhole, hnew, hpassed, hfresh⟩ := h.pass
  rw [if_neg (by rw [hc]; decide), add_zero] at hfresh
  have hentries := h.entries.append hc hnew
  have hassoc : s.curr.buff ++ (s.next.add c).buff = s.curr.buff ++ s.next.buff ++ [c] :=
    (List.append_assoc ..).symm
  refine ⟨hwhole, hassoc ▸ hentries, fun d hd => ?_, h.curr_tail, ?_, hfresh.symm⟩
  · rw [hassoc] at hd
    rcases List.mem_append.mp hd with hd | hd
    · exact hpassed d hd
    · exact List.mem_append_right seen hd
  · exact h.next_tail.trans (List.sublist_append_left ..).length_le

theorem Counting.skip (h : Counting seen (c :: rest) s) (hc : s.grid c ≠ 1) :
    Counting (seen ++ [c]) rest s := by
  obtain ⟨hwhole, -, hpassed, hfresh⟩ := h.pass
  rw [if_neg hc, add_zero] at hfresh
  exact ⟨hwhole, h.entries, hpassed, h.curr_tail, h.next_tail, hfresh.symm⟩

theorem Counting.settled (h : Counting seen [] s) : Settled s := by
  have hseen : seen = all m n := (List.append_nil seen).symm.trans h.whole
  refine ⟨h.entries, h.curr_tail, h.next_tail, ?_⟩
  rw [freshCount, ← hseen]
  exact h.fresh

theorem Settled.rot (h : Settled s) (hc : s.grid c = 1) : Settled (s.rot c) := by
  have hne : s.grid c ≠ 2 := by
    rw [hc]
    decide
  obtain ⟨-, hput⟩ := h.entries.put hne
  rw [List.append_assoc] at hput
  refine ⟨hput, h.curr_tail, h.next_tail.trans (List.sublist_append_left ..).length_le, ?_⟩
  have hcount := freshCount_update hc
  have hfresh := h.fresh
  show s.fresh - 1 = (freshCount (Function.update s.grid c 2) : Int)
  omega

theorem kept_step {x y : Config m n} (h : Kept x) (hstep : Step x y) : Kept y := by
  cases hstep with
  | fresh hc => exact Counting.countFresh h hc
  | rotten hc => exact Counting.addRotten h hc
  | other hc _ => exact Counting.skip h hc
  | counted => exact Counting.settled h
  | swap _ _ =>
      obtain ⟨hentries, hcurr, hnext, hfresh⟩ := h
      exact ⟨hentries.swap, hnext, hcurr, hfresh⟩
  | finished _ => exact h
  | get _ hget =>
      obtain ⟨hentries, -, hnext, hfresh⟩ := h
      obtain ⟨hlt, -⟩ := List.getElem?_eq_some_iff.mp hget
      exact ⟨hentries, hlt, hnext, hfresh⟩
  | drained _ => exact h
  | outside _ => exact h
  | kept _ _ => exact h
  | rots _ hc => exact Settled.rot h hc
  | looked => exact h

theorem kept_invariant (grid : Grid m n) : (machine grid).Invariant Kept where
  start := by
    rintro x rfl
    exact ⟨rfl, ⟨List.nodup_nil, nofun⟩, nofun, Nat.le_refl 0, Nat.le_refl 0, rfl⟩
  next _ _ _ _ := kept_step

/-- So there is always an entry to get while `curr` is not empty. -/
theorem exists_step {x : Config m n} (hx : (machine grid).Reachable x) (hplace : x.place ≠ .done) :
    ∃ y, Step x y := by
  have hkept := (kept_invariant grid).reachable hx
  obtain ⟨place, s⟩ := x
  cases place with
  | count seen rest =>
      cases rest with
      | nil => exact ⟨_, .counted⟩
      | cons c rest =>
          by_cases hc : s.grid c = 1
          · exact ⟨_, .fresh hc⟩
          by_cases hc' : s.grid c = 2
          · exact ⟨_, .rotten hc'⟩
          · exact ⟨_, .other hc hc'⟩
  | minutes =>
      by_cases hgo : waiting s.next = true ∧ s.fresh ≠ 0
      · exact ⟨_, .swap hgo.1 hgo.2⟩
      · exact ⟨_, .finished hgo⟩
  | drain =>
      cases hwait : waiting s.curr with
      | false => exact ⟨_, .drained hwait⟩
      | true =>
          have hne : s.curr.buff.length ≠ s.curr.tail := by simpa [waiting] using hwait
          have hlt : s.curr.tail < s.curr.buff.length :=
            lt_of_le_of_ne (Settled.curr_tail hkept) hne.symm
          exact ⟨_, .get hwait (List.getElem?_eq_getElem hlt)⟩
  | look this ks =>
      cases ks with
      | nil => exact ⟨_, .looked⟩
      | cons k ks =>
          cases hk : nextCell this k with
          | none => exact ⟨_, .outside hk⟩
          | some c =>
              by_cases hc : s.grid c = 1
              · exact ⟨_, .rots hk hc⟩
              · exact ⟨_, .kept hk hc⟩
  | done => exact absurd rfl hplace

/-- In every state of every call, neither search has put a cell into its queues twice, no `head` is
behind the end of its array and no `tail` passes its `head`.  The grid may have any size for
`numberOfIslands` and has up to 100 cells for `orangesRotting`, whose `fresh` is the number of fresh
cells that its first loops have come past. -/
theorem queues_bounded {rows cols : Nat} (land : Islands.Grid rows cols) (grid : Grid m n)
    (hsize : m * n ≤ 100) :
    (∀ x, (Islands.machine land).Reachable x → Islands.Bounded x.state) ∧
    ∀ x, (machine grid).Reachable x → Bounded x :=
  ⟨fun _ hx => ((Islands.kept_invariant land).reachable hx).bounded,
    fun _ hx => ((kept_invariant grid).reachable hx).bounded hsize⟩

/-- The first grid of the islands when a second cell was put, and a grid with one rotten cell when it has
made two others rot. -/
theorem queues_bounded_spread :
    (∃ x, (Islands.machine Islands.firstGrid).Reachable x ∧
      x.state.q = ⟨[(0, 0), (0, 1)], 1⟩ ∧ Islands.Bounded x.state) ∧
    ∃ x, (machine fun c : Cell 2 2 => if c = (0, 0) then 2 else 1).Reachable x ∧
      x.state.curr = ⟨[(0, 0)], 1⟩ ∧ x.state.next = ⟨[(0, 1), (1, 0)], 0⟩ ∧ x.state.fresh = 1 ∧
      Bounded x := by
  obtain ⟨hislands, horanges⟩ :=
    queues_bounded Islands.firstGrid (fun c : Cell 2 2 => if c = (0, 0) then 2 else 1) (by decide)
  refine ⟨?_, ?_⟩
  · have h0 : (Islands.machine Islands.firstGrid).Reachable _ := .init rfl
    have h1 := Islands.reachable_step h0 (.land (c := (0, 0)) (by decide))
    have h2 := Islands.reachable_step h1 (.get rfl rfl)
    have h3 := Islands.reachable_step h2 (.outside (k := 0) (by decide))
    have h4 := Islands.reachable_step h3 (.found (k := 1) (c := (0, 1)) (by decide) (by decide))
    exact ⟨_, h4, rfl, hislands _ h4⟩
  · have h0 : (machine fun c : Cell 2 2 => if c = (0, 0) then 2 else 1).Reachable _ := .init rfl
    have h1 := reachable_step h0 (.rotten (c := (0, 0)) (by decide))
    have h2 := reachable_step h1 (.fresh (c := (0, 1)) (by decide))
    have h3 := reachable_step h2 (.fresh (c := (1, 0)) (by decide))
    have h4 := reachable_step h3 (.fresh (c := (1, 1)) (by decide))
    have h5 := reachable_step h4 .counted
    have h6 := reachable_step h5 (.swap (by decide) (by decide))
    have h7 := reachable_step h6 (.get (by decide) rfl)
    have h8 := reachable_step h7 (.outside (k := 0) (by decide))
    have h9 := reachable_step h8 (.rots (k := 1) (c := (0, 1)) (by decide) (by decide))
    have h10 := reachable_step h9 (.rots (k := 2) (c := (1, 0)) (by decide) (by decide))
    exact ⟨_, h10, rfl, rfl, rfl, horanges _ h10⟩

/-- Before the first loops have come to a fresh cell it is not counted. -/
theorem not_fresh_eq_count :
    1 * 1 ≤ 100 ∧ ¬ ∀ x, (machine fun _ : Cell 1 1 => (1 : Int)).Reachable x →
      x.state.fresh = freshCount x.state.grid := by
  refine ⟨by decide, fun h => ?_⟩
  have hstart := h _ (.init rfl)
  exact absurd hstart (by decide)

end Oranges
