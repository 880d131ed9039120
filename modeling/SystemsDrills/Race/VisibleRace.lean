import SystemsDrills.Lib.Transition
import Mathlib.Algebra.BigOperators.Fin
import Mathlib.Algebra.BigOperators.Ring.Finset

/-!
# The race that can be seen

`worker` of `concurrency/00-visible_race/visible_race.c`: each thread increments a shared counter `iter`
times and nothing orders the threads.  The counter is `volatile`, so each round loads it and stores it,
and the other threads may do anything in between.

The result of `main` is then any number from 2 to the number of increments, and no other
(`counter_range`).  A lost update costs more than one increment, since a thread may sit on an old value
while the others do all their rounds.  But the last store comes from a thread that has stored before, so
the value it loaded is at least 1.

`int i` counts up to `iter`, so `iter` must fit into an `int`.  The counter is a `long long` and does
not overflow then, which is part of the result.
-/

namespace VisibleRace

open Transition

/-- Where a thread is in a round. -/
inductive Body where
  /-- Before the loop test and the load. -/
  | load
  /-- The load returned `v`, before the store of `v + 1`. -/
  | store (v : Nat)
deriving DecidableEq

structure State (T : Type) where
  counter : Nat
  i : T → Nat
  body : T → Body

inductive Act (T : Type) where
  | load (t : T)
  | store (t : T)

inductive Step [DecidableEq T] (iter : Int) : State T → Act T → State T → Prop where
  | load {t : T} :
      s.body t = .load → (s.i t : Int) < iter →
      Step iter s (.load t) { s with body := Function.update s.body t (.store s.counter) }
  | store {t : T} :
      s.body t = .store v →
      Step iter s (.store t)
        { s with
          counter := v + 1
          i := Function.update s.i t (s.i t + 1)
          body := Function.update s.body t .load }

@[simps] def start (T : Type) : State T := ⟨0, fun _ => 0, fun _ => .load⟩

/-- The threads of type `T` run `worker` on a counter that starts at 0. -/
def workers (iter : Int) (T : Type) [DecidableEq T] : System (State T) (Act T) where
  init s := s = start T
  step := Step iter

variable {T : Type}

/-- The thread has left its loop. -/
def State.Finished (s : State T) (iter : Int) (t : T) : Prop :=
  s.body t = .load ∧ ¬ (s.i t : Int) < iter

variable {iter : Int} {s s' : State T} {a : Act T}

section

variable [DecidableEq T]

/-- After `k` rounds of a thread that no other thread disturbs. -/
@[simps] def State.rounds (s : State T) (t : T) (k : Nat) : State T :=
  { s with counter := s.counter + k, i := Function.update s.i t (s.i t + k) }

/-- A round. -/
theorem reachable_round (hs : (workers iter T).Reachable s) {t : T} (hbody : s.body t = .load)
    (hi : s.i t < iter.toNat) : (workers iter T).Reachable (s.rounds t 1) := by
  have hload := hs.step (Step.load hbody (Int.lt_toNat.mp hi))
  have hstore := hload.step (Step.store (t := t) (Function.update_self ..))
  have heq : Function.update (Function.update s.body t (.store s.counter)) t .load = s.body := by
    rw [Function.update_idem, Function.update_eq_self_iff, hbody]
  simp only [heq] at hstore
  exact hstore

theorem reachable_rounds (hs : (workers iter T).Reachable s) {t : T} (hbody : s.body t = .load)
    {k : Nat} (hk : s.i t + k ≤ iter.toNat) : (workers iter T).Reachable (s.rounds t k) := by
  induction k with
  | zero =>
      have hzero : s.rounds t 0 = s := by simp [State.rounds]
      rwa [hzero]
  | succ k ih =>
      have hround := reachable_round (ih (by omega)) (t := t) hbody (by simp; omega)
      have heq : (s.rounds t k).rounds t 1 = s.rounds t (k + 1) := by
        simp [State.rounds, Nat.add_assoc]
      rwa [heq] at hround

end

/-! ## Bounds -/

variable [Fintype T]

structure State.Inv (s : State T) (n : Nat) : Prop where
  le : ∀ t, s.i t ≤ n
  started : ∀ t v, s.body t = .store v → s.i t < n
  counter : s.counter ≤ ∑ t, s.i t
  loaded : ∀ t v, s.body t = .store v → v ≤ ∑ t, s.i t
  /-- Once a thread has stored, the counter is not 0 again. -/
  pos : ∀ t, 1 ≤ s.i t → 1 ≤ s.counter
  loadedPos : ∀ t v, s.body t = .store v → 1 ≤ s.i t → 1 ≤ v
  /-- A store of 1 is the first one of its thread. -/
  two : 2 ≤ n → 2 ≤ s.counter ∨ ∃ t, s.i t < n

theorem inv_start [Nonempty T] (n : Nat) : (start T).Inv n := by
  constructor
  case le => exact fun t => Nat.zero_le _
  case started => exact fun t v h => nomatch h
  case counter => exact Nat.zero_le _
  case loaded => exact fun t v h => nomatch h
  case pos => exact fun t h => absurd h (by simp)
  case loadedPos => exact fun t v h => nomatch h
  case two => exact fun h => .inr ⟨Classical.arbitrary T, Nat.zero_lt_of_lt h⟩

/-- The counter when all threads are through. -/
theorem State.Inv.bounds [Nonempty T] (h : s.Inv iter.toNat) (hdone : ∀ t, s.Finished iter t) :
    min 2 iter.toNat ≤ s.counter ∧ s.counter ≤ Fintype.card T * iter.toNat := by
  have hi : ∀ t, s.i t = iter.toNat := fun t =>
    le_antisymm (h.le t) (Nat.le_of_not_lt fun hlt => (hdone t).2 (Int.lt_toNat.mp hlt))
  refine ⟨?_, h.counter.trans_eq (by simp [hi])⟩
  have t := Classical.arbitrary T
  rcases Nat.lt_or_ge iter.toNat 2 with hlt | hge
  · rw [min_eq_right hlt.le]
    rcases Nat.eq_zero_or_pos iter.toNat with hzero | hpos
    · rw [hzero]
      exact Nat.zero_le _
    · have := h.pos t (by rw [hi]; exact hpos)
      omega
  · rw [min_eq_left hge]
    refine (h.two hge).resolve_right fun ⟨u, hu⟩ => ?_
    rw [hi] at hu
    exact absurd hu (lt_irrefl _)

section

variable [DecidableEq T]

theorem State.Inv.load (h : s.Inv iter.toNat) {t : T} (hi : (s.i t : Int) < iter) :
    State.Inv { s with body := Function.update s.body t (.store s.counter) } iter.toNat := by
  have hcases : ∀ u v, Function.update s.body t (.store s.counter) u = .store v →
      u = t ∧ v = s.counter ∨ s.body u = .store v := by
    intro u v hu
    rw [Function.update_apply] at hu
    split at hu
    · next hut => exact .inl ⟨hut, (Body.store.inj hu).symm⟩
    · exact .inr hu
  constructor
  case le => exact h.le
  case started =>
    intro u v hu
    obtain ⟨rfl, -⟩ | hu := hcases u v hu
    · exact Int.lt_toNat.mpr hi
    · exact h.started u v hu
  case counter => exact h.counter
  case loaded =>
    intro u v hu
    obtain ⟨-, rfl⟩ | hu := hcases u v hu
    · exact h.counter
    · exact h.loaded u v hu
  case pos => exact h.pos
  case loadedPos =>
    intro u v hu hpos
    obtain ⟨-, rfl⟩ | hu := hcases u v hu
    · exact h.pos u hpos
    · exact h.loadedPos u v hu hpos
  case two => exact h.two

theorem State.Inv.store {n : Nat} (h : s.Inv n) {t : T} {v : Nat} (hpc : s.body t = .store v) :
    State.Inv
      { s with
        counter := v + 1
        i := Function.update s.i t (s.i t + 1)
        body := Function.update s.body t .load } n := by
  have hlt := h.started t v hpc
  have hsum : ∑ u, Function.update s.i t (s.i t + 1) u = ∑ u, s.i u + 1 := by
    have hone := sum_add_entry (f := Function.update s.i t (s.i t + 1)) (g := s.i)
      (Finset.mem_univ t) fun u hu => Function.update_of_ne hu ..
    rw [Function.update_self] at hone
    omega
  -- A thread at its store is another one, whose `i` is the same.
  have hother : ∀ u w, Function.update s.body t .load u = .store w →
      s.body u = .store w ∧ Function.update s.i t (s.i t + 1) u = s.i u := by
    intro u w hu
    rw [Function.update_apply] at hu
    split at hu
    · cases hu
    · next hut => exact ⟨hu, Function.update_of_ne hut ..⟩
  constructor
  case le =>
    intro u
    show Function.update s.i t (s.i t + 1) u ≤ n
    rw [Function.update_apply]
    split
    · exact hlt
    · exact h.le u
  case started =>
    intro u w hu
    obtain ⟨hu, hi⟩ := hother u w hu
    exact hi.trans_lt (h.started u w hu)
  case counter => exact (Nat.succ_le_succ (h.loaded t v hpc)).trans_eq hsum.symm
  case loaded =>
    intro u w hu
    obtain ⟨hu, -⟩ := hother u w hu
    exact (h.loaded u w hu).trans ((Nat.le_succ _).trans_eq hsum.symm)
  case pos => exact fun u _ => Nat.succ_le_succ (Nat.zero_le v)
  case loadedPos =>
    intro u w hu hpos
    obtain ⟨hu, hi⟩ := hother u w hu
    exact h.loadedPos u w hu (hi ▸ hpos)
  case two =>
    intro hn
    rcases Nat.eq_zero_or_pos (s.i t) with hzero | hpos
    · refine .inr ⟨t, ?_⟩
      show Function.update s.i t (s.i t + 1) t < n
      rw [Function.update_self, hzero]
      exact hn
    · exact .inl (Nat.succ_le_succ (h.loadedPos t v hpc hpos))

theorem inv_invariant [Nonempty T] (iter : Int) :
    (workers iter T).Invariant fun s => s.Inv iter.toNat where
  start s h := by
    subst h
    exact inv_start _
  next s a s' _ hs h := by
    cases h with
    | load _ hi => exact hs.load hi
    | store hpc => exact hs.store hpc

/-! ## Schedules -/

/-- The rounds that the threads other than `p` have left. -/
def State.left (s : State T) (n : Nat) (p : T) : Nat := ∑ t ∈ Finset.univ.erase p, (n - s.i t)

theorem State.left_round {n : Nat} {t p : T} (htp : t ≠ p) (hi : s.i t < n) :
    s.left n p = (s.rounds t 1).left n p + 1 := by
  have hone := sum_add_entry (f := fun u => n - s.i u) (g := fun u => n - (s.rounds t 1).i u)
    (Finset.mem_erase.mpr ⟨htp, Finset.mem_univ t⟩) fun u hu => by simp [hu]
  simp only [State.rounds_i, Function.update_self] at hone
  simp only [State.left, State.rounds_i]
  omega

/-- The threads other than `p` may do any number of rounds that they have left. -/
theorem reachable_others {p : T} {k : Nat} (hs : (workers iter T).Reachable s)
    (hbody : ∀ t, t ≠ p → s.body t = .load) (hk : k ≤ s.left iter.toNat p) :
    ∃ s', (workers iter T).Reachable s' ∧ s'.counter = s.counter + k ∧ s'.body = s.body ∧
      s'.i p = s.i p ∧ s'.left iter.toNat p + k = s.left iter.toNat p := by
  induction k with
  | zero => exact ⟨s, hs, rfl, rfl, rfl, rfl⟩
  | succ k ih =>
      obtain ⟨s', hs', hcounter, hbody', hp, hleft⟩ := ih (by omega)
      obtain ⟨t, ht, hpos⟩ : ∃ t ∈ Finset.univ.erase p, 0 < iter.toNat - s'.i t := by
        by_contra hnone
        push Not at hnone
        have hzero : s'.left iter.toNat p = 0 :=
          Finset.sum_eq_zero fun t ht => Nat.le_zero.mp (hnone t ht)
        omega
      have htp := Finset.ne_of_mem_erase ht
      refine ⟨s'.rounds t 1, reachable_round hs' (by rw [hbody']; exact hbody t htp) (by omega),
        ?_, hbody', ?_, ?_⟩
      · rw [State.rounds_counter, hcounter, Nat.add_assoc]
      · rw [State.rounds_i, Function.update_of_ne htp.symm, hp]
      · rw [State.left_round (s := s') htp (by omega)] at hleft
        omega

theorem State.finished_of_left {p : T} (hbody : ∀ t, t ≠ p → s.body t = .load)
    (hleft : s.left iter.toNat p = 0) {t : T} (ht : t ≠ p) : s.Finished iter t := by
  refine ⟨hbody t ht, fun hi => ?_⟩
  have hzero := Finset.sum_eq_zero_iff.mp hleft t (Finset.mem_erase.mpr ⟨ht, Finset.mem_univ t⟩)
  have := Int.lt_toNat.mpr hi
  omega

/-- A thread that is about to load for the last time may have the last word. -/
theorem reachable_last {p : T} (hs : (workers iter T).Reachable s) (hbody : ∀ t, s.body t = .load)
    (hi : s.i p + 1 = iter.toNat) :
    ∃ s', (workers iter T).Reachable s' ∧ (∀ t, s'.Finished iter t) ∧ s'.counter = s.counter + 1 := by
  have hload := hs.step (Step.load (hbody p) (Int.lt_toNat.mp (by omega)))
  have hothers : ∀ t, t ≠ p → Function.update s.body p (.store s.counter) t = .load := fun t ht => by
    rw [Function.update_of_ne ht, hbody]
  obtain ⟨s', hs', -, hbody', hp, hleft⟩ := reachable_others hload hothers le_rfl
  have hzero : s'.left iter.toNat p = 0 := by omega
  have hstore : s'.body p = .store s.counter := (congrFun hbody' p).trans (Function.update_self ..)
  have hp : s'.i p = s.i p := hp
  refine ⟨_, hs'.step (Step.store hstore), fun t => ?_, rfl⟩
  by_cases ht : t = p
  · subst ht
    refine ⟨Function.update_self .., ?_⟩
    show ¬ ((Function.update s'.i t (s'.i t + 1) t : Nat) : Int) < iter
    rw [Function.update_self, hp]
    omega
  · obtain ⟨hb, hdone⟩ := State.finished_of_left (fun t ht => by rw [hbody']; exact hothers t ht) hzero ht
    refine ⟨(Function.update_of_ne ht ..).trans hb, ?_⟩
    show ¬ ((Function.update s'.i p (s'.i p + 1) t : Nat) : Int) < iter
    rw [Function.update_of_ne ht]
    exact hdone

/-- Every result from the number of rounds of one thread on: `p` does all its rounds but one, the others
do what is missing, `p` loads, and the others' remaining rounds are lost. -/
theorem reachable_of_ge {n c : Nat} (hn : n = iter.toNat) (p : T) (hpos : 0 < n) (hge : n ≤ c)
    (hle : c ≤ Fintype.card T * n) :
    ∃ s, (workers iter T).Reachable s ∧ (∀ t, s.Finished iter t) ∧ s.counter = c := by
  subst hn
  have h0 : (workers iter T).Reachable (start T) := .init rfl
  have h1 := reachable_rounds h0 (t := p) (k := iter.toNat - 1) rfl (by simp)
  have hleft : ((start T).rounds p (iter.toNat - 1)).left iter.toNat p =
      (Fintype.card T - 1) * iter.toNat := by
    rw [State.left, Finset.sum_congr rfl (g := fun _ => iter.toNat)]
    · simp [Finset.card_erase_of_mem]
    · intro t ht
      simp [Finset.ne_of_mem_erase ht]
  have hcard : 1 ≤ Fintype.card T := Fintype.card_pos_iff.mpr ⟨p⟩
  have hk : c - iter.toNat ≤ (Fintype.card T - 1) * iter.toNat := by
    rw [Nat.sub_mul]
    omega
  obtain ⟨s, hs, hcounter, hbody, hp, -⟩ :=
    reachable_others h1 (p := p) (fun _ _ => rfl) (hk.trans_eq hleft.symm)
  have hi : s.i p + 1 = iter.toNat := by
    rw [hp, State.rounds_i, Function.update_self, start_i]
    omega
  obtain ⟨s', hs', hdone, hcounter'⟩ := reachable_last hs (p := p) (by simp [hbody]) hi
  refine ⟨s', hs', hdone, ?_⟩
  rw [hcounter', hcounter, State.rounds_counter, start_counter]
  omega

/-- Every smaller result from 2 on: `q` does `c - 2` rounds and loads, `p` does all its rounds but one,
`q` stores `c - 1` over them, and `p` loads that. -/
theorem reachable_of_lt {n c : Nat} (hn : n = iter.toNat) {p q : T} (hpq : p ≠ q) (htwo : 2 ≤ c)
    (hlt : c < n) : ∃ s, (workers iter T).Reachable s ∧ (∀ t, s.Finished iter t) ∧ s.counter = c := by
  subst hn
  have h0 : (workers iter T).Reachable (start T) := .init rfl
  have h1 := reachable_rounds h0 (t := q) (k := c - 2) rfl (by simp; omega)
  have h2 := h1.step (Step.load (t := q) rfl (by simp; omega))
  have h3 := reachable_rounds h2 (t := p) (k := iter.toNat - 1) (by simp [hpq]) (by simp [hpq])
  have h4 := h3.step (Step.store (t := q) (v := c - 2) (by simp))
  have hlast := reachable_last h4 (p := p)
    (fun t => by by_cases ht : t = q <;> simp [ht])
    (by simp [hpq, Nat.sub_add_cancel (show 1 ≤ iter.toNat by omega)])
  obtain ⟨s', hs', hdone, hcounter⟩ := hlast
  refine ⟨s', hs', hdone, ?_⟩
  rw [hcounter]
  show c - 2 + 1 + 1 = c
  omega

end

/-! ## The result -/

/-- `struct worker_arg`, with an `iter` that `int i` can reach. -/
structure WorkerArg where
  iter : Int
  fits : iter ≤ 2 ^ 31 - 1

/-- `main` starts four threads.  When they are through, the counter may be any number from 2 (or from
`iter`, if that is less) to `4 * iter`, and no other. -/
theorem counter_range (arg : WorkerArg) (c : Nat) :
    (∃ s, (workers arg.iter (Fin 4)).Reachable s ∧ (∀ t, s.Finished arg.iter t) ∧ s.counter = c) ↔
      min 2 arg.iter.toNat ≤ c ∧ c ≤ 4 * arg.iter.toNat := by
  constructor
  · rintro ⟨s, hs, hdone, rfl⟩
    have hbounds := ((inv_invariant arg.iter).reachable hs).bounds hdone
    rwa [Fintype.card_fin] at hbounds
  · rintro ⟨hge, hle⟩
    rcases Nat.eq_zero_or_pos arg.iter.toNat with hzero | hpos
    · refine ⟨⟨0, fun _ => 0, fun _ => .load⟩, .init rfl, fun t => ⟨rfl, ?_⟩, ?_⟩
      · show ¬ ((0 : Nat) : Int) < arg.iter
        omega
      · show 0 = c
        omega
    · rcases Nat.lt_or_ge c arg.iter.toNat with hlt | hge'
      · exact reachable_of_lt rfl (p := 0) (q := 1) (by decide) (by omega) hlt
      · exact reachable_of_ge rfl 0 hpos hge' (by rwa [Fintype.card_fin])

end VisibleRace
