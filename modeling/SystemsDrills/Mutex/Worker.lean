import SystemsDrills.Mutex.Futex
import Mathlib.Algebra.BigOperators.Fin
import Mathlib.Algebra.BigOperators.Ring.Finset

/-!
# The counting workers

`worker` of `concurrency/01-mutex/mutex.c`: each of `T` threads takes the lock,
increments a shared `long long` and releases the lock, `iter` times.  The
increment is a load and a store, with other threads' steps in between.

The machine puts the loop of `worker` around the lock machine of
`SystemsDrills.Mutex.Futex`.  Its lock component only moves by steps of that
machine (`reachable_lock`), so exclusion is inherited, and the counter then
follows from one equation: it is the number of increments stored so far.
-/

namespace Futex

open Transition

/-- A `long long`: 64 bits, two's complement. -/
def longLong (x : Int) : Int := x.bmod (2 ^ 64)

/-- Where a thread is in `(*(arg->counter))++`. -/
inductive Body where
  /-- Before the load. -/
  | load
  /-- The load returned `v`, before the store of `v + 1`. -/
  | store (v : Int)
  /-- After the store. -/
  | stored
deriving DecidableEq

/-- The lock, the counter, and for each thread its loop variable and its place
in the loop body. -/
structure WorkerState (T : Type) where
  lock : State T
  counter : Int
  i : T → Nat
  body : T → Body

inductive WorkerAct (T : Type) where
  | lock (a : Act T)
  | load (t : T)
  | store (t : T)
  /-- `i++`. -/
  | next (t : T)

section

variable {T : Type} [DecidableEq T]

namespace WorkerState

@[simps] def setLock (s : WorkerState T) (l : State T) : WorkerState T := { s with lock := l }

@[simps] def setCounter (s : WorkerState T) (c : Int) : WorkerState T := { s with counter := c }

@[simps] def setI (s : WorkerState T) (t : T) (i : Nat) : WorkerState T :=
  { s with i := Function.update s.i t i }

@[simps] def setBody (s : WorkerState T) (t : T) (b : Body) : WorkerState T :=
  { s with body := Function.update s.body t b }

end WorkerState

inductive WorkerStep (iter : Nat) : WorkerState T → WorkerAct T → WorkerState T → Prop where
  /-- The loop test succeeds and `my_lock` is called. -/
  | callLock :
      s.body t = .load → s.i t < iter →
      Step s.lock (.callLock t) l →
      WorkerStep iter s (.lock (.callLock t)) (s.setLock l)
  /-- A step inside `my_lock` or `my_unlock`. -/
  | lock :
      (∀ t, a ≠ .callLock t ∧ a ≠ .callUnlock t) →
      Step s.lock a l →
      WorkerStep iter s (.lock a) (s.setLock l)
  | load :
      s.lock.pc t = .held → s.body t = .load →
      WorkerStep iter s (.load t) (s.setBody t (.store s.counter))
  | store :
      s.lock.pc t = .held → s.body t = .store v →
      WorkerStep iter s (.store t) ((s.setCounter (longLong (v + 1))).setBody t .stored)
  | callUnlock :
      s.body t = .stored →
      Step s.lock (.callUnlock t) l →
      WorkerStep iter s (.lock (.callUnlock t)) (s.setLock l)
  | next :
      s.lock.pc t = .out → s.body t = .stored →
      WorkerStep iter s (.next t) ((s.setI t (s.i t + 1)).setBody t .load)

/-- `T` threads that run `worker` on a counter that starts at 0. -/
def workers (iter : Nat) (T : Type) [DecidableEq T] : System (WorkerState T) (WorkerAct T) where
  init s := s = ⟨start T, 0, fun _ => 0, fun _ => .load⟩
  step := WorkerStep iter

/-- The thread has left its loop. -/
def WorkerState.Finished (s : WorkerState T) (iter : Nat) (t : T) : Prop :=
  s.lock.pc t = .out ∧ s.body t = .load ∧ ¬ s.i t < iter

/-! ## The lock component -/

/-- A step of the workers is a step of the lock machine or leaves the lock
alone. -/
theorem WorkerStep.lock_step {iter : Nat} {s s' : WorkerState T} {a : WorkerAct T}
    (h : WorkerStep iter s a s') : (∃ b, Step s.lock b s'.lock) ∨ s'.lock = s.lock := by
  cases h with
  | callLock _ _ h => exact .inl ⟨_, h⟩
  | lock _ h => exact .inl ⟨_, h⟩
  | load _ _ => exact .inr rfl
  | store _ _ => exact .inr rfl
  | callUnlock _ h => exact .inl ⟨_, h⟩
  | next _ _ => exact .inr rfl

theorem reachable_lock {iter : Nat} {s : WorkerState T} (h : (workers iter T).Reachable s) :
    (machine T).Reachable s.lock := by
  induction h with
  | init h => subst h; exact .init rfl
  | step _ h ih =>
      rcases h.lock_step with ⟨b, hb⟩ | heq
      · exact ih.step hb
      · rw [heq]; exact ih

/-! ## The loop of one thread -/

/-- A thread that is not between two rounds is in a round it has tested, and
one that is about to store holds the lock and has the counter's value. -/
structure WorkerState.InRound (s : WorkerState T) (iter : Nat) (t : T) : Prop where
  le : s.i t ≤ iter
  locked : s.lock.pc t ≠ .out → s.i t < iter
  started : s.body t ≠ .load → s.i t < iter
  owner : ∀ v, s.body t = .store v → s.lock.pc t = .held ∧ v = s.counter

/-- A step of the lock machine that calls nothing keeps every thread's round. -/
theorem WorkerState.InRound.lock {s : WorkerState T} {iter : Nat} {t : T} {a : Act T}
    {l : State T} (ih : s.InRound iter t) (ha : a ≠ .callLock t ∨ s.i t < iter)
    (hu : a ≠ .callUnlock t ∨ s.body t = .stored) (h : Step s.lock a l) :
    (s.setLock l).InRound iter t := by
  refine ⟨ih.le, fun hpc => ?_, ih.started, fun v hv => ?_⟩
  · by_cases hout : s.lock.pc t = .out
    · rcases h.out_or hout with h' | h'
      · exact absurd h' hpc
      · exact ha.resolve_left (not_not_intro h')
    · exact ih.locked hout
  · obtain ⟨hheld, hval⟩ := ih.owner v hv
    refine ⟨?_, hval⟩
    rcases h.held_or hheld with h' | h'
    · exact h'
    · have hb := hu.resolve_left (not_not_intro h')
      simp [hb] at hv

theorem inRound_step {iter : Nat} {s s' : WorkerState T} {a : WorkerAct T}
    (hx : s.lock.Exclusive) (ih : ∀ t, s.InRound iter t) (h : WorkerStep iter s a s') :
    ∀ t, s'.InRound iter t := by
  intro u
  cases h with
  | @callLock t l _ hb hi hl =>
      refine (ih u).lock ?_ (.inl (by simp)) hl
      by_cases hut : u = t
      · exact .inr (hut ▸ hi)
      · exact .inl (by simpa using fun h => hut h.symm)
  | lock ha hl => exact (ih u).lock (.inl (ha u).1) (.inl (ha u).2) hl
  | @load _ t hpc hb =>
      by_cases hut : u = t
      · subst hut
        have hi := (ih u).locked (by simp [hpc])
        refine ⟨(ih u).le, fun _ => hi, fun _ => hi, fun v hv => ?_⟩
        exact ⟨hpc, by simpa using hv.symm⟩
      · refine ⟨(ih u).le, (ih u).locked, fun hv => ?_, fun v hv => ?_⟩
        · exact (ih u).started (by simpa [hut] using hv)
        · exact (ih u).owner v (by simpa [hut] using hv)
  | @store _ t v hpc hb =>
      by_cases hut : u = t
      · subst hut
        have hi := (ih u).locked (by simp [hpc])
        exact ⟨(ih u).le, fun _ => hi, fun _ => hi, fun w hw => by simp at hw⟩
      · refine ⟨(ih u).le, (ih u).locked, fun hv => ?_, fun w hw => ?_⟩
        · exact (ih u).started (by simpa [hut] using hv)
        · -- Another thread about to store would own the lock as well.
          have hu := ((ih u).owner w (by simpa [hut] using hw)).1
          exact absurd (hx.unique u t (by simp [hu, Pc.owns]) (by simp [hpc, Pc.owns])) hut
  | @callUnlock t l _ hb hl =>
      refine (ih u).lock (.inl (by simp)) ?_ hl
      by_cases hut : u = t
      · exact .inr (hut ▸ hb)
      · exact .inl (by simpa using fun h => hut h.symm)
  | @next _ t hpc hb =>
      by_cases hut : u = t
      · subst hut
        have hi := (ih u).started (by simp [hb])
        exact ⟨by simpa using hi, fun h => absurd hpc h, fun h => by simp at h,
          fun v hv => by simp at hv⟩
      · refine ⟨by simpa [hut] using (ih u).le, fun h => ?_, fun h => ?_, fun v hv => ?_⟩
        · simpa [hut] using (ih u).locked h
        · simpa [hut] using (ih u).started (by simpa [hut] using h)
        · exact (ih u).owner v (by simpa [hut] using hv)

theorem inRound_invariant (iter : Nat) :
    (workers iter T).Invariant fun s => ∀ t, s.InRound iter t where
  start := by
    rintro s rfl t
    exact ⟨by simp, fun h => absurd rfl h, fun h => absurd rfl h, fun v hv => by simp at hv⟩
  next _ _ _ hr ih h := inRound_step (exclusive_invariant.reachable (reachable_lock hr)) ih h

end

/-! ## The counter -/

section

variable {T : Type} [DecidableEq T] [Fintype T]

/-- The increments thread `t` has stored. -/
def WorkerState.increments (s : WorkerState T) (t : T) : Nat :=
  s.i t + if s.body t = .stored then 1 else 0

/-- The increments all threads have stored. -/
def WorkerState.total (s : WorkerState T) : Nat := ∑ t, s.increments t

/-- If one thread has stored one more increment, so have all together. -/
theorem total_succ {s s' : WorkerState T} {t : T} (ht : s'.increments t = s.increments t + 1)
    (other : ∀ u, u ≠ t → s'.increments u = s.increments u) : s'.total = s.total + 1 := by
  have rest : ∑ u ∈ Finset.univ.erase t, s'.increments u = ∑ u ∈ Finset.univ.erase t, s.increments u :=
    Finset.sum_congr rfl fun u hu => other u (Finset.ne_of_mem_erase hu)
  have h' := Finset.add_sum_erase Finset.univ s'.increments (Finset.mem_univ t)
  have h := Finset.add_sum_erase Finset.univ s.increments (Finset.mem_univ t)
  simp only [WorkerState.total]
  omega

theorem longLong_succ (x : Int) : longLong (longLong x + 1) = longLong (x + 1) := by
  simp [longLong]

theorem counter_step {iter : Nat} {s s' : WorkerState T} {a : WorkerAct T}
    (hr : ∀ t, s.InRound iter t) (ih : s.counter = longLong s.total)
    (h : WorkerStep iter s a s') : s'.counter = longLong s'.total := by
  -- Only the store moves the counter, and only the store adds an increment.
  have same : ∀ {s' : WorkerState T}, (∀ t, s'.increments t = s.increments t) →
      s'.total = s.total := fun h => Finset.sum_congr rfl fun t _ => h t
  cases h with
  | callLock _ _ _ => exact ih
  | lock _ _ => exact ih
  | @load _ t _ hb =>
      rw [same fun u => ?_]
      · exact ih
      · by_cases hut : u = t
        · subst hut; simp [WorkerState.increments, hb]
        · simp [WorkerState.increments, hut]
  | @store _ t v _ hb =>
      rw [total_succ (s := s) (t := t)]
      · obtain rfl := ((hr t).owner v hb).2
        rw [WorkerState.setBody_counter, WorkerState.setCounter_counter, ih, longLong_succ]
        norm_cast
      · simp [WorkerState.increments, hb]
      · intro u hut
        simp [WorkerState.increments, hut]
  | callUnlock _ _ => exact ih
  | @next _ t _ hb =>
      rw [same fun u => ?_]
      · exact ih
      · by_cases hut : u = t
        · subst hut; simp [WorkerState.increments, hb]
        · simp [WorkerState.increments, hut]

theorem counter_invariant (iter : Nat) :
    (workers iter T).Invariant fun s => s.counter = longLong s.total where
  start := by
    rintro s rfl
    simp [WorkerState.total, WorkerState.increments, longLong]
  next _ _ _ hr ih h := counter_step ((inRound_invariant iter).reachable hr) ih h

omit [DecidableEq T] in
theorem total_of_finished {iter : Nat} {s : WorkerState T} (hr : ∀ t, s.InRound iter t)
    (hf : ∀ t, s.Finished iter t) : s.total = iter * Fintype.card T := by
  have each : ∀ t, s.increments t = iter := by
    intro t
    obtain ⟨-, hb, hi⟩ := hf t
    have := (hr t).le
    simp only [WorkerState.increments, hb, reduceCtorEq, if_false]
    omega
  simp [WorkerState.total, each, mul_comm]

end

/-- The mutex excludes and the count is exact.  At most one thread is between
the return of `my_lock` and the exchange of `my_unlock`, the word is non-zero
exactly when there is one, and when all `n` threads have finished the counter
is the `long long` product of `iter` and `n`, which is the number `iter * n`
itself whenever a `long long` can hold it. -/
theorem worker_count_exact {n iter : Nat} {s : WorkerState (Fin n)}
    (h : (workers iter (Fin n)).Reachable s) :
    (∀ t u, (s.lock.pc t).owns → (s.lock.pc u).owns → t = u) ∧
    (s.lock.word ≠ 0 ↔ ∃ t, (s.lock.pc t).owns) ∧
    ((∀ t, s.Finished iter t) →
      s.counter = longLong (iter * n) ∧ (iter * n < 2 ^ 63 → s.counter = iter * n)) := by
  have hx := exclusive_invariant.reachable (reachable_lock h)
  refine ⟨hx.unique, hx.word, fun hf => ?_⟩
  have hc : s.counter = longLong (iter * n) := by
    rw [(counter_invariant iter).reachable h,
      total_of_finished ((inRound_invariant iter).reachable h) hf, Fintype.card_fin]
    norm_cast
  refine ⟨hc, fun hlt => ?_⟩
  rw [hc, longLong]
  exact Int.bmod_eq_of_le (by omega) (by omega)

/-- Two contending threads, one round each. -/
theorem worker_count_exact_two :
    ∃ s : WorkerState (Fin 2), (workers 1 (Fin 2)).Reachable s ∧
      (∀ t, s.Finished 1 t) ∧ s.counter = 2 := by
  have h0 : (workers 1 (Fin 2)).Reachable ⟨start _, 0, fun _ => 0, fun _ => .load⟩ := .init rfl
  have h1 := h0.step (.callLock (t := 0) rfl (by decide) (.callLock rfl))
  have h2 := h1.step (.callLock (t := 1) rfl (by decide) (.callLock rfl))
  have h3 := h2.step (.lock (by simp) (.fastFree (t := 0) rfl rfl))
  have h4 := h3.step (.lock (by simp) (.fastBusy (t := 1) rfl (by decide)))
  have h5 := h4.step (.load (t := 0) rfl rfl)
  have h6 := h5.step (.store (t := 0) rfl rfl)
  have h7 := h6.step (.callUnlock (t := 0) rfl (.callUnlock rfl))
  have h8 := h7.step (.lock (by simp) (.releaseQuiet (t := 0) rfl (by decide)))
  have h9 := h8.step (.next (t := 0) rfl rfl)
  -- Thread 1 finds the lock free in the slow path and leaves 2 in the word.
  have h10 := h9.step (.lock (by simp) (.slowFree (t := 1) rfl rfl))
  have h11 := h10.step (.load (t := 1) rfl rfl)
  have h12 := h11.step (.store (t := 1) rfl rfl)
  have h13 := h12.step (.callUnlock (t := 1) rfl (.callUnlock rfl))
  have h14 := h13.step (.lock (by simp) (.releaseMarked (t := 1) rfl rfl))
  have h15 := h14.step (.lock (by simp) (.wakeNobody (t := 1) rfl (by decide)))
  have h16 := h15.step (.next (t := 1) rfl rfl)
  have key := (worker_count_exact h16).2.2
  refine ⟨_, h16, ?fin, (key ?fin).2 (by norm_num)⟩
  intro t
  fin_cases t
  · exact ⟨rfl, rfl, by decide⟩
  · exact ⟨rfl, rfl, by decide⟩

end Futex
